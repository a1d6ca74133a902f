/-
# What all parsers keep

Parsers do little to their state: they take tokens from the buffer and go back in it, they
declare variables, and they begin and end functions. So a property of the states, of the tokens
that are seen and of the errors that are raised is kept by all parsers if it is kept by these
steps. `Obeys C x s Q` says that a parser only raises errors that the contract `C` allows, and
what holds when it gives a result. A parser of expressions changes nothing but the buffer.

Key definitions: `Contract`, `Obeys`, `Contract.Reading`, `Contract.Binding`,
`Contract.Declaring`, `Contract.Defining`, `Contract.Along`.
Key theorems: `Obeys.bind`, `parses_expression`, `keeps_statement`, `keeps_definition`,
`keeps_definitions`, `keeps_includeFile`, `keeps_mainWithin`.
-/
import Mathlib.Tactic.SplitIfs
import Terrace.Proofs.Source.Variables
import Terrace.Source.Parse.Program

namespace Terrace.Parse

/-- From `s` to `s'` nothing changed but the buffer. -/
def OnlyBuffer (s s' : ParserState) : Prop := s' = { s with buffer := s'.buffer }

theorem OnlyBuffer.trans {s s' s'' : ParserState} (h : OnlyBuffer s s') (h' : OnlyBuffer s' s'') :
    OnlyBuffer s s'' := by
  rw [OnlyBuffer] at *
  rw [h', h]

/-- What is to hold of the states of a parser, of the tokens it sees, and of the errors it raises
with the states it raises them in. -/
structure Contract where
  state : ParserState → Prop
  token : Token → Prop
  error : ParseError → ParserState → Prop

/-- The parser raises errors of the contract only, and its results are as in `Q`. -/
def Obeys {α : Type} (C : Contract) (x : Parse α) (s : ParserState)
    (Q : α → ParserState → Prop) : Prop :=
  match x s with
  | .ok a s' => Q a s'
  | .error e s' => C.error e s'

/-! ### Rules -/

namespace Obeys

variable {C : Contract} {α β : Type} {x : Parse α} {f : α → Parse β} {s s' : ParserState}
  {Q Q' : α → ParserState → Prop} {R : β → ParserState → Prop}

theorem of_ok {a : α} (h : Obeys C x s Q) (hrun : x s = .ok a s') : Q a s' := by
  rw [Obeys, hrun] at h
  exact h

theorem of_error {e : ParseError} (h : Obeys C x s Q) (hrun : x s = .error e s') :
    C.error e s' := by
  rw [Obeys, hrun] at h
  exact h

theorem pure {a : α} (h : Q a s) : Obeys C (Pure.pure a) s Q := h

/-- **A parser behind another one.** -/
theorem bind (hx : Obeys C x s Q) (hf : ∀ a s', Q a s' → Obeys C (f a) s' R) :
    Obeys C (x >>= f) s R := by
  change (match EStateM.bind x f s with
    | .ok b s' => R b s'
    | .error e s' => C.error e s')
  unfold EStateM.bind
  cases hrun : x s with
  | ok a s' => exact hf a s' (hx.of_ok hrun)
  | error e s' => exact hx.of_error hrun

theorem mono (hx : Obeys C x s Q) (h : ∀ a s', Q a s' → Q' a s') : Obeys C x s Q' := by
  unfold Obeys
  cases hrun : x s with
  | ok a s' => exact h a s' (hx.of_ok hrun)
  | error e s' => exact hx.of_error hrun

theorem get_bind {g : ParserState → Parse β} (h : Obeys C (g s) s R) :
    Obeys C (get >>= g) s R := h

theorem modify_bind {g : ParserState → ParserState} {y : Unit → Parse β}
    (h : Obeys C (y ⟨⟩) (g s) R) : Obeys C (modify g >>= y) s R := h

/-- A parser that fails unless a check is passed. -/
theorem check {c : Prop} [Decidable c] {y : Parse β} (hx : Obeys C x s fun _ _ => False)
    (h : ¬ c → Obeys C y s R) : Obeys C (if c then x >>= f else y) s R := by
  by_cases hc : c
  · rw [if_pos hc]
    exact hx.bind fun _ _ hfalse => hfalse.elim
  · rw [if_neg hc]
    exact h hc

end Obeys

/-! ### Steps -/

namespace Contract

/-- Reading tokens and failing at one keep the contract. -/
structure Reading (C : Contract) : Prop where
  peek : ∀ {s : ParserState}, C.state s →
    Obeys C peek s fun token s' => C.state s' ∧ C.token token
  next : ∀ {s : ParserState}, C.state s →
    Obeys C next s fun token s' => C.state s' ∧ C.token token
  fail : ∀ {s : ParserState} {token : Token} (cause : ParseCause), C.state s → C.token token →
    C.error { cause, file := s.file.name, line := token.line, column := token.column } s
  exhausted : ∀ {s : ParserState}, C.state s →
    C.error { cause := .exhausted, file := s.file.name, line := 0, column := 0 } s

/-- New variables and returns keep the contract. -/
structure Binding (C : Contract) : Prop extends C.Reading where
  declare : ∀ {s s' : ParserState} {token : Token} {global : Bool} {slot : Variable}
    {place : Place}, C.state s → isReserved slot.name = false → s.callee? slot.name = none →
    s.assignedPlace? global slot.name = none →
    Parse.declare token global slot s = .ok place s' → C.state s'
  giveBack : ∀ {s : ParserState} {f f' : Function} {size : Int} {array : Bool}, C.state s →
    s.current = some f → f.setReturn size array = .ok f' →
    C.state { s with current := some f' }

/-- Going back, too, keeps the contract. -/
structure Declaring (C : Contract) : Prop extends C.Binding where
  rewind : ∀ {s s₀ : ParserState}, C.state s → C.state s₀ →
    C.state { s with buffer := s.buffer.rewind s₀.buffer.mark }

/-- Functions that begin and end keep the contract. -/
structure Defining (C : Contract) : Prop extends C.Declaring where
  commit : ∀ {s : ParserState}, C.state s → C.state { s with buffer := s.buffer.commit }
  report : ∀ {s : ParserState} (records : List Record), C.state s → C.state { s with records }
  begins : ∀ {s : ParserState} {name : Bytes} {parameters : VariableList}, C.state s →
    isReserved name = false → s.functions.lookup? name = none → s.globals.index? name = none →
    (∀ v ∈ parameters.slots, isReserved v.name = false) →
    C.state { s with current := some { name, parameters } }
  finishes : ∀ {s : ParserState} {f : Function} (body : List Statement), C.state s →
    s.current = some f → C.state { s with
      current := none
      definitions := s.definitions ++ [⟨{ f with returnKnown := true }, body⟩] }

/-- The contract holds, and since `s₀` nothing changed but the buffer. -/
structure Along (C : Contract) (s₀ s : ParserState) : Prop where
  state : C.state s
  only : OnlyBuffer s₀ s

theorem Along.refl {C : Contract} {s : ParserState} (h : C.state s) : C.Along s s := ⟨h, rfl⟩

end Contract

variable {C : Contract} {s₀ s : ParserState} {token : Token}

theorem OnlyBuffer.answered {answer : Except LexicalError Token × TokenBuffer}
    {s' : ParserState} (h : answered answer s = .ok token s') : OnlyBuffer s s' := by
  obtain ⟨_ | found, buffer⟩ := answer
  · cases h
  · cases h
    rfl

section
variable (hC : C.Reading) (h : C.Along s₀ s)
include hC

/-! ### Tokens -/

include h

theorem obeys_fail {α : Type} {Q : α → ParserState → Prop} (htoken : C.token token)
    (cause : ParseCause) : Obeys C (fail token cause) s Q :=
  hC.fail cause h.state htoken

theorem obeys_failGrammar {α : Type} {Q : α → ParserState → Prop} (htoken : C.token token)
    (cause : GrammarCause) : Obeys C (failGrammar token cause) s Q :=
  obeys_fail hC h htoken _

theorem obeys_failSize {α : Type} {Q : α → ParserState → Prop} (htoken : C.token token)
    (cause : SizeCause) : Obeys C (failSize token cause) s Q :=
  obeys_fail hC h htoken _

theorem obeys_peek : Obeys C peek s fun token s' => C.Along s₀ s' ∧ C.token token := by
  have hpeek := hC.peek h.state
  unfold Obeys at hpeek ⊢
  cases hrun : peek s with
  | error e s' =>
    rw [hrun] at hpeek
    exact hpeek
  | ok token s' =>
    rw [hrun] at hpeek
    exact ⟨⟨hpeek.1, h.only.trans (OnlyBuffer.answered hrun)⟩, hpeek.2⟩

theorem obeys_next : Obeys C next s fun token s' => C.Along s₀ s' ∧ C.token token := by
  have hnext := hC.next h.state
  unfold Obeys at hnext ⊢
  cases hrun : next s with
  | error e s' =>
    rw [hrun] at hnext
    exact hnext
  | ok token s' =>
    rw [hrun] at hnext
    exact ⟨⟨hnext.1, h.only.trans (OnlyBuffer.answered hrun)⟩, hnext.2⟩

omit h in
theorem obeys_skipNewlinesWithin : ∀ {fuel : Nat} {s : ParserState}, C.Along s₀ s →
    Obeys C (skipNewlinesWithin fuel) s fun token s' => C.Along s₀ s' ∧ C.token token
  | 0, _, h => hC.exhausted h.state
  | fuel + 1, s, h => by
    unfold skipNewlinesWithin
    refine (obeys_peek hC h).bind fun token s₁ ⟨h₁, htoken⟩ => ?_
    split_ifs
    · exact (obeys_next hC h₁).bind fun _ s₂ ⟨h₂, _⟩ => obeys_skipNewlinesWithin h₂
    · exact .pure ⟨h₁, htoken⟩

theorem obeys_skipNewlines :
    Obeys C skipNewlines s fun token s' => C.Along s₀ s' ∧ C.token token :=
  .get_bind (obeys_skipNewlinesWithin hC h)

theorem obeys_expect (kind : TokenKind) (what : Bytes) :
    Obeys C (expect kind what) s fun _ s' => C.Along s₀ s' := by
  refine (obeys_next hC h).bind fun token s₁ ⟨h₁, htoken⟩ => ?_
  split_ifs
  · exact obeys_failGrammar hC h₁ htoken _
  · exact .pure h₁

theorem obeys_expectSeparator : Obeys C expectSeparator s fun _ s' => C.Along s₀ s' := by
  refine (obeys_peek hC h).bind fun token s₁ ⟨h₁, htoken⟩ => ?_
  split
  · exact (obeys_next hC h₁).bind fun _ s₂ ⟨h₂, _⟩ => .pure h₂
  · exact .pure h₁
  · exact obeys_failGrammar hC h₁ htoken _

end

/-! ### Expressions -/

/-- A parser that changes nothing but the buffer and keeps the contract. -/
def Contract.Parses {α : Type} (C : Contract) (x : Parse α) : Prop :=
  ∀ ⦃s₀ s : ParserState⦄, C.Along s₀ s → Obeys C x s fun _ s' => C.Along s₀ s'

section
variable {expression : Parse (Option Typed)} (hC : C.Reading) (hexpression : C.Parses expression)
include hC

theorem obeys_checked {α : Type} (h : C.Along s₀ s) (htoken : C.token token)
    (check : Except SizeCause α) : Obeys C (checked token check) s fun _ s' => C.Along s₀ s' := by
  cases check with
  | error cause => exact obeys_failSize hC h htoken _
  | ok a => exact .pure h

theorem parses_addressOf : C.Parses addressOf := by
  intro s₀ s h
  unfold addressOf
  refine (obeys_next hC h).bind fun _ s₁ ⟨h₁, _⟩ => ?_
  refine (obeys_expect hC h₁ _ _).bind fun _ s₂ h₂ => ?_
  refine (obeys_next hC h₂).bind fun name s₃ ⟨h₃, hname⟩ => .get_bind ?_
  split
  · exact obeys_failGrammar hC h₃ hname _
  · exact (obeys_expect hC h₃ _ _).bind fun _ s₄ h₄ => .pure h₄

include hexpression

theorem parses_required (after : Bytes) : C.Parses (required expression after) := by
  intro s₀ s h
  unfold required
  refine (obeys_peek hC h).bind fun token s₁ ⟨h₁, htoken⟩ => ?_
  refine (hexpression h₁).bind fun typed s₂ h₂ => ?_
  cases typed with
  | some typed => exact .pure h₂
  | none => exact obeys_failGrammar hC h₂ htoken _

theorem parses_index : C.Parses (index expression) := by
  intro s₀ s h
  unfold index
  refine (obeys_next hC h).bind fun bracket s₁ ⟨h₁, hbracket⟩ => ?_
  refine (parses_required hC hexpression _ h₁).bind fun typed s₂ h₂ => ?_
  refine .check (obeys_failSize hC h₂ hbracket _) fun _ => ?_
  exact (obeys_expect hC h₂ _ _).bind fun _ s₃ h₃ => .pure h₃

theorem parses_argument (function : Bytes) (parameter : Variable) :
    C.Parses (argument expression function parameter) := by
  intro s₀ s h
  unfold argument
  refine (obeys_peek hC h).bind fun token s₁ ⟨h₁, htoken⟩ => ?_
  split
  · refine (parses_required hC hexpression _ h₁).bind fun typed s₂ h₂ => ?_
    exact .check (obeys_failSize hC h₂ htoken _) fun _ => .pure h₂
  · refine .get_bind ?_
    split
    · exact obeys_failSize hC h₁ htoken _
    · refine .check (obeys_failSize hC h₁ htoken _) fun _ => ?_
      exact (obeys_next hC h₁).bind fun _ s₂ ⟨h₂, _⟩ => .pure h₂

theorem parses_moreArguments (function : Bytes) (count : Nat) : ∀ parameters : List Variable,
    C.Parses (moreArguments expression function count parameters)
  | [], _, _, h => .pure h
  | parameter :: parameters, s₀, s, h => by
    unfold moreArguments
    refine (obeys_next hC h).bind fun comma s₁ ⟨h₁, hcomma⟩ => ?_
    refine .check (obeys_failGrammar hC h₁ hcomma _) fun _ => ?_
    refine (parses_argument hC hexpression _ _ h₁).bind fun e s₂ h₂ => ?_
    exact (parses_moreArguments function count parameters h₂).bind fun es s₃ h₃ => .pure h₃

theorem parses_arguments (function : Bytes) (parameters : List Variable) :
    C.Parses (arguments expression function parameters) := by
  intro s₀ s h
  unfold arguments
  cases parameters with
  | nil => exact .pure h
  | cons first rest =>
    refine (parses_argument hC hexpression _ _ h).bind fun e s₁ h₁ => ?_
    exact (parses_moreArguments hC hexpression _ _ _ h₁).bind fun es s₂ h₂ => .pure h₂

theorem parses_registers : ∀ count : Nat, C.Parses (registers expression count)
  | 0, _, _, h => .pure h
  | count + 1, s₀, s, h => by
    unfold registers
    refine (obeys_peek hC h).bind fun comma s₁ ⟨h₁, _⟩ => ?_
    split_ifs
    · refine (obeys_next hC h₁).bind fun _ s₂ ⟨h₂, _⟩ => ?_
      refine (obeys_peek hC h₂).bind fun token s₃ ⟨h₃, htoken⟩ => ?_
      refine (parses_required hC hexpression _ h₃).bind fun typed s₄ h₄ => ?_
      refine .check (obeys_failSize hC h₄ htoken _) fun _ => ?_
      exact (parses_registers count h₄).bind fun es s₅ h₅ => .pure h₅
    · exact .pure h₁

theorem parses_memoryAddress (builtin : Bytes) : C.Parses (memoryAddress expression builtin) := by
  intro s₀ s h
  unfold memoryAddress
  refine (obeys_peek hC h).bind fun token s₁ ⟨h₁, htoken⟩ => ?_
  refine (parses_required hC hexpression _ h₁).bind fun typed s₂ h₂ => ?_
  exact .check (obeys_failSize hC h₂ htoken _) fun _ => .pure h₂

theorem parses_call (callee : Nat) (f : Function) : C.Parses (call expression callee f) := by
  intro s₀ s h
  unfold call
  refine (obeys_next hC h).bind fun name s₁ ⟨h₁, hname⟩ => ?_
  refine (obeys_expect hC h₁ _ _).bind fun _ s₂ h₂ => ?_
  refine (parses_arguments hC hexpression _ _ h₂).bind fun values s₃ h₃ => ?_
  refine (obeys_next hC h₃).bind fun token s₄ ⟨h₄, htoken⟩ => ?_
  refine .check (obeys_failGrammar hC h₄ htoken _) fun _ => ?_
  refine .check (obeys_failGrammar hC h₄ htoken _) fun _ => ?_
  exact .check (obeys_failSize hC h₄ hname _) fun _ => .pure h₄

theorem parses_systemCall : C.Parses (systemCall expression) := by
  intro s₀ s h
  unfold systemCall
  refine (obeys_next hC h).bind fun word s₁ ⟨h₁, hword⟩ => ?_
  refine (obeys_expect hC h₁ _ _).bind fun _ s₂ h₂ => ?_
  refine (obeys_peek hC h₂).bind fun token s₃ ⟨h₃, htoken⟩ => ?_
  refine (hexpression h₃).bind fun address s₄ h₄ => ?_
  cases address with
  | none => exact obeys_failGrammar hC h₄ hword _
  | some address =>
    refine .check (obeys_failSize hC h₄ htoken _) fun _ => ?_
    refine (parses_registers hC hexpression 3 h₄).bind fun given s₅ h₅ => ?_
    exact (obeys_expect hC h₅ _ _).bind fun _ s₆ h₆ => .pure h₆

theorem parses_loadMemory : C.Parses (loadMemory expression) := by
  intro s₀ s h
  unfold loadMemory
  refine (obeys_next hC h).bind fun _ s₁ ⟨h₁, _⟩ => ?_
  refine (obeys_expect hC h₁ _ _).bind fun _ s₂ h₂ => ?_
  refine (obeys_next hC h₂).bind fun size s₃ ⟨h₃, hsize⟩ => ?_
  split
  · exact obeys_failGrammar hC h₃ hsize _
  · refine (obeys_expect hC h₃ _ _).bind fun _ s₄ h₄ => ?_
    refine (parses_memoryAddress hC hexpression _ h₄).bind fun address s₅ h₅ => ?_
    exact (obeys_expect hC h₅ _ _).bind fun _ s₆ h₆ => .pure h₆

theorem parses_storeMemory : C.Parses (storeMemory expression) := by
  intro s₀ s h
  unfold storeMemory
  refine (obeys_next hC h).bind fun word s₁ ⟨h₁, hword⟩ => ?_
  refine (obeys_expect hC h₁ _ _).bind fun _ s₂ h₂ => ?_
  refine (parses_required hC hexpression _ h₂).bind fun value s₃ h₃ => ?_
  refine .check (obeys_failSize hC h₃ hword _) fun _ => ?_
  refine (obeys_expect hC h₃ _ _).bind fun _ s₄ h₄ => ?_
  refine (parses_memoryAddress hC hexpression _ h₄).bind fun address s₅ h₅ => ?_
  exact (obeys_expect hC h₅ _ _).bind fun _ s₆ h₆ => .pure h₆

theorem parses_variableOperand (name : Token) (hname : C.token name) :
    C.Parses (variableOperand expression name) := by
  intro s₀ s h
  unfold variableOperand
  refine .get_bind ?_
  split
  · exact obeys_failGrammar hC h hname _
  · refine (obeys_next hC h).bind fun _ s₁ ⟨h₁, _⟩ => ?_
    refine (obeys_peek hC h₁).bind fun after s₂ ⟨h₂, hafter⟩ => ?_
    dsimp only
    split
    · refine .check (obeys_failSize hC h₂ hafter _) fun _ => ?_
      exact (parses_index hC hexpression h₂).bind fun _ s₃ h₃ => .pure h₃
    · split
      · exact .pure h₂
      · exact .pure h₂

theorem parses_wordOperand (name : Token) (hname : C.token name) :
    C.Parses (wordOperand expression name) := by
  intro s₀ s h
  have hconstant (b : UInt8) : Obeys C (do
      let _ ← next
      return some (.literal [b], .scalar 1) : Parse (Option Typed)) s fun _ s' => C.Along s₀ s' :=
    (obeys_next hC h).bind fun _ s₁ ⟨h₁, _⟩ => .pure h₁
  unfold wordOperand
  dsimp only
  split
  · exact hconstant 0xff
  split
  · exact hconstant 0
  split
  · exact parses_systemCall hC hexpression h
  split
  · exact parses_addressOf hC h
  split
  · exact parses_loadMemory hC hexpression h
  split
  · exact parses_storeMemory hC hexpression h
  split
  · exact .pure h
  refine .get_bind ?_
  split
  · exact parses_call hC hexpression _ _ h
  · exact parses_variableOperand hC hexpression name hname h

theorem parses_operand : C.Parses (operand expression) := by
  intro s₀ s h
  unfold operand
  refine (obeys_peek hC h).bind fun token s₁ ⟨h₁, htoken⟩ => ?_
  split
  · refine (obeys_next hC h₁).bind fun _ s₂ ⟨h₂, _⟩ => ?_
    split
    · exact obeys_failSize hC h₂ htoken _
    · exact .pure h₂
  · refine (obeys_next hC h₁).bind fun _ s₂ ⟨h₂, _⟩ => ?_
    exact .check (obeys_failSize hC h₂ htoken _) fun _ => .pure h₂
  · refine (obeys_next hC h₁).bind fun _ s₂ ⟨h₂, _⟩ => ?_
    refine (parses_required hC hexpression _ h₂).bind fun typed s₃ h₃ => ?_
    exact (obeys_expect hC h₃ _ _).bind fun _ s₄ h₄ => .pure h₄
  · exact parses_wordOperand hC hexpression token htoken h₁
  · exact .pure h₁

theorem parses_chain : C.Parses (chain expression) := by
  intro s₀ s h
  unfold chain
  refine (parses_operand hC hexpression h).bind fun left s₁ h₁ => ?_
  cases left with
  | none => exact .pure h₁
  | some left =>
    refine (obeys_peek hC h₁).bind fun token s₂ ⟨h₂, htoken⟩ => ?_
    dsimp only
    split
    · exact .pure h₂
    · refine (obeys_next hC h₂).bind fun _ s₃ ⟨h₃, _⟩ => ?_
      refine (parses_required hC hexpression _ h₃).bind fun right s₄ h₄ => ?_
      exact (obeys_checked hC h₄ htoken _).bind fun shape s₅ h₅ => .pure h₅

theorem parses_signedChain : C.Parses (signedChain expression) := by
  intro s₀ s h
  unfold signedChain
  refine (obeys_peek hC h).bind fun token s₁ ⟨h₁, htoken⟩ => ?_
  split
  · exact parses_chain hC hexpression h₁
  · refine (obeys_next hC h₁).bind fun _ s₂ ⟨h₂, _⟩ => ?_
    refine (parses_chain hC hexpression h₂).bind fun typed s₃ h₃ => ?_
    cases typed with
    | none =>
      exact (obeys_peek hC h₃).bind fun _ _ ⟨h₄, hlast⟩ => obeys_failGrammar hC h₄ hlast _
    | some typed => exact (obeys_checked hC h₃ htoken _).bind fun shape s₄ h₄ => .pure h₄

end

theorem parses_expressionWithin (hC : C.Reading) : ∀ fuel : Nat, C.Parses (expressionWithin fuel)
  | 0, _, _, h => hC.exhausted h.state
  | fuel + 1, _, _, h => parses_signedChain hC (parses_expressionWithin hC fuel) h

/-- **A parser of expressions keeps what reading tokens keeps.** -/
theorem parses_expression (hC : C.Reading) : C.Parses expression :=
  fun _ _ h => .get_bind (parses_expressionWithin hC _ h)

/-! ### Statements -/

section
variable (hC : C.Reading) (h : C.Along s₀ s)
include hC h

theorem obeys_globalWord : Obeys C globalWord s fun _ s' => C.Along s₀ s' := by
  unfold globalWord
  refine (obeys_peek hC h).bind fun token s₁ ⟨h₁, htoken⟩ => ?_
  split
  · refine .get_bind (.check (obeys_failGrammar hC h₁ htoken _) fun _ => ?_)
    exact (obeys_next hC h₁).bind fun _ s₂ ⟨h₂, _⟩ => .pure h₂
  · exact .pure h₁

theorem obeys_condition (keyword : Bytes) :
    Obeys C (condition keyword) s fun _ s' => C.Along s₀ s' := by
  unfold condition
  refine (obeys_peek hC h).bind fun token s₁ ⟨h₁, htoken⟩ => ?_
  refine (parses_expression hC h₁).bind fun typed s₂ h₂ => ?_
  cases typed with
  | none => exact obeys_failGrammar hC h₂ htoken _
  | some typed => exact .check (obeys_failSize hC h₂ htoken _) fun _ => .pure h₂

end

section
variable (hC : C.Binding) (hs : C.state s)
include hC hs

theorem obeys_elementAssignment {nameToken : Token} (hname : C.token nameToken) (global : Bool) :
    Obeys C (elementAssignment nameToken global) s fun _ s' => C.state s' := by
  have hexpression := parses_expression hC.toReading
  unfold elementAssignment
  refine .get_bind ?_
  split
  · exact .pure hs
  · refine (parses_index hC.toReading hexpression (.refl hs)).bind fun i s₁ h₁ => ?_
    refine (obeys_peek hC.toReading h₁).bind fun sign s₂ ⟨h₂, _⟩ => ?_
    dsimp only
    split
    · exact .pure h₂.state
    refine (obeys_next hC.toReading h₂).bind fun _ s₃ ⟨h₃, _⟩ => ?_
    refine (parses_required hC.toReading hexpression _ h₃).bind fun value s₄ h₄ => ?_
    exact .check (obeys_failSize hC.toReading h₄ hname _) fun _ => .pure h₄.state

omit hC hs in
theorem OnlyBuffer.callee? {s' : ParserState} (h : OnlyBuffer s s') (name : Bytes) :
    s'.callee? name = s.callee? name := by
  rw [h]
  rfl

theorem obeys_declare (htoken : C.token token) {global : Bool} {slot : Variable}
    (hreserved : isReserved slot.name = false) (hcallee : s.callee? slot.name = none)
    (hnone : s.assignedPlace? global slot.name = none) :
    Obeys C (declare token global slot) s fun _ s' => C.state s' := by
  have hfails : Obeys C (declare token global slot) s fun _ _ => True := by
    unfold declare
    refine .get_bind ?_
    split
    · split
      · exact obeys_failSize hC.toReading (.refl hs) htoken _
      · trivial
    · split
      · exact obeys_failSize hC.toReading (.refl hs) htoken _
      · trivial
  unfold Obeys
  cases hrun : declare token global slot s with
  | ok place s' => exact hC.declare hs hreserved hcallee hnone hrun
  | error e s' => exact hfails.of_error hrun

theorem obeys_variableAssignment {nameToken : Token} (hname : C.token nameToken) (global : Bool)
    (hreserved : isReserved nameToken.literal = false)
    (hcallee : s.callee? nameToken.literal = none) :
    Obeys C (variableAssignment nameToken global) s fun statement s' =>
      C.state s' ∧ ∃ place value, statement = some (.assign place value) := by
  unfold variableAssignment
  refine (obeys_next hC.toReading (.refl hs)).bind fun _ s₁ ⟨h₁, _⟩ => ?_
  refine (parses_required hC.toReading (parses_expression hC.toReading) _ h₁).bind
    fun value s₂ h₂ => .get_bind ?_
  split
  · exact .check (obeys_failSize hC.toReading h₂ hname _) fun _ => .pure ⟨h₂.state, _, _, rfl⟩
  next hnone =>
    refine .check (obeys_failSize hC.toReading h₂ hname _) fun _ => ?_
    rw [← h₂.only.callee?] at hcallee
    exact (obeys_declare hC h₂.state hname hreserved hcallee hnone).bind
      fun _ s₃ h₃ => .pure ⟨h₃, _, _, rfl⟩

theorem obeys_assignment (global : Bool) :
    Obeys C (assignment global) s fun _ s' => C.state s' := by
  unfold assignment
  refine (obeys_next hC.toReading (.refl hs)).bind fun nameToken s₁ ⟨h₁, hname⟩ => ?_
  split
  · exact .pure h₁.state
  next hword =>
    have hreserved : isReserved nameToken.literal = false := by
      simp only [ne_eq, Bool.or_eq_true, not_or, Bool.not_eq_true] at hword
      exact hword.2
    refine .get_bind ?_
    split
    · exact .pure h₁.state
    next hcallee =>
      refine (obeys_peek hC.toReading (.refl h₁.state)).bind fun token s₂ ⟨h₂, _⟩ => ?_
      have hcallee₂ : s₂.callee? nameToken.literal = none := by
        rw [h₂.only.callee?]
        simpa using hcallee
      split
      · exact obeys_elementAssignment hC h₂.state hname global
      split
      · exact (obeys_variableAssignment hC h₂.state hname global hreserved hcallee₂).mono
          fun _ _ h => h.1
      · exact .pure h₂.state

/-- What is left to do once the value of a return statement is known. -/
theorem obeys_setReturn {word : Token} (hword : C.token word) {f : Function}
    (hcurrent : s.current = some f) (size : Int) (array : Bool) (statement : Statement) :
    Obeys C (match f.setReturn size array with
      | .error error => failSize word (.symbol error)
      | .ok f => do
        modify fun s => { s with current := some f }
        expectSeparator
        return statement) s fun result s' => C.state s' ∧ result = statement := by
  cases hreturn : f.setReturn size array with
  | error e => exact obeys_failSize hC.toReading (.refl hs) hword _
  | ok f' =>
    refine .modify_bind ?_
    have hafter := hC.giveBack hs hcurrent hreturn
    exact (obeys_expectSeparator hC.toReading (.refl hafter)).bind
      fun _ s₁ h₁ => .pure ⟨h₁.state, rfl⟩

theorem obeys_giveBack : Obeys C giveBack s fun statement s' =>
    C.state s' ∧ ∃ value, statement = .giveBack value := by
  unfold giveBack
  refine (obeys_next hC.toReading (.refl hs)).bind fun word s₁ ⟨h₁, hword⟩ => .get_bind ?_
  split
  · exact obeys_failGrammar hC.toReading h₁ hword _
  next f hcurrent =>
    have hstays {s' : ParserState} (h' : C.Along s₁ s') : s'.current = some f := by
      rw [h'.only]
      exact hcurrent
    refine (obeys_peek hC.toReading (.refl h₁.state)).bind fun token s₂ ⟨h₂, htoken⟩ => ?_
    dsimp only
    split
    · refine Obeys.bind (Q := fun _ s' => C.Along s₁ s') (.pure h₂) fun typed s₃ h₃ => ?_
      exact (obeys_setReturn hC h₃.state hword (hstays h₃) _ _ _).mono
        fun _ _ h => ⟨h.1, _, h.2⟩
    · refine (parses_expression hC.toReading h₂).bind fun typed s₃ h₃ => ?_
      cases typed with
      | none =>
        exact Obeys.bind (Q := fun _ _ => False) (obeys_failGrammar hC.toReading h₃ htoken _)
          fun _ _ hfalse => hfalse.elim
      | some typed =>
        refine Obeys.bind (Q := fun _ s' => C.Along s₁ s') (.pure h₃) fun typed s₄ h₄ => ?_
        exact (obeys_setReturn hC h₄.state hword (hstays h₄) _ _ _).mono
          fun _ _ h => ⟨h.1, _, h.2⟩

end

section
variable (hC : C.Declaring) (hs : C.state s)
include hC hs

theorem obeys_tryAssignment (global : Bool) :
    Obeys C (tryAssignment global) s fun _ s' => C.state s' := by
  unfold tryAssignment
  refine .get_bind ((obeys_assignment hC.toBinding hs global).bind fun statement s₁ h₁ => ?_)
  cases statement with
  | some statement => exact .pure h₁
  | none => exact .modify_bind (.pure (hC.rewind h₁ hs))

theorem obeys_simpleStatement : Obeys C simpleStatement s fun _ s' => C.state s' := by
  unfold simpleStatement
  refine (obeys_globalWord hC.toReading (.refl hs)).bind fun global s₁ h₁ => ?_
  refine (obeys_tryAssignment hC h₁.state global).bind fun statement s₂ h₂ => ?_
  cases statement with
  | some statement =>
    exact (obeys_expectSeparator hC.toReading (.refl h₂)).bind fun _ s₃ h₃ => .pure h₃.state
  | none =>
    refine (obeys_peek hC.toReading (.refl h₂)).bind fun token s₃ ⟨h₃, htoken⟩ => ?_
    refine .check (obeys_failGrammar hC.toReading h₃ htoken _) fun _ => ?_
    refine (parses_expression hC.toReading h₃).bind fun typed s₄ h₄ => ?_
    cases typed with
    | none => exact obeys_failGrammar hC.toReading h₄ htoken _
    | some typed =>
      exact (obeys_expectSeparator hC.toReading h₄).bind fun _ s₅ h₅ => .pure h₅.state

end

/-- A parser that keeps the contract. -/
def Contract.Keeps {α : Type} (C : Contract) (x : Parse α) : Prop :=
  ∀ ⦃s : ParserState⦄, C.state s → Obeys C x s fun _ s' => C.state s'

section
variable (hC : C.Declaring) {statement : Parse Statement} (hstatement : C.Keeps statement)
include hC hstatement

theorem keeps_blockRest : ∀ fuel : Nat, C.Keeps (blockRest statement fuel)
  | 0, _, hs => hC.exhausted hs
  | fuel + 1, s, hs => by
    unfold blockRest
    refine (obeys_skipNewlines hC.toReading (.refl hs)).bind fun token s₁ ⟨h₁, htoken⟩ => ?_
    split
    · exact (obeys_next hC.toReading h₁).bind fun _ s₂ ⟨h₂, _⟩ => .pure h₂.state
    · exact obeys_failGrammar hC.toReading h₁ htoken _
    · refine .check (obeys_failGrammar hC.toReading h₁ htoken _) fun _ => ?_
      refine (hstatement h₁.state).bind fun first s₂ h₂ => ?_
      exact (keeps_blockRest fuel h₂).bind fun rest s₃ h₃ => .pure h₃

theorem keeps_block : C.Keeps (block statement) := by
  intro s hs
  unfold block
  refine (obeys_skipNewlines hC.toReading (.refl hs)).bind fun token s₁ ⟨h₁, htoken⟩ => ?_
  refine .check (obeys_failGrammar hC.toReading h₁ htoken _) fun _ => ?_
  refine (obeys_next hC.toReading h₁).bind fun _ s₂ ⟨h₂, _⟩ => .get_bind ?_
  exact keeps_blockRest hC hstatement _ h₂.state

theorem keeps_conditional : C.Keeps (conditional statement) := by
  intro s hs
  unfold conditional
  refine (obeys_next hC.toReading (.refl hs)).bind fun _ s₁ ⟨h₁, _⟩ => ?_
  refine (obeys_condition hC.toReading h₁ _).bind fun e s₂ h₂ => ?_
  refine (obeys_expectSeparator hC.toReading h₂).bind fun _ s₃ h₃ => ?_
  refine (keeps_block hC hstatement h₃.state).bind fun body s₄ h₄ => ?_
  refine (obeys_peek hC.toReading (.refl h₄)).bind fun word s₅ ⟨h₅, _⟩ => ?_
  split
  · refine (obeys_next hC.toReading h₅).bind fun _ s₆ ⟨h₆, _⟩ => ?_
    refine (obeys_expectSeparator hC.toReading h₆).bind fun _ s₇ h₇ => ?_
    exact (keeps_block hC hstatement h₇.state).bind fun otherwise s₈ h₈ => .pure h₈
  · exact .pure h₅.state

theorem keeps_loop : C.Keeps (loop statement) := by
  intro s hs
  unfold loop
  refine (obeys_next hC.toReading (.refl hs)).bind fun _ s₁ ⟨h₁, _⟩ => ?_
  refine (obeys_condition hC.toReading h₁ _).bind fun e s₂ h₂ => ?_
  refine (obeys_expectSeparator hC.toReading h₂).bind fun _ s₃ h₃ => ?_
  exact (keeps_block hC hstatement h₃.state).bind fun body s₄ h₄ => .pure h₄

theorem keeps_anyStatement : C.Keeps (anyStatement statement) := by
  intro s hs
  unfold anyStatement
  refine (obeys_peek hC.toReading (.refl hs)).bind fun token s₁ ⟨h₁, htoken⟩ => ?_
  split
  · exact obeys_failGrammar hC.toReading h₁ htoken _
  split
  · exact keeps_conditional hC hstatement h₁.state
  split
  · exact keeps_loop hC hstatement h₁.state
  split
  · exact (obeys_giveBack hC.toBinding h₁.state).mono fun _ _ h => h.1
  · exact obeys_simpleStatement hC h₁.state

end

theorem keeps_statementWithin (hC : C.Declaring) : ∀ fuel : Nat, C.Keeps (statementWithin fuel)
  | 0, _, hs => hC.exhausted hs
  | fuel + 1, _, hs => keeps_anyStatement hC (keeps_statementWithin hC fuel) hs

/-- **A parser of statements keeps what reading tokens and declaring variables keeps.** -/
theorem keeps_statement (hC : C.Declaring) : C.Keeps statement :=
  fun _ hs => .get_bind (keeps_statementWithin hC _ hs)

/-! ### Definitions -/

section
variable (hC : C.Reading)
include hC

theorem obeys_parameter (h : C.Along s₀ s) {parameters : VariableList}
    (hnames : ∀ v ∈ parameters.slots, isReserved v.name = false) :
    Obeys C (parameter parameters) s fun more s' =>
      C.Along s₀ s' ∧ ∀ v ∈ more.slots, isReserved v.name = false := by
  unfold parameter
  refine (obeys_next hC h).bind fun nameToken s₁ ⟨h₁, hname⟩ => ?_
  refine .check (obeys_failGrammar hC h₁ hname _) fun hreserved => ?_
  refine (obeys_expect hC h₁ _ _).bind fun _ s₂ h₂ => ?_
  refine (obeys_next hC h₂).bind fun typeToken s₃ ⟨h₃, htype⟩ => ?_
  dsimp only
  split
  · exact obeys_failGrammar hC h₃ htype _
  · refine (obeys_expect hC h₃ _ _).bind fun _ s₄ h₄ => ?_
    refine .check (obeys_failGrammar hC h₄ hname _) fun _ => ?_
    split
    · exact obeys_failSize hC h₄ hname _
    next hadd =>
      refine .pure ⟨h₄, ?_⟩
      obtain ⟨-, hslots, -, -⟩ := VariableList.add_ok hadd
      rw [hslots]
      exact List.forall_mem_append.mpr ⟨hnames, by simpa using hreserved⟩

theorem obeys_parametersWithin : ∀ {fuel : Nat} {s : ParserState} {parameters : VariableList},
    C.Along s₀ s → (∀ v ∈ parameters.slots, isReserved v.name = false) →
    Obeys C (parametersWithin fuel parameters) s fun more s' =>
      C.Along s₀ s' ∧ ∀ v ∈ more.slots, isReserved v.name = false
  | 0, _, _, h, _ => hC.exhausted h.state
  | fuel + 1, s, parameters, h, hnames => by
    unfold parametersWithin
    refine (obeys_peek hC h).bind fun token s₁ ⟨h₁, _⟩ => ?_
    split
    · refine (obeys_parameter hC h₁ hnames).bind fun more s₂ ⟨h₂, hmore⟩ => ?_
      exact obeys_parametersWithin h₂ hmore
    · exact .pure ⟨h₁, hnames⟩

theorem obeys_functionName (h : C.Along s₀ s) :
    Obeys C functionName s fun token s' => C.Along s₀ s' ∧ C.token token ∧
      isReserved token.literal = false ∧ s'.functions.lookup? token.literal = none ∧
      s'.globals.index? token.literal = none := by
  unfold functionName
  refine (obeys_next hC h).bind fun token s₁ ⟨h₁, htoken⟩ => ?_
  refine .check (obeys_failGrammar hC h₁ htoken _) fun hword => .get_bind ?_
  refine .check (obeys_failGrammar hC h₁ htoken _) fun hfunction => ?_
  refine .check (obeys_failGrammar hC h₁ htoken _) fun hglobal => .pure ?_
  simp only [ne_eq, Bool.or_eq_true, not_or, Bool.not_eq_true] at hword
  exact ⟨h₁, htoken, hword.2, by simpa using hfunction, by simpa using hglobal⟩

/-- An included file is opened, or the error is at its path. -/
theorem obeys_openIncluded (h : C.Along s₀ s) {loader : Loader} (htoken : C.token token) :
    Obeys C (openIncluded loader token) s fun included s' => ∃ opened,
      loader.resolve s.file token.value = .ok included.1 ∧
      loader.openFile included.1 = .ok (included.2, opened) ∧
      s' = { s with loader := some opened } := by
  unfold openIncluded
  refine .get_bind ?_
  split
  · exact obeys_fail hC h htoken _
  next file hresolve =>
    split
    · exact obeys_fail hC h htoken _
    next text opened hopen => exact .modify_bind (.pure ⟨opened, hresolve, hopen, rfl⟩)

end

section
variable (hC : C.Defining)
include hC

theorem obeys_finishFunction (hs : C.state s) (htoken : C.token token) {f : Function}
    (hcurrent : s.current = some f) (body : List Statement) :
    Obeys C (finishFunction token f body) s fun _ s' => C.state s' := by
  unfold finishFunction
  refine .check (obeys_failSize hC.toReading (.refl hs) htoken _) fun _ => .modify_bind ?_
  exact hC.report _ (hC.finishes body hs hcurrent)

/-- **A parser of definitions keeps what beginning and ending functions keeps.** -/
theorem keeps_definition : C.Keeps definition := by
  intro s hs
  unfold definition
  refine (obeys_next hC.toReading (.refl hs)).bind fun _ s₁ ⟨h₁, _⟩ => ?_
  refine (obeys_functionName hC.toReading (.refl h₁.state)).bind
    fun nameToken s₂ ⟨h₂, hname, hreserved, hfunction, hglobal⟩ => .get_bind ?_
  refine (obeys_parametersWithin hC.toReading (.refl h₂.state) (by simp)).bind
    fun parameters s₃ ⟨h₃, hparameters⟩ => ?_
  refine (obeys_expectSeparator hC.toReading h₃).bind fun _ s₄ h₄ => .modify_bind ?_
  have hfunction₄ : s₄.functions.lookup? nameToken.literal = none := by
    rw [h₄.only]
    exact hfunction
  have hglobal₄ : s₄.globals.index? nameToken.literal = none := by
    rw [h₄.only]
    exact hglobal
  have hbegins := hC.begins h₄.state hreserved hfunction₄ hglobal₄ hparameters
  refine (keeps_block hC.toDeclaring (keeps_statement hC.toDeclaring) hbegins).bind
    fun body s₅ h₅ => .get_bind ?_
  split
  · exact .pure h₅
  next f hcurrent => exact obeys_finishFunction hC h₅ hname hcurrent body

theorem keeps_definitionsWithin {includeLine : Parse Unit} (hinclude : C.Keeps includeLine) :
    ∀ fuel : Nat, C.Keeps (definitionsWithin includeLine fuel)
  | 0, _, hs => hC.exhausted hs
  | fuel + 1, s, hs => by
    unfold definitionsWithin
    refine (obeys_skipNewlines hC.toReading (.refl hs)).bind fun token s₁ ⟨h₁, _⟩ => ?_
    split
    · refine (hinclude h₁.state).bind fun _ s₂ h₂ => .modify_bind ?_
      exact keeps_definitionsWithin hinclude fuel (hC.commit h₂)
    split
    · refine (keeps_definition hC h₁.state).bind fun _ s₂ h₂ => .modify_bind ?_
      exact keeps_definitionsWithin hinclude fuel (hC.commit h₂)
    · exact .pure h₁.state

theorem keeps_definitions {includeLine : Parse Unit} (hinclude : C.Keeps includeLine) :
    C.Keeps (definitions includeLine) :=
  fun _ hs => .get_bind (keeps_definitionsWithin hC hinclude _ hs)

/-- **A parser of include lines keeps what reading the files keeps.** -/
theorem keeps_includeFile {includeLine : Parse Unit}
    (hspliced : ∀ {s : ParserState} {loader opened : Loader} {file : SourceFile}
      {target text : Bytes}, C.state s → s.loader = some loader →
      loader.resolve s.file target = .ok file → loader.openFile file = .ok (text, opened) →
      Obeys C (spliced includeLine file text) { s with loader := some opened }
        fun _ s' => C.state s') :
    C.Keeps (includeFile includeLine) := by
  intro s hs
  unfold includeFile
  refine (obeys_next hC.toReading (.refl hs)).bind fun word s₁ ⟨h₁, hword⟩ => ?_
  refine (obeys_next hC.toReading h₁).bind fun pathToken s₂ ⟨h₂, hpath⟩ => ?_
  refine .check (obeys_failGrammar hC.toReading h₂ hpath _) fun _ => ?_
  refine (obeys_expectSeparator hC.toReading h₂).bind fun _ s₃ h₃ => .get_bind ?_
  split
  · exact obeys_fail hC.toReading h₃ hword _
  next loader hloader =>
    refine (obeys_openIncluded hC.toReading h₃ hpath).bind ?_
    rintro ⟨file, text⟩ s₄ ⟨opened, hresolve, hopen, rfl⟩
    exact hspliced h₃.state hloader hresolve hopen

theorem keeps_mainWithin : ∀ fuel : Nat, C.Keeps (mainWithin fuel)
  | 0, _, hs => hC.exhausted hs
  | fuel + 1, s, hs => by
    unfold mainWithin
    refine (obeys_skipNewlines hC.toReading (.refl hs)).bind fun token s₁ ⟨h₁, htoken⟩ => ?_
    split
    · exact .pure h₁.state
    refine .check (obeys_failGrammar hC.toReading h₁ htoken _) fun _ => ?_
    refine (keeps_statement hC.toDeclaring h₁.state).bind fun first s₂ h₂ => .modify_bind ?_
    exact (keeps_mainWithin fuel (hC.commit h₂)).bind fun rest s₃ h₃ => .pure h₃

end

end Terrace.Parse
