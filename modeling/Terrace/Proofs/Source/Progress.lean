/-
# Parsers come to an end

Every loop of a parser consumes a token in each turn, and every expression or block inside
another one stands behind a token of the outer one. So the bound on the turns of a loop, which
is more than the text can give tokens, is never reached. `Ends x s Q` says that a parser does
not give up at a bound, and what holds when it gives a result; `Onward cost s₀ s` says that the
tokens consumed on the way from one state to another cost so much at least.

Key definitions: `Ends`, `Onward`, `Feeds`.
Key theorems: `Ends.bind`, `ends_expression`, `ends_statement`, `ends_definition`.
-/
import Mathlib.Tactic.SplitIfs
import Terrace.Proofs.Token.Supply
import Terrace.Source.Parse.Program

namespace Terrace.Parse

/-- The parser does not give up at a bound, and its results are as in `Q`. -/
def Ends {α : Type} (x : Parse α) (s : ParserState) (Q : α → ParserState → Prop) : Prop :=
  match x s with
  | .ok a s' => Q a s'
  | .error e _ => e.cause ≠ .exhausted

/-- On the way from `s₀` to `s`, tokens of at least this cost were consumed. -/
structure Onward (cost : Nat) (s₀ s : ParserState) : Prop where
  buffer : s₀.buffer.Consumes cost s.buffer
  limit : s.limit = s₀.limit
  loader : s.loader = s₀.loader
  bound : s₀.buffer.supply < s₀.limit

namespace Onward

variable {cost cost' : Nat} {s₀ s s' : ParserState}

theorem weaken (h : Onward cost s₀ s) (hle : cost' ≤ cost) : Onward cost' s₀ s := by
  have hsupply := h.buffer.supply
  exact ⟨⟨h.buffer.valid, h.buffer.size_le, h.buffer.marks, by omega⟩, h.limit, h.loader, h.bound⟩

theorem trans (h : Onward cost s₀ s) (h' : Onward cost' s s') : Onward (cost + cost') s₀ s' :=
  ⟨h.buffer.trans h'.buffer, h'.limit.trans h.limit, h'.loader.trans h.loader, h.bound⟩

/-- There are more turns than tokens. -/
theorem supply_lt (h : Onward cost s₀ s) : s.buffer.supply < s.limit := by
  have hsupply := h.buffer.supply
  have hbound := h.bound
  rw [h.limit]
  omega

theorem refl (h : Onward cost s₀ s) : Onward 0 s s := ⟨.refl h.buffer.valid, rfl, rfl, h.supply_lt⟩

/-- A change of what is declared or reported. -/
theorem same (h : Onward cost s₀ s) (hbuffer : s'.buffer = s.buffer) (hlimit : s'.limit = s.limit)
    (hloader : s'.loader = s.loader) : Onward cost s₀ s' := by
  refine ⟨?_, hlimit.trans h.limit, hloader.trans h.loader, h.bound⟩
  rw [hbuffer]
  exact h.buffer

end Onward

/-! ### Rules -/

namespace Ends

variable {α β : Type} {x : Parse α} {f : α → Parse β} {s : ParserState}
  {Q Q' : α → ParserState → Prop} {R : β → ParserState → Prop}

theorem pure {a : α} (h : Q a s) : Ends (Pure.pure a) s Q := h

/-- **A parser behind another one.** -/
theorem bind (hx : Ends x s Q) (hf : ∀ a s', Q a s' → Ends (f a) s' R) : Ends (x >>= f) s R := by
  unfold Ends at hx ⊢
  change (match EStateM.bind x f s with
    | .ok b s' => R b s'
    | .error e _ => e.cause ≠ .exhausted)
  unfold EStateM.bind
  cases hrun : x s with
  | error e s' =>
    rw [hrun] at hx
    exact hx
  | ok a s' =>
    rw [hrun] at hx
    exact hf a s' hx

theorem mono (hx : Ends x s Q) (h : ∀ a s', Q a s' → Q' a s') : Ends x s Q' := by
  unfold Ends at hx ⊢
  cases hrun : x s with
  | error e s' =>
    rw [hrun] at hx
    exact hx
  | ok a s' =>
    rw [hrun] at hx
    exact h a s' hx

theorem get_bind {g : ParserState → Parse β} (h : Ends (g s) s R) : Ends (get >>= g) s R := h

theorem modify_bind {g : ParserState → ParserState} {y : Unit → Parse β}
    (h : Ends (y ⟨⟩) (g s) R) : Ends (modify g >>= y) s R := h

theorem fail {token : Token} {cause : ParseCause} (h : cause ≠ .exhausted) :
    Ends (Parse.fail token cause) s Q := h

theorem failGrammar {token : Token} {cause : GrammarCause} :
    Ends (Parse.failGrammar token cause) s Q := fail (by simp)

theorem failSize {token : Token} {cause : SizeCause} :
    Ends (Parse.failSize token cause) s Q := fail (by simp)

/-- A parser that fails unless a check is passed. -/
theorem check {c : Prop} [Decidable c] {y : Parse β} (hx : Ends x s fun _ _ => False)
    (h : ¬ c → Ends y s R) : Ends (if c then x >>= f else y) s R := by
  by_cases hc : c
  · rw [if_pos hc]
    exact hx.bind fun _ _ hfalse => hfalse.elim
  · rw [if_neg hc]
    exact h hc

end Ends

variable {cost : Nat} {s₀ s : ParserState} {token : Token}

/-! ### Tokens -/

theorem ends_answered {answer : Except LexicalError Token × TokenBuffer}
    {Q : Token → ParserState → Prop}
    (h : ∀ token, answer.1 = .ok token → Q token { s with buffer := answer.2 }) :
    Ends (answered answer) s Q := by
  refine .modify_bind ?_
  cases hanswer : answer.1 with
  | ok token => exact .pure (h token hanswer)
  | error e =>
    show ParseCause.lexical e.cause ≠ .exhausted
    simp

theorem ends_peek (h : Onward cost s₀ s) :
    Ends peek s fun token s' => Onward cost s₀ s' ∧ s'.buffer.Shows token := by
  refine .get_bind (ends_answered fun token htoken => ⟨?_, ?_⟩)
  · exact ⟨h.buffer.trans (TokenBuffer.peek_consumes h.buffer.valid), h.limit, h.loader, h.bound⟩
  · exact TokenBuffer.peek_shows h.buffer.valid htoken

theorem ends_next (h : Onward cost s₀ s) :
    Ends next s fun token s' => Onward (cost + token.kind.cost) s₀ s' := by
  refine .get_bind (ends_answered fun token htoken => ?_)
  exact ⟨h.buffer.trans (TokenBuffer.next_consumes h.buffer.valid htoken), h.limit, h.loader,
    h.bound⟩

/-- The token that was looked at is consumed. -/
theorem ends_next_shown (h : Onward cost s₀ s) (hshows : s.buffer.Shows token) :
    Ends next s fun found s' => found = token ∧ Onward (cost + token.kind.cost) s₀ s' := by
  refine .get_bind (ends_answered fun found hfound => ?_)
  obtain rfl : found = token := Except.ok.inj (hfound.symm.trans hshows.next)
  exact ⟨rfl, h.buffer.trans (TokenBuffer.next_consumes h.buffer.valid hfound), h.limit, h.loader,
    h.bound⟩

/-- A word costs a byte. -/
theorem cost_of_isWord {word : Bytes} (h : token.isWord word) : token.kind.cost = 1 := by
  simp only [Token.isWord, Bool.and_eq_true, beq_iff_eq] at h
  rw [h.1]
  rfl

theorem ends_skipNewlinesWithin : ∀ {fuel : Nat} {s : ParserState}, Onward cost s₀ s →
    s.buffer.supply < fuel →
    Ends (skipNewlinesWithin fuel) s fun token s' => Onward cost s₀ s' ∧ s'.buffer.Shows token
  | 0, _, _, hfuel => absurd hfuel (Nat.not_lt_zero _)
  | fuel + 1, s, h, hfuel => by
    unfold skipNewlinesWithin
    refine (ends_peek h.refl).bind fun token s₁ ⟨h₁, hshows⟩ => ?_
    split_ifs with hnewline
    · refine (ends_next_shown h₁ hshows).bind fun _ s₂ ⟨_, h₂⟩ => ?_
      rw [hnewline] at h₂
      have hsupply := h₂.buffer.supply
      have hcost : TokenKind.newline.cost = 1 := rfl
      exact ends_skipNewlinesWithin ((h.trans h₂).weaken (by omega)) (by omega)
    · exact .pure ⟨h.trans h₁, hshows⟩

theorem ends_skipNewlines (h : Onward cost s₀ s) :
    Ends skipNewlines s fun token s' => Onward cost s₀ s' ∧ s'.buffer.Shows token :=
  .get_bind (ends_skipNewlinesWithin h h.supply_lt)

theorem ends_expect (h : Onward cost s₀ s) (kind : TokenKind) (what : Bytes) :
    Ends (expect kind what) s fun _ s' => Onward cost s₀ s' := by
  refine (ends_next h).bind fun token s₁ h₁ => ?_
  split_ifs
  · exact .failGrammar
  · exact .pure (h₁.weaken (by omega))

theorem ends_expectSeparator (h : Onward cost s₀ s) :
    Ends expectSeparator s fun _ s' => Onward cost s₀ s' := by
  refine (ends_peek h).bind fun token s₁ ⟨h₁, _⟩ => ?_
  split
  · exact (ends_next h₁).bind fun _ s₂ h₂ => .pure (h₂.weaken (by omega))
  · exact .pure h₁
  · exact .failGrammar

/-- A step that only changes what is declared or reported. -/
theorem ends_modify_bind {β : Type} {g : ParserState → ParserState} {y : Unit → Parse β}
    {R : β → ParserState → Prop} (h : Onward cost s₀ s) (hbuffer : (g s).buffer = s.buffer)
    (hlimit : (g s).limit = s.limit) (hloader : (g s).loader = s.loader)
    (hy : ∀ s', Onward cost s₀ s' → Ends (y ⟨⟩) s' R) : Ends (modify g >>= y) s R :=
  .modify_bind (hy _ (h.same hbuffer hlimit hloader))

/-- A report changes nothing a parser reads. -/
theorem ends_report (h : Onward cost s₀ s) (message : Bytes) (attributes : List (Bytes × Bytes)) :
    Ends (report message attributes) s fun _ s' => Onward cost s₀ s' := h.same rfl rfl rfl

theorem ends_declare (h : Onward cost s₀ s) (global : Bool) (slot : Variable) :
    Ends (declare token global slot) s fun _ s' => Onward cost s₀ s' := by
  unfold declare
  refine .get_bind ?_
  split
  · split
    · exact .failSize
    · exact h.same rfl rfl rfl
  · split
    · exact .failSize
    · exact h.same rfl rfl rfl

/-! ### Expressions -/

theorem ends_checked {α : Type} (h : Onward cost s₀ s) (check : Except SizeCause α) :
    Ends (checked token check) s fun _ s' => Onward cost s₀ s' := by
  cases check with
  | error cause => exact .failSize
  | ok a => exact .pure h

/-- The parser of expressions ends where so little is left, and consumes a token if there is
an expression. -/
def Feeds (fuel : Nat) (expression : Parse (Option Typed)) : Prop :=
  ∀ ⦃cost : Nat⦄ ⦃s₀ s : ParserState⦄, Onward cost s₀ s → s₀.buffer.supply < fuel + cost →
    Ends expression s fun typed s' => Onward (cost + typed.isSome.toNat) s₀ s'

section
variable {fuel : Nat} {expression : Parse (Option Typed)} (hexpression : Feeds fuel expression)
include hexpression

theorem ends_required (h : Onward cost s₀ s) (hfuel : s₀.buffer.supply < fuel + cost)
    (after : Bytes) :
    Ends (required expression after) s fun _ s' => Onward (cost + 1) s₀ s' := by
  unfold required
  refine (ends_peek h).bind fun token s₁ ⟨h₁, _⟩ => ?_
  refine (hexpression h₁ hfuel).bind fun typed s₂ h₂ => ?_
  cases typed with
  | some typed => exact .pure h₂
  | none => exact .failGrammar

theorem ends_index (h : Onward cost s₀ s) (hfuel : s₀.buffer.supply ≤ fuel + cost)
    (hshows : s.buffer.Shows token) (htoken : token.kind.cost = 1) :
    Ends (index expression) s fun _ s' => Onward (cost + 1) s₀ s' := by
  unfold index
  refine (ends_next_shown h hshows).bind fun bracket s₁ ⟨_, h₁⟩ => ?_
  rw [htoken] at h₁
  refine (ends_required hexpression h₁ (by omega) _).bind fun typed s₂ h₂ => ?_
  refine .check .failSize fun _ => (ends_expect h₂ _ _).bind fun _ s₃ h₃ => ?_
  exact .pure (h₃.weaken (by omega))

theorem ends_argument (h : Onward cost s₀ s) (hfuel : s₀.buffer.supply < fuel + cost)
    (function : Bytes) (parameter : Variable) :
    Ends (argument expression function parameter) s fun _ s' => Onward cost s₀ s' := by
  unfold argument
  refine (ends_peek h).bind fun token s₁ ⟨h₁, _⟩ => ?_
  split
  · refine (ends_required hexpression h₁ hfuel _).bind fun typed s₂ h₂ => ?_
    exact .check .failSize fun _ => .pure (h₂.weaken (by omega))
  · refine .get_bind ?_
    split
    · exact .failSize
    · refine .check .failSize fun _ => (ends_next h₁).bind fun _ s₂ h₂ => ?_
      exact .pure (h₂.weaken (by omega))

theorem ends_moreArguments (function : Bytes) (count : Nat) :
    ∀ {parameters : List Variable} {s : ParserState}, Onward cost s₀ s →
    s₀.buffer.supply < fuel + cost →
    Ends (moreArguments expression function count parameters) s fun _ s' => Onward cost s₀ s'
  | [], _, h, _ => .pure h
  | parameter :: parameters, s, h, hfuel => by
    unfold moreArguments
    refine (ends_next h).bind fun comma s₁ h₁ => .check .failGrammar fun _ => ?_
    replace h₁ := h₁.weaken (Nat.le_add_right _ _)
    refine (ends_argument hexpression h₁ hfuel _ _).bind fun e s₂ h₂ => ?_
    exact (ends_moreArguments function count h₂ hfuel).bind fun es s₃ h₃ => .pure h₃

theorem ends_arguments (h : Onward cost s₀ s) (hfuel : s₀.buffer.supply < fuel + cost)
    (function : Bytes) (parameters : List Variable) :
    Ends (arguments expression function parameters) s fun _ s' => Onward cost s₀ s' := by
  unfold arguments
  cases parameters with
  | nil => exact .pure h
  | cons first rest =>
    refine (ends_argument hexpression h hfuel _ _).bind fun e s₁ h₁ => ?_
    exact (ends_moreArguments hexpression _ _ h₁ hfuel).bind fun es s₂ h₂ => .pure h₂

theorem ends_registers : ∀ {count : Nat} {s : ParserState}, Onward cost s₀ s →
    s₀.buffer.supply < fuel + cost →
    Ends (registers expression count) s fun _ s' => Onward cost s₀ s'
  | 0, _, h, _ => .pure h
  | count + 1, s, h, hfuel => by
    unfold registers
    refine (ends_peek h).bind fun comma s₁ ⟨h₁, _⟩ => ?_
    split_ifs
    · refine (ends_next h₁).bind fun _ s₂ h₂ => ?_
      replace h₂ := h₂.weaken (Nat.le_add_right _ _)
      refine (ends_peek h₂).bind fun token s₃ ⟨h₃, _⟩ => ?_
      refine (ends_required hexpression h₃ hfuel _).bind fun typed s₄ h₄ => ?_
      replace h₄ := h₄.weaken (Nat.le_add_right _ _)
      refine .check .failSize fun _ => ?_
      exact (ends_registers h₄ hfuel).bind fun es s₅ h₅ => .pure h₅
    · exact .pure h₁

theorem ends_memoryAddress (h : Onward cost s₀ s) (hfuel : s₀.buffer.supply < fuel + cost)
    (builtin : Bytes) :
    Ends (memoryAddress expression builtin) s fun _ s' => Onward cost s₀ s' := by
  unfold memoryAddress
  refine (ends_peek h).bind fun token s₁ ⟨h₁, _⟩ => ?_
  refine (ends_required hexpression h₁ hfuel _).bind fun typed s₂ h₂ => ?_
  exact .check .failSize fun _ => .pure (h₂.weaken (by omega))

end

/-! An operand begins with a token of its own, which is consumed before anything else. -/

section
variable {fuel : Nat} {expression : Parse (Option Typed)} (hexpression : Feeds fuel expression)
  (h : Onward cost s₀ s) (hshows : s.buffer.Shows token) (htoken : token.kind.cost = 1)
include h hshows htoken

/-- What the first token of an operand pays for. -/
theorem ends_next_first : Ends next s fun _ s' => Onward (cost + 1) s₀ s' := by
  refine (ends_next_shown h hshows).mono fun _ s' ⟨_, h'⟩ => ?_
  rwa [htoken] at h'

theorem ends_addressOf : Ends addressOf s fun typed s' =>
    Onward (cost + typed.isSome.toNat) s₀ s' := by
  unfold addressOf
  refine (ends_next_first h hshows htoken).bind fun _ s₁ h₁ => ?_
  refine (ends_expect h₁ _ _).bind fun _ s₂ h₂ => (ends_next h₂).bind fun name s₃ h₃ => ?_
  refine .get_bind ?_
  split
  · exact .failGrammar
  · exact (ends_expect h₃ _ _).bind fun _ s₄ h₄ => .pure (h₄.weaken (Nat.le_add_right _ _))

variable (hfuel : s₀.buffer.supply ≤ fuel + cost)
include hfuel hexpression

theorem ends_call (callee : Nat) (f : Function) :
    Ends (call expression callee f) s fun typed s' =>
      Onward (cost + typed.isSome.toNat) s₀ s' := by
  unfold call
  refine (ends_next_first h hshows htoken).bind fun _ s₁ h₁ => ?_
  refine (ends_expect h₁ _ _).bind fun _ s₂ h₂ => ?_
  refine (ends_arguments hexpression h₂ (by omega) _ _).bind fun values s₃ h₃ => ?_
  refine (ends_next h₃).bind fun token s₄ h₄ => ?_
  refine .check .failGrammar fun _ => .check .failGrammar fun _ => .check .failSize fun _ => ?_
  exact .pure (h₄.weaken (Nat.le_add_right _ _))

theorem ends_systemCall : Ends (systemCall expression) s fun typed s' =>
    Onward (cost + typed.isSome.toNat) s₀ s' := by
  unfold systemCall
  refine (ends_next_first h hshows htoken).bind fun _ s₁ h₁ => ?_
  refine (ends_expect h₁ _ _).bind fun _ s₂ h₂ => (ends_peek h₂).bind fun token s₃ ⟨h₃, _⟩ => ?_
  refine (hexpression h₃ (by omega)).bind fun address s₄ h₄ => ?_
  replace h₄ := h₄.weaken (Nat.le_add_right _ _)
  cases address with
  | none => exact .failGrammar
  | some address =>
    refine .check .failSize fun _ => ?_
    refine (ends_registers hexpression h₄ (by omega)).bind fun given s₅ h₅ => ?_
    exact (ends_expect h₅ _ _).bind fun _ s₆ h₆ => .pure h₆

theorem ends_loadMemory : Ends (loadMemory expression) s fun typed s' =>
    Onward (cost + typed.isSome.toNat) s₀ s' := by
  unfold loadMemory
  refine (ends_next_first h hshows htoken).bind fun _ s₁ h₁ => ?_
  refine (ends_expect h₁ _ _).bind fun _ s₂ h₂ => (ends_next h₂).bind fun size s₃ h₃ => ?_
  replace h₃ := h₃.weaken (Nat.le_add_right _ _)
  split
  · exact .failGrammar
  · refine (ends_expect h₃ _ _).bind fun _ s₄ h₄ => ?_
    refine (ends_memoryAddress hexpression h₄ (by omega) _).bind fun address s₅ h₅ => ?_
    exact (ends_expect h₅ _ _).bind fun _ s₆ h₆ => .pure h₆

theorem ends_storeMemory : Ends (storeMemory expression) s fun typed s' =>
    Onward (cost + typed.isSome.toNat) s₀ s' := by
  unfold storeMemory
  refine (ends_next_first h hshows htoken).bind fun _ s₁ h₁ => ?_
  refine (ends_expect h₁ _ _).bind fun _ s₂ h₂ => ?_
  refine (ends_required hexpression h₂ (by omega) _).bind fun value s₃ h₃ => ?_
  replace h₃ := h₃.weaken (Nat.le_add_right _ _)
  refine .check .failSize fun _ => (ends_expect h₃ _ _).bind fun _ s₄ h₄ => ?_
  refine (ends_memoryAddress hexpression h₄ (by omega) _).bind fun address s₅ h₅ => ?_
  exact (ends_expect h₅ _ _).bind fun _ s₆ h₆ => .pure h₆

theorem ends_variableOperand (name : Token) :
    Ends (variableOperand expression name) s fun typed s' =>
      Onward (cost + typed.isSome.toNat) s₀ s' := by
  unfold variableOperand
  refine .get_bind ?_
  split
  · exact .failGrammar
  · refine (ends_next_first h hshows htoken).bind fun _ s₁ h₁ => ?_
    refine (ends_peek h₁).bind fun after s₂ ⟨h₂, hshows₂⟩ => ?_
    dsimp only
    split
    next hbracket =>
      have hafter : after.kind.cost = 1 := by
        rw [hbracket]
        rfl
      refine .check .failSize fun _ => ?_
      refine (ends_index hexpression h₂ (by omega) hshows₂ hafter).bind fun _ s₃ h₃ => ?_
      exact .pure (h₃.weaken (Nat.le_add_right _ _))
    · split
      · exact .pure h₂
      · exact .pure h₂

theorem ends_wordOperand (name : Token) :
    Ends (wordOperand expression name) s fun typed s' =>
      Onward (cost + typed.isSome.toNat) s₀ s' := by
  have hconstant (b : UInt8) : Ends (do
      let _ ← next
      return some (.literal [b], .scalar 1) : Parse (Option Typed)) s fun typed s' =>
        Onward (cost + typed.isSome.toNat) s₀ s' :=
    (ends_next_first h hshows htoken).bind fun _ s₁ h₁ => .pure h₁
  unfold wordOperand
  dsimp only
  split
  · exact hconstant 0xff
  split
  · exact hconstant 0
  split
  · exact ends_systemCall hexpression h hshows htoken hfuel
  split
  · exact ends_addressOf h hshows htoken
  split
  · exact ends_loadMemory hexpression h hshows htoken hfuel
  split
  · exact ends_storeMemory hexpression h hshows htoken hfuel
  split
  · exact .pure h
  refine .get_bind ?_
  split
  · exact ends_call hexpression h hshows htoken hfuel _ _
  · exact ends_variableOperand hexpression h hshows htoken hfuel name

end

section
variable {fuel : Nat} {expression : Parse (Option Typed)} (hexpression : Feeds fuel expression)
  (h : Onward cost s₀ s) (hfuel : s₀.buffer.supply ≤ fuel + cost)
include hexpression h hfuel

theorem ends_operand : Ends (operand expression) s fun typed s' =>
    Onward (cost + typed.isSome.toNat) s₀ s' := by
  unfold operand
  refine (ends_peek h).bind fun token s₁ ⟨h₁, hshows⟩ => ?_
  have hfirst (htoken : token.kind.cost = 1) := ends_next_first h₁ hshows htoken
  split
  next hkind =>
    refine (hfirst (by rw [hkind]; rfl)).bind fun _ s₂ h₂ => ?_
    split
    · exact .failSize
    · exact .pure h₂
  next hkind =>
    refine (hfirst (by rw [hkind]; rfl)).bind fun _ s₂ h₂ => ?_
    exact .check .failSize fun _ => .pure h₂
  next hkind =>
    refine (hfirst (by rw [hkind]; rfl)).bind fun _ s₂ h₂ => ?_
    refine (ends_required hexpression h₂ (by omega) _).bind fun typed s₃ h₃ => ?_
    exact (ends_expect h₃ _ _).bind fun _ s₄ h₄ => .pure (h₄.weaken (Nat.le_add_right _ _))
  next hkind =>
    exact ends_wordOperand hexpression h₁ hshows (by rw [hkind]; rfl) hfuel token
  · exact .pure h₁

theorem ends_chain : Ends (chain expression) s fun typed s' =>
    Onward (cost + typed.isSome.toNat) s₀ s' := by
  unfold chain
  refine (ends_operand hexpression h hfuel).bind fun left s₁ h₁ => ?_
  cases left with
  | none => exact .pure h₁
  | some left =>
    refine (ends_peek h₁).bind fun token s₂ ⟨h₂, _⟩ => ?_
    dsimp only
    split
    · exact .pure h₂
    · refine (ends_next h₂).bind fun _ s₃ h₃ => ?_
      replace h₃ : Onward (cost + 1) s₀ s₃ := h₃.weaken (Nat.le_add_right _ _)
      refine (ends_required hexpression h₃ (by omega) _).bind fun right s₄ h₄ => ?_
      refine (ends_checked h₄ _).bind fun shape s₅ h₅ => ?_
      exact .pure (h₅.weaken (Nat.le_add_right _ _))

theorem ends_signedChain : Ends (signedChain expression) s fun typed s' =>
    Onward (cost + typed.isSome.toNat) s₀ s' := by
  unfold signedChain
  refine (ends_peek h).bind fun token s₁ ⟨h₁, _⟩ => ?_
  split
  · exact ends_chain hexpression h₁ hfuel
  · refine (ends_next h₁).bind fun _ s₂ h₂ => ?_
    replace h₂ := h₂.weaken (Nat.le_add_right _ _)
    refine (ends_chain hexpression h₂ hfuel).bind fun typed s₃ h₃ => ?_
    cases typed with
    | none => exact (ends_peek h₃).bind fun _ _ _ => .failGrammar
    | some typed => exact (ends_checked h₃ _).bind fun shape s₄ h₄ => .pure h₄

end

/-- Expressions inside each other consume a token each. -/
theorem feeds_expressionWithin : ∀ fuel : Nat, Feeds fuel (expressionWithin fuel)
  | 0, cost, s₀, s, h, hfuel => by
    have hsupply := h.buffer.supply
    omega
  | fuel + 1, cost, s₀, s, h, hfuel =>
    ends_signedChain (feeds_expressionWithin fuel) h (by omega)

/-- **The parser of expressions ends**, and consumes a token if there is an expression. -/
theorem ends_expression (h : Onward cost s₀ s) :
    Ends expression s fun typed s' => Onward (cost + typed.isSome.toNat) s₀ s' := by
  refine .get_bind (feeds_expressionWithin s.limit h ?_)
  have hbound := h.bound
  rw [h.limit]
  omega

theorem feeds_expression (fuel : Nat) : Feeds fuel expression :=
  fun _ _ _ h _ => ends_expression h

/-! ### Statements -/

theorem ends_elementAssignment {nameToken : Token} (h : Onward cost s₀ s)
    (hshows : s.buffer.Shows token) (htoken : token.kind.cost = 1) (global : Bool) :
    Ends (elementAssignment nameToken global) s fun _ s' => Onward cost s₀ s' := by
  have hexpression := feeds_expression (s₀.buffer.supply + 1)
  unfold elementAssignment
  refine .get_bind ?_
  split
  · exact .pure h
  · refine (ends_index hexpression h (by omega) hshows htoken).bind fun i s₁ h₁ => ?_
    replace h₁ := h₁.weaken (Nat.le_add_right _ _)
    refine (ends_peek h₁).bind fun sign s₂ ⟨h₂, _⟩ => ?_
    dsimp only
    split
    · exact .pure h₂
    refine (ends_next h₂).bind fun _ s₃ h₃ => ?_
    replace h₃ := h₃.weaken (Nat.le_add_right _ _)
    refine (ends_required hexpression h₃ (by omega) _).bind fun value s₄ h₄ => ?_
    exact .check .failSize fun _ => .pure (h₄.weaken (Nat.le_add_right _ _))

theorem ends_variableAssignment {nameToken : Token} (h : Onward cost s₀ s) (global : Bool) :
    Ends (variableAssignment nameToken global) s fun _ s' => Onward cost s₀ s' := by
  unfold variableAssignment
  refine (ends_next h).bind fun _ s₁ h₁ => ?_
  replace h₁ := h₁.weaken (Nat.le_add_right _ _)
  refine (ends_required (feeds_expression (s₀.buffer.supply + 1)) h₁ (by omega) _).bind
    fun value s₂ h₂ => ?_
  replace h₂ := h₂.weaken (Nat.le_add_right _ _)
  refine .get_bind ?_
  split
  · exact .check .failSize fun _ => .pure h₂
  · exact .check .failSize fun _ => (ends_declare h₂ _ _).bind fun place s₃ h₃ => .pure h₃

theorem ends_assignment (h : Onward cost s₀ s) (global : Bool) :
    Ends (assignment global) s fun statement s' =>
      Onward (cost + statement.isSome.toNat) s₀ s' := by
  unfold assignment
  refine (ends_next h).bind fun nameToken s₁ h₁ => ?_
  split
  · exact .pure (h₁.weaken (Nat.le_add_right _ _))
  next hname =>
    replace h₁ : Onward (cost + 1) s₀ s₁ := by
      have hkind : nameToken.kind = .identifier := by
        simp only [ne_eq, Bool.or_eq_true, decide_eq_true_eq, not_or, Decidable.not_not] at hname
        exact hname.1
      rwa [hkind] at h₁
    have hdone {statement : Option Statement} {s' : ParserState} (h' : Onward (cost + 1) s₀ s') :
        Onward (cost + statement.isSome.toNat) s₀ s' :=
      h'.weaken (Nat.add_le_add_left (Bool.toNat_le _) _)
    refine .get_bind ?_
    split
    · exact .pure (hdone h₁)
    refine (ends_peek h₁).bind fun token s₂ ⟨h₂, hshows⟩ => ?_
    split
    next hbracket =>
      exact (ends_elementAssignment h₂ hshows (by rw [hbracket]; rfl) global).mono
        fun _ _ h₃ => hdone h₃
    split
    · exact (ends_variableAssignment h₂ global).mono fun _ _ h₃ => hdone h₃
    · exact .pure (hdone h₂)

/-- Going back gives back at most what there was. -/
theorem ends_tryAssignment (h : Onward cost s₀ s) (global : Bool) :
    Ends (tryAssignment global) s fun statement s' =>
      Onward (cost + statement.isSome.toNat) s₀ s' := by
  unfold tryAssignment
  refine .get_bind ((ends_assignment h.refl global).bind fun statement s₁ h₁ => ?_)
  cases statement with
  | some statement =>
    refine .pure ?_
    have hboth := h.trans h₁
    rwa [Nat.zero_add] at hboth
  | none =>
    refine .modify_bind (.pure (h.trans ?_))
    exact ⟨h₁.buffer.rewind h.buffer.valid, h₁.limit, h₁.loader, h₁.bound⟩

theorem ends_globalWord (h : Onward cost s₀ s) :
    Ends globalWord s fun _ s' => Onward cost s₀ s' := by
  unfold globalWord
  refine (ends_peek h).bind fun token s₁ ⟨h₁, _⟩ => ?_
  split
  · refine .get_bind (.check .failGrammar fun _ => ?_)
    exact (ends_next h₁).bind fun _ s₂ h₂ => .pure (h₂.weaken (Nat.le_add_right _ _))
  · exact .pure h₁

theorem ends_simpleStatement (h : Onward cost s₀ s) :
    Ends simpleStatement s fun _ s' => Onward (cost + 1) s₀ s' := by
  unfold simpleStatement
  refine (ends_globalWord h).bind fun global s₁ h₁ => ?_
  refine (ends_tryAssignment h₁ global).bind fun statement s₂ h₂ => ?_
  cases statement with
  | some statement => exact (ends_expectSeparator h₂).bind fun _ s₃ h₃ => .pure h₃
  | none =>
    refine (ends_peek h₂).bind fun token s₃ ⟨h₃, _⟩ => .check .failGrammar fun _ => ?_
    refine (ends_expression h₃).bind fun typed s₄ h₄ => ?_
    cases typed with
    | none => exact .failGrammar
    | some typed => exact (ends_expectSeparator h₄).bind fun _ s₅ h₅ => .pure h₅

theorem ends_condition (h : Onward cost s₀ s) (keyword : Bytes) :
    Ends (condition keyword) s fun _ s' => Onward cost s₀ s' := by
  unfold condition
  refine (ends_peek h).bind fun token s₁ ⟨h₁, _⟩ => ?_
  refine (ends_expression h₁).bind fun typed s₂ h₂ => ?_
  cases typed with
  | none => exact .failGrammar
  | some typed => exact .check .failSize fun _ => .pure (h₂.weaken (Nat.le_add_right _ _))

/-- The end of a line after a change of the current function. -/
theorem ends_setCurrent (h : Onward cost s₀ s) (f : Function) (statement : Statement) :
    Ends (do
      modify fun s => { s with current := some f }
      expectSeparator
      return statement) s fun _ s' => Onward cost s₀ s' := by
  refine ends_modify_bind h rfl rfl rfl fun s₁ h₁ => ?_
  exact (ends_expectSeparator h₁).bind fun _ s₂ h₂ => .pure h₂

theorem ends_giveBack (h : Onward cost s₀ s) (hshows : s.buffer.Shows token)
    (htoken : token.kind.cost = 1) :
    Ends giveBack s fun _ s' => Onward (cost + 1) s₀ s' := by
  unfold giveBack
  refine (ends_next_first h hshows htoken).bind fun word s₁ h₁ => .get_bind ?_
  split
  · exact .failGrammar
  refine (ends_peek h₁).bind fun token s₂ ⟨h₂, _⟩ => ?_
  dsimp only
  split
  · refine Ends.bind (Q := fun _ s' => Onward (cost + 1) s₀ s') (.pure h₂) fun _ s₃ h₃ => ?_
    split
    · exact .failSize
    · exact ends_setCurrent h₃ _ _
  · refine (ends_expression h₂).bind fun typed s₃ h₃ => ?_
    replace h₃ := h₃.weaken (Nat.le_add_right _ _)
    cases typed with
    | none => exact Ends.bind (Q := fun _ _ => False) .failGrammar fun _ _ hfalse => hfalse.elim
    | some typed =>
      refine Ends.bind (Q := fun _ s' => Onward (cost + 1) s₀ s') (.pure h₃) fun _ s₄ h₄ => ?_
      split
      · exact .failSize
      · exact ends_setCurrent h₄ _ _

/-- The parser of statements ends where so little is left, and consumes a token. -/
def Runs (fuel : Nat) (statement : Parse Statement) : Prop :=
  ∀ ⦃cost : Nat⦄ ⦃s₀ s : ParserState⦄, Onward cost s₀ s → s₀.buffer.supply < fuel + cost →
    Ends statement s fun _ s' => Onward (cost + 1) s₀ s'

section
variable {fuel : Nat} {statement : Parse Statement} (hstatement : Runs fuel statement)
include hstatement

theorem ends_blockRest : ∀ {turns cost : Nat} {s : ParserState}, Onward cost s₀ s →
    s₀.buffer.supply < fuel + cost → s₀.buffer.supply < turns + cost →
    Ends (blockRest statement turns) s fun _ s' => Onward cost s₀ s'
  | 0, cost, s, h, _, hturns => by
    have hsupply := h.buffer.supply
    omega
  | turns + 1, cost, s, h, hfuel, hturns => by
    unfold blockRest
    refine (ends_skipNewlines h).bind fun token s₁ ⟨h₁, _⟩ => ?_
    split
    · exact (ends_next h₁).bind fun _ s₂ h₂ => .pure (h₂.weaken (Nat.le_add_right _ _))
    · exact .failGrammar
    · refine .check .failGrammar fun _ => (hstatement h₁ hfuel).bind fun first s₂ h₂ => ?_
      refine (ends_blockRest h₂ (by omega) (by omega)).bind fun rest s₃ h₃ => ?_
      exact .pure (h₃.weaken (Nat.le_add_right _ _))

theorem ends_block (h : Onward cost s₀ s) (hfuel : s₀.buffer.supply < fuel + cost) :
    Ends (block statement) s fun _ s' => Onward cost s₀ s' := by
  unfold block
  refine (ends_skipNewlines h).bind fun token s₁ ⟨h₁, _⟩ => .check .failGrammar fun _ => ?_
  refine (ends_next h₁).bind fun _ s₂ h₂ => .get_bind ?_
  replace h₂ := h₂.weaken (Nat.le_add_right _ _)
  refine ends_blockRest hstatement h₂ hfuel ?_
  have hbound := h₂.bound
  rw [h₂.limit]
  omega

variable (h : Onward cost s₀ s) (hfuel : s₀.buffer.supply ≤ fuel + cost)
include h hfuel

theorem ends_conditional (hshows : s.buffer.Shows token) (htoken : token.kind.cost = 1) :
    Ends (conditional statement) s fun _ s' => Onward (cost + 1) s₀ s' := by
  unfold conditional
  refine (ends_next_first h hshows htoken).bind fun _ s₁ h₁ => ?_
  refine (ends_condition h₁ _).bind fun e s₂ h₂ => (ends_expectSeparator h₂).bind fun _ s₃ h₃ => ?_
  refine (ends_block hstatement h₃ (by omega)).bind fun body s₄ h₄ => ?_
  refine (ends_peek h₄).bind fun word s₅ ⟨h₅, _⟩ => ?_
  split
  · refine (ends_next h₅).bind fun _ s₆ h₆ => ?_
    replace h₆ := h₆.weaken (Nat.le_add_right _ _)
    refine (ends_expectSeparator h₆).bind fun _ s₇ h₇ => ?_
    exact (ends_block hstatement h₇ (by omega)).bind fun otherwise s₈ h₈ => .pure h₈
  · exact .pure h₅

theorem ends_loop (hshows : s.buffer.Shows token) (htoken : token.kind.cost = 1) :
    Ends (loop statement) s fun _ s' => Onward (cost + 1) s₀ s' := by
  unfold loop
  refine (ends_next_first h hshows htoken).bind fun _ s₁ h₁ => ?_
  refine (ends_condition h₁ _).bind fun e s₂ h₂ => (ends_expectSeparator h₂).bind fun _ s₃ h₃ => ?_
  exact (ends_block hstatement h₃ (by omega)).bind fun body s₄ h₄ => .pure h₄

theorem ends_anyStatement : Ends (anyStatement statement) s fun _ s' =>
    Onward (cost + 1) s₀ s' := by
  unfold anyStatement
  refine (ends_peek h).bind fun token s₁ ⟨h₁, hshows⟩ => ?_
  split
  · exact .failGrammar
  split
  next hword => exact ends_conditional hstatement h₁ hfuel hshows (cost_of_isWord hword)
  split
  next hword => exact ends_loop hstatement h₁ hfuel hshows (cost_of_isWord hword)
  split
  next hword => exact ends_giveBack h₁ hshows (cost_of_isWord hword)
  · exact ends_simpleStatement h₁

end

/-- Blocks inside each other consume a token each. -/
theorem runs_statementWithin : ∀ fuel : Nat, Runs fuel (statementWithin fuel)
  | 0, cost, s₀, s, h, hfuel => by
    have hsupply := h.buffer.supply
    omega
  | fuel + 1, cost, s₀, s, h, hfuel =>
    ends_anyStatement (runs_statementWithin fuel) h (by omega)

/-- **The parser of statements ends**, and consumes a token. -/
theorem ends_statement (h : Onward cost s₀ s) :
    Ends statement s fun _ s' => Onward (cost + 1) s₀ s' := by
  refine .get_bind (runs_statementWithin s.limit h ?_)
  have hbound := h.bound
  rw [h.limit]
  omega

/-! ### Definitions -/

theorem ends_parameter (h : Onward cost s₀ s) (hshows : s.buffer.Shows token)
    (htoken : token.kind.cost = 1) (parameters : VariableList) :
    Ends (parameter parameters) s fun _ s' => Onward (cost + 1) s₀ s' := by
  unfold parameter
  refine (ends_next_first h hshows htoken).bind fun nameToken s₁ h₁ => ?_
  refine .check .failGrammar fun _ => (ends_expect h₁ _ _).bind fun _ s₂ h₂ => ?_
  refine (ends_next h₂).bind fun typeToken s₃ h₃ => ?_
  replace h₃ := h₃.weaken (Nat.le_add_right _ _)
  dsimp only
  split
  · exact .failGrammar
  · refine (ends_expect h₃ _ _).bind fun _ s₄ h₄ => .check .failGrammar fun _ => ?_
    split
    · exact .failSize
    · exact .pure h₄

theorem ends_parametersWithin : ∀ {fuel cost : Nat} {s : ParserState} {parameters : VariableList},
    Onward cost s₀ s → s₀.buffer.supply < fuel + cost →
    Ends (parametersWithin fuel parameters) s fun _ s' => Onward cost s₀ s'
  | 0, cost, s, _, h, hfuel => by
    have hsupply := h.buffer.supply
    omega
  | fuel + 1, cost, s, parameters, h, hfuel => by
    unfold parametersWithin
    refine (ends_peek h).bind fun token s₁ ⟨h₁, hshows⟩ => ?_
    split
    next hkind =>
      refine (ends_parameter h₁ hshows (by rw [hkind]; rfl) parameters).bind fun _ s₂ h₂ => ?_
      exact (ends_parametersWithin h₂ (by omega)).mono
        fun _ _ h₃ => h₃.weaken (Nat.le_add_right _ _)
    · exact .pure h₁

theorem ends_functionName (h : Onward cost s₀ s) :
    Ends functionName s fun _ s' => Onward cost s₀ s' := by
  unfold functionName
  refine (ends_next h).bind fun token s₁ h₁ => ?_
  replace h₁ := h₁.weaken (Nat.le_add_right _ _)
  refine .check .failGrammar fun _ => .get_bind ?_
  exact .check .failGrammar fun _ => .check .failGrammar fun _ => .pure h₁

theorem ends_finishFunction (h : Onward cost s₀ s) (f : Function) (body : List Statement) :
    Ends (finishFunction token f body) s fun _ s' => Onward cost s₀ s' := by
  unfold finishFunction
  refine .check .failSize fun _ => ends_modify_bind h rfl rfl rfl fun s₁ h₁ => ?_
  exact ends_report h₁ _ _

/-- **The parser of definitions ends**, and consumes a token. -/
theorem ends_definition (h : Onward cost s₀ s) (hshows : s.buffer.Shows token)
    (htoken : token.kind.cost = 1) :
    Ends definition s fun _ s' => Onward (cost + 1) s₀ s' := by
  unfold definition
  refine (ends_next_first h hshows htoken).bind fun _ s₁ h₁ => ?_
  refine (ends_functionName h₁).bind fun nameToken s₂ h₂ => .get_bind ?_
  have hbound := h₂.bound
  refine (ends_parametersWithin h₂ (by rw [h₂.limit]; omega)).bind fun parameters s₃ h₃ => ?_
  refine (ends_expectSeparator h₃).bind fun _ s₄ h₄ => ?_
  refine ends_modify_bind h₄ rfl rfl rfl fun s₄ h₄ => ?_
  have hstatement : Runs (s₀.buffer.supply + 1) statement :=
    fun _ _ _ h _ => ends_statement h
  refine (ends_block hstatement h₄ (by omega)).bind fun body s₅ h₅ => ?_
  refine .get_bind ?_
  split
  · exact .pure h₅
  · exact ends_finishFunction h₅ _ _

end Terrace.Parse
