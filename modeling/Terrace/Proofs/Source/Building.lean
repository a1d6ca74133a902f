/-
# What the parser can build

`Gives definitions Γ x Q` says of a parser that starts where `Γ` is declared: if it does not fail,
its result and what is declared then are as in `Q`, and no definition was added. Parsers of tokens
and of expressions declare nothing.

With that come induction principles for the parser. `Γ.Builds P A` has a rule for each way in which
the parser makes an expression where `Γ` is declared, with all that it has checked by then: `P`
holds of the expression and its shape once it holds of the parts, and `A` of each argument for a
parameter. `Constructs I P A S B` has such rules for statements and blocks, and `Settles J` is what
a definition has to keep. Whatever has these rules holds of all that is parsed.

Key definitions: `ParserState.context`, `Gives`, `Reads`, `Context.Builds`, `Constructs`, `Settles`.
Key theorems: `Gives.bind`, `Parse.built_expression`, `Parse.constructed_statement`,
`Parse.settles_definition`, `Program.parse_ok`, `Program.parse_settled`.
-/
import Mathlib.Tactic.SplitIfs
import Terrace.Proofs.Source.Numerals
import Terrace.Proofs.Source.Typing
import Terrace.Source.Parse.Program

namespace Terrace

/-- What a parser has declared. -/
def ParserState.context (s : ParserState) : Context where
  globals := s.globals
  functions := s.definitions.map (·.function)
  current := s.current

namespace ParserState

variable (s : ParserState) (name : Bytes)

theorem localPlace?_eq : s.localPlace? name = s.context.local? name := by
  unfold localPlace? Context.local? ParserState.context
  cases s.current with
  | none => rfl
  | some f =>
    dsimp only [Option.bind_eq_bind, Option.bind_some]
    cases f.parameters.lookup? name with
    | none =>
      dsimp only
      cases f.locals.lookup? name with
      | none => rfl
      | some found => rfl
    | some found => rfl

theorem globalPlace?_eq : s.globalPlace? name = s.context.global? name := by
  unfold globalPlace? Context.global? ParserState.context
  cases s.globals.lookup? name with
  | none => rfl
  | some found => rfl

theorem place?_eq : s.place? name = s.context.meaning? name := by
  unfold place? Context.meaning?
  rw [← localPlace?_eq, ← globalPlace?_eq]
  cases s.localPlace? name with
  | none => rfl
  | some place => rfl

theorem assignedPlace?_eq (global : Bool) :
    s.assignedPlace? global name = s.context.assigned? global name := by
  unfold assignedPlace? Context.assigned?
  rw [globalPlace?_eq, place?_eq]

theorem callee?_some {callee : Nat} {f : Function} (h : s.callee? name = some (callee, f)) :
    s.context.callables[callee]? = some f := by
  unfold callee? at h
  cases hindex : s.functions.findIdx? (·.name == name) with
  | none =>
    rw [hindex] at h
    cases h
  | some i =>
    rw [hindex] at h
    dsimp only [Option.bind_eq_bind, Option.bind_some] at h
    cases hget : s.functions[i]? with
    | none =>
      rw [hget] at h
      cases h
    | some g =>
      rw [hget] at h
      cases h
      exact hget

end ParserState

/-! ### Rules -/

/-- The parser never gives a result. -/
def Parse.Fails {α : Type} (x : Parse α) : Prop := ∀ s a s', x s ≠ .ok a s'

/-- What two parsers behind each other give, the second gives. -/
theorem Parse.bind_ok {α β : Type} {x : Parse α} {f : α → Parse β} {s s'' : ParserState} {b : β}
    (h : (x >>= f) s = .ok b s'') : ∃ a s', x s = .ok a s' ∧ f a s' = .ok b s'' := by
  change EStateM.bind x f s = _ at h
  unfold EStateM.bind at h
  cases hfirst : x s with
  | error e s' =>
    rw [hfirst] at h
    cases h
  | ok a s' =>
    rw [hfirst] at h
    exact ⟨a, s', rfl, h⟩

/-- Where `Γ` is declared, the results of the parser and what is declared then are as in `Q`;
the definitions stay. -/
structure Gives {α : Type} (definitions : List Definition) (Γ : Context) (x : Parse α)
    (Q : α → Context → Prop) : Prop where
  result : ∀ {s : ParserState} {a : α} {s' : ParserState}, s.definitions = definitions →
    s.context = Γ → x s = .ok a s' → s'.definitions = definitions ∧ Q a s'.context

/-- The parser declares nothing, and its results are as in `P`. -/
abbrev Reads {α : Type} (definitions : List Definition) (Γ : Context) (x : Parse α)
    (P : α → Prop) : Prop :=
  Gives definitions Γ x fun a Γ' => Γ' = Γ ∧ P a

/-- The parser declares nothing. -/
abbrev Keeps {α : Type} (x : Parse α) : Prop := ∀ definitions Γ, Reads definitions Γ x fun _ => True

section
variable {α β : Type} {definitions : List Definition} {Γ : Context} {x : Parse α}
  {f : α → Parse β} {P : α → Prop} {Q : α → Context → Prop} {R : β → Context → Prop}

namespace Gives

theorem pure {a : α} (h : Q a Γ) : Gives definitions Γ (Pure.pure a) Q := by
  refine ⟨fun hdefinitions hΓ hrun => ?_⟩
  cases hrun
  exact ⟨hdefinitions, hΓ ▸ h⟩

/-- **A parser behind another one.** -/
theorem bind (hx : Gives definitions Γ x Q) (hf : ∀ a Γ', Q a Γ' → Gives definitions Γ' (f a) R) :
    Gives definitions Γ (x >>= f) R := by
  refine ⟨fun {s b s''} hdefinitions hΓ hrun => ?_⟩
  obtain ⟨a, s', hfirst, hrest⟩ := Parse.bind_ok hrun
  obtain ⟨hdefinitions', hQ⟩ := hx.result hdefinitions hΓ hfirst
  exact (hf a _ hQ).result hdefinitions' rfl hrest

theorem of_fails (h : x.Fails) : Gives definitions Γ x Q :=
  ⟨fun _ _ hrun => (h _ _ _ hrun).elim⟩

theorem mono {Q' : α → Context → Prop} (hx : Gives definitions Γ x Q)
    (h : ∀ a Γ', Q a Γ' → Q' a Γ') : Gives definitions Γ x Q' := by
  refine ⟨fun hdefinitions hΓ hrun => ?_⟩
  obtain ⟨hdefinitions', hQ⟩ := hx.result hdefinitions hΓ hrun
  exact ⟨hdefinitions', h _ _ hQ⟩

/-- A parser that looks at its state. -/
theorem get_bind {g : ParserState → Parse β}
    (h : ∀ s : ParserState, s.definitions = definitions → s.context = Γ →
      Gives definitions Γ (g s) R) : Gives definitions Γ (get >>= g) R :=
  ⟨fun hdefinitions hΓ hrun => (h _ hdefinitions hΓ).result hdefinitions hΓ hrun⟩

/-- A parser that fails unless a check is passed. -/
theorem check {c : Prop} [Decidable c] {y : Parse β} (hx : x.Fails)
    (h : ¬ c → Gives definitions Γ y R) : Gives definitions Γ (if c then x >>= f else y) R := by
  by_cases hc : c
  · rw [if_pos hc]
    exact bind (Q := fun _ _ => False) (of_fails hx) fun _ _ h => h.elim
  · rw [if_neg hc]
    exact h hc

end Gives

/-- A parser behind one that declares nothing. -/
theorem Reads.bind (hx : Reads definitions Γ x P)
    (hf : ∀ a, P a → Gives definitions Γ (f a) R) : Gives definitions Γ (x >>= f) R :=
  Gives.bind hx fun a _ h => h.1 ▸ hf a h.2

/-- A parser behind one whose result does not matter. -/
theorem Keeps.bind (hx : Keeps x) (hf : ∀ a, Gives definitions Γ (f a) R) :
    Gives definitions Γ (x >>= f) R :=
  Reads.bind (hx definitions Γ) fun a _ => hf a

theorem Reads.pure {a : α} (h : P a) : Reads definitions Γ (Pure.pure a) P :=
  Gives.pure ⟨rfl, h⟩

theorem Keeps.pure {a : α} : Keeps (Pure.pure a) := fun _ _ => Reads.pure trivial

theorem Keeps.run (hx : Keeps x) {s s' : ParserState} {a : α} (h : x s = .ok a s') :
    s'.definitions = s.definitions ∧ s'.context = s.context := by
  obtain ⟨hdefinitions, hΓ, _⟩ := (hx _ _).result rfl rfl h
  exact ⟨hdefinitions, hΓ⟩

/-- A step that leaves declarations as they are. -/
theorem keeps_modify {g : ParserState → ParserState}
    (h : ∀ s, (g s).definitions = s.definitions ∧ (g s).context = s.context) :
    Keeps (modify g : Parse Unit) := by
  intro definitions Γ
  refine ⟨fun {s _ _} hdefinitions hΓ hrun => ?_⟩
  cases hrun
  exact ⟨(h s).1.trans hdefinitions, (h s).2.trans hΓ, trivial⟩

end

namespace Parse

/-! ### Tokens -/

theorem fails_fail {α : Type} (token : Token) (cause : ParseCause) :
    Fails (fail token cause : Parse α) := by
  intro s a s' h
  cases h

theorem fails_failGrammar {α : Type} {token : Token} {cause : GrammarCause} :
    Fails (failGrammar token cause : Parse α) := fails_fail token _

theorem fails_failSize {α : Type} {token : Token} {cause : SizeCause} :
    Fails (failSize token cause : Parse α) := fails_fail token _

theorem fails_exhausted {α : Type} : Fails (exhausted : Parse α) := by
  intro s a s' h
  cases h

theorem keeps_answered (answer : Except LexicalError Token × TokenBuffer) :
    Keeps (answered answer) := by
  intro definitions Γ
  refine Keeps.bind (keeps_modify fun s => ⟨rfl, rfl⟩) fun _ => ?_
  cases answer.1 with
  | ok token => exact Reads.pure trivial
  | error e => exact .of_fails fun s a s' h => by cases h

theorem keeps_peek : Keeps peek := fun _ _ => .get_bind fun _ _ _ => keeps_answered _ _ _

theorem keeps_next : Keeps next := fun _ _ => .get_bind fun _ _ _ => keeps_answered _ _ _

theorem keeps_commit : Keeps commit := keeps_modify fun _ => ⟨rfl, rfl⟩

theorem keeps_report (message : Bytes) (attributes : List (Bytes × Bytes)) :
    Keeps (report message attributes) := keeps_modify fun _ => ⟨rfl, rfl⟩

theorem keeps_skipNewlinesWithin : ∀ fuel, Keeps (skipNewlinesWithin fuel)
  | 0 => fun _ _ => .of_fails fails_exhausted
  | fuel + 1 => by
    intro definitions Γ
    unfold skipNewlinesWithin
    refine Keeps.bind keeps_peek fun token => ?_
    split
    · exact Keeps.bind keeps_next fun _ => keeps_skipNewlinesWithin fuel _ _
    · exact Reads.pure trivial

theorem keeps_skipNewlines : Keeps skipNewlines :=
  fun _ _ => .get_bind fun _ _ _ => keeps_skipNewlinesWithin _ _ _

theorem keeps_expect (kind : TokenKind) (what : Bytes) : Keeps (expect kind what) := by
  intro definitions Γ
  refine Keeps.bind keeps_next fun token => ?_
  split
  · exact .of_fails fails_failGrammar
  · exact Reads.pure trivial

theorem keeps_expectSeparator : Keeps expectSeparator := by
  intro definitions Γ
  refine Keeps.bind keeps_peek fun token => ?_
  split
  · exact Keeps.bind keeps_next fun _ => Reads.pure trivial
  · exact Reads.pure trivial
  · exact .of_fails fails_failGrammar

end Parse

/-- Numbers take at most four bytes. -/
theorem length_encodeNumber {literal value : Bytes} (h : encodeNumber literal = some value) :
    value.length ≤ 4 := by
  unfold encodeNumber at h
  dsimp only at h
  split at h
  · split at h
    · cases h
    · split at h
      · cases h
      · cases h
        rw [length_bytesOf, hexSize]
        split_ifs <;> omega
  · split at h
    · cases h
    · obtain ⟨size, hsize, rfl⟩ := Option.map_eq_some_iff.mp h
      rw [length_bytesOf]
      unfold decimalSize? at hsize
      split_ifs at hsize <;> cases hsize <;> omega

namespace Context

variable {Γ : Context} {place : Place} {name : Bytes}

theorem declare?_slot {Γ' : Context} {global : Bool} {slot : Variable}
    (h : Γ.declare? global slot = some (place, Γ')) : place.slot = slot := by
  rcases @declare?_cases Γ global slot with ⟨f, _, _, hdeclare⟩ | ⟨_, hdeclare⟩
  · obtain ⟨_, _, _, rfl, _⟩ := declareLocal?_some (hdeclare.symm.trans h)
    rfl
  · obtain ⟨_, _, _, rfl, _⟩ := declareGlobal?_some (hdeclare.symm.trans h)
    rfl

theorem global?_name (h : Γ.global? name = some place) : place.slot.name = name := by
  obtain ⟨found, hlookup, rfl⟩ := Option.map_eq_some_iff.mp h
  obtain ⟨_, _, _, _, hname⟩ := VariableList.lookup?_some hlookup
  exact hname

theorem local?_name (h : Γ.local? name = some place) : place.slot.name = name := by
  obtain ⟨f, slot, offset, _, ⟨hlookup, rfl⟩ | ⟨hlookup, rfl⟩⟩ := local?_cases h <;>
    obtain ⟨_, _, _, _, hname⟩ := VariableList.lookup?_some hlookup <;>
    exact hname

theorem meaning?_name (h : Γ.meaning? name = some place) : place.slot.name = name := by
  rcases Option.or_eq_some_iff.mp h with hlocal | ⟨_, hglobal⟩
  · exact local?_name hlocal
  · exact global?_name hglobal

theorem assigned?_name {global : Bool} (h : Γ.assigned? global name = some place) :
    place.slot.name = name := by
  cases global with
  | true => exact global?_name h
  | false => exact meaning?_name h

end Context

/-! ### Rules of construction -/

/-- A function that may be called has this parameter. -/
def Context.Takes (Γ : Context) (parameter : Variable) : Prop :=
  ∃ f ∈ Γ.callables, parameter ∈ f.parameters.slots

/-- The expressions that are built where `Γ` is declared are as in `P`, with their shapes, and the
arguments for parameters as in `A`. -/
structure Context.Builds (Γ : Context) (P : Typed → Prop) (A : Variable → Expression → Prop) :
    Prop where
  number : ∀ {value : Bytes}, value.length ≤ 4 → P (.literal value, .scalar value.length)
  string : ∀ {value : Bytes}, value.length ≤ 255 →
    P (.literal value, { size := value.length, elementSize := 1, isArray := true })
  value : ∀ {place : Place}, Γ.meaning? place.slot.name = some place →
    place.slot.isReference = false → P (.load place, {
      size := place.slot.size, elementSize := place.slot.elementSize
      isArray := place.slot.isArray })
  reference : ∀ {place : Place}, Γ.meaning? place.slot.name = some place →
    place.slot.isReference = true → P (.load place, .scalar 2)
  address : ∀ {place : Place}, Γ.meaning? place.slot.name = some place →
    P (.addressOf place, .scalar 2)
  element : ∀ {place : Place} {index : Typed}, Γ.meaning? place.slot.name = some place →
    place.slot.isArray = true → P index → index.2.size = 1 ∨ index.2.size = 2 →
    P (.element place index.1 index.2.size, .scalar place.slot.elementSize)
  unary : ∀ {operator : UnaryOp} {operand : Typed} {shape : Shape}, P operand →
    unaryShape operator operand.2.size = .ok shape →
    P (.unary operator operand.1 operand.2.size, shape)
  binary : ∀ {operator : BinaryOp} {left right : Typed} {shape : Shape}, P left → P right →
    binaryShape operator left.2.size right.2.size = .ok shape →
    P (.binary operator left.1 right.1 left.2.size right.2.size, shape)
  byValue : ∀ {parameter : Variable} {argument : Typed}, parameter.isReference = false →
    P argument → argument.2.size = parameter.size → A parameter argument.1
  byReference : ∀ {parameter : Variable} {place : Place}, Γ.Takes parameter →
    parameter.isReference = true → Γ.meaning? place.slot.name = some place →
    place.slot.isArray = true → place.slot.elementSize = parameter.elementSize →
    A parameter (.addressOf place)
  call : ∀ {callee : Nat} {f : Function} {arguments : List Expression},
    Γ.callables[callee]? = some f → f.returnKnown = true →
    List.Forall₂ A f.parameters.slots arguments → P (.call callee arguments, {
      size := f.returnSize, elementSize := if f.returnArray then 1 else f.returnSize
      isArray := f.returnArray })
  systemCall : ∀ {address a x y : Typed}, P address → address.2.size = 2 →
    P a ∧ a.2.size = 1 → P x ∧ x.2.size = 1 → P y ∧ y.2.size = 1 →
    P (.systemCall address.1 a.1 x.1 y.1, .scalar 1)
  loadMemory : ∀ {size : Int} {address : Typed}, 1 ≤ size → size ≤ 255 → P address →
    address.2.size = 2 → P (.loadMemory size address.1, .scalar size)
  storeMemory : ∀ {value address : Typed}, P value → value.2.size ≠ 0 → P address →
    address.2.size = 2 → P (.storeMemory value.1 value.2.size address.1, .nothing)

/-- What is declared stays as in `I`; the statements that are built from a point to another are as
in `S`, and blocks as in `B`. -/
structure Constructs (I : Context → Prop) (P : Context → Typed → Prop)
    (A : Context → Variable → Expression → Prop) (S : Statement → Context → Context → Prop)
    (B : List Statement → Context → Context → Prop) : Prop where
  builds : ∀ {Γ : Context}, I Γ → Γ.Builds (P Γ) (A Γ)
  keeps : ∀ {Γ Γ' : Context} {statement : Statement}, I Γ → S statement Γ Γ' → I Γ'
  keepsBlock : ∀ {Γ Γ' : Context} {statements : List Statement}, I Γ → B statements Γ Γ' → I Γ'
  nil : ∀ {Γ : Context}, I Γ → B [] Γ Γ
  cons : ∀ {Γ Γ₁ Γ' : Context} {statement : Statement} {statements : List Statement},
    S statement Γ Γ₁ → B statements Γ₁ Γ' → B (statement :: statements) Γ Γ'
  assign : ∀ {Γ : Context} {global : Bool} {place : Place} {value : Typed}, I Γ →
    Γ.assigned? global place.slot.name = some place → P Γ value →
    value.2.size = place.slot.size → S (.assign place value.1) Γ Γ
  declare : ∀ {Γ Γ' : Context} {global : Bool} {name : Bytes} {place : Place} {value : Typed},
    I Γ → P Γ value → value.2.size ≠ 0 → Γ.assigned? global name = none →
    Γ.declare? global { name, size := value.2.size, elementSize := value.2.elementSize
                        isArray := value.2.isArray } = some (place, Γ') →
    S (.assign place value.1) Γ Γ'
  assignElement : ∀ {Γ : Context} {global : Bool} {place : Place} {index value : Typed}, I Γ →
    Γ.assigned? global place.slot.name = some place → place.slot.isArray = true →
    P Γ index → index.2.size = 1 ∨ index.2.size = 2 → P Γ value →
    value.2.size = place.slot.elementSize →
    S (.assignElement place index.1 index.2.size value.1) Γ Γ
  discard : ∀ {Γ : Context} {value : Typed}, I Γ → P Γ value →
    S (.discard value.1 value.2.size) Γ Γ
  ifThen : ∀ {Γ Γ' : Context} {condition : Typed} {body : List Statement}, P Γ condition →
    condition.2.size = 1 → B body Γ Γ' → S (.ifThen condition.1 body) Γ Γ'
  ifElse : ∀ {Γ Γ₁ Γ' : Context} {condition : Typed} {body otherwise : List Statement},
    P Γ condition → condition.2.size = 1 → B body Γ Γ₁ → B otherwise Γ₁ Γ' →
    S (.ifElse condition.1 body otherwise) Γ Γ'
  whileLoop : ∀ {Γ Γ' : Context} {condition : Typed} {body : List Statement}, P Γ condition →
    condition.2.size = 1 → B body Γ Γ' → S (.whileLoop condition.1 body) Γ Γ'
  giveBack : ∀ {Γ : Context} {f f' : Function} {value : Option Typed}, I Γ →
    Γ.current = some f → (∀ t ∈ value, P Γ t) →
    f.setReturn ((value.map Prod.snd).getD .nothing).size
      ((value.map Prod.snd).getD .nothing).isArray = .ok f' →
    S (.giveBack (value.map Prod.fst)) Γ { Γ with current := some f' }

namespace Parse

/-! ### Expressions -/

section
variable {definitions : List Definition} {Γ : Context} {P : Typed → Prop}
  {A : Variable → Expression → Prop}

/-- A token that names a variable names one that is declared. -/
theorem tokenPlace?_meaning {s : ParserState} {token : Token} {place : Place} (hs : s.context = Γ)
    (h : s.tokenPlace? token = some place) : Γ.meaning? place.slot.name = some place := by
  unfold ParserState.tokenPlace? at h
  split at h
  · rw [ParserState.place?_eq, hs] at h
    rwa [Context.meaning?_name h]
  · cases h

section
variable {expression : Parse (Option Typed)}
  (hexpression : Reads definitions Γ expression fun r => ∀ t ∈ r, P t)
include hexpression

theorem built_required (after : Bytes) : Reads definitions Γ (required expression after) P := by
  refine Keeps.bind keeps_peek fun token => Reads.bind hexpression fun result hresult => ?_
  cases result with
  | none => exact .of_fails fails_failGrammar
  | some typed => exact Reads.pure (hresult typed rfl)

theorem built_index : Reads definitions Γ (index expression)
    fun t => P t ∧ (t.2.size = 1 ∨ t.2.size = 2) := by
  unfold index
  refine Keeps.bind keeps_next fun bracket => ?_
  refine Reads.bind (built_required hexpression _) fun typed htyped => ?_
  refine .check fails_failSize fun hsize => ?_
  refine Keeps.bind (keeps_expect _ _) fun _ => Reads.pure ⟨htyped, ?_⟩
  have hneither : ¬ (typed.2.size ≠ 1 ∧ typed.2.size ≠ 2) := by simpa using hsize
  show typed.2.size = 1 ∨ typed.2.size = 2
  omega

theorem built_memoryAddress (builtin : Bytes) :
    Reads definitions Γ (memoryAddress expression builtin)
      fun e => ∃ t, (P t ∧ t.2.size = 2) ∧ t.1 = e := by
  unfold memoryAddress
  refine Keeps.bind keeps_peek fun token => ?_
  refine Reads.bind (built_required hexpression _) fun typed htyped => ?_
  refine .check fails_failSize fun hsize => Reads.pure ⟨typed, ⟨htyped, ?_⟩, rfl⟩
  simpa using hsize

variable (hrules : Γ.Builds P A)
include hrules

theorem built_argument (function : Bytes) {parameter : Variable}
    (hparameter : Γ.Takes parameter) :
    Reads definitions Γ (argument expression function parameter) (A parameter) := by
  unfold argument
  refine Keeps.bind keeps_peek fun token => ?_
  cases hreference : parameter.isReference with
  | false =>
    simp only [Bool.not_false, if_true]
    refine Reads.bind (built_required hexpression _) fun typed htyped => ?_
    refine .check fails_failSize fun hsize => Reads.pure ?_
    exact hrules.byValue hreference htyped (Decidable.not_not.mp hsize)
  | true =>
    simp only [Bool.not_true, Bool.false_eq_true, if_false]
    refine .get_bind fun s _ hs => ?_
    cases hplace : (s.tokenPlace? token).filter (·.slot.isArray) with
    | none => exact .of_fails fails_failSize
    | some place =>
      obtain ⟨hfound, harray⟩ := Option.filter_eq_some_iff.mp hplace
      refine .check fails_failSize fun helement => Keeps.bind keeps_next fun _ => Reads.pure ?_
      exact hrules.byReference hparameter hreference (tokenPlace?_meaning hs hfound) harray
        (Decidable.not_not.mp helement)

theorem built_moreArguments (function : Bytes) (count : Nat) : ∀ {parameters : List Variable},
    (∀ v ∈ parameters, Γ.Takes v) →
    Reads definitions Γ (moreArguments expression function count parameters)
      (List.Forall₂ A parameters)
  | [], _ => Reads.pure .nil
  | parameter :: parameters, h => by
    unfold moreArguments
    refine Keeps.bind keeps_next fun token => .check fails_failGrammar fun _ => ?_
    refine Reads.bind (built_argument hexpression hrules function (h _ List.mem_cons_self))
      fun e he => ?_
    refine Reads.bind (built_moreArguments function count
      fun v hv => h v (List.mem_cons_of_mem _ hv)) fun es hes => ?_
    exact Reads.pure (.cons he hes)

theorem built_arguments (function : Bytes) {parameters : List Variable}
    (h : ∀ v ∈ parameters, Γ.Takes v) :
    Reads definitions Γ (arguments expression function parameters)
      (List.Forall₂ A parameters) := by
  unfold arguments
  cases parameters with
  | nil => exact Reads.pure .nil
  | cons first rest =>
    refine Reads.bind (built_argument hexpression hrules function (h _ List.mem_cons_self))
      fun e he => ?_
    refine Reads.bind (built_moreArguments hexpression hrules function _
      fun v hv => h v (List.mem_cons_of_mem _ hv)) fun es hes => ?_
    exact Reads.pure (.cons he hes)

theorem built_call {callee : Nat} {f : Function} (hf : Γ.callables[callee]? = some f) :
    Reads definitions Γ (call expression callee f) fun r => ∀ t ∈ r, P t := by
  unfold call
  refine Keeps.bind keeps_next fun nameToken => Keeps.bind (keeps_expect _ _) fun _ => ?_
  refine Reads.bind (built_arguments hexpression hrules f.name
    fun v hv => ⟨f, List.mem_of_getElem? hf, hv⟩) fun values hvalues => ?_
  refine Keeps.bind keeps_next fun token => ?_
  refine .check fails_failGrammar fun _ => .check fails_failGrammar fun _ => ?_
  refine .check fails_failSize fun hknown => Reads.pure ?_
  rintro _ ⟨⟩
  exact hrules.call hf (by simpa using hknown) hvalues

omit hexpression in
theorem built_zero : P (.literal [0], .scalar 1) :=
  @Context.Builds.number _ _ _ hrules [0] (by simp)

theorem built_registers : ∀ count : Nat, Reads definitions Γ (registers expression count)
    fun es => ∀ i, ∃ t, (P t ∧ t.2.size = 1) ∧ t.1 = es.getD i (.literal [0])
  | 0 => Reads.pure fun i => ⟨_, ⟨built_zero hrules, rfl⟩, rfl⟩
  | count + 1 => by
    unfold registers
    refine Keeps.bind keeps_peek fun comma => ?_
    split
    · refine Keeps.bind keeps_next fun _ => Keeps.bind keeps_peek fun token => ?_
      refine Reads.bind (built_required hexpression _) fun typed htyped => ?_
      refine .check fails_failSize fun hsize => ?_
      refine Reads.bind (built_registers count) fun es hes => Reads.pure fun i => ?_
      cases i with
      | zero => exact ⟨typed, ⟨htyped, by simpa using hsize⟩, rfl⟩
      | succ i => exact hes i
    · refine Reads.pure fun i => ⟨_, ⟨built_zero hrules, rfl⟩, ?_⟩
      rw [List.getD_eq_getElem?_getD, List.getElem?_replicate]
      split <;> rfl

theorem built_systemCall :
    Reads definitions Γ (systemCall expression) fun r => ∀ t ∈ r, P t := by
  unfold systemCall
  refine Keeps.bind keeps_next fun word => Keeps.bind (keeps_expect _ _) fun _ => ?_
  refine Keeps.bind keeps_peek fun token => Reads.bind hexpression fun result hresult => ?_
  cases result with
  | none => exact .of_fails fails_failGrammar
  | some address =>
    refine .check fails_failSize fun hsize => ?_
    refine Reads.bind (built_registers hexpression hrules 3) fun given hgiven => ?_
    refine Keeps.bind (keeps_expect _ _) fun _ => Reads.pure ?_
    rintro _ ⟨⟩
    obtain ⟨a, ha, hfirst⟩ := hgiven 0
    obtain ⟨x, hx, hsecond⟩ := hgiven 1
    obtain ⟨y, hy, hthird⟩ := hgiven 2
    have hcall := hrules.systemCall (hresult address rfl) (by simpa using hsize) ha hx hy
    rwa [hfirst, hsecond, hthird] at hcall

theorem built_loadMemory :
    Reads definitions Γ (loadMemory expression) fun r => ∀ t ∈ r, P t := by
  unfold loadMemory
  refine Keeps.bind keeps_next fun _ => Keeps.bind (keeps_expect _ _) fun _ => ?_
  refine Keeps.bind keeps_next fun token => ?_
  cases hsize : loadSize? token with
  | none => exact .of_fails fails_failGrammar
  | some size =>
    refine Keeps.bind (keeps_expect _ _) fun _ => ?_
    refine Reads.bind (built_memoryAddress hexpression _) fun e he => ?_
    refine Keeps.bind (keeps_expect _ _) fun _ => Reads.pure ?_
    rintro _ ⟨⟩
    obtain ⟨address, ⟨haddress, htwo⟩, rfl⟩ := he
    unfold loadSize? at hsize
    split at hsize
    · have hrange := (Option.filter_eq_some_iff.mp hsize).2
      rw [Bool.and_eq_true] at hrange
      exact hrules.loadMemory (of_decide_eq_true hrange.1) (of_decide_eq_true hrange.2) haddress
        htwo
    · cases hsize

theorem built_storeMemory :
    Reads definitions Γ (storeMemory expression) fun r => ∀ t ∈ r, P t := by
  unfold storeMemory
  refine Keeps.bind keeps_next fun word => Keeps.bind (keeps_expect _ _) fun _ => ?_
  refine Reads.bind (built_required hexpression _) fun value hvalue => ?_
  refine .check fails_failSize fun hsize => Keeps.bind (keeps_expect _ _) fun _ => ?_
  refine Reads.bind (built_memoryAddress hexpression _) fun e he => ?_
  refine Keeps.bind (keeps_expect _ _) fun _ => Reads.pure ?_
  rintro _ ⟨⟩
  obtain ⟨address, ⟨haddress, htwo⟩, rfl⟩ := he
  exact hrules.storeMemory hvalue hsize haddress htwo

omit hexpression in
theorem built_addressOf : Reads definitions Γ addressOf fun r => ∀ t ∈ r, P t := by
  unfold addressOf
  refine Keeps.bind keeps_next fun _ => Keeps.bind (keeps_expect _ _) fun _ => ?_
  refine Keeps.bind keeps_next fun token => .get_bind fun s _ hs => ?_
  cases hplace : s.tokenPlace? token with
  | none => exact .of_fails fails_failGrammar
  | some place =>
    refine Keeps.bind (keeps_expect _ _) fun _ => Reads.pure ?_
    rintro _ ⟨⟩
    exact hrules.address (tokenPlace?_meaning hs hplace)

theorem built_variableOperand (token : Token) :
    Reads definitions Γ (variableOperand expression token) fun r => ∀ t ∈ r, P t := by
  unfold variableOperand
  refine .get_bind fun s _ hs => ?_
  cases hplace : s.place? token.literal with
  | none => exact .of_fails fails_failGrammar
  | some place =>
    rw [ParserState.place?_eq, hs] at hplace
    have hfound : Γ.meaning? place.slot.name = some place := by
      rwa [Context.meaning?_name hplace]
    refine Keeps.bind keeps_next fun _ => Keeps.bind keeps_peek fun after => ?_
    dsimp only
    split
    · refine .check fails_failSize fun harray => ?_
      refine Reads.bind (built_index hexpression) fun index hindex => Reads.pure ?_
      rintro _ ⟨⟩
      exact hrules.element hfound (by simpa using harray) hindex.1 hindex.2
    · split
      next hreference =>
        refine Reads.pure ?_
        rintro _ ⟨⟩
        exact hrules.reference hfound hreference
      next hreference =>
        refine Reads.pure ?_
        rintro _ ⟨⟩
        exact hrules.value hfound (by simpa using hreference)

theorem built_wordOperand (token : Token) :
    Reads definitions Γ (wordOperand expression token) fun r => ∀ t ∈ r, P t := by
  have hconstant (b : UInt8) : Reads definitions Γ (do
      let _ ← next
      return some (.literal [b], .scalar 1) : Parse (Option Typed)) fun r => ∀ t ∈ r, P t := by
    refine Keeps.bind keeps_next fun _ => Reads.pure ?_
    rintro _ ⟨⟩
    exact @Context.Builds.number _ _ _ hrules [b] (by simp)
  unfold wordOperand
  dsimp only
  split
  · exact hconstant 0xff
  split
  · exact hconstant 0
  split
  · exact built_systemCall hexpression hrules
  split
  · exact built_addressOf hrules
  split
  · exact built_loadMemory hexpression hrules
  split
  · exact built_storeMemory hexpression hrules
  split
  · exact Reads.pure (by simp)
  refine .get_bind fun s _ hs => ?_
  cases hcallee : s.callee? token.literal with
  | none => exact built_variableOperand hexpression hrules token
  | some found =>
    have hf := s.callee?_some token.literal hcallee
    rw [hs] at hf
    exact built_call hexpression hrules hf

theorem built_operand : Reads definitions Γ (operand expression) fun r => ∀ t ∈ r, P t := by
  unfold operand
  refine Keeps.bind keeps_peek fun token => ?_
  split
  · refine Keeps.bind keeps_next fun _ => ?_
    cases hvalue : encodeNumber token.literal with
    | none => exact .of_fails fails_failSize
    | some value =>
      refine Reads.pure ?_
      rintro _ ⟨⟩
      exact hrules.number (length_encodeNumber hvalue)
  · refine Keeps.bind keeps_next fun _ => .check fails_failSize fun hlength => Reads.pure ?_
    have hle : ¬ (255 : Int) < token.value.length := hlength
    rintro _ ⟨⟩
    exact hrules.string (by omega)
  · refine Keeps.bind keeps_next fun _ => ?_
    refine Reads.bind (built_required hexpression _) fun typed htyped => ?_
    refine Keeps.bind (keeps_expect _ _) fun _ => Reads.pure ?_
    rintro _ ⟨⟩
    exact htyped
  · exact built_wordOperand hexpression hrules token
  · exact Reads.pure (by simp)

omit hexpression hrules in
theorem reads_checked {α : Type} (token : Token) (check : Except SizeCause α) :
    Reads definitions Γ (checked token check) fun a => check = .ok a := by
  cases check with
  | error cause => exact .of_fails fails_failSize
  | ok a => exact Reads.pure rfl

theorem built_chain : Reads definitions Γ (chain expression) fun r => ∀ t ∈ r, P t := by
  unfold chain
  refine Reads.bind (built_operand hexpression hrules) fun result hresult => ?_
  cases result with
  | none => exact Reads.pure (by simp)
  | some left =>
    refine Keeps.bind keeps_peek fun token => ?_
    dsimp only
    cases token.binaryOp? with
    | none => exact Reads.pure hresult
    | some operator =>
      refine Keeps.bind keeps_next fun _ => ?_
      refine Reads.bind (built_required hexpression _) fun right hright => ?_
      refine Reads.bind (reads_checked token _) fun shape hshape => Reads.pure ?_
      rintro _ ⟨⟩
      exact hrules.binary (hresult left rfl) hright hshape

theorem built_signedChain :
    Reads definitions Γ (signedChain expression) fun r => ∀ t ∈ r, P t := by
  unfold signedChain
  refine Keeps.bind keeps_peek fun token => ?_
  cases token.unaryOp? with
  | none => exact built_chain hexpression hrules
  | some operator =>
    refine Keeps.bind keeps_next fun _ => ?_
    refine Reads.bind (built_chain hexpression hrules) fun result hresult => ?_
    cases result with
    | none => exact Keeps.bind keeps_peek fun _ => .of_fails fails_failGrammar
    | some operand =>
      refine Reads.bind (reads_checked token _) fun shape hshape => Reads.pure ?_
      rintro _ ⟨⟩
      exact hrules.unary (hresult operand rfl) hshape

end

theorem built_expressionWithin (hrules : Γ.Builds P A) : ∀ fuel : Nat,
    Reads definitions Γ (expressionWithin fuel) fun r => ∀ t ∈ r, P t
  | 0 => .of_fails fails_exhausted
  | fuel + 1 => built_signedChain (built_expressionWithin hrules fuel) hrules

/-- **What has the rules of expressions holds of every expression that is parsed.** -/
theorem built_expression (hrules : Γ.Builds P A) :
    Reads definitions Γ expression fun r => ∀ t ∈ r, P t :=
  .get_bind fun _ _ _ => built_expressionWithin hrules _

end

/-! ### Statements -/

section
variable {definitions : List Definition} {Γ : Context}

/-- A step that changes what is declared. -/
theorem gives_modify {g : ParserState → ParserState} {Q : Unit → Context → Prop}
    (h : ∀ s, s.context = Γ → (g s).definitions = s.definitions ∧ Q ⟨⟩ (g s).context) :
    Gives definitions Γ (modify g) Q := by
  refine ⟨fun {s _ _} hdefinitions hΓ hrun => ?_⟩
  cases hrun
  obtain ⟨hsame, hQ⟩ := h s hΓ
  exact ⟨hsame.trans hdefinitions, hQ⟩

theorem declare_global {token : Token} {global : Bool} {slot : Variable} {s : ParserState}
    (h : global = true ∨ s.current = none) :
    declare token global slot s = (match s.globals.add slot with
      | .error error => failSize token (.symbol error)
      | .ok (offset, globals) => do
        set { s with globals }
        return { scope := .globals, slot, offset } : Parse Place) s := by
  obtain ⟨_, _, _, _, _, _, current, _⟩ := s
  rcases h with rfl | rfl
  · cases current <;> rfl
  · rfl

theorem gives_declare (token : Token) (global : Bool) (slot : Variable) :
    Gives definitions Γ (declare token global slot)
      fun place Γ' => Γ.declare? global slot = some (place, Γ') := by
  refine ⟨fun {s place s'} hdefinitions hΓ hrun => ?_⟩
  subst hΓ
  rcases @Context.declare?_cases s.context global slot with
    ⟨f, rfl, hcurrent, hdeclare⟩ | ⟨hother, hdeclare⟩
  · replace hcurrent : s.current = some f := hcurrent
    obtain ⟨_, _, hget, hrun⟩ := bind_ok hrun
    cases hget
    rw [hdeclare, Context.declareLocal?]
    rw [hcurrent] at hrun
    cases hadd : f.locals.add slot with
    | error e =>
      simp only [hadd] at hrun
      cases hrun
    | ok added =>
      simp only [hadd] at hrun
      cases hrun
      exact ⟨hdefinitions, rfl⟩
  · rw [hdeclare, Context.declareGlobal?]
    rw [declare_global hother] at hrun
    cases hadd : s.globals.add slot with
    | error e =>
      rw [hadd] at hrun
      cases hrun
    | ok added =>
      rw [hadd] at hrun
      cases hrun
      have hadd' : s.context.globals.add slot = .ok added := hadd
      rw [hadd']
      exact ⟨hdefinitions, rfl⟩

end

theorem keeps_globalWord : Keeps globalWord := by
  intro definitions Γ
  unfold globalWord
  refine Keeps.bind keeps_peek fun token => ?_
  split
  · refine .get_bind fun s _ _ => .check fails_failGrammar fun _ => ?_
    exact Keeps.bind keeps_next fun _ => Reads.pure trivial
  · exact Reads.pure trivial

/-- An assignment, or no statement and nothing declared. -/
def Assigned (S : Statement → Context → Context → Prop) (Γ : Context) :
    Option Statement → Context → Prop
  | some statement, Γ' => S statement Γ Γ'
  | none, Γ' => Γ' = Γ

section
variable {I : Context → Prop} {P : Context → Typed → Prop}
  {A : Context → Variable → Expression → Prop} {S : Statement → Context → Context → Prop}
  {B : List Statement → Context → Context → Prop} {definitions : List Definition} {Γ : Context}
  (hrules : Constructs I P A S B)
include hrules

section
variable (hΓ : I Γ)
include hΓ

theorem constructed_value : Reads definitions Γ expression fun r => ∀ t ∈ r, P Γ t :=
  built_expression (hrules.builds hΓ)

theorem constructed_elementAssignment (nameToken : Token) (global : Bool) :
    Gives definitions Γ (elementAssignment nameToken global) (Assigned S Γ) := by
  have hexpression := @constructed_value _ _ _ _ _ definitions _ hrules hΓ
  unfold elementAssignment
  refine .get_bind fun s _ hs => ?_
  cases hplace : (s.assignedPlace? global nameToken.literal).filter (·.slot.isArray) with
  | none => exact .pure rfl
  | some place =>
    obtain ⟨hfound, harray⟩ := Option.filter_eq_some_iff.mp hplace
    rw [ParserState.assignedPlace?_eq, hs] at hfound
    refine Reads.bind (built_index hexpression) fun index hindex => ?_
    refine Keeps.bind keeps_peek fun token => ?_
    dsimp only
    split
    · exact .pure rfl
    refine Keeps.bind keeps_next fun _ => ?_
    refine Reads.bind (built_required hexpression _) fun value hvalue => ?_
    refine .check fails_failSize fun hsize => .pure ?_
    rw [← Context.assigned?_name hfound] at hfound
    exact hrules.assignElement hΓ hfound harray hindex.1 hindex.2 hvalue
      (Decidable.not_not.mp hsize)

theorem constructed_variableAssignment (nameToken : Token) (global : Bool) :
    Gives definitions Γ (variableAssignment nameToken global) (Assigned S Γ) := by
  unfold variableAssignment
  refine Keeps.bind keeps_next fun _ => ?_
  refine Reads.bind (built_required (constructed_value hrules hΓ) _) fun value hvalue => ?_
  refine .get_bind fun s _ hs => ?_
  cases hplace : s.assignedPlace? global nameToken.literal with
  | some place =>
    rw [ParserState.assignedPlace?_eq, hs] at hplace
    refine .check fails_failSize fun hsize => .pure ?_
    rw [← Context.assigned?_name hplace] at hplace
    exact hrules.assign hΓ hplace hvalue (Decidable.not_not.mp hsize).symm
  | none =>
    rw [ParserState.assignedPlace?_eq, hs] at hplace
    refine .check fails_failSize fun hsize => ?_
    refine .bind (gives_declare nameToken global _) fun place Γ' hdeclare => .pure ?_
    exact hrules.declare hΓ hvalue hsize hplace hdeclare

theorem constructed_assignment (global : Bool) :
    Gives definitions Γ (assignment global) (Assigned S Γ) := by
  unfold assignment
  refine Keeps.bind keeps_next fun nameToken => ?_
  split
  · exact .pure rfl
  refine .get_bind fun s _ _ => ?_
  split
  · exact .pure rfl
  refine Keeps.bind keeps_peek fun token => ?_
  split
  · exact constructed_elementAssignment hrules hΓ nameToken global
  split
  · exact constructed_variableAssignment hrules hΓ nameToken global
  · exact .pure rfl

theorem constructed_tryAssignment (global : Bool) :
    Gives definitions Γ (tryAssignment global) (Assigned S Γ) := by
  unfold tryAssignment
  refine .get_bind fun s _ _ => ?_
  refine .bind (constructed_assignment hrules hΓ global) fun result Γ' hresult => ?_
  cases result with
  | some statement => exact .pure hresult
  | none => exact Keeps.bind (keeps_modify fun _ => ⟨rfl, rfl⟩) fun _ => .pure hresult

theorem constructed_simpleStatement :
    Gives definitions Γ simpleStatement fun statement Γ' => S statement Γ Γ' := by
  unfold simpleStatement
  refine Keeps.bind keeps_globalWord fun global => ?_
  refine .bind (constructed_tryAssignment hrules hΓ global) fun result Γ' hresult => ?_
  cases result with
  | some statement => exact Keeps.bind keeps_expectSeparator fun _ => .pure hresult
  | none =>
    rw [show Γ' = Γ from hresult]
    refine Keeps.bind keeps_peek fun token => .check fails_failGrammar fun _ => ?_
    refine Reads.bind (constructed_value hrules hΓ) fun value hvalue => ?_
    cases value with
    | none => exact .of_fails fails_failGrammar
    | some value =>
      refine Keeps.bind keeps_expectSeparator fun _ => .pure ?_
      exact hrules.discard hΓ (hvalue value rfl)

theorem constructed_condition (keyword : Bytes) :
    Reads definitions Γ (condition keyword) fun e => ∃ t, (P Γ t ∧ t.2.size = 1) ∧ t.1 = e := by
  unfold condition
  refine Keeps.bind keeps_peek fun token => ?_
  refine Reads.bind (constructed_value hrules hΓ) fun value hvalue => ?_
  cases value with
  | none => exact .of_fails fails_failGrammar
  | some value =>
    refine .check fails_failSize fun hsize => Reads.pure ⟨value, ⟨hvalue value rfl, ?_⟩, rfl⟩
    simpa using hsize

/-- What is left to do once the value of a return statement is known. -/
theorem constructed_setReturn {f : Function} (hcurrent : Γ.current = some f) {word : Token}
    {typed : Option Typed} (htyped : ∀ t ∈ typed, P Γ t) :
    Gives definitions Γ (match f.setReturn ((typed.map Prod.snd).getD Shape.nothing).size
        ((typed.map Prod.snd).getD Shape.nothing).isArray with
      | .error error => failSize word (.symbol error)
      | .ok f => do
        modify fun s => { s with current := some f }
        expectSeparator
        return Statement.giveBack (typed.map Prod.fst))
      fun statement Γ' => S statement Γ Γ' := by
  cases hreturn : f.setReturn ((typed.map Prod.snd).getD Shape.nothing).size
      ((typed.map Prod.snd).getD Shape.nothing).isArray with
  | error e => exact .of_fails fails_failSize
  | ok f' =>
    refine .bind (gives_modify (Q := fun _ Γ' => Γ' = { Γ with current := some f' })
      fun s hs => ⟨rfl, hs ▸ rfl⟩) ?_
    rintro _ _ rfl
    refine Keeps.bind keeps_expectSeparator fun _ => .pure ?_
    exact hrules.giveBack hΓ hcurrent htyped hreturn

theorem constructed_giveBack :
    Gives definitions Γ giveBack fun statement Γ' => S statement Γ Γ' := by
  unfold giveBack
  refine Keeps.bind keeps_next fun word => .get_bind fun s _ hs => ?_
  cases hcurrent : s.current with
  | none => exact .of_fails fails_failGrammar
  | some f =>
    replace hcurrent : Γ.current = some f := by
      rw [← hs]
      exact hcurrent
    refine Keeps.bind keeps_peek fun token => ?_
    dsimp only
    split
    · exact Reads.bind (Reads.pure (P := fun typed => typed = none) rfl)
        fun typed htyped => constructed_setReturn hrules hΓ hcurrent (by simp [htyped])
    · refine Reads.bind (constructed_value hrules hΓ) fun value hvalue => ?_
      cases value with
      | none =>
        exact .bind (Q := fun _ _ => False) (.of_fails fails_failGrammar) fun _ _ h => h.elim
      | some typed =>
        exact Reads.bind (Reads.pure (P := fun t => t = some typed) rfl)
          fun t ht => constructed_setReturn hrules hΓ hcurrent (ht ▸ hvalue)

end

section
variable {statement : Parse Statement}
  (hstatement : ∀ {Γ : Context}, I Γ →
    Gives definitions Γ statement fun statement Γ' => S statement Γ Γ')
include hstatement

theorem constructed_blockRest : ∀ (fuel : Nat) {Γ : Context}, I Γ →
    Gives definitions Γ (blockRest statement fuel) fun block Γ' => B block Γ Γ'
  | 0, _, _ => .of_fails fails_exhausted
  | fuel + 1, Γ, hΓ => by
    unfold blockRest
    refine Keeps.bind keeps_skipNewlines fun token => ?_
    split
    · exact Keeps.bind keeps_next fun _ => .pure (hrules.nil hΓ)
    · exact .of_fails fails_failGrammar
    · refine .check fails_failGrammar fun _ => ?_
      refine .bind (hstatement hΓ) fun first Γ₁ hfirst => ?_
      refine .bind (constructed_blockRest fuel (hrules.keeps hΓ hfirst)) fun rest Γ₂ hrest => ?_
      exact .pure (hrules.cons hfirst hrest)

theorem constructed_block {Γ : Context} (hΓ : I Γ) :
    Gives definitions Γ (block statement) fun block Γ' => B block Γ Γ' := by
  unfold block
  refine Keeps.bind keeps_skipNewlines fun token => .check fails_failGrammar fun _ => ?_
  refine Keeps.bind keeps_next fun _ => .get_bind fun _ _ _ => ?_
  exact constructed_blockRest hrules hstatement _ hΓ

theorem constructed_conditional {Γ : Context} (hΓ : I Γ) :
    Gives definitions Γ (conditional statement) fun statement Γ' => S statement Γ Γ' := by
  unfold conditional
  refine Keeps.bind keeps_next fun _ => ?_
  refine Reads.bind (constructed_condition hrules hΓ _) fun e he => ?_
  obtain ⟨condition, ⟨hcondition, hsize⟩, rfl⟩ := he
  refine Keeps.bind keeps_expectSeparator fun _ => ?_
  refine .bind (constructed_block hrules hstatement hΓ) fun body Γ₁ hbody => ?_
  refine Keeps.bind keeps_peek fun token => ?_
  split
  · refine Keeps.bind keeps_next fun _ => Keeps.bind keeps_expectSeparator fun _ => ?_
    refine .bind (constructed_block hrules hstatement (hrules.keepsBlock hΓ hbody))
      fun otherwise Γ₂ hother => .pure ?_
    exact hrules.ifElse hcondition hsize hbody hother
  · exact .pure (hrules.ifThen hcondition hsize hbody)

theorem constructed_loop {Γ : Context} (hΓ : I Γ) :
    Gives definitions Γ (loop statement) fun statement Γ' => S statement Γ Γ' := by
  unfold loop
  refine Keeps.bind keeps_next fun _ => ?_
  refine Reads.bind (constructed_condition hrules hΓ _) fun e he => ?_
  obtain ⟨condition, ⟨hcondition, hsize⟩, rfl⟩ := he
  refine Keeps.bind keeps_expectSeparator fun _ => ?_
  refine .bind (constructed_block hrules hstatement hΓ) fun body Γ₁ hbody => .pure ?_
  exact hrules.whileLoop hcondition hsize hbody

theorem constructed_anyStatement {Γ : Context} (hΓ : I Γ) :
    Gives definitions Γ (anyStatement statement) fun statement Γ' => S statement Γ Γ' := by
  unfold anyStatement
  refine Keeps.bind keeps_peek fun token => ?_
  split
  · exact .of_fails fails_failGrammar
  split
  · exact constructed_conditional hrules hstatement hΓ
  split
  · exact constructed_loop hrules hstatement hΓ
  split
  · exact constructed_giveBack hrules hΓ
  · exact constructed_simpleStatement hrules hΓ

end

theorem constructed_statementWithin : ∀ (fuel : Nat) {Γ : Context}, I Γ →
    Gives definitions Γ (statementWithin fuel) fun statement Γ' => S statement Γ Γ'
  | 0, _, _ => .of_fails fails_exhausted
  | fuel + 1, _, hΓ => constructed_anyStatement hrules
      (fun hΓ => constructed_statementWithin fuel hΓ) hΓ

/-- **What has the rules of statements holds of every statement that is parsed.** -/
theorem constructed_statement {Γ : Context} (hΓ : I Γ) :
    Gives definitions Γ statement fun statement Γ' => S statement Γ Γ' :=
  .get_bind fun _ _ _ => constructed_statementWithin hrules _ hΓ

/-- The body of a function. -/
theorem constructed_body {Γ : Context} (hΓ : I Γ) :
    Gives definitions Γ (block statement) fun body Γ' => B body Γ Γ' :=
  constructed_block hrules (constructed_statement hrules) hΓ

/-- The main block of a program. -/
theorem constructed_mainWithin : ∀ (fuel : Nat) {Γ : Context}, I Γ →
    Gives definitions Γ (mainWithin fuel) fun main Γ' => B main Γ Γ'
  | 0, _, _ => .of_fails fails_exhausted
  | fuel + 1, Γ, hΓ => by
    unfold mainWithin
    refine Keeps.bind keeps_skipNewlines fun token => ?_
    split
    · exact .pure (hrules.nil hΓ)
    refine .check fails_failGrammar fun _ => ?_
    refine .bind (constructed_statement hrules hΓ) fun first Γ₁ hfirst => ?_
    refine Keeps.bind keeps_commit fun _ => ?_
    refine .bind (constructed_mainWithin fuel (hrules.keeps hΓ hfirst)) fun rest Γ₂ hrest => ?_
    exact .pure (hrules.cons hfirst hrest)

end

/-! ### Parameters -/

section
variable {Q : VariableList → Prop} {definitions : List Definition} {Γ : Context}
  (hadd : ∀ {parameters parameters' : VariableList} {offset : Int} {name typeName : Bytes}
    {type : ParameterType}, Q parameters → ParameterType.ofName? typeName = some type →
    parameters.add {
      name, size := type.size, elementSize := type.elementSize, isArray := type.isArray
      isReference := type.isArray } = .ok (offset, parameters') → Q parameters')
include hadd

theorem built_parameter {parameters : VariableList} (h : Q parameters) :
    Reads definitions Γ (parameter parameters) Q := by
  unfold parameter
  refine Keeps.bind keeps_next fun nameToken => .check fails_failGrammar fun _ => ?_
  refine Keeps.bind (keeps_expect _ _) fun _ => Keeps.bind keeps_next fun typeToken => ?_
  dsimp only
  cases htype : (if typeToken.kind = .identifier then
      ParameterType.ofName? typeToken.literal else none) with
  | none => exact .of_fails fails_failGrammar
  | some type =>
    refine Keeps.bind (keeps_expect _ _) fun _ => .check fails_failGrammar fun _ => ?_
    cases hnew : parameters.add {
        name := nameToken.literal, size := type.size, elementSize := type.elementSize
        isArray := type.isArray, isReference := type.isArray } with
    | error e => exact .of_fails fails_failSize
    | ok added =>
      refine Reads.pure ?_
      split at htype
      · exact hadd h htype hnew
      · cases htype

/-- **What has the rule of parameters holds of all that are parsed.** -/
theorem built_parametersWithin : ∀ (fuel : Nat) {parameters : VariableList}, Q parameters →
    Reads definitions Γ (parametersWithin fuel parameters) Q
  | 0, _, _ => .of_fails fails_exhausted
  | fuel + 1, parameters, h => by
    unfold parametersWithin
    refine Keeps.bind keeps_peek fun token => ?_
    split
    · exact Reads.bind (built_parameter hadd h) fun more hmore => built_parametersWithin fuel hmore
    · exact Reads.pure h

end

theorem keeps_functionName : Keeps functionName := by
  intro definitions Γ
  unfold functionName
  refine Keeps.bind keeps_next fun token => .check fails_failGrammar fun _ => ?_
  refine .get_bind fun s _ _ => .check fails_failGrammar fun _ => ?_
  exact .check fails_failGrammar fun _ => Reads.pure trivial

end Parse

/-! ### Definitions and programs -/

/-- What was parsed so far is as in `J`, and no function is open. -/
structure ParserState.Settled (J : List Definition → VariableList → Prop) (s : ParserState) :
    Prop where
  outside : s.current = none
  holds : J s.definitions s.globals

theorem ParserState.Settled.context_eq {J : List Definition → VariableList → Prop}
    {s : ParserState} (h : s.Settled J) :
    s.context = { globals := s.globals, functions := s.definitions.map (·.function) } := by
  rw [ParserState.context, h.outside]

/-- A parser between function definitions. -/
structure Settles (J : List Definition → VariableList → Prop) {α : Type} (x : Parse α) :
    Prop where
  result : ∀ {s : ParserState} {a : α} {s' : ParserState}, s.Settled J → x s = .ok a s' →
    s'.Settled J

namespace Settles

variable {α β : Type} {J : List Definition → VariableList → Prop} {x : Parse α} {f : α → Parse β}

theorem of_keeps (hx : Keeps x) : Settles J x := by
  refine ⟨fun {s a s'} hs hrun => ?_⟩
  obtain ⟨hdefinitions, hcontext⟩ := hx.run hrun
  refine ⟨?_, ?_⟩
  · exact (congrArg Context.current hcontext).trans hs.outside
  · rw [hdefinitions, show s'.globals = s.globals from congrArg Context.globals hcontext]
    exact hs.holds

theorem of_fails (hx : x.Fails) : Settles J x := ⟨fun _ hrun => (hx _ _ _ hrun).elim⟩

theorem bind (hx : Settles J x) (hf : ∀ a, Settles J (f a)) : Settles J (x >>= f) := by
  refine ⟨fun hs hrun => ?_⟩
  obtain ⟨a, s', hfirst, hrest⟩ := Parse.bind_ok hrun
  exact (hf a).result (hx.result hs hfirst) hrest

theorem pure {a : α} : Settles J (Pure.pure a) := of_keeps Keeps.pure

theorem get_bind {g : ParserState → Parse β} (h : ∀ s, Settles J (g s)) :
    Settles J (get >>= g) :=
  ⟨fun hs hrun => (h _).result hs hrun⟩

theorem modify {g : ParserState → ParserState}
    (h : ∀ s, (g s).definitions = s.definitions ∧ (g s).context = s.context) :
    Settles J (modify g : Parse Unit) := of_keeps (keeps_modify h)

end Settles

namespace Parse

section
variable {J : List Definition → VariableList → Prop}

/-- A function ends, if it can join the definitions. -/
theorem finishFunction_settled {s s' : ParserState} {f : Function} {nameToken : Token}
    {body : List Statement}
    (hjoins : f.parameterSize + f.locals.totalSize + f.returnSize ≤ maxListSize →
      J (s.definitions ++ [⟨{ f with returnKnown := true }, body⟩]) s.globals)
    (hrun : finishFunction nameToken f body s = .ok ⟨⟩ s') : s'.Settled J := by
  unfold finishFunction at hrun
  dsimp only at hrun
  split at hrun
  · obtain ⟨_, _, hfail, _⟩ := bind_ok hrun
    exact (fails_failSize _ _ _ hfail).elim
  next hsize =>
    obtain ⟨_, s₁, hmodify, hreport⟩ := bind_ok hrun
    cases hmodify
    exact (Settles.of_keeps (keeps_report _ _)).result ⟨rfl, hjoins (Int.not_lt.mp hsize)⟩ hreport

/-- **A definition**, if its parameters are as in `Q` and a body behind such parameters leaves a
function that can join the definitions. -/
theorem settles_definition {Q : VariableList → Prop}
    (hparameters : ∀ definitions Γ fuel, Reads definitions Γ (parametersWithin fuel {}) Q)
    (hbody : ∀ {definitions : List Definition} {globals : VariableList} {name : Bytes}
      {parameters : VariableList}, J definitions globals → Q parameters →
      Gives definitions
        { globals, functions := definitions.map (·.function), current := some { name, parameters } }
        (block statement) fun body Γ' => Γ'.functions = definitions.map (·.function) →
          ∃ f, Γ'.current = some f ∧
            (f.parameterSize + f.locals.totalSize + f.returnSize ≤ maxListSize →
              J (definitions ++ [⟨{ f with returnKnown := true }, body⟩]) Γ'.globals)) :
    Settles J definition := by
  refine ⟨fun {s _ s'} hs hrun => ?_⟩
  obtain ⟨_, s₁, hnext, hrun₁⟩ := bind_ok hrun
  obtain ⟨nameToken, s₂, hname, hrun₂⟩ := bind_ok hrun₁
  obtain ⟨_, _, hget, hrun₃⟩ := bind_ok hrun₂
  cases hget
  obtain ⟨parameters, s₃, hparametersRun, hrun₄⟩ := bind_ok hrun₃
  obtain ⟨_, s₄, hseparator, hrun₅⟩ := bind_ok hrun₄
  obtain ⟨_, s₅, hmodify, hrun₆⟩ := bind_ok hrun₅
  cases hmodify
  obtain ⟨body, s₆, hblock, hrun₇⟩ := bind_ok hrun₆
  obtain ⟨_, _, hget, hfinish⟩ := bind_ok hrun₇
  cases hget
  have hs₂ := (Settles.of_keeps keeps_functionName).result
    ((Settles.of_keeps keeps_next).result hs hnext) hname
  obtain ⟨hdefinitions₃, hcontext₃, hacceptable⟩ :=
    (hparameters _ _ _).result rfl rfl hparametersRun
  obtain ⟨hdefinitions₄, hcontext₄⟩ := keeps_expectSeparator.run hseparator
  have hs₄ : s₄.Settled J := by
    refine ⟨?_, ?_⟩
    · exact (congrArg Context.current (hcontext₄.trans hcontext₃)).trans hs₂.outside
    · rw [hdefinitions₄, hdefinitions₃, show s₄.globals = s₂.globals from
        congrArg Context.globals (hcontext₄.trans hcontext₃)]
      exact hs₂.holds
  have hgives := @hbody s₄.definitions s₄.globals nameToken.literal parameters hs₄.holds hacceptable
  obtain ⟨hdefinitions₆, hends⟩ := hgives.result (by rfl) (by rfl) hblock
  obtain ⟨f, hcurrent, hjoins⟩ := hends (congrArg _ hdefinitions₆)
  replace hcurrent : s₆.current = some f := hcurrent
  rw [hcurrent] at hfinish
  refine finishFunction_settled ?_ hfinish
  rw [hdefinitions₆]
  exact hjoins

variable (hdefinition : Settles J definition)
include hdefinition

theorem settles_definitionsWithin {includeLine : Parse Unit} (h : Settles J includeLine) :
    ∀ fuel : Nat, Settles J (definitionsWithin includeLine fuel)
  | 0 => .of_fails fails_exhausted
  | fuel + 1 => by
    unfold definitionsWithin
    refine .bind (.of_keeps keeps_skipNewlines) fun token => ?_
    split
    · exact .bind h fun _ => .bind (.of_keeps keeps_commit) fun _ =>
        settles_definitionsWithin h fuel
    split
    · exact .bind hdefinition fun _ => .bind (.of_keeps keeps_commit) fun _ =>
        settles_definitionsWithin h fuel
    · exact .pure

theorem settles_definitions {includeLine : Parse Unit} (h : Settles J includeLine) :
    Settles J (definitions includeLine) :=
  .get_bind fun _ => settles_definitionsWithin hdefinition h _

omit hdefinition in
theorem settles_openIncluded (loader : Loader) (pathToken : Token) :
    Settles J (openIncluded loader pathToken) := by
  unfold openIncluded
  refine .get_bind fun s => ?_
  split
  · exact .of_fails (fails_fail _ _)
  · split
    · exact .of_fails (fails_fail _ _)
    · exact .bind (.modify fun _ => ⟨rfl, rfl⟩) fun _ => .pure

theorem settles_spliced {includeLine : Parse Unit} (h : Settles J includeLine) (file : SourceFile)
    (text : Bytes) : Settles J (spliced includeLine file text) := by
  unfold spliced
  refine .get_bind fun outer => .bind (.of_keeps (keeps_report _ _)) fun _ => ?_
  refine .bind (.modify fun _ => ⟨rfl, rfl⟩) fun _ => ?_
  refine .bind (settles_definitions hdefinition h) fun _ => ?_
  refine .bind (.of_keeps keeps_peek) fun token => ?_
  dsimp only
  split
  · exact .bind (.of_fails fails_failGrammar) fun _ => .modify fun _ => ⟨rfl, rfl⟩
  · exact .modify fun _ => ⟨rfl, rfl⟩

theorem settles_included {includeLine : Parse Unit} (h : Settles J includeLine)
    (word pathToken : Token) :
    Settles J (do
      expectSeparator
      match (← get).loader with
      | none => fail word .includesUnavailable
      | some loader =>
        let (file, text) ← openIncluded loader pathToken
        spliced includeLine file text) := by
  refine .bind (.of_keeps keeps_expectSeparator) fun _ => .get_bind fun s => ?_
  split
  · exact .of_fails (fails_fail _ _)
  · exact .bind (settles_openIncluded _ _) fun _ => settles_spliced hdefinition h _ _

theorem settles_includeFile {includeLine : Parse Unit} (h : Settles J includeLine) :
    Settles J (includeFile includeLine) := by
  unfold includeFile
  refine .bind (.of_keeps keeps_next) fun word => .bind (.of_keeps keeps_next) fun pathToken => ?_
  dsimp only
  split
  · exact .bind (.of_fails fails_failGrammar) fun _ =>
      settles_included hdefinition h word pathToken
  · exact settles_included hdefinition h word pathToken

theorem settles_includeWithin : ∀ depth : Nat, Settles J (includeWithin depth)
  | 0 => .of_fails fails_exhausted
  | depth + 1 => settles_includeFile hdefinition (settles_includeWithin depth)

/-- **A program**: its definitions are as in `J`, and its main block is as in `Q` behind them. -/
theorem program_settled {Q : List Definition → VariableList → List Statement → Context → Prop}
    (hmain : ∀ {definitions : List Definition} {globals : VariableList} (fuel : Nat),
      J definitions globals →
      Gives definitions { globals, functions := definitions.map (·.function) } (mainWithin fuel)
        (Q definitions globals))
    {fileName : Bytes} {s s' : ParserState} {program : Program} (hs : s.Settled J)
    (hrun : Parse.program fileName s = .ok program s') :
    ∃ globals current, J program.definitions globals ∧
      Q program.definitions globals program.main {
        globals := program.globals, functions := program.definitions.map (·.function)
        current } := by
  unfold Parse.program at hrun
  obtain ⟨_, _, hget, hrun₁⟩ := bind_ok hrun
  cases hget
  obtain ⟨_, s₁, hdefinitions, hrun₂⟩ := bind_ok hrun₁
  obtain ⟨_, _, hget, hrun₃⟩ := bind_ok hrun₂
  cases hget
  obtain ⟨main, s₂, hmainRun, hrun₄⟩ := bind_ok hrun₃
  obtain ⟨_, _, hget, hrun₅⟩ := bind_ok hrun₄
  cases hget
  obtain ⟨_, s₃, _, hreturn⟩ := bind_ok hrun₅
  cases hreturn
  have hs₁ := (settles_definitions hdefinition (settles_includeWithin hdefinition _)).result hs
    hdefinitions
  obtain ⟨hdefinitions₂, hQ⟩ := (hmain _ hs₁.holds).result rfl hs₁.context_eq hmainRun
  refine ⟨s₁.globals, s₂.current, ?_, ?_⟩
  · show J s₂.definitions s₁.globals
    rw [hdefinitions₂]
    exact hs₁.holds
  · show Q s₂.definitions s₁.globals main s₂.context
    rw [hdefinitions₂]
    exact hQ

end

end Parse

/-- What a parsed program says about the run of the parser. -/
theorem Program.parse_ok {loader : Option Loader} {source fileName : Bytes} {program : Program}
    (h : (Program.parse loader source fileName).1 = .ok program) :
    ∃ entered s, loader.mapM (·.enter (SourceFile.ofName fileName)) = .ok entered ∧
      Parse.program fileName { buffer := .ofSource source, file := .ofName fileName
                               limit := ParserState.limitOf source, loader := entered } =
        .ok program s := by
  unfold Program.parse at h
  dsimp only at h
  split at h
  · cases h
  next entered hentered =>
    split at h
    next found s hrun =>
      cases h
      exact ⟨entered, s, hentered, hrun⟩
    · cases h

/-- **What is kept by definitions holds of a program that can be parsed**, and so does what its
main block is given to be. -/
theorem Program.parse_settled {J : List Definition → VariableList → Prop}
    {Q : List Definition → VariableList → List Statement → Context → Prop} (hnone : J [] {})
    (hdefinition : Settles J Parse.definition)
    (hmain : ∀ {definitions : List Definition} {globals : VariableList} (fuel : Nat),
      J definitions globals →
      Gives definitions { globals, functions := definitions.map (·.function) }
        (Parse.mainWithin fuel) (Q definitions globals))
    {loader : Option Loader} {source fileName : Bytes} {program : Program}
    (h : (Program.parse loader source fileName).1 = .ok program) :
    ∃ globals current, J program.definitions globals ∧
      Q program.definitions globals program.main {
        globals := program.globals, functions := program.definitions.map (·.function)
        current } := by
  obtain ⟨_, _, _, hrun⟩ := Program.parse_ok h
  exact Parse.program_settled hdefinition hmain ⟨rfl, hnone⟩ hrun

end Terrace
