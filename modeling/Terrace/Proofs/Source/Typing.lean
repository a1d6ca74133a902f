/-
# Sizes and names

What makes a tree a program: every name means a variable that is declared at that point, and
every value has the size its use asks for. Names are resolved in the order of the text. A name
means a parameter or a local of the function it stands in, else a global that exists by then;
an assignment to a name that means nothing yet declares it. So a statement leads from what is
declared before it to what is declared behind it.

At run time code finds more than was declared when it was read: later locals and globals, and
the results of all functions. `Context.Within Γ Δ` says that it finds at least that.

Key definitions: `Context`, `Expression.Typed`, `Statement.Typed`, `Declares`,
`Program.Typed`, `Scene`, `Context.Within`.
Key theorems: `Context.meaning?_within`, `typedBlock_preserves`, `typedBlock_within`,
`Program.Typed.body`, `Program.Typed.bodyScene_sound`.
-/
import Mathlib.Tactic.ByContra
import Terrace.Proofs.Source.Variables

namespace Terrace

/-- What is declared at a point of a program. -/
structure Context where
  globals : VariableList := {}
  /-- The functions before this point, in their order. -/
  functions : FunctionTable := []
  /-- The function this point is in. -/
  current : Option Function := none

namespace Context

variable (Γ : Context)

/-- The functions that may be called, the current one last. -/
def callables : FunctionTable := Γ.functions ++ Γ.current.toList

/-- The parameter or local variable with a name. -/
def local? (name : Bytes) : Option Place :=
  match Γ.current with
  | none => none
  | some f =>
    match f.parameters.lookup? name with
    | some (slot, offset) => some { scope := .frame, slot, offset }
    | none => (f.locals.lookup? name).map fun (slot, offset) =>
        { scope := .frame, slot, offset := f.parameterSize + offset }

/-- The global variable with a name. -/
def global? (name : Bytes) : Option Place :=
  (Γ.globals.lookup? name).map fun (slot, offset) => { scope := .globals, slot, offset }

/-- The variable a name means: a parameter or local before a global. -/
def meaning? (name : Bytes) : Option Place := (Γ.local? name).or (Γ.global? name)

/-- The variable an assignment to a name means, with or without the word `global`. -/
def assigned? (global : Bool) (name : Bytes) : Option Place :=
  if global then Γ.global? name else Γ.meaning? name

/-- A new local variable of the current function stands behind the others. -/
def declareLocal? (f : Function) (slot : Variable) : Option (Place × Context) :=
  match f.locals.add slot with
  | .error _ => none
  | .ok (offset, locals) => some (
      { scope := .frame, slot, offset := f.parameterSize + offset },
      { Γ with current := some { f with locals } })

/-- A new global variable stands behind the others. -/
def declareGlobal? (slot : Variable) : Option (Place × Context) :=
  match Γ.globals.add slot with
  | .error _ => none
  | .ok (offset, globals) => some ({ scope := .globals, slot, offset }, { Γ with globals })

/-- A new variable is local inside a function, except with the word `global`. -/
def declare? (global : Bool) (slot : Variable) : Option (Place × Context) :=
  match Γ.current, global with
  | some f, false => Γ.declareLocal? f slot
  | _, _ => Γ.declareGlobal? slot

/-- An assignment to a variable: to the one its name means, or to a new one if its name means
none. -/
inductive Assigns (place : Place) : Context → Prop
  | existing (global : Bool) (h : Γ.assigned? global place.slot.name = some place) :
    Assigns place Γ
  | new {Γ' : Context} (global : Bool) (hnone : Γ.assigned? global place.slot.name = none)
    (hsized : place.slot.Sized) (hle : place.slot.size ≤ 255)
    (h : Γ.declare? global place.slot = some (place, Γ')) : Assigns place Γ'

/-- A return of so many bytes; all returns of a function agree on it. -/
inductive Returns (size : Nat) : Context → Prop
  | intro {f f' : Function} (array : Bool) (hcurrent : Γ.current = some f)
    (h : f.setReturn size array = .ok f') : Returns size { Γ with current := some f' }

end Context

mutual

/-- Where `Γ` is declared, the expression leaves `n` bytes. -/
@[simp] def Expression.Typed (Γ : Context) : Expression → Nat → Prop
  | .literal value, n => n = value.length ∧ n ≤ 255
  | .load place, n =>
    Γ.meaning? place.slot.name = some place ∧ place.slot.size = n ∧ n ≤ 255
  | .addressOf place, n =>
    Γ.meaning? place.slot.name = some place ∧ n = 2
  | .element place index indexSize, n =>
    Γ.meaning? place.slot.name = some place ∧ place.slot.isArray = true ∧
      place.slot.elementSize = n ∧ n ≤ 255 ∧
      ∃ i : Nat, index.Typed Γ i ∧ indexSize = i ∧ (i = 1 ∨ i = 2)
  | .unary operator operand size, n =>
    ∃ a : Nat, operand.Typed Γ a ∧ size = a ∧ unaryShape operator size = .ok (.scalar n)
  | .binary operator left right leftSize rightSize, n =>
    ∃ a b : Nat, left.Typed Γ a ∧ right.Typed Γ b ∧ leftSize = a ∧ rightSize = b ∧
      binaryShape operator leftSize rightSize = .ok (.scalar n)
  | .call callee arguments, n =>
    ∃ f, Γ.callables[callee]? = some f ∧ f.returnKnown = true ∧ f.returnSize = n ∧ n ≤ 255 ∧
      typedAll Γ arguments f.parameters.slots
  | .systemCall address a x y, n =>
    n = 1 ∧ address.Typed Γ 2 ∧ a.Typed Γ 1 ∧ x.Typed Γ 1 ∧ y.Typed Γ 1
  | .loadMemory size address, n => size = n ∧ n ≤ 255 ∧ address.Typed Γ 2
  | .storeMemory value size address, n =>
    n = 0 ∧ address.Typed Γ 2 ∧ ∃ v : Nat, value.Typed Γ v ∧ size = v

/-- The expressions leave what the parameters take. -/
@[simp] def typedAll (Γ : Context) : List Expression → List Variable → Prop
  | [], parameters => parameters = []
  | e :: es, parameters =>
    ∃ first rest, parameters = first :: rest ∧
      (∃ n : Nat, e.Typed Γ n ∧ first.size = n) ∧ typedAll Γ es rest

end

mutual

/-- The statement makes sense where `Γ` is declared, and `Γ'` is declared behind it. -/
@[simp] def Statement.Typed : Statement → Context → Context → Prop
  | .assign place value, Γ, Γ' =>
    (∃ n : Nat, value.Typed Γ n ∧ place.slot.size = n) ∧ Γ.Assigns place Γ'
  | .assignElement place index indexSize value, Γ, Γ' =>
    (∃ global, Γ.assigned? global place.slot.name = some place) ∧ place.slot.isArray = true ∧
      (∃ i : Nat, index.Typed Γ i ∧ indexSize = i ∧ (i = 1 ∨ i = 2)) ∧
      (∃ n : Nat, value.Typed Γ n ∧ place.slot.elementSize = n) ∧ Γ' = Γ
  | .discard value size, Γ, Γ' => (∃ n : Nat, value.Typed Γ n ∧ size = n) ∧ Γ' = Γ
  | .ifThen condition body, Γ, Γ' => condition.Typed Γ 1 ∧ typedBlock body Γ Γ'
  | .ifElse condition body otherwise, Γ, Γ' =>
    condition.Typed Γ 1 ∧ ∃ Γ₁, typedBlock body Γ Γ₁ ∧ typedBlock otherwise Γ₁ Γ'
  | .whileLoop condition body, Γ, Γ' => condition.Typed Γ 1 ∧ typedBlock body Γ Γ'
  | .giveBack (some value), Γ, Γ' => ∃ n : Nat, value.Typed Γ n ∧ Γ.Returns n Γ'
  | .giveBack none, Γ, Γ' => Γ.Returns 0 Γ'

/-- The statements make sense one behind the other. -/
@[simp] def typedBlock : List Statement → Context → Context → Prop
  | [], Γ, Γ' => Γ' = Γ
  | statement :: statements, Γ, Γ' => ∃ Γ₁, statement.Typed Γ Γ₁ ∧ typedBlock statements Γ₁ Γ'

end

/-- What is declared behind a function whose body starts with `f` declared and ends with `f'`:
falling off its end returns zeros, so its result is known, and its frame fits. -/
structure Closes (f f' : Function) (g : Function) : Prop where
  parameters : f.parameters.Sound
  names : (f.parameters.slots.map (·.name)).Nodup
  fresh : f.locals = {} ∧ f.returnSize = 0 ∧ f.returnKnown = false
  fits : f'.parameterSize + f'.locals.totalSize + f'.returnSize ≤ 255
  known : g = { f' with returnKnown := true }

/-- The definitions make sense one behind the other, and leave these globals. -/
inductive Declares : List Definition → VariableList → Prop
  | nil : Declares [] {}
  | snoc {definitions : List Definition} {globals globals' : VariableList} {f f' g : Function}
    {body : List Statement} (h : Declares definitions globals)
    (hbody : typedBlock body
      { globals, functions := definitions.map (·.function), current := some f }
      { globals := globals', functions := definitions.map (·.function), current := some f' })
    (hcloses : Closes f f' g) : Declares (definitions ++ [⟨g, body⟩]) globals'

/-- **A program makes sense**: its definitions, then its main block. -/
def Program.Typed (program : Program) : Prop :=
  ∃ globals, Declares program.definitions globals ∧
    typedBlock program.main
      { globals, functions := program.definitions.map (·.function) }
      { globals := program.globals, functions := program.definitions.map (·.function) }

/-! ### What code finds at run time -/

/-- The variables and functions that code finds when it runs. -/
structure Scene where
  globals : List Variable
  frame : List Variable
  functions : FunctionTable
  /-- The size of the result of the function that runs. -/
  result : Int

namespace Scene

/-- The variables of a region. -/
def region (Δ : Scene) : Scope → List Variable
  | .frame => Δ.frame
  | .globals => Δ.globals

/-- The regions hold what their variables take. -/
structure Sound (Δ : Scene) : Prop where
  sized : ∀ scope, ∀ v ∈ Δ.region scope, v.Sized
  names : ∀ scope, ((Δ.region scope).map (·.name)).Nodup
  small : ∀ scope, extent (Δ.region scope) ≤ 255

end Scene

namespace Context

variable {Γ Γ' : Context} {Δ : Scene} {place : Place} {name : Bytes}

/-- Code that was read where `Γ` was declared finds all of it. -/
structure Within (Γ : Context) (Δ : Scene) : Prop where
  globals : Γ.globals.slots <+: Δ.globals
  frame : ∀ {f : Function}, Γ.current = some f → f.parameters.slots ++ f.locals.slots <+: Δ.frame
  result : ∀ {f : Function}, Γ.current = some f → f.returnKnown = true → f.returnSize = Δ.result
  functions : ∀ {callee : Nat} {f : Function}, Γ.callables[callee]? = some f → f.returnKnown = true →
    ∃ g : Function, Δ.functions[callee]? = some g ∧ g.parameters = f.parameters ∧
      g.returnSize = f.returnSize

theorem Within.globals_sound (h : Γ.Within Δ) (hΔ : Δ.Sound) : Γ.globals.Sound :=
  @VariableList.Sound.of_prefix _ ⟨Δ.globals⟩ ⟨hΔ.sized .globals, hΔ.small .globals⟩ h.globals

theorem Within.frame_sound (h : Γ.Within Δ) (hΔ : Δ.Sound) {f : Function}
    (hf : Γ.current = some f) : f.parameters.Sound ∧ f.locals.Sound := by
  have hboth : VariableList.Sound ⟨f.parameters.slots ++ f.locals.slots⟩ :=
    @VariableList.Sound.of_prefix _ ⟨Δ.frame⟩ ⟨hΔ.sized .frame, hΔ.small .frame⟩ (h.frame hf)
  have hsmall := hboth.small
  rw [extent_append] at hsmall
  refine ⟨⟨fun v hv => hboth.sized v ?_, by omega⟩, ⟨fun v hv => hboth.sized v ?_, by omega⟩⟩
  · exact List.mem_append_left _ hv
  · exact List.mem_append_right _ hv

theorem global?_within (h : Γ.Within Δ) (hΔ : Δ.Sound) (hplace : Γ.global? name = some place) :
    place.Within (Δ.region place.scope) := by
  obtain ⟨⟨slot, offset⟩, hlookup, rfl⟩ := Option.map_eq_some_iff.mp hplace
  obtain ⟨before, after, hslots, hoffset, _⟩ := VariableList.lookup?_some hlookup
  have hwithin : Place.Within { scope := .globals, slot, offset } Γ.globals.slots := by
    refine ⟨before, after, hslots, ?_⟩
    rw [hoffset, (h.globals_sound hΔ).offset, hslots, List.take_left]
  exact Place.Within.of_prefix hwithin h.globals

/-- A local name means a parameter or a local variable of the current function. -/
theorem local?_cases (h : Γ.local? name = some place) : ∃ f slot offset, Γ.current = some f ∧
    (f.parameters.lookup? name = some (slot, offset) ∧ place = { scope := .frame, slot, offset } ∨
      f.locals.lookup? name = some (slot, offset) ∧
        place = { scope := .frame, slot, offset := f.parameterSize + offset }) := by
  unfold local? at h
  cases hcurrent : Γ.current with
  | none =>
    rw [hcurrent] at h
    cases h
  | some f =>
    rw [hcurrent] at h
    dsimp only at h
    cases hparameter : f.parameters.lookup? name with
    | some found =>
      rw [hparameter] at h
      cases h
      exact ⟨f, _, _, rfl, .inl ⟨hparameter, rfl⟩⟩
    | none =>
      rw [hparameter] at h
      obtain ⟨found, hlookup, rfl⟩ := Option.map_eq_some_iff.mp h
      exact ⟨f, _, _, rfl, .inr ⟨hlookup, rfl⟩⟩

theorem local?_within (h : Γ.Within Δ) (hΔ : Δ.Sound) (hplace : Γ.local? name = some place) :
    place.Within (Δ.region place.scope) := by
  obtain ⟨f, slot, offset, hcurrent, hfound⟩ := local?_cases hplace
  obtain ⟨hparameters, hlocals⟩ := h.frame_sound hΔ hcurrent
  rcases hfound with ⟨hlookup, rfl⟩ | ⟨hlookup, rfl⟩
  · obtain ⟨before, after, hslots, hoffset, _⟩ := VariableList.lookup?_some hlookup
    refine Place.Within.of_prefix ?_ (h.frame hcurrent)
    refine ⟨before, after ++ f.locals.slots, by rw [hslots]; simp, ?_⟩
    rw [hoffset, hparameters.offset, hslots, List.take_left]
  · obtain ⟨before, after, hslots, hoffset, _⟩ := VariableList.lookup?_some hlookup
    refine Place.Within.of_prefix ?_ (h.frame hcurrent)
    refine ⟨f.parameters.slots ++ before, after, by rw [hslots]; simp, ?_⟩
    show f.parameterSize + offset = _
    rw [hoffset, hlocals.offset, hslots, List.take_left, Function.parameterSize,
      hparameters.totalSize, extent_append]
    omega

/-- **A variable that a name means is found at run time.** -/
theorem meaning?_within (h : Γ.Within Δ) (hΔ : Δ.Sound)
    (hplace : Γ.meaning? name = some place) : place.Within (Δ.region place.scope) := by
  rcases Option.or_eq_some_iff.mp hplace with hlocal | ⟨_, hglobal⟩
  · exact local?_within h hΔ hlocal
  · exact global?_within h hΔ hglobal

theorem assigned?_within (h : Γ.Within Δ) (hΔ : Δ.Sound) {global : Bool}
    (hplace : Γ.assigned? global name = some place) : place.Within (Δ.region place.scope) := by
  cases global with
  | true => exact global?_within h hΔ hplace
  | false => exact meaning?_within h hΔ hplace

theorem declareLocal?_some {f : Function} {slot : Variable}
    (h : Γ.declareLocal? f slot = some (place, Γ')) :
    ∃ offset locals, f.locals.add slot = .ok (offset, locals) ∧
      place = { scope := .frame, slot, offset := f.parameterSize + offset } ∧
      Γ' = { Γ with current := some { f with locals } } := by
  unfold declareLocal? at h
  cases hadd : f.locals.add slot with
  | error e =>
    rw [hadd] at h
    cases h
  | ok added =>
    rw [hadd] at h
    cases h
    exact ⟨added.1, added.2, rfl, rfl, rfl⟩

theorem declareGlobal?_some {slot : Variable} (h : Γ.declareGlobal? slot = some (place, Γ')) :
    ∃ offset globals, Γ.globals.add slot = .ok (offset, globals) ∧
      place = { scope := .globals, slot, offset } ∧ Γ' = { Γ with globals } := by
  unfold declareGlobal? at h
  cases hadd : Γ.globals.add slot with
  | error e =>
    rw [hadd] at h
    cases h
  | ok added =>
    rw [hadd] at h
    cases h
    exact ⟨added.1, added.2, rfl, rfl, rfl⟩

/-- A declaration is that of a local variable or that of a global one. -/
theorem declare?_cases {global : Bool} {slot : Variable} :
    (∃ f, global = false ∧ Γ.current = some f ∧
      Γ.declare? global slot = Γ.declareLocal? f slot) ∨
    (global = true ∨ Γ.current = none) ∧ Γ.declare? global slot = Γ.declareGlobal? slot := by
  unfold declare?
  cases hcurrent : Γ.current with
  | none => exact Or.inr ⟨Or.inr rfl, rfl⟩
  | some f =>
    cases global with
    | true => exact Or.inr ⟨Or.inl rfl, rfl⟩
    | false => exact Or.inl ⟨f, rfl, rfl, rfl⟩

/-- The functions that may be called, with another current one. -/
theorem callables_of_current {f f' : Function} (hcurrent : Γ.current = some f)
    {callee : Nat} {g : Function} (h : Γ.callables[callee]? = some g) :
    ({ Γ with current := some f' } : Context).callables[callee]? = some g ∨
      g = f ∧ ({ Γ with current := some f' } : Context).callables[callee]? = some f' := by
  unfold callables at h ⊢
  rw [hcurrent] at h
  rcases Nat.lt_or_ge callee Γ.functions.length with hlt | hge
  · rw [List.getElem?_append_left hlt] at h ⊢
    exact Or.inl h
  · rw [List.getElem?_append_right hge] at h ⊢
    obtain ⟨hlt, _⟩ := List.getElem?_eq_some_iff.mp h
    have hzero : callee - Γ.functions.length = 0 := by simpa using hlt
    rw [hzero] at h ⊢
    exact Or.inr ⟨by simpa using h.symm, rfl⟩

/-- With more declared in its current function, code finds what it found before. -/
theorem Within.of_current {f f' : Function} (hcurrent : Γ.current = some f)
    (h : ({ Γ with current := some f' } : Context).Within Δ) (hparameters : f'.parameters = f.parameters)
    (hlocals : f.locals.slots <+: f'.locals.slots)
    (hreturn : f.returnKnown = true → f'.returnKnown = true ∧ f'.returnSize = f.returnSize) :
    Γ.Within Δ where
  globals := h.globals
  frame := by
    intro g hg
    obtain rfl : f = g := Option.some.inj (hcurrent.symm.trans hg)
    have hframe := h.frame rfl
    rw [hparameters] at hframe
    exact (List.prefix_append_right_inj _ |>.mpr hlocals).trans hframe
  result := by
    intro g hg hknown
    obtain rfl : f = g := Option.some.inj (hcurrent.symm.trans hg)
    obtain ⟨hknown', hsize⟩ := hreturn hknown
    rw [← hsize]
    exact h.result rfl hknown'
  functions := by
    intro callee g hg hknown
    rcases @callables_of_current _ _ f' hcurrent _ _ hg with hsame | ⟨rfl, hlast⟩
    · exact h.functions hsame hknown
    · obtain ⟨hknown', hsize⟩ := hreturn hknown
      rw [← hparameters, ← hsize]
      exact h.functions hlast hknown'

/-- What is found behind an assignment is found before it. -/
theorem Assigns.within (h : Γ.Assigns place Γ') (hΓ' : Γ'.Within Δ) : Γ.Within Δ := by
  cases h with
  | existing global h => exact hΓ'
  | new global hnone hsized hle h =>
    rcases declare?_cases with ⟨f, _, hcurrent, hdeclare⟩ | ⟨_, hdeclare⟩
    · obtain ⟨_, locals, hadd, _, rfl⟩ := declareLocal?_some (hdeclare.symm.trans h)
      obtain ⟨_, hslots, _, _⟩ := VariableList.add_ok hadd
      refine hΓ'.of_current hcurrent rfl ?_ fun hknown => ⟨hknown, rfl⟩
      rw [hslots]
      exact List.prefix_append _ _
    · obtain ⟨_, globals, hadd, _, rfl⟩ := declareGlobal?_some (hdeclare.symm.trans h)
      obtain ⟨_, hslots, _, _⟩ := VariableList.add_ok hadd
      refine ⟨?_, hΓ'.frame, hΓ'.result, hΓ'.functions⟩
      have hglobals := hΓ'.globals
      dsimp only at hglobals
      rw [hslots] at hglobals
      exact (List.prefix_append _ _).trans hglobals

/-- **A variable that is assigned to is found at run time.** -/
theorem Assigns.place_within (h : Γ.Assigns place Γ') (hΓ' : Γ'.Within Δ) (hΔ : Δ.Sound) :
    place.Within (Δ.region place.scope) := by
  have hΓ := h.within hΓ'
  cases h with
  | existing global h => exact assigned?_within hΓ hΔ h
  | new global hnone hsized hle h =>
    rcases declare?_cases with ⟨f, _, hcurrent, hdeclare⟩ | ⟨_, hdeclare⟩
    · obtain ⟨_, locals, hadd, hplace, rfl⟩ := declareLocal?_some (hdeclare.symm.trans h)
      obtain ⟨hoffset, hslots, _, _⟩ := VariableList.add_ok hadd
      obtain ⟨hparameters, hlocals⟩ := hΓ.frame_sound hΔ hcurrent
      have hframe := hΓ'.frame rfl
      rw [hplace]
      refine Place.Within.of_prefix ⟨f.parameters.slots ++ f.locals.slots, [], ?_, ?_⟩ hframe
      · dsimp only
        rw [hslots, List.append_assoc]
      · dsimp only
        rw [hoffset, hlocals.totalSize, Function.parameterSize, hparameters.totalSize,
          extent_append]
        omega
    · obtain ⟨_, globals, hadd, hplace, rfl⟩ := declareGlobal?_some (hdeclare.symm.trans h)
      obtain ⟨hoffset, hslots, _, _⟩ := VariableList.add_ok hadd
      have hglobals := hΓ'.globals
      rw [hplace]
      refine Place.Within.of_prefix ⟨Γ.globals.slots, [], hslots, ?_⟩ hglobals
      rw [hoffset, (hΓ.globals_sound hΔ).totalSize]

/-- What a return statement leaves of the current function. -/
theorem setReturn_ok {f f' : Function} {size : Int} {array : Bool}
    (h : f.setReturn size array = .ok f') :
    f'.parameters = f.parameters ∧ f'.locals = f.locals ∧ f'.returnKnown = true ∧
      f'.returnSize = size ∧ (f.returnKnown = true → f'.returnSize = f.returnSize) := by
  unfold Function.setReturn at h
  split at h
  next hunknown =>
    cases h
    refine ⟨rfl, rfl, rfl, rfl, fun hknown => ?_⟩
    rw [hknown] at hunknown
    cases hunknown
  next hknown =>
    split at h
    next hsame =>
      cases h
      simp only [Bool.and_eq_true, decide_eq_true_eq] at hsame
      exact ⟨rfl, rfl, by simpa using hknown, hsame.1, fun _ => rfl⟩
    · cases h

theorem Returns.within {size : Nat} (h : Γ.Returns size Γ') (hΓ' : Γ'.Within Δ) :
    Γ.Within Δ ∧ Δ.result = size := by
  obtain ⟨array, hcurrent, h⟩ := h
  obtain ⟨hparameters, hlocals, hknown, hsize, hsame⟩ := setReturn_ok h
  refine ⟨hΓ'.of_current hcurrent hparameters ?_ fun hk => ⟨hknown, hsame hk⟩, ?_⟩
  · simp [hlocals]
  · rw [← hΓ'.result rfl hknown, hsize]

end Context

/-! ### Sound contexts -/

/-- The variables and the result of a function have sizes that fit. -/
structure Function.Sound (f : Function) : Prop where
  parameters : f.parameters.Sound
  locals : f.locals.Sound
  names : ((f.parameters.slots ++ f.locals.slots).map (·.name)).Nodup
  result_nonneg : 0 ≤ f.returnSize
  result_le : f.returnSize ≤ 255

/-- All that is declared has sizes that fit and names of its own. -/
structure Context.Sound (Γ : Context) : Prop where
  globals : Γ.globals.Sound
  names : (Γ.globals.slots.map (·.name)).Nodup
  current : ∀ {f : Function}, Γ.current = some f → f.Sound
  functions : ∀ f ∈ Γ.functions, f.Sound ∧ f.returnKnown = true

theorem VariableList.nodup_add {l l' : VariableList} {v : Variable} {offset : Int}
    {others : List Variable} (h : l.add v = .ok (offset, l'))
    (hnames : ((others ++ l.slots).map (·.name)).Nodup) (hother : ∀ u ∈ others, u.name ≠ v.name) :
    ((others ++ l'.slots).map (·.name)).Nodup := by
  obtain ⟨_, hslots, hnew, _⟩ := VariableList.add_ok h
  rw [hslots, ← List.append_assoc, List.map_append, List.nodup_append]
  refine ⟨hnames, by simp, ?_⟩
  intro name hname other hother'
  simp only [List.map_cons, List.map_nil, List.mem_singleton] at hother'
  obtain ⟨u, hu, rfl⟩ := List.mem_map.mp hname
  rw [hother']
  rcases List.mem_append.mp hu with hu | hu
  · exact hother u hu
  · exact VariableList.index?_none hnew u hu

theorem Context.local?_none {Γ : Context} {f : Function} {name : Bytes}
    (hcurrent : Γ.current = some f) (h : Γ.local? name = none) :
    ∀ v ∈ f.parameters.slots, v.name ≠ name := by
  unfold Context.local? at h
  rw [hcurrent] at h
  dsimp only at h
  cases hlookup : f.parameters.lookup? name with
  | none => exact VariableList.lookup?_none hlookup
  | some found =>
    rw [hlookup] at h
    cases h

theorem Context.Assigns.sound {Γ Γ' : Context} {place : Place} (h : Γ.Assigns place Γ')
    (hΓ : Γ.Sound) : Γ'.Sound := by
  cases h with
  | existing global h => exact hΓ
  | new global hnone hsized hle h =>
    rcases @declare?_cases Γ global place.slot with ⟨f, rfl, hcurrent, hdeclare⟩ | ⟨_, hdeclare⟩
    · obtain ⟨_, locals, hadd, _, rfl⟩ := declareLocal?_some (hdeclare.symm.trans h)
      have hf := hΓ.current hcurrent
      have hother := local?_none hcurrent (Option.or_eq_none_iff.mp hnone).1
      refine ⟨hΓ.globals, hΓ.names, ?_, hΓ.functions⟩
      rintro _ ⟨⟩
      exact ⟨hf.parameters, hf.locals.add hsized hle hadd,
        VariableList.nodup_add hadd hf.names hother, hf.result_nonneg, hf.result_le⟩
    · obtain ⟨_, globals, hadd, _, rfl⟩ := declareGlobal?_some (hdeclare.symm.trans h)
      refine ⟨hΓ.globals.add hsized hle hadd, ?_, hΓ.current, hΓ.functions⟩
      exact @VariableList.nodup_add _ _ _ _ [] hadd hΓ.names (by simp)

theorem Context.Returns.sound {Γ Γ' : Context} {size : Nat} (h : Γ.Returns size Γ')
    (hle : size ≤ 255) (hΓ : Γ.Sound) : Γ'.Sound := by
  obtain ⟨array, hcurrent, h⟩ := h
  obtain ⟨hparameters, hlocals, _, hsize, _⟩ := setReturn_ok h
  have hf := hΓ.current hcurrent
  refine ⟨hΓ.globals, hΓ.names, ?_, hΓ.functions⟩
  rintro _ ⟨⟩
  refine ⟨?_, ?_, ?_, ?_, ?_⟩
  · rw [hparameters]
    exact hf.parameters
  · rw [hlocals]
    exact hf.locals
  · rw [hparameters, hlocals]
    exact hf.names
  · omega
  · omega

/-- **Values take at most 255 bytes.** -/
theorem Expression.typed_le {Γ : Context} : (e : Expression) → ∀ {n : Nat}, e.Typed Γ n → n ≤ 255
  | .literal value, n, h => by
    rw [Expression.Typed] at h
    exact h.2
  | .load place, n, h => by
    rw [Expression.Typed] at h
    exact h.2.2
  | .addressOf place, n, h => by
    rw [Expression.Typed] at h
    omega
  | .element place index indexSize, n, h => by
    rw [Expression.Typed] at h
    exact h.2.2.2.1
  | .unary operator operand size, n, h => by
    rw [Expression.Typed] at h
    obtain ⟨a, hoperand, rfl, hshape⟩ := h
    have hle := operand.typed_le hoperand
    have hsize := congrArg Shape.size (unaryShape_ok hshape).1
    simp only [Shape.scalar] at hsize
    omega
  | .binary operator left right leftSize rightSize, n, h => by
    rw [Expression.Typed] at h
    obtain ⟨a, b, hleft, hright, rfl, rfl, hshape⟩ := h
    have hlea := left.typed_le hleft
    have hleb := right.typed_le hright
    have hsize := binaryShape_ok hshape
    cases operator
    all_goals
      simp only [Shape.scalar, Shape.mk.injEq] at hsize
      omega
  | .call callee arguments, n, h => by
    rw [Expression.Typed] at h
    obtain ⟨f, _, _, _, hle, _⟩ := h
    exact hle
  | .systemCall address a x y, n, h => by
    rw [Expression.Typed] at h
    omega
  | .loadMemory size address, n, h => by
    rw [Expression.Typed] at h
    exact h.2.1
  | .storeMemory value size address, n, h => by
    rw [Expression.Typed] at h
    omega

mutual

/-- What assignments and returns preserve, a statement preserves. -/
theorem Statement.typed_preserves {I : Context → Prop}
    (hassigns : ∀ {Γ place Γ'}, Γ.Assigns place Γ' → I Γ → I Γ')
    (hreturns : ∀ {Γ n Γ'}, Γ.Returns n Γ' → n ≤ 255 → I Γ → I Γ') :
    (statement : Statement) → ∀ {Γ Γ' : Context}, statement.Typed Γ Γ' → I Γ → I Γ'
  | .assign place value, Γ, Γ', h, hΓ => by
    rw [Statement.Typed] at h
    exact hassigns h.2 hΓ
  | .assignElement place index indexSize value, Γ, Γ', h, hΓ => by
    rw [Statement.Typed] at h
    obtain ⟨_, _, _, _, rfl⟩ := h
    exact hΓ
  | .discard value size, Γ, Γ', h, hΓ => by
    rw [Statement.Typed] at h
    obtain ⟨_, rfl⟩ := h
    exact hΓ
  | .ifThen condition body, Γ, Γ', h, hΓ => by
    rw [Statement.Typed] at h
    exact typedBlock_preserves hassigns hreturns body h.2 hΓ
  | .ifElse condition body otherwise, Γ, Γ', h, hΓ => by
    rw [Statement.Typed] at h
    obtain ⟨_, Γ₁, hbody, hother⟩ := h
    exact typedBlock_preserves hassigns hreturns otherwise hother
      (typedBlock_preserves hassigns hreturns body hbody hΓ)
  | .whileLoop condition body, Γ, Γ', h, hΓ => by
    rw [Statement.Typed] at h
    exact typedBlock_preserves hassigns hreturns body h.2 hΓ
  | .giveBack (some value), Γ, Γ', h, hΓ => by
    rw [Statement.Typed] at h
    obtain ⟨n, hvalue, hreturn⟩ := h
    exact hreturns hreturn (value.typed_le hvalue) hΓ
  | .giveBack none, Γ, Γ', h, hΓ => by
    rw [Statement.Typed] at h
    exact hreturns h (by omega) hΓ

/-- **What assignments and returns preserve, a block preserves.** -/
theorem typedBlock_preserves {I : Context → Prop}
    (hassigns : ∀ {Γ place Γ'}, Γ.Assigns place Γ' → I Γ → I Γ')
    (hreturns : ∀ {Γ n Γ'}, Γ.Returns n Γ' → n ≤ 255 → I Γ → I Γ') :
    (statements : List Statement) → ∀ {Γ Γ' : Context}, typedBlock statements Γ Γ' → I Γ → I Γ'
  | [], Γ, Γ', h, hΓ => by
    rw [typedBlock] at h
    exact h ▸ hΓ
  | statement :: statements, Γ, Γ', h, hΓ => by
    rw [typedBlock] at h
    obtain ⟨Γ₁, hfirst, hrest⟩ := h
    exact typedBlock_preserves hassigns hreturns statements hrest
      (statement.typed_preserves hassigns hreturns hfirst hΓ)

end

section
variable {statement : Statement} {statements : List Statement} {Γ Γ' : Context} {Δ : Scene}

/-- What is declared behind a statement is sound. -/
theorem Statement.typed_sound (h : statement.Typed Γ Γ') (hΓ : Γ.Sound) : Γ'.Sound :=
  statement.typed_preserves (fun h => h.sound) (fun h hle => h.sound hle) h hΓ

/-- What is declared behind a block is sound. -/
theorem typedBlock_sound (h : typedBlock statements Γ Γ') (hΓ : Γ.Sound) : Γ'.Sound :=
  typedBlock_preserves (fun h => h.sound) (fun h hle => h.sound hle) statements h hΓ

/-- **What is found behind a block is found before it.** -/
theorem typedBlock_within (h : typedBlock statements Γ Γ') (hΓ' : Γ'.Within Δ) : Γ.Within Δ := by
  by_contra hΓ
  refine typedBlock_preserves (I := fun Γ => ¬ Γ.Within Δ) ?_ ?_ statements h hΓ hΓ'
  · exact fun h hΓ hΓ' => hΓ (h.within hΓ')
  · exact fun h _ hΓ hΓ' => hΓ (h.within hΓ').1

/-- A block starts no function and ends none. -/
theorem typedBlock_current (h : typedBlock statements Γ Γ') :
    Γ'.current.isSome = Γ.current.isSome := by
  refine typedBlock_preserves (I := fun Γ' => Γ'.current.isSome = Γ.current.isSome) ?_ ?_
    statements h rfl
  · intro Γ₁ place Γ₂ h hΓ₁
    cases h with
    | existing global h => exact hΓ₁
    | new global hnone hsized hle h =>
      rw [← hΓ₁]
      rcases @Context.declare?_cases Γ₁ global place.slot with ⟨f, _, hcurrent, hdeclare⟩ |
        ⟨_, hdeclare⟩
      · obtain ⟨_, _, _, _, rfl⟩ := Context.declareLocal?_some (hdeclare.symm.trans h)
        rw [hcurrent]
        rfl
      · obtain ⟨_, _, _, _, rfl⟩ := Context.declareGlobal?_some (hdeclare.symm.trans h)
        rfl
  · intro Γ₁ n Γ₂ h _ hΓ₁
    obtain ⟨_, hcurrent, _⟩ := h
    rw [← hΓ₁, hcurrent]
    rfl

theorem Statement.typed_current (h : statement.Typed Γ Γ') :
    Γ'.current.isSome = Γ.current.isSome := by
  have hone : typedBlock [statement] Γ Γ' := by
    rw [typedBlock]
    exact ⟨Γ', h, by rw [typedBlock]⟩
  exact typedBlock_current hone

end

/-! ### Programs -/

theorem Closes.start_sound {f f' g : Function} (h : Closes f f' g) : f.Sound := by
  obtain ⟨hlocals, hreturn, _⟩ := h.fresh
  refine ⟨h.parameters, ?_, ?_, by omega, by omega⟩
  · rw [hlocals]
    exact ⟨by simp, by simp [extent]⟩
  · rw [hlocals]
    simpa using h.names

/-- **All that definitions declare is sound.** -/
theorem Declares.sound {definitions : List Definition} {globals : VariableList}
    (h : Declares definitions globals) :
    Context.Sound { globals, functions := definitions.map (·.function) } := by
  induction h with
  | nil => exact ⟨⟨by simp, by simp [extent]⟩, by simp, by simp, by simp⟩
  | @snoc definitions globals globals' f f' g body h hbody hcloses ih =>
    have hend := typedBlock_sound hbody
      ⟨ih.globals, ih.names, fun hf => Option.some.inj hf ▸ hcloses.start_sound, ih.functions⟩
    refine ⟨hend.globals, hend.names, by simp, ?_⟩
    rw [List.map_append]
    refine List.forall_mem_append.mpr ⟨ih.functions, ?_⟩
    intro f'' hf''
    have hf' := hend.current rfl
    simp only [List.map_cons, List.map_nil, List.mem_singleton] at hf''
    rw [hf'', hcloses.known]
    exact ⟨⟨hf'.parameters, hf'.locals, hf'.names, hf'.result_nonneg, hf'.result_le⟩, rfl⟩

/-- What the body of a function finds when it runs. -/
def Program.bodyScene (program : Program) (j : Nat) (d : Definition) : Scene where
  globals := program.globals.slots
  frame := d.function.parameters.slots ++ d.function.locals.slots
  functions := (program.definitions.take (j + 1)).map (·.function)
  result := d.function.returnSize

/-- What the main block finds when it runs. -/
def Program.mainScene (program : Program) : Scene where
  globals := program.globals.slots
  frame := []
  functions := program.definitions.map (·.function)
  result := 0

/-- A block only adds to the globals. -/
theorem typedBlock_globals {statements : List Statement} {Γ Γ' : Context}
    (h : typedBlock statements Γ Γ') : Γ.globals.slots <+: Γ'.globals.slots := by
  have hself : Γ'.Within {
      globals := Γ'.globals.slots
      frame := (Γ'.current.map fun f => f.parameters.slots ++ f.locals.slots).getD []
      functions := Γ'.callables
      result := (Γ'.current.map (·.returnSize)).getD 0 } := by
    refine ⟨List.prefix_refl _, ?_, ?_, fun hf _ => ⟨_, hf, rfl, rfl⟩⟩
    · intro f hf
      rw [hf]
      exact List.prefix_refl _
    · intro f hf _
      rw [hf]
      rfl
  exact (typedBlock_within h hself).globals

/-- The body of a function, with what is declared where it ends. -/
theorem Declares.body {definitions : List Definition} {globals : VariableList}
    (h : Declares definitions globals) {j : Nat} {d : Definition}
    (hd : definitions[j]? = some d) :
    ∃ Γ globals' f, typedBlock d.body Γ {
        globals := globals', functions := (definitions.take j).map (·.function)
        current := some f } ∧
      globals'.slots <+: globals.slots ∧ d.function = { f with returnKnown := true } ∧
      f.parameterSize + f.locals.totalSize + f.returnSize ≤ 255 := by
  induction h with
  | nil => simp at hd
  | @snoc definitions globals globals' f f' g body h hbody hcloses ih =>
    rcases Nat.lt_or_ge j definitions.length with hlt | hge
    · rw [List.getElem?_append_left hlt] at hd
      obtain ⟨Γ, before, f₁, hblock, hle, hfunction, hfits⟩ := ih hd
      rw [List.take_append_of_le_length (by omega)]
      exact ⟨Γ, before, f₁, hblock, hle.trans (typedBlock_globals hbody), hfunction, hfits⟩
    · obtain ⟨hlt, _⟩ := List.getElem?_eq_some_iff.mp hd
      obtain rfl : j = definitions.length := by
        rw [List.length_append, List.length_singleton] at hlt
        omega
      rw [List.getElem?_append_right (Nat.le_refl _), Nat.sub_self] at hd
      obtain rfl : (⟨g, body⟩ : Definition) = d := Option.some.inj hd
      rw [List.take_left]
      exact ⟨_, globals', f', hbody, List.prefix_refl _, hcloses.known, hcloses.fits⟩

namespace Program.Typed

variable {program : Program} (h : program.Typed)
include h

theorem main_sound :
    Context.Sound {
      globals := program.globals, functions := program.definitions.map (·.function) } := by
  obtain ⟨globals, hdeclares, hmain⟩ := h
  exact typedBlock_sound hmain hdeclares.sound

/-- **The main block finds all it was read with.** -/
theorem main : ∃ Γ Γ' : Context, typedBlock program.main Γ Γ' ∧ Γ'.Within program.mainScene ∧
    Γ'.current = none := by
  obtain ⟨globals, hdeclares, hmain⟩ := h
  refine ⟨_, _, hmain, ⟨List.prefix_refl _, ?_, ?_, ?_⟩, rfl⟩
  · intro f hf
    cases hf
  · intro f hf
    cases hf
  · intro callee f hf _
    refine ⟨f, ?_, rfl, rfl⟩
    simpa [Context.callables, mainScene] using hf

theorem mainScene_sound : program.mainScene.Sound := by
  have hsound := h.main_sound
  refine ⟨?_, ?_, ?_⟩
  · intro scope
    cases scope with
    | frame => simp [Scene.region, mainScene]
    | globals => exact hsound.globals.sized
  · intro scope
    cases scope with
    | frame => simp [Scene.region, mainScene]
    | globals => exact hsound.names
  · intro scope
    cases scope with
    | frame => simp [Scene.region, mainScene, extent]
    | globals => exact hsound.globals.small

variable {j : Nat} {d : Definition} (hd : program.definitions[j]? = some d)
include hd

theorem function_sound : d.function.Sound := by
  obtain ⟨globals, hdeclares, _⟩ := h
  refine (hdeclares.sound.functions d.function ?_).1
  exact List.mem_map.mpr ⟨d, List.mem_of_getElem? hd, rfl⟩

/-- The frame of a function fits. -/
theorem frames : d.Frames (extent d.function.parameters.slots) (extent d.function.locals.slots)
    d.function.returnSize.toNat := by
  have hsound := h.function_sound hd
  have hresult := hsound.result_nonneg
  obtain ⟨globals, hdeclares, _⟩ := h
  obtain ⟨_, _, f, _, _, hfunction, hfits⟩ := hdeclares.body hd
  have hparameters : d.function.parameterSize = extent d.function.parameters.slots :=
    hsound.parameters.totalSize
  have hlocals := hsound.locals.totalSize
  refine ⟨hparameters, hlocals, by omega, ?_⟩
  have hsame : f.parameterSize + f.locals.totalSize + f.returnSize =
      d.function.parameterSize + d.function.locals.totalSize + d.function.returnSize := by
    rw [hfunction]
    rfl
  omega

/-- **The body of a function finds all it was read with.** -/
theorem body : ∃ Γ Γ' : Context, typedBlock d.body Γ Γ' ∧ Γ'.Within (program.bodyScene j d) := by
  obtain ⟨globals, hdeclares, hmain⟩ := h
  obtain ⟨Γ, globals', f, hblock, hle, hfunction, _⟩ := hdeclares.body hd
  refine ⟨Γ, _, hblock, hle.trans (typedBlock_globals hmain), ?_, ?_, ?_⟩
  · intro g hg
    obtain rfl : f = g := Option.some.inj hg
    simp [bodyScene, hfunction]
  · intro g hg _
    obtain rfl : f = g := Option.some.inj hg
    rw [bodyScene, hfunction]
  · intro callee g hg _
    have htake : program.definitions.take (j + 1) = program.definitions.take j ++ [d] := by
      rw [List.take_add_one, hd]
      rfl
    rw [bodyScene]
    dsimp only
    rw [htake, List.map_append]
    unfold Context.callables at hg
    dsimp only [Option.toList] at hg
    rcases Nat.lt_or_ge callee ((program.definitions.take j).map (·.function)).length with hlt | hge
    · rw [List.getElem?_append_left hlt] at hg ⊢
      exact ⟨g, hg, rfl, rfl⟩
    · rw [List.getElem?_append_right hge] at hg ⊢
      obtain ⟨hlt, _⟩ := List.getElem?_eq_some_iff.mp hg
      have hzero : callee - ((program.definitions.take j).map (·.function)).length = 0 := by
        simpa using hlt
      rw [hzero] at hg ⊢
      obtain rfl : f = g := Option.some.inj hg
      exact ⟨d.function, rfl, by rw [hfunction], by rw [hfunction]⟩

theorem bodyScene_sound : (program.bodyScene j d).Sound := by
  have hframes := (h.frames hd).fits
  have hfunction := h.function_sound hd
  have hglobals := h.main_sound
  refine ⟨?_, ?_, ?_⟩
  · intro scope
    cases scope with
    | frame => exact List.forall_mem_append.mpr ⟨hfunction.parameters.sized, hfunction.locals.sized⟩
    | globals => exact hglobals.globals.sized
  · intro scope
    cases scope with
    | frame => exact hfunction.names
    | globals => exact hglobals.names
  · intro scope
    cases scope with
    | frame =>
      show extent (d.function.parameters.slots ++ d.function.locals.slots) ≤ 255
      rw [extent_append]
      omega
    | globals => exact hglobals.globals.small

end Program.Typed

end Terrace
