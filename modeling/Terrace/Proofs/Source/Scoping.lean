/-
# What names mean

In a program that was accepted each name has one meaning at each point. Functions and globals have
names of their own, and so have the parameters and locals of a function among themselves; no name
is a reserved word. A local may have the name of a global only if the global is younger: where an
assignment creates a local, no global of its name exists. Which globals exist at a point can be
read off the program, since a variable exists from the first assignment to it on.

Key definitions: `Statement.assigned`, `introduce`, `Program.globalsBefore`, `Program.Scoped`,
`Context.Named`, `Context.Walks`.
Key theorems: `Statement.typed_walks`, `Context.Walks.region`, `Declares.walks`,
`Program.parse_scoped`.
-/
import Mathlib.Data.List.Induction
import Terrace.Proofs.Source.Contracts
import Terrace.Proofs.Source.Parsing

namespace Terrace

/-! ### Where variables come from -/

mutual

/-- The variables a statement assigns to, in the order of the text. -/
@[simp] def Statement.assigned : Statement → List Place
  | .assign place _ => [place]
  | .assignElement .. | .discard .. | .giveBack _ => []
  | .ifThen _ body | .whileLoop _ body => assignedBlock body
  | .ifElse _ body otherwise => assignedBlock body ++ assignedBlock otherwise

/-- The variables that statements assign to, in the order of the text. -/
@[simp] def assignedBlock : List Statement → List Place
  | [] => []
  | statement :: statements => statement.assigned ++ assignedBlock statements

end

/-- The variables that the bodies of definitions assign to. -/
def assignedBodies (definitions : List Definition) : List Place :=
  definitions.flatMap (assignedBlock ·.body)

/-- The variables of a scope after assignments, if `known` are there before: the first assignment
to a variable creates it. -/
def introduce (scope : Scope) (known : List Variable) (places : List Place) : List Variable :=
  places.foldl (fun known place =>
    if place.scope = scope ∧ place.slot ∉ known then known ++ [place.slot] else known) known

namespace Program

/-- The globals that exist in definition number `j` behind these assignments of its body. -/
def globalsBefore (program : Program) (j : Nat) (places : List Place) : List Variable :=
  introduce .globals [] (assignedBodies (program.definitions.take j) ++ places)

/-- All variables of a program. -/
def declared (program : Program) : List Variable :=
  program.globals.slots ++ program.definitions.flatMap fun d =>
    d.function.parameters.slots ++ d.function.locals.slots

/-- Names have one meaning at each point. -/
structure Scoped (program : Program) : Prop where
  functions : (program.definitions.map (·.function.name)).Nodup
  globals : (program.globals.slots.map (·.name)).Nodup
  apart : ∀ d ∈ program.definitions, ∀ v ∈ program.globals.slots, v.name ≠ d.function.name
  frames : ∀ d ∈ program.definitions,
    ((d.function.parameters.slots ++ d.function.locals.slots).map (·.name)).Nodup
  unreserved : (∀ d ∈ program.definitions, isReserved d.function.name = false) ∧
    ∀ v ∈ program.declared, isReserved v.name = false
  sizes : ∀ v ∈ program.declared, 1 ≤ v.size
  /-- Globals are created by the assignments of the program, locals by those of their function. -/
  created : program.globals.slots = introduce .globals []
      (assignedBodies program.definitions ++ assignedBlock program.main) ∧
    ∀ d ∈ program.definitions, d.function.parameters.slots ++ d.function.locals.slots =
      introduce .frame d.function.parameters.slots (assignedBlock d.body)
  /-- Where a local is created, no global of its name exists. -/
  visible : ∀ (j : Nat) (d : Definition), program.definitions[j]? = some d →
    ∀ v ∈ d.function.locals.slots, ∃ before place after,
      assignedBlock d.body = before ++ place :: after ∧ place.scope = .frame ∧ place.slot = v ∧
        v ∉ introduce .frame d.function.parameters.slots before ∧
        ∀ g ∈ program.globalsBefore j before, g.name ≠ v.name

end Program

/-! ### Names -/

/-- The names that are given to functions and variables. -/
structure Context.Named (Γ : Context) : Prop where
  functions : (Γ.callables.map (·.name)).Nodup
  apart : ∀ f ∈ Γ.callables, ∀ v ∈ Γ.globals.slots, v.name ≠ f.name
  unreserved : ∀ f ∈ Γ.callables, isReserved f.name = false ∧
    ∀ v ∈ f.parameters.slots ++ f.locals.slots, isReserved v.name = false
  globals : ∀ v ∈ Γ.globals.slots, isReserved v.name = false

namespace Context.Named

variable {Γ : Context}

theorem empty : Context.Named {} := by
  refine ⟨by simp [callables], ?_, ?_, by simp⟩ <;> simp [callables]

/-- Another state of the current function. -/
theorem setCurrent (h : Γ.Named) {f f' : Function} (hcurrent : Γ.current = some f)
    (hname : f'.name = f.name)
    (hslots : ∀ v ∈ f'.parameters.slots ++ f'.locals.slots, isReserved v.name = false) :
    Context.Named { Γ with current := some f' } := by
  have hcallables : Γ.callables = Γ.functions ++ [f] := by rw [callables, hcurrent]; rfl
  have hmem : f ∈ Γ.callables := by rw [hcallables]; simp
  refine ⟨?_, ?_, ?_, h.globals⟩
  · have hfunctions := h.functions
    rw [hcallables] at hfunctions
    simpa [callables, hname] using hfunctions
  · intro g hg v hv
    rcases List.mem_append.mp hg with hg | hg
    · exact h.apart g (by rw [hcallables]; simp [hg]) v hv
    · obtain rfl : g = f' := by simpa using hg
      rw [hname]
      exact h.apart f hmem v hv
  · intro g hg
    rcases List.mem_append.mp hg with hg | hg
    · exact h.unreserved g (by rw [hcallables]; simp [hg])
    · obtain rfl : g = f' := by simpa using hg
      exact ⟨hname ▸ (h.unreserved f hmem).1, hslots⟩

/-- A new variable whose name is neither reserved nor that of a function. -/
theorem declare (h : Γ.Named) {Γ' : Context} {global : Bool} {slot : Variable} {place : Place}
    (hreserved : isReserved slot.name = false) (hfree : ∀ f ∈ Γ.callables, f.name ≠ slot.name)
    (hdeclare : Γ.declare? global slot = some (place, Γ')) : Γ'.Named := by
  rcases @declare?_cases Γ global slot with ⟨f, -, hcurrent, hlocal⟩ | ⟨-, hglobal⟩
  · obtain ⟨_, locals, hadd, -, rfl⟩ := declareLocal?_some (hlocal.symm.trans hdeclare)
    obtain ⟨-, hslots, -, -⟩ := VariableList.add_ok hadd
    have hf := (h.unreserved f (by simp [callables, hcurrent])).2
    refine h.setCurrent hcurrent rfl ?_
    dsimp only
    rw [hslots, ← List.append_assoc]
    exact List.forall_mem_append.mpr ⟨hf, by simpa using hreserved⟩
  · obtain ⟨_, globals, hadd, -, rfl⟩ := declareGlobal?_some (hglobal.symm.trans hdeclare)
    obtain ⟨-, hslots, -, -⟩ := VariableList.add_ok hadd
    refine ⟨h.functions, fun f hf v hv => ?_, h.unreserved, ?_⟩
    · dsimp only at hv
      rw [hslots] at hv
      rcases List.mem_append.mp hv with hv | hv
      · exact h.apart f hf v hv
      · obtain rfl : v = slot := by simpa using hv
        exact (hfree f hf).symm
    · dsimp only
      rw [hslots]
      exact List.forall_mem_append.mpr ⟨h.globals, by simpa using hreserved⟩

/-- A function begins. -/
theorem begin (h : Γ.Named) {name : Bytes} {parameters : VariableList}
    (hname : isReserved name = false) (hfunction : ∀ f ∈ Γ.callables, f.name ≠ name)
    (hglobal : ∀ v ∈ Γ.globals.slots, v.name ≠ name)
    (hparameters : ∀ v ∈ parameters.slots, isReserved v.name = false) :
    Context.Named { Γ with current := some { name, parameters } } := by
  have hsub : ∀ f ∈ Γ.functions, f ∈ Γ.callables := fun f hf => List.mem_append_left _ hf
  refine ⟨?_, ?_, ?_, h.globals⟩
  · have hfunctions : (Γ.functions.map (·.name)).Nodup :=
      h.functions.sublist ((List.sublist_append_left _ _).map _)
    simp only [callables, Option.toList_some, List.map_append, List.map_cons, List.map_nil,
      List.nodup_append]
    refine ⟨hfunctions, by simp, ?_⟩
    intro other hother new hnew
    obtain ⟨f, hf, rfl⟩ := List.mem_map.mp hother
    obtain rfl : new = name := by simpa using hnew
    exact hfunction f (hsub f hf)
  · intro f hf v hv
    rcases List.mem_append.mp hf with hf | hf
    · exact h.apart f (hsub f hf) v hv
    · obtain rfl : f = { name, parameters } := by simpa using hf
      exact hglobal v hv
  · intro f hf
    rcases List.mem_append.mp hf with hf | hf
    · exact h.unreserved f (hsub f hf)
    · obtain rfl : f = { name, parameters } := by simpa using hf
      exact ⟨hname, by simpa using hparameters⟩

/-- The current function ends. -/
theorem finish (h : Γ.Named) {f : Function} (hcurrent : Γ.current = some f) :
    Context.Named { Γ with
      current := none
      functions := Γ.functions ++ [{ f with returnKnown := true }] } := by
  have hf := h.unreserved f (by simp [callables, hcurrent])
  have hknown : Context.Named { Γ with current := some { f with returnKnown := true } } :=
    h.setCurrent hcurrent rfl hf.2
  have hcallables : Context.callables { Γ with
      current := none
      functions := Γ.functions ++ [{ f with returnKnown := true }] } =
      Context.callables { Γ with current := some { f with returnKnown := true } } := by
    simp [callables]
  refine ⟨?_, ?_, ?_, h.globals⟩
  · rw [hcallables]
    exact hknown.functions
  · rw [hcallables]
    exact hknown.apart
  · rw [hcallables]
    exact hknown.unreserved

end Context.Named

namespace Parse

/-- **What parsers keep of names.** -/
def naming : Contract where
  state s := s.context.Named
  token _ := True
  error _ _ := True

theorem naming_of_onlyBuffer {s s' : ParserState} (h : naming.state s) (hs : OnlyBuffer s s') :
    naming.state s' := by
  rw [OnlyBuffer] at hs
  rw [hs]
  exact h

theorem callee?_none {s : ParserState} {name : Bytes} (h : s.callee? name = none) :
    ∀ f ∈ s.context.callables, f.name ≠ name := by
  intro f hf hname
  unfold ParserState.callee? at h
  cases hindex : s.functions.findIdx? (·.name == name) with
  | none =>
    have hall := List.findIdx?_eq_none_iff.mp hindex f hf
    simp [hname] at hall
  | some i =>
    obtain ⟨hlt, -⟩ := List.findIdx?_eq_some_iff_getElem.mp hindex
    simp [hindex, List.getElem?_eq_getElem hlt] at h

theorem naming_reading : naming.Reading where
  peek {s} hs := by
    unfold Obeys
    cases hrun : peek s with
    | ok token s' => exact ⟨naming_of_onlyBuffer hs (.answered hrun), trivial⟩
    | error e s' => trivial
  next {s} hs := by
    unfold Obeys
    cases hrun : next s with
    | ok token s' => exact ⟨naming_of_onlyBuffer hs (.answered hrun), trivial⟩
    | error e s' => trivial
  fail _ _ _ := trivial
  exhausted _ := trivial

theorem naming_defining : naming.Defining where
  toReading := naming_reading
  rewind hs _ := hs
  declare {s s' token global slot place} hs hreserved hcallee _ hrun := by
    obtain ⟨-, hdeclare⟩ := (gives_declare token global slot).result rfl rfl hrun
    exact hs.declare hreserved (callee?_none hcallee) hdeclare
  giveBack {s f f' size array} hs hcurrent hreturn := by
    obtain ⟨hparameters, hlocals, -⟩ := Context.setReturn_ok hreturn
    have hf := hs.unreserved f (by simp [Context.callables, ParserState.context, hcurrent])
    refine hs.setCurrent hcurrent ?_ (by rw [hparameters, hlocals]; exact hf.2)
    unfold Function.setReturn at hreturn
    split_ifs at hreturn <;> cases hreturn <;> rfl
  commit hs := hs
  report _ hs := hs
  begins {s name parameters} hs hname hfunction hglobal hparameters := by
    have hfree : ∀ f ∈ s.functions, f.name ≠ name := by
      simpa [FunctionTable.lookup?] using hfunction
    exact Context.Named.begin hs hname hfree (VariableList.index?_none hglobal) hparameters
  finishes {s f} body hs hcurrent := by
    have hnamed := Context.Named.finish hs hcurrent
    simpa [naming, ParserState.context] using hnamed

/-- An included file names things as if its definitions stood in place of the line. -/
theorem naming_includeWithin : ∀ depth : Nat, naming.Keeps (includeWithin depth)
  | 0, _, _ => trivial
  | depth + 1, s, hs => by
    unfold includeWithin
    refine keeps_includeFile naming_defining ?_ hs
    intro s loader opened file target text hs _ _ _
    unfold spliced
    refine .get_bind (.modify_bind (.modify_bind ?_))
    refine (keeps_definitions naming_defining (naming_includeWithin depth) ?_).bind
      fun _ s₁ h₁ => ?_
    · exact hs
    refine (obeys_peek naming_reading (.refl h₁)).bind fun token s₂ ⟨h₂, _⟩ => ?_
    exact .check (obeys_failGrammar naming_reading h₂ trivial _) fun _ => h₂.state

/-- **Names given by a program are not taken twice.** -/
theorem program_named (fileName : Bytes) {s : ParserState} (hs : s.context.Named) :
    Obeys naming (program fileName) s fun program _ =>
      ∃ Γ : Context, Γ.Named ∧ Γ.functions = program.definitions.map (·.function) ∧
        Γ.globals = program.globals := by
  unfold program
  refine .get_bind ?_
  refine (keeps_definitions naming_defining (naming_includeWithin _) hs).bind fun _ s₁ h₁ => ?_
  refine .get_bind ((keeps_mainWithin naming_defining _ h₁).bind fun main s₂ h₂ => ?_)
  exact .get_bind (.modify_bind (.pure ⟨s₂.context, h₂, rfl, rfl⟩))

end Parse

/-- What a parser has named at the end of a program. -/
theorem Program.parse_named {loader : Option Loader} {source fileName : Bytes} {program : Program}
    (h : (Program.parse loader source fileName).1 = .ok program) :
    ∃ Γ : Context, Γ.Named ∧ Γ.functions = program.definitions.map (·.function) ∧
      Γ.globals = program.globals := by
  obtain ⟨_, _, _, hrun⟩ := Program.parse_ok h
  refine (Parse.program_named fileName ?_).of_ok hrun
  exact Context.Named.empty

/-! ### Assignments one after the other -/

namespace Context

/-- The variables of a scope. -/
def region (Γ : Context) : Scope → List Variable
  | .globals => Γ.globals.slots
  | .frame => (Γ.current.map fun f => f.parameters.slots ++ f.locals.slots).getD []

/-- From `Γ` to `Γ'` the variables were assigned to, one after the other, with returns in
between. -/
inductive Walks : Context → List Place → Context → Prop
  | nil (Γ : Context) : Walks Γ [] Γ
  | assigns {Γ Γ₁ Γ' : Context} {place : Place} {places : List Place} (h : Γ.Assigns place Γ₁)
    (hrest : Walks Γ₁ places Γ') : Walks Γ (place :: places) Γ'
  | returns {Γ Γ₁ Γ' : Context} {size : Nat} {places : List Place} (h : Γ.Returns size Γ₁)
    (hrest : Walks Γ₁ places Γ') : Walks Γ places Γ'

namespace Walks

variable {Γ Γ₁ Γ' : Context} {places more before after : List Place} {place : Place}

theorem append (h : Γ.Walks places Γ₁) (h' : Γ₁.Walks more Γ') : Γ.Walks (places ++ more) Γ' := by
  induction h with
  | nil => exact h'
  | assigns h _ ih => exact .assigns h (ih h')
  | returns h _ ih => exact .returns h (ih h')

end Walks

end Context

mutual

/-- **A statement makes its assignments one after the other.** -/
theorem Statement.typed_walks : (statement : Statement) → ∀ {Γ Γ' : Context},
    statement.Typed Γ Γ' → Γ.Walks statement.assigned Γ'
  | .assign place value, Γ, Γ', h => by
    rw [Statement.Typed] at h
    exact .assigns h.2 (.nil Γ')
  | .assignElement place index indexSize value, Γ, Γ', h => by
    rw [Statement.Typed] at h
    obtain ⟨_, _, _, _, rfl⟩ := h
    exact .nil Γ'
  | .discard value size, Γ, Γ', h => by
    rw [Statement.Typed] at h
    obtain ⟨_, rfl⟩ := h
    exact .nil Γ'
  | .ifThen condition body, Γ, Γ', h => by
    rw [Statement.Typed] at h
    rw [Statement.assigned]
    exact typedBlock_walks body h.2
  | .ifElse condition body otherwise, Γ, Γ', h => by
    rw [Statement.Typed] at h
    obtain ⟨_, Γ₁, hbody, hother⟩ := h
    rw [Statement.assigned]
    exact (typedBlock_walks body hbody).append (typedBlock_walks otherwise hother)
  | .whileLoop condition body, Γ, Γ', h => by
    rw [Statement.Typed] at h
    rw [Statement.assigned]
    exact typedBlock_walks body h.2
  | .giveBack (some value), Γ, Γ', h => by
    rw [Statement.Typed] at h
    obtain ⟨_, _, hreturn⟩ := h
    exact .returns hreturn (.nil Γ')
  | .giveBack none, Γ, Γ', h => by
    rw [Statement.Typed] at h
    exact .returns h (.nil Γ')

theorem typedBlock_walks : (statements : List Statement) → ∀ {Γ Γ' : Context},
    typedBlock statements Γ Γ' → Γ.Walks (assignedBlock statements) Γ'
  | [], Γ, Γ', h => by
    rw [typedBlock] at h
    rw [h]
    exact .nil Γ
  | statement :: statements, Γ, Γ', h => by
    rw [typedBlock] at h
    obtain ⟨Γ₁, hfirst, hrest⟩ := h
    rw [assignedBlock]
    exact (statement.typed_walks hfirst).append (typedBlock_walks statements hrest)

end

/-! ### Where variables are created -/

theorem introduce_append (scope : Scope) (known : List Variable) (places more : List Place) :
    introduce scope known (places ++ more) = introduce scope (introduce scope known places) more :=
  List.foldl_append

/-- **A variable that was introduced has a first assignment.** -/
theorem exists_creation {scope : Scope} {known : List Variable} {v : Variable} :
    ∀ {places : List Place}, v ∈ introduce scope known places → v ∉ known →
    ∃ before place after, places = before ++ place :: after ∧ place.scope = scope ∧
      place.slot = v ∧ v ∉ introduce scope known before := by
  intro places
  induction places using List.reverseRecOn with
  | nil => exact fun hv hnew => absurd hv hnew
  | append_singleton places last ih =>
    intro hv hnew
    by_cases hearlier : v ∈ introduce scope known places
    · obtain ⟨before, place, after, rfl, hrest⟩ := ih hearlier hnew
      exact ⟨before, place, after ++ [last], by simp, hrest⟩
    · rw [introduce_append] at hv
      simp only [introduce, List.foldl_cons, List.foldl_nil] at hv hearlier
      split_ifs at hv with hlast
      · have hslot : v = last.slot := by
          rcases List.mem_append.mp hv with hv | hv
          · exact absurd hv hearlier
          · simpa using hv
        exact ⟨places, last, [], by simp, hlast.1, hslot.symm, hearlier⟩
      · exact absurd hv hearlier

namespace Context

variable {Γ Γ₁ Γ' : Context} {places before after : List Place} {place : Place} {scope : Scope}

theorem local?_region {name : Bytes} (h : Γ.local? name = some place) :
    place.scope = .frame ∧ place.slot ∈ Γ.region .frame := by
  obtain ⟨f, slot, offset, hcurrent, ⟨hlookup, rfl⟩ | ⟨hlookup, rfl⟩⟩ := local?_cases h <;>
    obtain ⟨_, _, hslots, -⟩ := VariableList.lookup?_some hlookup <;>
    exact ⟨rfl, by simp [region, hcurrent, hslots]⟩

theorem global?_region {name : Bytes} (h : Γ.global? name = some place) :
    place.scope = .globals ∧ place.slot ∈ Γ.region .globals := by
  obtain ⟨found, hlookup, rfl⟩ := Option.map_eq_some_iff.mp h
  obtain ⟨_, _, hslots, -⟩ := VariableList.lookup?_some hlookup
  exact ⟨rfl, by simp [region, hslots]⟩

theorem assigned?_region {global : Bool} {name : Bytes}
    (h : Γ.assigned? global name = some place) : place.slot ∈ Γ.region place.scope := by
  have hglobal : ∀ {name}, Γ.global? name = some place → place.slot ∈ Γ.region place.scope := by
    intro name h
    obtain ⟨hscope, hmem⟩ := global?_region h
    rwa [hscope]
  cases global with
  | true => exact hglobal h
  | false =>
    rcases Option.or_eq_some_iff.mp h with h | ⟨-, h⟩
    · obtain ⟨hscope, hmem⟩ := local?_region h
      rwa [hscope]
    · exact hglobal h

/-- What an assignment adds: a variable of its scope whose name is new there. -/
theorem Assigns.region_cases (h : Γ.Assigns place Γ') :
    (Γ' = Γ ∧ place.slot ∈ Γ.region place.scope) ∨
    (Γ'.region place.scope = Γ.region place.scope ++ [place.slot] ∧
      (∀ other, other ≠ place.scope → Γ'.region other = Γ.region other) ∧
      (∀ v ∈ Γ.region place.scope, v.name ≠ place.slot.name) ∧
      (place.scope = .frame → ∀ v ∈ Γ.region .globals, v.name ≠ place.slot.name)) := by
  cases h with
  | existing global h => exact .inl ⟨rfl, assigned?_region h⟩
  | new global hnone hsized hle h =>
    right
    rcases @declare?_cases Γ global place.slot with ⟨f, rfl, hcurrent, hdeclare⟩ | ⟨-, hdeclare⟩
    · obtain ⟨_, locals, hadd, hplace, rfl⟩ := declareLocal?_some (hdeclare.symm.trans h)
      obtain ⟨-, hslots, hnew, -⟩ := VariableList.add_ok hadd
      obtain ⟨hlocal, hglobal⟩ := Option.or_eq_none_iff.mp hnone
      have hscope : place.scope = .frame := by rw [hplace]
      rw [hscope]
      refine ⟨?_, ?_, ?_, fun _ => VariableList.lookup?_none (Option.map_eq_none_iff.mp hglobal)⟩
      · simp [region, hcurrent, hslots]
      · intro other hother
        cases other with
        | frame => exact absurd rfl hother
        | globals => rfl
      · simp only [region, hcurrent, Option.map_some, Option.getD_some]
        exact List.forall_mem_append.mpr
          ⟨local?_none hcurrent hlocal, VariableList.index?_none hnew⟩
    · obtain ⟨_, globals, hadd, hplace, rfl⟩ := declareGlobal?_some (hdeclare.symm.trans h)
      obtain ⟨-, hslots, hnew, -⟩ := VariableList.add_ok hadd
      have hscope : place.scope = .globals := by rw [hplace]
      rw [hscope]
      refine ⟨hslots, ?_, VariableList.index?_none hnew, by simp⟩
      intro other hother
      cases other with
      | frame => rfl
      | globals => exact absurd rfl hother

/-- An assignment keeps the parameters. -/
theorem Assigns.parameters (h : Γ.Assigns place Γ') {f : Function} (hcurrent : Γ.current = some f) :
    ∃ f', Γ'.current = some f' ∧ f'.parameters = f.parameters := by
  cases h with
  | existing global h => exact ⟨f, hcurrent, rfl⟩
  | new global hnone hsized hle h =>
    rcases @declare?_cases Γ global place.slot with ⟨f₁, -, hfunction, hdeclare⟩ | ⟨-, hdeclare⟩
    · obtain ⟨_, locals, -, -, rfl⟩ := declareLocal?_some (hdeclare.symm.trans h)
      obtain rfl := Option.some.inj (hcurrent.symm.trans hfunction)
      exact ⟨_, rfl, rfl⟩
    · obtain ⟨_, globals, -, -, rfl⟩ := declareGlobal?_some (hdeclare.symm.trans h)
      exact ⟨f, hcurrent, rfl⟩

theorem Assigns.region (h : Γ.Assigns place Γ') (scope : Scope) :
    Γ'.region scope = introduce scope (Γ.region scope) [place] := by
  simp only [introduce, List.foldl_cons, List.foldl_nil]
  rcases h.region_cases with ⟨rfl, hmem⟩ | ⟨hadds, hothers, hnew, -⟩
  · rw [if_neg]
    rintro ⟨rfl, hnot⟩
    exact hnot hmem
  · by_cases hscope : place.scope = scope
    · subst hscope
      rw [if_pos ⟨rfl, fun hmem => hnew _ hmem rfl⟩, hadds]
    · rw [if_neg fun h => hscope h.1, hothers scope (Ne.symm hscope)]

theorem Returns.region {size : Nat} (h : Γ.Returns size Γ') (scope : Scope) :
    Γ'.region scope = Γ.region scope := by
  obtain ⟨array, hcurrent, hreturn⟩ := h
  obtain ⟨hparameters, hlocals, -⟩ := setReturn_ok hreturn
  cases scope with
  | globals => rfl
  | frame => simp [Context.region, hcurrent, hparameters, hlocals]

namespace Walks

/-- **The variables that exist are those that were assigned to.** -/
theorem region (h : Γ.Walks places Γ') (scope : Scope) :
    Γ'.region scope = introduce scope (Γ.region scope) places := by
  induction h with
  | nil => rfl
  | @assigns Γ Γ₁ Γ' place places h _ ih =>
    calc Γ'.region scope = introduce scope (Γ₁.region scope) places := ih
      _ = introduce scope (introduce scope (Γ.region scope) [place]) places := by
        rw [h.region scope]
      _ = introduce scope (Γ.region scope) (place :: places) := by
        rw [← introduce_append, List.singleton_append]
  | returns h _ ih => rw [ih, h.region scope]

/-- An assignment on the way. -/
theorem at_assignment (h : Γ.Walks (before ++ place :: after) Γ') :
    ∃ Γ₁ Γ₂ : Context, Γ.Walks before Γ₁ ∧ Γ₁.Assigns place Γ₂ := by
  generalize hplaces : before ++ place :: after = places at h
  induction h generalizing before with
  | nil => simp at hplaces
  | @assigns Γ Γ₁ Γ' first places h _ ih =>
    cases before with
    | nil =>
      obtain ⟨rfl, -⟩ := List.cons.inj hplaces
      exact ⟨Γ, Γ₁, .nil Γ, h⟩
    | cons _ before =>
      obtain ⟨rfl, hrest⟩ := List.cons.inj hplaces
      obtain ⟨Γ₂, Γ₃, hwalks, hassigns⟩ := ih hrest
      exact ⟨Γ₂, Γ₃, .assigns h hwalks, hassigns⟩
  | returns h _ ih =>
    obtain ⟨Γ₂, Γ₃, hwalks, hassigns⟩ := ih hplaces
    exact ⟨Γ₂, Γ₃, .returns h hwalks, hassigns⟩

/-- **Where a local is created, no global of its name exists.** -/
theorem creation (h : Γ.Walks (before ++ place :: after) Γ') (hscope : place.scope = .frame)
    (hnew : place.slot ∉ introduce .frame (Γ.region .frame) before) :
    ∀ g ∈ introduce .globals (Γ.region .globals) before, g.name ≠ place.slot.name := by
  obtain ⟨Γ₁, Γ₂, hwalks, hassigns⟩ := h.at_assignment
  rw [← hwalks.region] at hnew ⊢
  rcases hassigns.region_cases with ⟨-, hmem⟩ | ⟨-, -, -, hvisible⟩
  · rw [hscope] at hmem
    exact absurd hmem hnew
  · exact hvisible hscope

/-- Inside a function the parameters stay. -/
theorem parameters (h : Γ.Walks places Γ') {f f' : Function} (hcurrent : Γ.current = some f)
    (hcurrent' : Γ'.current = some f') : f'.parameters = f.parameters := by
  induction h generalizing f with
  | nil => rw [Option.some.inj (hcurrent'.symm.trans hcurrent)]
  | @assigns Γ Γ₁ Γ' place places h _ ih =>
    obtain ⟨f₁, hf₁, hparameters⟩ := h.parameters hcurrent
    rw [ih hf₁ hcurrent', hparameters]
  | @returns Γ Γ₁ Γ' size places h _ ih =>
    obtain ⟨array, hfunction, hreturn⟩ := h
    obtain rfl := Option.some.inj (hcurrent.symm.trans hfunction)
    rw [ih rfl hcurrent', (setReturn_ok hreturn).1]

end Walks

end Context

/-! ### Programs -/

variable {definitions : List Definition} {globals : VariableList}

/-- **The body of each function creates its locals, and all bodies the globals**, one after the
other. -/
theorem Declares.walks (h : Declares definitions globals) :
    globals.slots = introduce .globals [] (assignedBodies definitions) ∧
    ∀ (j : Nat) (d : Definition), definitions[j]? = some d → ∃ Γ Γ' : Context,
      Γ.Walks (assignedBlock d.body) Γ' ∧
      Γ.region .globals = introduce .globals [] (assignedBodies (definitions.take j)) ∧
      Γ.region .frame = d.function.parameters.slots ∧
      Γ'.region .frame = d.function.parameters.slots ++ d.function.locals.slots := by
  induction h with
  | nil => exact ⟨rfl, by simp⟩
  | @snoc definitions globals globals' f f' g body h hbody hcloses ih =>
    obtain ⟨hglobals, hbodies⟩ := ih
    have hwalks := typedBlock_walks body hbody
    refine ⟨?_, fun j d hd => ?_⟩
    · calc globals'.slots
          = introduce .globals globals.slots (assignedBlock body) := hwalks.region .globals
        _ = introduce .globals [] (assignedBodies (definitions ++ [⟨g, body⟩])) := by
          rw [hglobals, ← introduce_append]
          simp [assignedBodies]
    · rcases Nat.lt_or_ge j definitions.length with hlt | hge
      · rw [List.getElem?_append_left hlt] at hd
        rw [List.take_append_of_le_length (by omega)]
        exact hbodies j d hd
      · obtain ⟨hlt, -⟩ := List.getElem?_eq_some_iff.mp hd
        obtain rfl : j = definitions.length := by
          rw [List.length_append, List.length_singleton] at hlt
          omega
        rw [List.getElem?_append_right (Nat.le_refl _), Nat.sub_self] at hd
        obtain rfl : (⟨g, body⟩ : Definition) = d := Option.some.inj hd
        have hparameters : f'.parameters = f.parameters := hwalks.parameters rfl rfl
        rw [List.take_left]
        refine ⟨_, _, hwalks, hglobals, ?_, ?_⟩
        · simp [Context.region, hcloses.fresh.1, hcloses.known, hparameters]
        · simp [Context.region, hcloses.known]

namespace Program

variable {program : Program}

/-- **A variable exists from the first assignment to it on.** -/
theorem Typed.created (h : program.Typed) :
    program.globals.slots = introduce .globals []
      (assignedBodies program.definitions ++ assignedBlock program.main) ∧
    ∀ d ∈ program.definitions, d.function.parameters.slots ++ d.function.locals.slots =
      introduce .frame d.function.parameters.slots (assignedBlock d.body) := by
  obtain ⟨globals, hdeclares, hblock⟩ := h
  obtain ⟨hbefore, hbodies⟩ := hdeclares.walks
  refine ⟨?_, fun d hd => ?_⟩
  · rw [introduce_append, ← hbefore]
    exact (typedBlock_walks _ hblock).region .globals
  · obtain ⟨j, hj⟩ := List.getElem?_of_mem hd
    obtain ⟨Γ, Γ', hwalks, -, hstart, hend⟩ := hbodies j d hj
    calc d.function.parameters.slots ++ d.function.locals.slots
        = introduce .frame (Γ.region .frame) (assignedBlock d.body) := by
          rw [← hend, hwalks.region]
      _ = introduce .frame d.function.parameters.slots (assignedBlock d.body) := by rw [hstart]

/-- **A local is created where no global has its name.** -/
theorem Typed.visible (h : program.Typed) {j : Nat} {d : Definition}
    (hj : program.definitions[j]? = some d) {v : Variable} (hv : v ∈ d.function.locals.slots) :
    ∃ before place after, assignedBlock d.body = before ++ place :: after ∧
      place.scope = .frame ∧ place.slot = v ∧
      v ∉ introduce .frame d.function.parameters.slots before ∧
      ∀ g ∈ program.globalsBefore j before, g.name ≠ v.name := by
  have hnew : v ∉ d.function.parameters.slots := by
    have hnames := (h.function_sound hj).names
    rw [List.map_append, List.nodup_append] at hnames
    intro hparameter
    exact hnames.2.2 _ (List.mem_map_of_mem hparameter) _ (List.mem_map_of_mem hv) rfl
  have hcreated : v ∈ introduce .frame d.function.parameters.slots (assignedBlock d.body) := by
    rw [← h.created.2 d (List.mem_of_getElem? hj)]
    exact List.mem_append_right _ hv
  obtain ⟨globals, hdeclares, hblock⟩ := h
  obtain ⟨Γ, Γ', hwalks, hthere, hstart, -⟩ := hdeclares.walks.2 j d hj
  obtain ⟨before, place, after, hplaces, hscope, rfl, hfirst⟩ := exists_creation hcreated hnew
  refine ⟨before, place, after, hplaces, hscope, rfl, hfirst, ?_⟩
  rw [globalsBefore, introduce_append, ← hthere]
  rw [hplaces] at hwalks
  rw [← hstart] at hfirst
  exact hwalks.creation hscope hfirst

/-- **Names have one meaning.** If a source text is accepted, with whatever it includes, then
functions have distinct names and so have globals, and none has both; the parameters and locals of
a function have distinct names; no name is a reserved word, and every variable has a size. No
local has the name of a global that was there when the local was created. -/
theorem parse_scoped {loader : Option Loader} {source fileName : Bytes}
    (hparse : (Program.parse loader source fileName).1 = .ok program) : program.Scoped := by
  have htyped : program.Typed := Program.parse_typed hparse
  obtain ⟨Γ, hnamed, hfunctions, hglobals⟩ := Program.parse_named hparse
  have hmain := htyped.main_sound
  have hfunction : ∀ d ∈ program.definitions, d.function.Sound := by
    intro d hd
    obtain ⟨j, hj⟩ := List.getElem?_of_mem hd
    exact htyped.function_sound hj
  have hcallable : ∀ d ∈ program.definitions, d.function ∈ Γ.callables := fun d hd =>
    List.mem_append_left _ (by rw [hfunctions]; exact List.mem_map.mpr ⟨d, hd, rfl⟩)
  have hdeclared : ∀ v ∈ program.declared, isReserved v.name = false ∧ 1 ≤ v.size := by
    refine List.forall_mem_append.mpr ⟨fun v hv => ⟨?_, ?_⟩, fun v hv => ?_⟩
    · exact hnamed.globals v (hglobals ▸ hv)
    · exact (hmain.globals.sized v hv).pos
    · obtain ⟨d, hd, hv⟩ := List.mem_flatMap.mp hv
      refine ⟨(hnamed.unreserved _ (hcallable d hd)).2 v hv, ?_⟩
      rcases List.mem_append.mp hv with hv | hv
      · exact ((hfunction d hd).parameters.sized v hv).pos
      · exact ((hfunction d hd).locals.sized v hv).pos
  exact {
    functions := by
      have hnames : (Γ.functions.map (·.name)).Nodup :=
        hnamed.functions.sublist ((List.sublist_append_left _ _).map _)
      rwa [hfunctions, List.map_map] at hnames
    globals := hmain.names
    apart := fun d hd v hv => hnamed.apart _ (hcallable d hd) v (hglobals ▸ hv)
    frames := fun d hd => (hfunction d hd).names
    unreserved := ⟨fun d hd => (hnamed.unreserved _ (hcallable d hd)).1,
      fun v hv => (hdeclared v hv).1⟩
    sizes := fun v hv => (hdeclared v hv).2
    created := htyped.created
    visible := fun j d hj v hv => htyped.visible hj hv }

/-- A local `x` is created before the global of its name, and a global `y` before a function that
assigns to it. -/
def shadowing : Bytes :=
  "def early\n x = 1\n global y = x\ndef late\n y = 2\n global x = y\nearly()\nlate()\n"

theorem shadowing_scoped : ∃ program,
    (Program.parse none shadowing []).1 = .ok program ∧ program.Scoped ∧
      program.globals.slots.map (·.name) = [Bytes.ofString "y", Bytes.ofString "x"] ∧
      program.definitions.map (·.function.locals.slots.map (·.name)) =
        [[Bytes.ofString "x"], []] := by
  have hcomputed : ((Program.parse none shadowing []).1.toOption.map fun program =>
      (program.globals.slots.map (·.name),
        program.definitions.map (·.function.locals.slots.map (·.name)))) =
      some ([Bytes.ofString "y", Bytes.ofString "x"], [[Bytes.ofString "x"], []]) := by
    decide +kernel
  obtain ⟨program, hprogram, hfacts⟩ := Option.map_eq_some_iff.mp hcomputed
  have hparse := Except.eq_ok_of_toOption hprogram
  rw [Prod.mk.injEq] at hfacts
  exact ⟨program, hparse, parse_scoped hparse, hfacts⟩

end Program

end Terrace
