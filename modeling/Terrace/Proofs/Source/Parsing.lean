/-
# What is parsed makes sense

Every expression that is parsed leaves what its shape says, and every statement makes sense where
it stands: the typing has the rules of what the parser builds. So a program that is accepted is
one that makes sense.

Key definitions: `Shaped`, `Acceptable`.
Key theorems: `Context.Sound.builds`, `constructs_typed`, `Program.parse_typed`.
-/
import Terrace.Proofs.Source.Building

namespace Terrace

/-! ### Expressions -/

/-- The expression leaves what its shape says. -/
structure Shaped (Γ : Context) (typed : Typed) : Prop where
  size : ∃ n : Nat, typed.1.Typed Γ n ∧ typed.2.size = n
  element_nonneg : 0 ≤ typed.2.elementSize
  element_le : typed.2.elementSize ≤ 255

theorem Shaped.scalar {Γ : Context} {e : Expression} {n : Nat} (h : e.Typed Γ n) :
    Shaped Γ (e, .scalar n) := by
  have hle := e.typed_le h
  refine ⟨⟨n, h, rfl⟩, ?_, ?_⟩
  · show (0 : Int) ≤ n
    omega
  · show (n : Int) ≤ 255
    omega

/-- An expression of a size that is known. -/
theorem Shaped.typed {Γ : Context} {e : Expression} {shape : Shape} (h : Shaped Γ (e, shape))
    {n : Nat} (hsize : shape.size = n) : e.Typed Γ n := by
  obtain ⟨m, hm, hsize'⟩ := h.size
  obtain rfl : m = n := by
    dsimp only at hsize'
    omega
  exact hm

theorem Shaped.unary {Γ : Context} {operator : UnaryOp} {operand : Typed} {shape : Shape}
    (hoperand : Shaped Γ operand) (h : unaryShape operator operand.2.size = .ok shape) :
    Shaped Γ (.unary operator operand.1 operand.2.size, shape) := by
  obtain ⟨a, ha, hsize⟩ := hoperand.size
  obtain rfl : shape = .scalar a := by
    rw [(unaryShape_ok h).1, hsize]
  refine Shaped.scalar ?_
  rw [Expression.Typed]
  exact ⟨a, ha, hsize, h⟩

theorem Shaped.binary {Γ : Context} {operator : BinaryOp} {left right : Typed} {shape : Shape}
    (hleft : Shaped Γ left) (hright : Shaped Γ right)
    (h : binaryShape operator left.2.size right.2.size = .ok shape) :
    Shaped Γ (.binary operator left.1 right.1 left.2.size right.2.size, shape) := by
  obtain ⟨a, ha, hsize⟩ := hleft.size
  obtain ⟨b, hb, hsize'⟩ := hright.size
  obtain ⟨n, rfl⟩ : ∃ n : Nat, shape = .scalar n := by
    have hshape := binaryShape_ok h
    cases operator with
    | compare _ => exact ⟨1, hshape.2⟩
    | arithmetic _ => exact ⟨a, by rw [hshape.2, hsize]⟩
    | and => exact ⟨1, hshape.2⟩
    | or => exact ⟨1, hshape.2⟩
    | bitwise _ => exact ⟨b, by rw [hshape, hsize']⟩
    | shift _ => exact ⟨a, by rw [hshape.2, hsize]⟩
  refine Shaped.scalar ?_
  rw [Expression.Typed]
  exact ⟨a, b, ha, hb, hsize, hsize', h⟩

namespace Context

variable {Γ : Context} {place : Place} {name : Bytes}

/-- The slot of a variable that a name means is one of those declared. -/
theorem Sound.slot (hΓ : Γ.Sound) (h : Γ.meaning? name = some place) :
    place.slot.Sized ∧ place.slot.size ≤ 255 := by
  have hlist {l : VariableList} (hl : l.Sound) {slot : Variable} {offset : Int}
      (hlookup : l.lookup? name = some (slot, offset)) : slot.Sized ∧ slot.size ≤ 255 := by
    obtain ⟨before, after, hslots, _, _⟩ := VariableList.lookup?_some hlookup
    have hsmall := hl.small
    rw [hslots, extent_append, extent] at hsmall
    refine ⟨hl.sized slot (by rw [hslots]; simp), by omega⟩
  rcases Option.or_eq_some_iff.mp h with hlocal | ⟨_, hglobal⟩
  · obtain ⟨f, _, _, hcurrent, ⟨hlookup, rfl⟩ | ⟨hlookup, rfl⟩⟩ := local?_cases hlocal
    · exact hlist (hΓ.current hcurrent).parameters hlookup
    · exact hlist (hΓ.current hcurrent).locals hlookup
  · obtain ⟨found, hlookup, rfl⟩ := Option.map_eq_some_iff.mp hglobal
    exact hlist hΓ.globals hlookup

/-- The functions that may be called are sound. -/
theorem Sound.callable (hΓ : Γ.Sound) {callee : Nat} {f : Function}
    (h : Γ.callables[callee]? = some f) : f.Sound := by
  rcases List.mem_append.mp (List.mem_of_getElem? h) with hmem | hmem
  · exact (hΓ.functions f hmem).1
  · exact hΓ.current (by simpa using hmem)

/-- The parameters of functions that may be called have sizes. -/
theorem Sound.takes (hΓ : Γ.Sound) {parameter : Variable} (h : Γ.Takes parameter) :
    parameter.Sized := by
  obtain ⟨f, hf, hmem⟩ := h
  obtain ⟨callee, hcallee⟩ := List.mem_iff_getElem?.mp hf
  exact (hΓ.callable hcallee).parameters.sized parameter hmem

/-- A call leaves the result of its function. -/
theorem Sound.shaped_call (hΓ : Γ.Sound) {callee : Nat} {f : Function}
    {arguments : List Expression} (hf : Γ.callables[callee]? = some f)
    (hknown : f.returnKnown = true) (harguments : typedAll Γ arguments f.parameters.slots) :
    Shaped Γ (.call callee arguments, {
      size := f.returnSize, elementSize := if f.returnArray then 1 else f.returnSize
      isArray := f.returnArray }) := by
  have hsound := hΓ.callable hf
  have hnonneg := hsound.result_nonneg
  have hle := hsound.result_le
  refine ⟨⟨f.returnSize.toNat, ?_, ?_⟩, ?_, ?_⟩
  · rw [Expression.Typed]
    exact ⟨f, hf, hknown, by omega, by omega, harguments⟩
  · show f.returnSize = _
    omega
  · show 0 ≤ if f.returnArray = true then 1 else f.returnSize
    split <;> omega
  · show (if f.returnArray = true then 1 else f.returnSize) ≤ 255
    split <;> omega

/-- A variable that is no reference leaves its value. -/
theorem Sound.shaped_value (hΓ : Γ.Sound) (h : Γ.meaning? place.slot.name = some place) :
    Shaped Γ (.load place, {
      size := place.slot.size, elementSize := place.slot.elementSize
      isArray := place.slot.isArray }) := by
  obtain ⟨hsized, hle⟩ := hΓ.slot h
  have hpos := hsized.pos
  refine ⟨⟨place.slot.size.toNat, ?_, ?_⟩, hsized.element_nonneg, hsized.element_le⟩
  · rw [Expression.Typed]
    exact ⟨h, by omega, by omega⟩
  · show place.slot.size = _
    omega

end Context

/-- Arguments that leave what the parameters take. -/
theorem typedAll_of_forall₂ {Γ : Context} : ∀ {parameters : List Variable} {es : List Expression},
    List.Forall₂ (fun parameter e => ∃ n : Nat, e.Typed Γ n ∧ parameter.size = (n : Int))
      parameters es → typedAll Γ es parameters
  | [], [], _ => by rw [typedAll]
  | parameter :: parameters, e :: es, h => by
    obtain ⟨he, hes⟩ := List.forall₂_cons.mp h
    rw [typedAll]
    exact ⟨parameter, parameters, rfl, he, typedAll_of_forall₂ hes⟩

/-- **Expressions leave what their shapes say.** -/
theorem Context.Sound.builds {Γ : Context} (hΓ : Γ.Sound) : Γ.Builds (Shaped Γ)
    (fun parameter e => ∃ n : Nat, e.Typed Γ n ∧ parameter.size = (n : Int)) where
  number hlength := by
    refine Shaped.scalar ?_
    rw [Expression.Typed]
    exact ⟨rfl, by omega⟩
  string {value} hlength := by
    refine ⟨⟨value.length, ?_, rfl⟩, ?_, ?_⟩
    · rw [Expression.Typed]
      exact ⟨rfl, hlength⟩
    · show (0 : Int) ≤ 1
      omega
    · show (1 : Int) ≤ 255
      omega
  value hmeaning _ := hΓ.shaped_value hmeaning
  reference hmeaning hreference := by
    refine @Shaped.scalar _ _ 2 ?_
    rw [Expression.Typed]
    exact ⟨hmeaning, (hΓ.slot hmeaning).1.reference hreference, by omega⟩
  address hmeaning := by
    refine @Shaped.scalar _ _ 2 ?_
    rw [Expression.Typed]
    exact ⟨hmeaning, rfl⟩
  element {place index} hmeaning harray hindex hsize := by
    have hsized := (hΓ.slot hmeaning).1
    have hnonneg := hsized.element_nonneg
    have hle := hsized.element_le
    obtain ⟨i, hi, hshape⟩ := hindex.size
    obtain ⟨n, hn⟩ : ∃ n : Nat, place.slot.elementSize = n :=
      ⟨place.slot.elementSize.toNat, by omega⟩
    rw [hn]
    refine Shaped.scalar ?_
    rw [Expression.Typed]
    exact ⟨hmeaning, harray, hn, by omega, i, hi, hshape, by omega⟩
  unary := Shaped.unary
  binary := Shaped.binary
  byValue {parameter argument} _ hargument hsize := by
    obtain ⟨n, hn, hshape⟩ := hargument.size
    exact ⟨n, hn, by omega⟩
  byReference htakes hreference hmeaning _ _ := by
    refine ⟨2, ?_, (hΓ.takes htakes).reference hreference⟩
    rw [Expression.Typed]
    exact ⟨hmeaning, rfl⟩
  call hf hknown harguments := hΓ.shaped_call hf hknown (typedAll_of_forall₂ harguments)
  systemCall haddress hsize ha hx hy := by
    refine @Shaped.scalar _ _ 1 ?_
    rw [Expression.Typed]
    exact ⟨rfl, haddress.typed hsize, ha.1.typed ha.2, hx.1.typed hx.2, hy.1.typed hy.2⟩
  loadMemory {size address} hlow hhigh haddress hsize := by
    obtain ⟨n, rfl⟩ : ∃ n : Nat, size = n := ⟨size.toNat, by omega⟩
    refine Shaped.scalar ?_
    rw [Expression.Typed]
    exact ⟨rfl, by omega, haddress.typed hsize⟩
  storeMemory hvalue _ haddress hsize := by
    refine @Shaped.scalar _ _ 0 ?_
    rw [Expression.Typed]
    exact ⟨rfl, haddress.typed hsize, hvalue.size⟩

/-! ### Statements -/

/-- **Statements make sense where they stand.** -/
theorem constructs_typed : Constructs Context.Sound Shaped
    (fun Γ parameter e => ∃ n : Nat, e.Typed Γ n ∧ parameter.size = (n : Int)) Statement.Typed
    typedBlock where
  builds hΓ := hΓ.builds
  keeps hΓ h := Statement.typed_sound h hΓ
  keepsBlock hΓ h := typedBlock_sound h hΓ
  nil _ := by rw [typedBlock]
  cons hfirst hrest := by
    rw [typedBlock]
    exact ⟨_, hfirst, hrest⟩
  assign {_ global _ _} _ hplace hvalue hsize := by
    obtain ⟨n, hn, hshape⟩ := hvalue.size
    rw [Statement.Typed]
    exact ⟨⟨n, hn, by omega⟩, .existing global hplace⟩
  declare {_ _ global _ _ value} _ hvalue hsize hnone hdeclare := by
    obtain ⟨n, hn, hshape⟩ := hvalue.size
    have hslot := Context.declare?_slot hdeclare
    have hle := value.1.typed_le hn
    rw [Statement.Typed]
    refine ⟨⟨n, hn, ?_⟩, .new global ?_ ?_ ?_ ?_⟩
    · rw [hslot]
      exact hshape
    · rw [hslot]
      exact hnone
    · rw [hslot]
      refine ⟨?_, hvalue.element_nonneg, hvalue.element_le, by simp⟩
      show 0 < value.2.size
      omega
    · rw [hslot]
      show value.2.size ≤ 255
      omega
    · rw [hslot]
      exact hdeclare
  assignElement {_ global _ _ _} _ hplace harray hindex hindexSize hvalue hsize := by
    obtain ⟨i, hi, hindexShape⟩ := hindex.size
    obtain ⟨n, hn, hshape⟩ := hvalue.size
    rw [Statement.Typed]
    exact ⟨⟨global, hplace⟩, harray, ⟨i, hi, hindexShape, by omega⟩, ⟨n, hn, by omega⟩, rfl⟩
  discard _ hvalue := by
    rw [Statement.Typed]
    exact ⟨hvalue.size, rfl⟩
  ifThen hcondition hsize hbody := by
    rw [Statement.Typed]
    exact ⟨hcondition.typed hsize, hbody⟩
  ifElse hcondition hsize hbody hother := by
    rw [Statement.Typed]
    exact ⟨hcondition.typed hsize, _, hbody, hother⟩
  whileLoop hcondition hsize hbody := by
    rw [Statement.Typed]
    exact ⟨hcondition.typed hsize, hbody⟩
  giveBack {_ _ _ value} _ hcurrent hvalue hreturn := by
    cases value with
    | none =>
      rw [Option.map_none, Statement.Typed]
      exact .intro _ hcurrent hreturn
    | some typed =>
      obtain ⟨n, hn, hsize⟩ := (hvalue typed rfl).size
      rw [Option.map_some, Statement.Typed]
      rw [Option.map_some, Option.getD_some, hsize] at hreturn
      exact ⟨n, hn, .intro _ hcurrent hreturn⟩

/-! ### Definitions and programs -/

/-- Parameters so far: they have sizes that fit and names of their own. -/
structure Acceptable (l : VariableList) : Prop where
  sound : l.Sound
  names : (l.slots.map (·.name)).Nodup

theorem ofName?_sizes {name : Bytes} {type : ParameterType}
    (h : ParameterType.ofName? name = some type) :
    0 < type.size ∧ type.size ≤ 4 ∧ 0 ≤ type.elementSize ∧ type.elementSize ≤ 4 ∧
      (type.isArray = true → type.size = 2) := by
  have hall : ∀ entry ∈ parameterTypes, 0 < entry.2.size ∧ entry.2.size ≤ 4 ∧
      0 ≤ entry.2.elementSize ∧ entry.2.elementSize ≤ 4 ∧
      (entry.2.isArray = true → entry.2.size = 2) := by
    simp [parameterTypes]
  obtain ⟨before, after, hsplit, _⟩ := List.lookup_eq_some_iff.mp h
  exact hall (name, type) (by rw [hsplit]; simp)

/-- A parameter of one of the types can be added. -/
theorem Acceptable.add {l l' : VariableList} {offset : Int} {name typeName : Bytes}
    {type : ParameterType} (h : Acceptable l) (htype : ParameterType.ofName? typeName = some type)
    (hadd : l.add {
      name, size := type.size, elementSize := type.elementSize, isArray := type.isArray
      isReference := type.isArray } = .ok (offset, l')) : Acceptable l' := by
  obtain ⟨hpos, hle, hnonneg, helement, harray⟩ := ofName?_sizes htype
  refine ⟨h.sound.add ⟨hpos, hnonneg, ?_, harray⟩ ?_ hadd,
    @VariableList.nodup_add _ _ _ _ [] hadd h.names (by simp)⟩
  · show type.elementSize ≤ 255
    omega
  · show type.size ≤ 255
    omega

/-- **A definition makes sense.** -/
theorem settles_declares : Settles Declares Parse.definition := by
  have hempty : Acceptable {} := ⟨⟨by simp, by simp [extent]⟩, by simp⟩
  refine Parse.settles_definition
    (fun _ _ fuel => Parse.built_parametersWithin Acceptable.add fuel hempty) ?_
  intro definitions globals name parameters hdeclares hacceptable
  have hf : Function.Sound { name, parameters } :=
    ⟨hacceptable.sound, ⟨by simp, by simp [extent]⟩, by simpa using hacceptable.names,
      Int.le_refl 0, show (0 : Int) ≤ 255 by omega⟩
  have hΓ : Context.Sound { globals, functions := definitions.map (·.function)
                            current := some { name, parameters } } := by
    have hsound := hdeclares.sound
    refine ⟨hsound.globals, hsound.names, ?_, hsound.functions⟩
    rintro _ ⟨⟩
    exact hf
  refine (Parse.constructed_body constructs_typed hΓ).mono fun body Γ' hbody hfunctions => ?_
  have hsame := typedBlock_current hbody
  cases hcurrent : Γ'.current with
  | none =>
    rw [hcurrent] at hsame
    cases hsame
  | some f =>
    have hΓ' : Γ' = {
        globals := Γ'.globals, functions := definitions.map (·.function), current := some f } := by
      rw [← hcurrent, ← hfunctions]
    rw [hΓ'] at hbody
    exact ⟨f, rfl, fun hfits => .snoc hdeclares hbody
      ⟨hacceptable.sound, hacceptable.names, ⟨rfl, rfl, rfl⟩, hfits, rfl⟩⟩

theorem Except.eq_ok_of_toOption {ε α : Type} {x : Except ε α} {a : α} (h : x.toOption = some a) :
    x = .ok a := by
  cases x with
  | error e => cases h
  | ok b =>
    cases h
    rfl

/-- **Every program that can be parsed makes sense.** -/
theorem Program.parse_typed {loader : Option Loader} {source fileName : Bytes} {program : Program}
    (h : (Program.parse loader source fileName).1 = .ok program) : program.Typed := by
  obtain ⟨globals, current, hdeclares, hmain⟩ := Program.parse_settled
    (Q := fun definitions globals main Γ' => typedBlock main
      { globals, functions := definitions.map (·.function) } Γ')
    .nil settles_declares
    (fun fuel hdeclares => Parse.constructed_mainWithin constructs_typed fuel hdeclares.sound) h
  have hsame := typedBlock_current hmain
  obtain rfl : current = none := Option.not_isSome_iff_eq_none.mp (by simpa using hsame)
  exact ⟨globals, hdeclares, hmain⟩

end Terrace
