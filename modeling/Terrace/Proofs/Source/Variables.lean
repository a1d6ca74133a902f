/-
# Variables in their region

The variables of a list stand one after the other in their region, the globals or a frame. In
a list of sizes that fit, no offset wraps, so every variable has bytes of its own there.

Key definitions: `extent`, `Variable.Sized`, `VariableList.Sound`, `Place.Within`.
Key theorems: `VariableList.lookup?_some`, `VariableList.Sound.offset`,
`VariableList.Sound.add`, `Place.Within.lies`.
-/
import Terrace.Proofs.Source.Meaning

namespace Terrace

/-- The bytes that variables take one after the other. -/
def extent : List Variable → Nat
  | [] => 0
  | v :: rest => v.size.toNat + extent rest

@[simp] theorem extent_append : ∀ a b : List Variable, extent (a ++ b) = extent a + extent b
  | [], b => by rw [List.nil_append, extent, Nat.zero_add]
  | v :: a, b => by rw [List.cons_append, extent, extent, extent_append a b, Nat.add_assoc]

/-- The sizes a variable can have. -/
structure Variable.Sized (v : Variable) : Prop where
  pos : 0 < v.size
  element_nonneg : 0 ≤ v.elementSize
  element_le : v.elementSize ≤ 255
  reference : v.isReference = true → v.size = 2

namespace VariableList

variable {l l' : VariableList} {v slot : Variable} {name : Bytes}

/-- The variables of a list have sizes that fit in a byte, also together. -/
structure Sound (l : VariableList) : Prop where
  sized : ∀ v ∈ l.slots, v.Sized
  small : extent l.slots ≤ 255

theorem foldr_size : ∀ {slots : List Variable}, (∀ v ∈ slots, v.Sized) →
    slots.foldr (fun v size => v.size + size) 0 = (extent slots : Int)
  | [], _ => rfl
  | v :: rest, h => by
    have hv := (h v List.mem_cons_self).pos
    have hrest := foldr_size fun u hu => h u (List.mem_cons_of_mem v hu)
    rw [List.foldr_cons, hrest, extent]
    omega

/-- **No offset wraps.** -/
theorem Sound.offset (h : l.Sound) (i : Nat) : l.offset i = extent (l.slots.take i) := by
  have hsplit : extent (l.slots.take i) + extent (l.slots.drop i) = extent l.slots := by
    rw [← extent_append, List.take_append_drop]
  have hsmall := h.small
  rw [VariableList.offset, foldr_size fun v hv => h.sized v (List.mem_of_mem_take hv)]
  exact wrap_eq_self (by omega) (by omega)

theorem Sound.totalSize (h : l.Sound) : l.totalSize = extent l.slots := by
  rw [VariableList.totalSize, h.offset, List.take_length]

/-- A list that another one starts with. -/
theorem Sound.of_prefix (h : l'.Sound) (hle : l.slots <+: l'.slots) : l.Sound := by
  obtain ⟨rest, hrest⟩ := hle
  have hsmall := h.small
  rw [← hrest, extent_append] at hsmall
  refine ⟨fun v hv => h.sized v ?_, by omega⟩
  rw [← hrest]
  exact List.mem_append_left rest hv

theorem index?_some {i : Nat} (h : l.index? name = some i) :
    ∃ before slot after, l.slots = before ++ slot :: after ∧ before.length = i ∧
      slot.name = name := by
  obtain ⟨hlt, hname, _⟩ := List.findIdx?_eq_some_iff_getElem.mp h
  refine ⟨l.slots.take i, l.slots[i], l.slots.drop (i + 1), ?_, ?_, by simpa using hname⟩
  · rw [List.getElem_cons_drop, List.take_append_drop]
  · rw [List.length_take]
    omega

/-- **What a lookup finds** is a variable of the list with the name, at its offset. -/
theorem lookup?_some {offset : Int} (h : l.lookup? name = some (slot, offset)) :
    ∃ before after, l.slots = before ++ slot :: after ∧ offset = l.offset before.length ∧
      slot.name = name := by
  unfold lookup? at h
  cases hindex : l.index? name with
  | none =>
    rw [hindex] at h
    cases h
  | some i =>
    obtain ⟨before, found, after, hslots, hlength, hname⟩ := index?_some hindex
    have hget : l.slots[i]? = some found := by
      rw [hslots, ← hlength, List.getElem?_append_right (Nat.le_refl _), Nat.sub_self]
      rfl
    rw [hindex] at h
    simp only [hget, Option.bind_eq_bind, Option.bind_some, Option.pure_def, Option.some.injEq,
      Prod.mk.injEq] at h
    obtain ⟨rfl, rfl⟩ := h
    exact ⟨before, after, hslots, by rw [hlength], hname⟩

theorem index?_none (h : l.index? name = none) : ∀ v ∈ l.slots, v.name ≠ name := by
  intro v hv hname
  have hall := List.findIdx?_eq_none_iff.mp h v hv
  simp [hname] at hall

theorem lookup?_none (h : l.lookup? name = none) : ∀ v ∈ l.slots, v.name ≠ name := by
  refine index?_none ?_
  unfold lookup? at h
  cases hindex : l.index? name with
  | none => rfl
  | some i =>
    obtain ⟨before, found, after, hslots, hlength, _⟩ := index?_some hindex
    have hget : l.slots[i]? = some found := by
      rw [hslots, ← hlength, List.getElem?_append_right (Nat.le_refl _), Nat.sub_self]
      rfl
    rw [hindex] at h
    simp [hget] at h

/-- What a list is after a variable was added. -/
theorem add_ok {offset : Int} (h : l.add v = .ok (offset, l')) :
    offset = l.totalSize ∧ l'.slots = l.slots ++ [v] ∧ l.index? v.name = none ∧
      wrap (l.totalSize + v.size) ≤ 255 := by
  unfold add at h
  split at h
  · cases h
  next hname =>
    split at h
    · cases h
    next hsize =>
      cases h
      refine ⟨rfl, rfl, by simpa using hname, ?_⟩
      simpa [maxListSize] using hsize

/-- **A list stays sound when a variable is added.** -/
theorem Sound.add {offset : Int} (hl : l.Sound) (hv : v.Sized) (hle : v.size ≤ 255)
    (h : l.add v = .ok (offset, l')) : l'.Sound := by
  obtain ⟨_, hslots, _, hroom⟩ := add_ok h
  have hpos := hv.pos
  have hsmall := hl.small
  rw [hl.totalSize, wrap_eq_self (by omega) (by omega)] at hroom
  refine ⟨?_, ?_⟩
  · rw [hslots]
    exact List.forall_mem_append.mpr ⟨hl.sized, by simpa using hv⟩
  · rw [hslots, extent_append, extent, extent]
    omega

end VariableList

/-! ### Bytes of a region -/

/-- The place is that of one of the variables of a region. -/
def Place.Within (place : Place) (slots : List Variable) : Prop :=
  ∃ before after, slots = before ++ place.slot :: after ∧ place.offset = extent before

theorem Place.Within.of_prefix {place : Place} {slots slots' : List Variable} (h : place.Within slots)
    (hle : slots <+: slots') : place.Within slots' := by
  obtain ⟨before, after, rfl, hoffset⟩ := h
  obtain ⟨rest, rfl⟩ := hle
  exact ⟨before, after ++ rest, by simp, hoffset⟩

/-- A variable that is in view is declared. -/
theorem Place.Within.mem {place : Place} {slots : List Variable} (h : place.Within slots) :
    place.slot ∈ slots := by
  obtain ⟨before, after, rfl, _⟩ := h
  exact List.mem_append_right before List.mem_cons_self

/-- **A place in a region has bytes of its own.** -/
theorem Place.Within.lies {place : Place} {slots : List Variable} (h : place.Within slots)
    (hsized : ∀ v ∈ slots, v.Sized) (hsmall : extent slots ≤ 255) {bytes : Bytes}
    (hlength : bytes.length = extent slots) :
    ∃ before value after, place.Lies bytes before value after := by
  obtain ⟨ahead, behind, hslots, hoffset⟩ := h
  have hpos := (hsized place.slot (by rw [hslots]; simp)).pos
  rw [hslots, extent_append, extent] at hsmall hlength
  refine ⟨bytes.take (extent ahead), (bytes.drop (extent ahead)).take place.slot.size.toNat,
    (bytes.drop (extent ahead)).drop place.slot.size.toNat, ?_, ?_, ?_, ?_, ?_⟩
  · rw [List.append_assoc, List.take_append_drop, List.take_append_drop]
  · rw [hoffset, List.length_take]
    omega
  · rw [List.length_take, List.length_drop]
    omega
  · rw [List.length_take, List.length_drop]
    omega
  · rw [List.length_take, List.length_take, List.length_drop]
    omega

end Terrace
