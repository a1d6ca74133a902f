/-
# Parts of lists

`Occurs whole i part` says that a list stands inside another from place `i` on. Bytes of an
instruction stand so in the code, and the items of a construct among the items of a
program.

Key definitions: `Occurs`. Key theorems: `occurs_append`, `occurs_cons`.
-/
import Mathlib.Tactic.Common

namespace Terrace

variable {α : Type}

/-- The list `part` stands in `whole` from place `i` on. -/
def Occurs (whole : List α) (i : Nat) (part : List α) : Prop :=
  ∀ (k : Nat) (a : α), part[k]? = some a → whole[i + k]? = some a

variable {whole : List α} {i : Nat}

theorem occurs_append {first second : List α} :
    Occurs whole i (first ++ second) ↔
      Occurs whole i first ∧ Occurs whole (i + first.length) second := by
  constructor
  · intro h
    refine ⟨fun k a hk => h k a ?_, fun k a hk => ?_⟩
    · obtain ⟨hlt, _⟩ := List.getElem?_eq_some_iff.mp hk
      rw [List.getElem?_append_left hlt, hk]
    · have hat := h (first.length + k) a
        (by rw [List.getElem?_append_right (by omega), Nat.add_sub_cancel_left, hk])
      rwa [← Nat.add_assoc] at hat
  · rintro ⟨hfirst, hsecond⟩ k a hk
    rcases Nat.lt_or_ge k first.length with hlt | hge
    · exact hfirst k a (by rwa [List.getElem?_append_left hlt] at hk)
    · rw [List.getElem?_append_right hge] at hk
      have hat := hsecond _ _ hk
      rwa [Nat.add_assoc, Nat.add_sub_cancel' hge] at hat

theorem occurs_singleton {a : α} : Occurs whole i [a] ↔ whole[i]? = some a := by
  constructor
  · intro h
    exact h 0 a rfl
  · intro h k b hk
    rcases k with _ | k
    · rw [List.getElem?_cons_zero] at hk
      rw [Nat.add_zero, h, hk]
    · simp at hk

theorem occurs_cons {a : α} {part : List α} :
    Occurs whole i (a :: part) ↔ whole[i]? = some a ∧ Occurs whole (i + 1) part := by
  rw [← List.singleton_append, occurs_append, occurs_singleton]
  rfl

/-- A list stands where it is put. -/
theorem occurs_middle (before part after : List α) :
    Occurs (before ++ part ++ after) before.length part := by
  intro k a hk
  obtain ⟨hlt, _⟩ := List.getElem?_eq_some_iff.mp hk
  rw [List.append_assoc, List.getElem?_append_right (by omega), Nat.add_sub_cancel_left,
    List.getElem?_append_left hlt, hk]

/-- A part ends inside the whole. -/
theorem Occurs.le_length {part : List α} (h : Occurs whole i part) (hne : part ≠ []) :
    i + part.length ≤ whole.length := by
  have hpos : 0 < part.length := List.length_pos_iff.mpr hne
  have hlast := h (part.length - 1) _ (List.getElem?_eq_getElem (by omega))
  obtain ⟨hlt, _⟩ := List.getElem?_eq_some_iff.mp hlast
  omega

end Terrace
