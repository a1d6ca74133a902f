/-
# Where items lie

The layout of items puts each one right behind the one before it: the address of
item `i` is the base plus the lengths of the items before (`layout_getElem?`).
Widening keeps long branches long, so every pass of `relax` that is not the last
has fewer short branches than the one before, and as many passes as there are
items are enough. What `relax` ends with is `Settled`: the addresses are the
layout of the branch lengths, the end is inside memory, every branch left short
reaches its target with one byte, and a conditional branch backwards is long.

Key definitions: `itemLengths`, `Wider`, `Settled`.
Key theorems: `layout_getElem?`, `relax_ok_cases`, `relax_settled`, `Settled.near`.
-/
import Mathlib.Algebra.GroupWithZero.Nat
import Mathlib.Data.List.Forall2
import Terrace.Code.Assembly

namespace Terrace

/-- The lengths of items, given which branches are long. -/
def itemLengths (items : List Item) (longs : List Bool) : List Nat :=
  List.zipWith (fun item long => item.encodedLength long) items longs

theorem length_itemLengths {items : List Item} {longs : List Bool}
    (h : longs.length = items.length) : (itemLengths items longs).length = items.length := by
  simp [itemLengths, h]

/-- **Items lie one behind the other.** The address of item `i` is the first address plus
the lengths of the items before it; `i` may be the end. -/
theorem layout_getElem? : ∀ (items : List Item) (longs : List Bool),
    longs.length = items.length → ∀ (address i : Nat), i ≤ items.length →
      (layout address items longs)[i]? = some (address + ((itemLengths items longs).take i).sum)
  | [], [], _, address, i, hi => by
    obtain rfl : i = 0 := by simpa using hi
    simp [layout]
  | item :: items, long :: longs, h, address, 0, _ => by simp [layout]
  | item :: items, long :: longs, h, address, i + 1, hi => by
    have ih := layout_getElem? items longs (by simpa using h)
      (address + item.encodedLength long) i (by simpa using hi)
    simp only [layout, List.getElem?_cons_succ, ih, itemLengths, List.zipWith_cons_cons,
      List.take_succ_cons, List.sum_cons]
    congr 1
    omega

theorem length_layout : ∀ (items : List Item) (longs : List Bool),
    longs.length = items.length → ∀ address : Nat,
      (layout address items longs).length = items.length + 1
  | [], [], _, _ => rfl
  | item :: items, long :: longs, h, address => by
    simp [layout, length_layout items longs (by simpa using h)]

/-- The end of the code. -/
theorem layout_back? {items : List Item} {longs : List Bool} (h : longs.length = items.length)
    (address : Nat) : (layout address items longs).toArray.back? =
      some (address + (itemLengths items longs).sum) := by
  have hget := layout_getElem? items longs h address items.length (Nat.le_refl _)
  rw [List.take_of_length_le (by simp [length_itemLengths h])] at hget
  rw [Array.back?_eq_getElem?]
  simpa [length_layout items longs h] using hget

/-! ### Widening -/

/-- Branches that are long in the first list are long in the second. -/
def Wider (longs wider : List Bool) : Prop := List.Forall₂ (fun a b => a = true → b = true) longs wider

theorem Wider.refl (longs : List Bool) : Wider longs longs :=
  List.forall₂_same.mpr fun _ _ h => h

theorem Wider.trans {a b c : List Bool} (hab : Wider a b) (hbc : Wider b c) : Wider a c := by
  induction hab generalizing c with
  | nil => exact hbc
  | cons h _ ih =>
    cases hbc with
    | cons h' hs' => exact .cons (fun ha => h' (h ha)) (ih hs')

theorem Wider.getElem? {a b : List Bool} (h : Wider a b) {i : Nat} (hi : a[i]? = some true) :
    b[i]? = some true := by
  induction h generalizing i with
  | nil => simp at hi
  | cons h _ ih =>
    cases i with
    | zero => simpa using h (by simpa using hi)
    | succ i => simpa using ih (by simpa using hi)

/-- A change leaves fewer short branches. -/
theorem Wider.count_lt {a b : List Bool} (h : Wider a b) (hne : b ≠ a) :
    b.count false < a.count false := by
  have hle : ∀ {a b : List Bool}, Wider a b → b.count false ≤ a.count false := by
    intro a b h
    induction h with
    | nil => simp
    | @cons x y _ _ h _ ih =>
      cases x <;> cases y <;> simp_all
      omega
  induction h with
  | nil => exact absurd rfl hne
  | @cons x y xs ys h hs ih =>
    have hrest := hle hs
    cases x <;> cases y
    · have hlt := ih (by simpa using hne)
      simpa using hlt
    · simp only [List.count_cons, beq_self_eq_true, if_true]
      simp
      omega
    · exact absurd (h rfl) (by simp)
    · simpa using ih (by simpa using hne)

/-- Widening keeps what is long. -/
theorem widen_wider {addresses : Array Nat} {i : Nat} {items : List Item} {longs wider : List Bool}
    (hlen : longs.length = items.length) (h : widen addresses i items longs = some wider) :
    Wider longs wider := by
  fun_induction widen addresses i items longs generalizing wider with
  | case1 i ifFalse target items longs there here _ _ ih =>
    obtain ⟨rest, hrest, hw⟩ := Option.bind_eq_some_iff.mp h
    obtain rfl := Option.some.inj hw
    exact .cons (by simp) (ih (by simpa using hlen) hrest)
  | case2 => simp at h
  | case3 i item items long longs _ ih =>
    obtain ⟨rest, hrest, hw⟩ := Option.bind_eq_some_iff.mp h
    obtain rfl := Option.some.inj hw
    exact .cons id (ih (by simpa using hlen) hrest)
  | case4 =>
    rename_i items _ longs _ hno
    cases items with
    | nil =>
      obtain rfl : longs = [] := by simpa using hlen
      exact Option.some.inj h ▸ .nil
    | cons item items =>
      cases longs with
      | nil => simp at hlen
      | cons long longs => exact (hno item items long longs rfl rfl).elim

/-- Widening makes a short branch long exactly when its distance does not fit in a byte. -/
theorem widen_branch {addresses : Array Nat} {i : Nat} {items : List Item} {longs wider : List Bool}
    (h : widen addresses i items longs = some wider) {j : Nat} {ifFalse : Bool} {target : Nat}
    (hitem : items[j]? = some (.branch ifFalse (some target))) (hlong : longs[j]? = some false) :
    ∃ there here, addresses[target]? = some there ∧ addresses[i + j]? = some here ∧
      wider[j]? = some (decide (255 < max there here - min there here)) := by
  fun_induction widen addresses i items longs generalizing wider j with
  | case1 i ifFalse' target' items longs there here hhere hthere ih =>
    obtain ⟨rest, hrest, hw⟩ := Option.bind_eq_some_iff.mp h
    obtain rfl := Option.some.inj hw
    cases j with
    | zero =>
      simp only [List.getElem?_cons_zero, Option.some.injEq, Item.branch.injEq] at hitem
      obtain ⟨-, rfl⟩ := hitem
      exact ⟨there, here, hthere, hhere, rfl⟩
    | succ j =>
      obtain ⟨there, here, h1, h2, h3⟩ := ih hrest (by simpa using hitem) (by simpa using hlong)
      exact ⟨there, here, h1, by rw [← h2]; congr 1; omega, h3⟩
  | case2 => simp at h
  | case3 i item items long longs hno ih =>
    obtain ⟨rest, hrest, hw⟩ := Option.bind_eq_some_iff.mp h
    obtain rfl := Option.some.inj hw
    cases j with
    | zero =>
      exact (hno ifFalse target (by simpa using hitem) (by simpa using hlong)).elim
    | succ j =>
      obtain ⟨there, here, h1, h2, h3⟩ := ih hrest (by simpa using hitem) (by simpa using hlong)
      exact ⟨there, here, h1, by rw [← h2]; congr 1; omega, h3⟩
  | case4 =>
    rename_i items _ longs _ hno
    cases items with
    | nil => simp at hitem
    | cons item items =>
      cases longs with
      | nil => simp at hlong
      | cons long longs => exact (hno item items long longs rfl rfl).elim

/-! ### The end of the widening -/

/-- A layout of items at `base` that no pass changes. -/
structure Settled (base : UInt16) (items : List Item) (longs : List Bool) (addresses : Array Nat) :
    Prop where
  length : longs.length = items.length
  lies : addresses = (layout base.toNat items longs).toArray
  fits : base.toNat + (itemLengths items longs).sum ≤ 0x10000
  stable : widen addresses 0 items longs = some longs

/-- A pass ends the widening, or it is followed by another one. -/
theorem relax_ok_cases {base : UInt16} {items : List Item} {fuel : Nat} {longs longs' : List Bool}
    {addresses : Array Nat} (hlen : longs.length = items.length)
    (h : relax base items fuel longs = .ok (longs', addresses)) :
    ∃ wider, widen (layout base.toNat items longs).toArray 0 items longs = some wider ∧
      base.toNat + (itemLengths items longs).sum ≤ 0x10000 ∧
      ((wider = longs ∨ fuel = 0) ∧ longs' = longs ∧
          addresses = (layout base.toNat items longs).toArray ∨
        wider ≠ longs ∧ ∃ less, fuel = less + 1 ∧
          relax base items less wider = .ok (longs', addresses)) := by
  unfold relax at h
  simp only [layout_back? hlen, Option.getD_some] at h
  split at h
  · cases h
  next hfits =>
    split at h
    · cases h
    next wider hwiden =>
      refine ⟨wider, hwiden, by omega, ?_⟩
      split_ifs at h with hsame
      · cases h
        exact .inl ⟨.inl hsame, rfl, rfl⟩
      · cases fuel with
        | zero =>
          cases h
          exact .inl ⟨.inr rfl, rfl, rfl⟩
        | succ less => exact .inr ⟨hsame, less, rfl, h⟩

/-- **As many passes as there are short branches are enough**: the lengths that `relax`
ends with are settled, and nothing that was long became short. -/
theorem relax_settled {base : UInt16} {items : List Item} : ∀ {fuel : Nat} {longs longs' : List Bool}
    {addresses : Array Nat}, longs.length = items.length → longs.count false ≤ fuel →
    relax base items fuel longs = .ok (longs', addresses) →
    Settled base items longs' addresses ∧ Wider longs longs' := by
  intro fuel
  induction fuel with
  | zero =>
    intro longs longs' addresses hlen hcount h
    obtain ⟨wider, hwiden, hfits, ⟨_, rfl, rfl⟩ | ⟨_, _, hless, _⟩⟩ :=
      relax_ok_cases hlen h
    · -- no branch is short, so none can become long
      have hsame : wider = longs' := by
        by_contra hne
        have hlt := (widen_wider hlen hwiden).count_lt hne
        omega
      exact ⟨⟨hlen, rfl, hfits, hsame ▸ hwiden⟩, .refl _⟩
    · cases hless
  | succ fuel ih =>
    intro longs longs' addresses hlen hcount h
    obtain ⟨wider, hwiden, hfits, ⟨hlast, rfl, rfl⟩ | ⟨hne, _, hless, hrest⟩⟩ :=
      relax_ok_cases hlen h
    · obtain rfl : wider = longs' := hlast.resolve_right (Nat.succ_ne_zero _)
      exact ⟨⟨hlen, rfl, hfits, hwiden⟩, .refl _⟩
    · obtain rfl := Nat.succ.inj hless
      have hwider := widen_wider hlen hwiden
      have hlt := hwider.count_lt hne
      have hlen' : wider.length = items.length := by rw [← hwider.length_eq, hlen]
      obtain ⟨hsettled, hwider'⟩ := ih hlen' (by omega) hrest
      exact ⟨hsettled, hwider.trans hwider'⟩

namespace Settled

variable {base : UInt16} {items : List Item} {longs : List Bool} {addresses : Array Nat}

/-- The address of an item, or of the end. -/
theorem address (h : Settled base items longs addresses) {i : Nat} (hi : i ≤ items.length) :
    addresses[i]? = some (base.toNat + ((itemLengths items longs).take i).sum) := by
  rw [h.lies]
  simpa using layout_getElem? items longs h.length base.toNat i hi

/-- A branch left short reaches its target. -/
theorem near (h : Settled base items longs addresses) {i target : Nat} {ifFalse : Bool}
    (hitem : items[i]? = some (.branch ifFalse (some target))) (hlong : longs[i]? = some false) :
    ∃ there here, addresses[target]? = some there ∧ addresses[i]? = some here ∧
      max there here - min there here ≤ 255 := by
  obtain ⟨there, here, h1, h2, h3⟩ := widen_branch h.stable hitem hlong
  refine ⟨there, here, h1, by simpa using h2, ?_⟩
  rw [hlong] at h3
  simpa using (Option.some.inj h3).symm

end Settled

end Terrace
