/-
# Code that fits is assembled

Widening keeps below every layout that settles: with longer branches nothing comes nearer, so a
branch that a pass makes long is long in every settled layout. So `relax` finds a layout if
there is one, and complete code is assembled unless it does not fit below the end of memory.

Key definitions: `BranchesWithin`.
Key theorems: `Wider.distance_le`, `widen_below`, `relax_eq`, `relax_cases`,
`Emitter.Complete.assemble_cases`.
-/
import Mathlib.Algebra.Order.BigOperators.Group.List
import Mathlib.Algebra.Order.Group.Nat
import Terrace.Proofs.Code.Assembled

namespace Terrace

/-! ### Distances -/

/-- Longer branches make no item shorter. -/
theorem Wider.itemLengths_le {longs wider : List Bool} (h : Wider longs wider) (items : List Item) :
    List.Forall₂ (· ≤ ·) (itemLengths items longs) (itemLengths items wider) := by
  induction h generalizing items with
  | nil => simp [itemLengths]
  | @cons long long' longs wider hlong _ ih =>
    cases items with
    | nil => simp [itemLengths]
    | cons item items =>
      refine .cons ?_ (ih items)
      cases item with
      | branch =>
        simp only [Item.encodedLength]
        grind
      | op | literal | exit | call | reserve => exact Nat.le_refl _

/-- Between two places, longer items take more room. -/
theorem sum_between_le {xs ys : List Nat} (h : List.Forall₂ (· ≤ ·) xs ys) {i j : Nat}
    (hij : i ≤ j) : (xs.take j).sum + (ys.take i).sum ≤ (ys.take j).sum + (xs.take i).sum := by
  induction h generalizing i j with
  | nil => simp
  | cons hle _ ih =>
    cases j with
    | zero =>
      obtain rfl : i = 0 := by omega
      simp
    | succ j =>
      cases i with
      | zero =>
        have hrest := ih (Nat.zero_le j)
        simp only [List.take_succ_cons, List.sum_cons, List.take_zero, List.sum_nil] at hrest ⊢
        omega
      | succ i =>
        have hrest := ih (Nat.le_of_succ_le_succ hij)
        simp only [List.take_succ_cons, List.sum_cons]
        omega

/-- **Widening brings no place nearer.** -/
theorem Wider.distance_le {longs wider : List Bool} (h : Wider longs wider) {items : List Item}
    (hlength : longs.length = items.length) {i j : Nat} (hi : i ≤ items.length)
    (hj : j ≤ items.length) (address : Nat) {here there here' there' : Nat}
    (hhere : (layout address items longs)[i]? = some here)
    (hthere : (layout address items longs)[j]? = some there)
    (hhere' : (layout address items wider)[i]? = some here')
    (hthere' : (layout address items wider)[j]? = some there') :
    max there here - min there here ≤ max there' here' - min there' here' := by
  have hlength' : wider.length = items.length := by rw [← h.length_eq, hlength]
  rw [layout_getElem? _ _ hlength _ _ hi, Option.some.injEq] at hhere
  rw [layout_getElem? _ _ hlength _ _ hj, Option.some.injEq] at hthere
  rw [layout_getElem? _ _ hlength' _ _ hi, Option.some.injEq] at hhere'
  rw [layout_getElem? _ _ hlength' _ _ hj, Option.some.injEq] at hthere'
  rcases Nat.le_total i j with hij | hji
  · have hbetween := sum_between_le (h.itemLengths_le items) hij
    have horder := List.monotone_sum_take (itemLengths items longs) hij
    have horder' := List.monotone_sum_take (itemLengths items wider) hij
    dsimp only at horder horder'
    omega
  · have hbetween := sum_between_le (h.itemLengths_le items) hji
    have horder := List.monotone_sum_take (itemLengths items longs) hji
    have horder' := List.monotone_sum_take (itemLengths items wider) hji
    dsimp only at horder horder'
    omega

/-! ### Widening below a settled layout -/

/-- A pass makes no branch long that is near where it may stay short. -/
theorem widen_below {addresses : Array Nat} {i : Nat} {items : List Item}
    {longs wider stable : List Bool} (hlength : longs.length = items.length)
    (hbelow : Wider longs stable)
    (h : widen addresses i items longs = some wider)
    (hnear : ∀ (j : Nat) (ifFalse : Bool) (target there here : Nat),
      items[j]? = some (.branch ifFalse (some target)) → stable[j]? = some false →
      addresses[target]? = some there → addresses[i + j]? = some here →
      max there here - min there here ≤ 255) : Wider wider stable := by
  fun_induction widen addresses i items longs generalizing wider stable with
  | case1 i ifFalse target items longs there here hhere hthere ih =>
    obtain ⟨rest, hrest, hw⟩ := Option.bind_eq_some_iff.mp h
    obtain rfl := Option.some.inj hw
    cases hbelow with
    | @cons _ long _ stable _ hlater =>
      refine .cons (fun hfar => ?_) (ih (by simpa using hlength) hlater hrest ?_)
      · cases long with
        | true => rfl
        | false =>
          have hle := hnear 0 ifFalse target there here rfl rfl hthere hhere
          rw [decide_eq_true_eq] at hfar
          omega
      · intro j ifFalse' target' there' here' hitem hshort ht hh
        refine hnear (j + 1) ifFalse' target' there' here' hitem hshort ht ?_
        rw [← hh]
        congr 1
        omega
  | case2 => simp at h
  | case3 i item items long longs _ ih =>
    obtain ⟨rest, hrest, hw⟩ := Option.bind_eq_some_iff.mp h
    obtain rfl := Option.some.inj hw
    cases hbelow with
    | cons hlong hlater =>
      refine .cons hlong (ih (by simpa using hlength) hlater hrest ?_)
      intro j ifFalse' target' there' here' hitem hshort ht hh
      refine hnear (j + 1) ifFalse' target' there' here' hitem hshort ht ?_
      rw [← hh]
      congr 1
      omega
  | case4 =>
    rename_i items _ longs _ hno
    cases items with
    | nil =>
      obtain rfl : longs = [] := by simpa using hlength
      exact Option.some.inj h ▸ hbelow
    | cons item items =>
      cases longs with
      | nil => simp at hlength
      | cons long longs => exact (hno item items long longs rfl rfl).elim

/-- The branches among the items lead to one of `count` places. -/
def BranchesWithin (count : Nat) (items : List Item) : Prop :=
  ∀ ifFalse target, Item.branch ifFalse (some target) ∈ items → target < count

/-- Where all branches lead to an item, a pass gives a result. -/
theorem widen_of_within {addresses : Array Nat} {i : Nat} {items : List Item} {longs : List Bool}
    (hwithin : BranchesWithin addresses.size items) (hend : i + items.length ≤ addresses.size) :
    ∃ wider, widen addresses i items longs = some wider := by
  fun_induction widen addresses i items longs with
  | case1 i ifFalse target items longs there here hhere hthere ih =>
    obtain ⟨wider, hwider⟩ := ih (fun b t ht => hwithin b t (List.mem_cons_of_mem _ ht))
      (by simp only [List.length_cons] at hend; omega)
    exact ⟨_ :: wider, by rw [hwider]; rfl⟩
  | case2 i ifFalse target items longs hnone =>
    have htarget := hwithin ifFalse target List.mem_cons_self
    have hhere : i < addresses.size := by
      simp only [List.length_cons] at hend
      omega
    exact (hnone _ _ (Array.getElem?_eq_getElem htarget) (Array.getElem?_eq_getElem hhere)).elim
  | case3 i item items long longs _ ih =>
    obtain ⟨wider, hwider⟩ := ih (fun b t ht => hwithin b t (List.mem_cons_of_mem _ ht))
      (by simp only [List.length_cons] at hend; omega)
    exact ⟨_ :: wider, by rw [hwider]; rfl⟩
  | case4 => exact ⟨[], rfl⟩

/-- One pass of `relax`. -/
theorem relax_eq {base : UInt16} {items : List Item} {longs wider : List Bool}
    (hlength : longs.length = items.length)
    (hwiden : widen (layout base.toNat items longs).toArray 0 items longs = some wider)
    (fuel : Nat) : relax base items fuel longs =
      if 0x10000 < base.toNat + (itemLengths items longs).sum then
        .error (.doesNotFit (itemLengths items longs).sum base)
      else if wider = longs ∨ fuel = 0 then .ok (longs, (layout base.toNat items longs).toArray)
      else relax base items (fuel - 1) wider := by
  rw [relax]
  simp only [layout_back? hlength, Option.getD_some, hwiden, Nat.add_sub_cancel_left]
  cases fuel with
  | zero => simp
  | succ fuel => simp

section
variable {base : UInt16} {items : List Item} (hwithin : BranchesWithin (items.length + 1) items)
include hwithin

theorem widen_layout {longs : List Bool} (hlength : longs.length = items.length) :
    ∃ wider, widen (layout base.toNat items longs).toArray 0 items longs = some wider := by
  have hsize : (layout base.toNat items longs).toArray.size = items.length + 1 := by
    rw [List.size_toArray, length_layout items longs hlength]
  exact widen_of_within (hsize.symm ▸ hwithin) (by omega)

/-- A pass stays below a layout whose short branches all reach their targets. -/
theorem widen_layout_below {longs wider stable : List Bool} (hlength : longs.length = items.length)
    (hbelow : Wider longs stable)
    (hnear : ∀ (i : Nat) (ifFalse : Bool) (target : Nat),
      items[i]? = some (.branch ifFalse (some target)) → stable[i]? = some false →
      ∃ there here, (layout base.toNat items stable)[target]? = some there ∧
        (layout base.toNat items stable)[i]? = some here ∧ max there here - min there here ≤ 255)
    (hwiden : widen (layout base.toNat items longs).toArray 0 items longs = some wider) :
    Wider wider stable := by
  refine widen_below hlength hbelow hwiden ?_
  intro j ifFalse target there here hitem hshort hthere hhere
  obtain ⟨there', here', hthere', hhere', hreach⟩ := hnear j ifFalse target hitem hshort
  obtain ⟨hj, _⟩ := List.getElem?_eq_some_iff.mp hitem
  have htarget := hwithin ifFalse target (List.mem_of_getElem? hitem)
  rw [List.getElem?_toArray] at hthere hhere
  rw [Nat.zero_add] at hhere
  have hle := hbelow.distance_le hlength (Nat.le_of_lt hj) (Nat.le_of_lt_succ htarget) base.toNat
    hhere hthere hhere' hthere'
  omega

/-- A pass from below a settled layout stays below it. -/
theorem Settled.widen_below {stable longs wider : List Bool} {addresses : Array Nat}
    (h : Settled base items stable addresses) (hbelow : Wider longs stable)
    (hwiden : widen (layout base.toNat items longs).toArray 0 items longs = some wider) :
    Wider wider stable := by
  have hlength : longs.length = items.length := by rw [hbelow.length_eq, h.length]
  refine widen_layout_below hwithin hlength hbelow (fun i ifFalse target hitem hshort => ?_) hwiden
  obtain ⟨there, here, hthere, hhere, hnear⟩ := h.near hitem hshort
  rw [h.lies, List.getElem?_toArray] at hthere hhere
  exact ⟨there, here, hthere, hhere, hnear⟩

/-- **`relax` finds a layout if there is one**: either it gives one, or the code does not fit
and no settled layout keeps the branches long that are long already. -/
theorem relax_cases (fuel : Nat) {longs : List Bool} (hlength : longs.length = items.length) :
    (∃ longs' addresses, relax base items fuel longs = .ok (longs', addresses)) ∨
    (∃ size, relax base items fuel longs = .error (.doesNotFit size base) ∧
        0x10000 < base.toNat + size) ∧
      ∀ stable addresses, Settled base items stable addresses → ¬ Wider longs stable := by
  induction fuel using Nat.strong_induction_on generalizing longs with
  | _ fuel ih =>
    obtain ⟨wider, hwiden⟩ := widen_layout hwithin hlength
    rw [relax_eq hlength hwiden]
    by_cases hwide : 0x10000 < base.toNat + (itemLengths items longs).sum
    · refine Or.inr ⟨⟨_, if_pos hwide, hwide⟩, ?_⟩
      intro stable addresses hstable hbelow
      have hfits := hstable.fits
      have hle := (hbelow.itemLengths_le items).sum_le_sum
      omega
    · rw [if_neg hwide]
      by_cases hdone : wider = longs ∨ fuel = 0
      · rw [if_pos hdone]
        exact Or.inl ⟨_, _, rfl⟩
      · rw [if_neg hdone]
        have hlength' : wider.length = items.length := by
          rw [← (widen_wider hlength hwiden).length_eq, hlength]
        rcases ih (fuel - 1) (by omega) hlength' with hok | ⟨herror, hnone⟩
        · exact Or.inl hok
        · refine Or.inr ⟨herror, fun stable addresses hstable hbelow => ?_⟩
          exact hnone stable addresses hstable (hstable.widen_below hwithin hbelow hwiden)

end

/-! ### Complete code -/

/-- Where conditional branches backwards are long, all are that are long from the start. -/
theorem Emitter.firstLongs_wider {e : Emitter} {longs : List Bool}
    (hlength : longs.length = e.items.toList.length)
    (hbackward : ∀ (i target : Nat), e.items.toList[i]? = some (.branch true (some target)) →
      target ≤ i → longs[i]? = some true) : Wider e.firstLongs longs := by
  have hlengths : e.firstLongs.length = longs.length := by simp [Emitter.firstLongs, hlength]
  refine List.forall₂_iff_get.mpr ⟨hlengths, fun i hi hi' hlong => ?_⟩
  have hplace : i < e.items.toList.length := hlength ▸ hi'
  have hitem : e.items.toList[i]? = some e.items.toList[i] := List.getElem?_eq_getElem hplace
  have halways : e.items.toList[i].alwaysLong i = true := by
    simpa [Emitter.firstLongs] using hlong
  unfold Item.alwaysLong at halways
  split at halways
  next target hbranch =>
    rw [hbranch] at hitem
    have hback := hbackward i target hitem (of_decide_eq_true halways)
    rw [List.getElem?_eq_getElem hi'] at hback
    exact Option.some.inj hback
  next => cases halways

/-- The branches that are long from the start are long in every layout of the code. -/
theorem Assembled.above_firstLongs {e : Emitter} {base : UInt16} {longs : List Bool}
    {addresses : Array Nat} (h : Assembled e.items.toList base longs addresses) :
    Wider e.firstLongs longs :=
  Emitter.firstLongs_wider h.length h.backward

namespace Emitter.Complete

variable {e : Emitter} (h : e.Complete)
include h

theorem firstWaiting : e.firstWaiting = none := by
  obtain ⟨place, _, hstart⟩ := h.start
  rw [Emitter.firstWaiting, hstart, if_neg (by simp), List.findSome?_eq_none_iff]
  rintro ⟨item, i⟩ hitem
  have hmem : item ∈ e.items := by
    rw [List.mem_zipIdx_iff_getElem?] at hitem
    exact Array.mem_def.mpr (List.mem_of_getElem? hitem)
  cases item with
  | op | literal => rfl
  | branch ifFalse target =>
    obtain ⟨place, _, rfl⟩ := h.branches ifFalse target hmem
    rfl
  | exit => exact (h.returns hmem).elim
  | call entry =>
    obtain ⟨place, hlt, rfl⟩ := h.calls entry hmem
    exact if_pos hlt
  | reserve size =>
    obtain ⟨n, _, _, rfl⟩ := h.reservations size hmem
    rfl

/-- **Complete code is assembled at any address where it fits.** -/
theorem assemble_cases (base : UInt16) :
    (∃ image, (e.assemble base).1 = .ok image) ∨
    (∃ size, (e.assemble base).1 = .error (.doesNotFit size base) ∧ 0x10000 < base.toNat + size) ∧
      ∀ longs addresses, ¬ Assembled e.items.toList base longs addresses := by
  have hwithin : BranchesWithin (e.items.toList.length + 1) e.items.toList := by
    intro ifFalse target hmem
    obtain ⟨place, hlt, hplace⟩ := h.branches ifFalse _ (Array.mem_def.mpr hmem)
    cases hplace
    simpa using Nat.lt_succ_of_lt hlt
  obtain ⟨place, hplace, hstart⟩ := h.start
  unfold assemble
  rw [h.errors, h.firstWaiting]
  dsimp only
  rcases relax_cases hwithin e.items.size e.length_firstLongs with
    ⟨longs, addresses, hrelax⟩ | ⟨herror, hnone⟩
  · have hsettled := (relax_settled e.length_firstLongs e.count_firstLongs_le hrelax).1
    rw [hrelax, hstart]
    dsimp only
    rw [Option.getD_some, hsettled.address (by simpa using Nat.le_of_lt hplace)]
    exact Or.inl ⟨_, rfl⟩
  · obtain ⟨size, hrelax, hsize⟩ := herror
    rw [hrelax]
    refine Or.inr ⟨⟨size, rfl, hsize⟩, ?_⟩
    intro longs addresses hassembled
    exact hnone longs addresses hassembled.toSettled hassembled.above_firstLongs

end Emitter.Complete

end Terrace
