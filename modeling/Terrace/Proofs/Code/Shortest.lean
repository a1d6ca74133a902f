/-
# The shortest code

A choice of the branches to make long is consistent if each branch left short reaches its
target with one byte, in the direction of its short form. Widening starts below every
consistent choice and stays below it, so it ends with the least one: a branch is long there
only if it is long in every consistent choice. A pass that is not the last makes a branch
long, so there is at most one pass more than there are branches. Code that does not fit is
given up in the pass that shows it, which is a pass below the least choice; so code is refused
exactly when the least choice does not fit.

Key definitions: `Consistent`, `Least`, `shortBranches`, `Passes`, `Emitter.Ready`.
Key theorems: `consistent_of_stable`, `exists_least_above`, `exists_passes`, `Passes.answer_cases`,
`Emitter.assemble_shortest`.
-/
import Terrace.Proofs.Code.Fitting

namespace Terrace

/-! ### Consistent choices -/

/-- What the lengths of branches must satisfy in code laid out from `base`. A branch to itself
counts as one backwards. -/
structure Consistent (base : Nat) (items : List Item) (longs : List Bool) : Prop where
  length : longs.length = items.length
  /-- A short conditional branch leads forwards. -/
  forward : ∀ i target : Nat, items[i]? = some (.branch true (some target)) →
    longs[i]? = some false → i < target
  /-- A short branch is at most 255 bytes from its target, in its own direction. -/
  reaches : ∀ (i target : Nat) (ifFalse : Bool),
    items[i]? = some (.branch ifFalse (some target)) → longs[i]? = some false →
    ∃ here there, (layout base items longs)[i]? = some here ∧
      (layout base items longs)[target]? = some there ∧
      if i < target then here ≤ there ∧ there - here ≤ 255 else there ≤ here ∧ here - there ≤ 255

/-- A consistent choice whose long branches are long in every consistent choice. -/
structure Least (base : Nat) (items : List Item) (longs : List Bool) : Prop
    extends Consistent base items longs where
  below : ∀ other, Consistent base items other → Wider longs other

theorem Wider.antisymm {a b : List Bool} (hab : Wider a b) (hba : Wider b a) : a = b := by
  induction hab with
  | nil => rfl
  | cons h _ ih =>
    cases hba with
    | cons h' hs' => rw [ih hs', Bool.eq_iff_iff.mpr ⟨h, h'⟩]

/-- A later place lies at no lower address. -/
theorem layout_mono {items : List Item} {longs : List Bool} (hlength : longs.length = items.length)
    {base i j here there : Nat} (hij : i ≤ j) (hhere : (layout base items longs)[i]? = some here)
    (hthere : (layout base items longs)[j]? = some there) : here ≤ there := by
  have hj : j ≤ items.length := by
    obtain ⟨hj, _⟩ := List.getElem?_eq_some_iff.mp hthere
    rw [length_layout items longs hlength] at hj
    omega
  rw [layout_getElem? _ _ hlength _ _ (hij.trans hj), Option.some.injEq] at hhere
  rw [layout_getElem? _ _ hlength _ _ hj, Option.some.injEq] at hthere
  have horder : ((itemLengths items longs).take i).sum ≤ ((itemLengths items longs).take j).sum :=
    List.monotone_sum_take (itemLengths items longs) hij
  omega

/-- Where a short branch reaches its target, the two are near. -/
theorem Consistent.near {base : Nat} {items : List Item} {longs : List Bool}
    (h : Consistent base items longs) {i target : Nat} {ifFalse : Bool}
    (hitem : items[i]? = some (.branch ifFalse (some target))) (hshort : longs[i]? = some false) :
    ∃ there here, (layout base items longs)[target]? = some there ∧
      (layout base items longs)[i]? = some here ∧ max there here - min there here ≤ 255 := by
  obtain ⟨here, there, hhere, hthere, hreach⟩ := h.reaches i target ifFalse hitem hshort
  refine ⟨there, here, hthere, hhere, ?_⟩
  split at hreach <;> omega

/-- Conditional branches backwards are long. -/
theorem Consistent.backward {base : Nat} {items : List Item} {longs : List Bool}
    (h : Consistent base items longs) (i target : Nat)
    (hitem : items[i]? = some (.branch true (some target))) (hle : target ≤ i) :
    longs[i]? = some true := by
  obtain ⟨hi, _⟩ := List.getElem?_eq_some_iff.mp hitem
  obtain ⟨long, hlong⟩ := Option.isSome_iff_exists.mp
    (show longs[i]?.isSome by simp [h.length, hi])
  cases long with
  | true => exact hlong
  | false => exact absurd (h.forward i target hitem hlong) (by omega)

/-- **Lengths that a pass does not change are consistent.** -/
theorem consistent_of_stable {base : Nat} {items : List Item} {longs : List Bool}
    (hlength : longs.length = items.length)
    (hbackward : ∀ i target : Nat, items[i]? = some (.branch true (some target)) → target ≤ i →
      longs[i]? = some true)
    (hstable : widen (layout base items longs).toArray 0 items longs = some longs) :
    Consistent base items longs where
  length := hlength
  forward i target hitem hshort := by
    by_contra hle
    rw [hbackward i target hitem (by omega)] at hshort
    cases hshort
  reaches i target ifFalse hitem hshort := by
    obtain ⟨there, here, hthere, hhere, hnear⟩ := widen_branch hstable hitem hshort
    rw [List.getElem?_toArray] at hthere hhere
    rw [Nat.zero_add] at hhere
    rw [hshort, Option.some.injEq, eq_comm, decide_eq_false_iff_not] at hnear
    refine ⟨here, there, hhere, hthere, ?_⟩
    split
    · have hle := layout_mono hlength (Nat.le_of_lt ‹_›) hhere hthere
      omega
    · have hle := layout_mono hlength (Nat.le_of_not_lt ‹_›) hthere hhere
      omega

/-! ### Short branches -/

/-- Whether an item is a branch. -/
def Item.isBranch : Item → Bool
  | .branch _ _ => true
  | _ => false

/-- The number of branches. -/
def branchCount (items : List Item) : Nat := items.countP Item.isBranch

/-- The number of branches that are short. -/
def shortBranches (items : List Item) (longs : List Bool) : Nat :=
  (items.zip longs).countP fun (item, long) => item.isBranch && !long

theorem shortBranches_cons (item : Item) (items : List Item) (long : Bool) (longs : List Bool) :
    shortBranches (item :: items) (long :: longs) =
      shortBranches items longs + if item.isBranch && !long then 1 else 0 := by
  rw [shortBranches, List.zip_cons_cons, List.countP_cons, ← shortBranches]

theorem shortBranches_le : ∀ (items : List Item) (longs : List Bool),
    shortBranches items longs ≤ branchCount items
  | [], _ => Nat.zero_le _
  | _ :: _, [] => Nat.zero_le _
  | item :: items, long :: longs => by
    have ih := shortBranches_le items longs
    simp only [branchCount] at ih
    rw [shortBranches_cons, branchCount, List.countP_cons]
    cases item.isBranch <;> cases long <;> simp <;> omega

/-- **A pass that changes something leaves fewer short branches.** -/
theorem widen_shortBranches {addresses : Array Nat} {i : Nat} {items : List Item}
    {longs wider : List Bool} (hlength : longs.length = items.length)
    (h : widen addresses i items longs = some wider) :
    shortBranches items wider ≤ shortBranches items longs ∧
      (wider ≠ longs → shortBranches items wider < shortBranches items longs) := by
  fun_induction widen addresses i items longs generalizing wider with
  | case1 i ifFalse target items longs there here _ _ ih =>
    obtain ⟨rest, hrest, hw⟩ := Option.bind_eq_some_iff.mp h
    obtain rfl := Option.some.inj hw
    obtain ⟨hle, hlt⟩ := ih (by simpa using hlength) hrest
    have hbranch : (Item.branch ifFalse (some target)).isBranch = true := rfl
    rw [shortBranches_cons, shortBranches_cons, hbranch]
    by_cases hfar : 255 < max there here - min there here
    · simp only [hfar, decide_true, Bool.not_true, Bool.and_false, Bool.not_false, Bool.and_self,
        Bool.false_eq_true, if_false, if_true]
      exact ⟨by omega, fun _ => by omega⟩
    · simp only [hfar, decide_false, ne_eq, List.cons.injEq, true_and]
      exact ⟨by omega, fun hne => by have := hlt hne; omega⟩
  | case2 => simp at h
  | case3 i item items long longs _ ih =>
    obtain ⟨rest, hrest, hw⟩ := Option.bind_eq_some_iff.mp h
    obtain rfl := Option.some.inj hw
    obtain ⟨hle, hlt⟩ := ih (by simpa using hlength) hrest
    simp only [shortBranches_cons, ne_eq, List.cons.injEq, true_and]
    exact ⟨by omega, fun hne => by have := hlt hne; omega⟩
  | case4 =>
    rename_i items _ longs _ hno
    cases items with
    | nil =>
      obtain rfl : longs = [] := by simpa using hlength
      exact Option.some.inj h ▸ ⟨Nat.le_refl _, fun hne => (hne rfl).elim⟩
    | cons item items =>
      cases longs with
      | nil => simp at hlength
      | cons long longs => exact (hno item items long longs rfl rfl).elim

/-! ### Passes -/

/-- The passes from given lengths on, their number and what they come to. A pass is the last if
the code ends behind memory or no branch becomes long. -/
inductive Passes (base : UInt16) (items : List Item) :
    List Bool → Nat → Except AssemblyError (List Bool × Array Nat) → Prop
  | exceeds {longs : List Bool} : 0x10000 < base.toNat + (itemLengths items longs).sum →
    Passes base items longs 1 (.error (.doesNotFit (itemLengths items longs).sum base))
  | last {longs : List Bool} : base.toNat + (itemLengths items longs).sum ≤ 0x10000 →
    widen (layout base.toNat items longs).toArray 0 items longs = some longs →
    Passes base items longs 1 (.ok (longs, (layout base.toNat items longs).toArray))
  | next {longs wider : List Bool} {count : Nat}
    {answer : Except AssemblyError (List Bool × Array Nat)} :
    base.toNat + (itemLengths items longs).sum ≤ 0x10000 →
    widen (layout base.toNat items longs).toArray 0 items longs = some wider → wider ≠ longs →
    Passes base items wider count answer → Passes base items longs (count + 1) answer

section
variable {base : UInt16} {items : List Item} (hwithin : BranchesWithin (items.length + 1) items)
include hwithin

/-- **The passes come to an end**, after at most one more than there are short branches, and
`relax` does them all. -/
theorem exists_passes {longs : List Bool} (hlength : longs.length = items.length) :
    ∃ count answer, Passes base items longs count answer ∧
      count ≤ shortBranches items longs + 1 ∧
      ∀ fuel, shortBranches items longs ≤ fuel → relax base items fuel longs = answer := by
  induction hshort : shortBranches items longs using Nat.strong_induction_on generalizing longs with
  | _ short ih =>
    obtain ⟨wider, hwiden⟩ := widen_layout hwithin hlength
    have hstep := relax_eq hlength hwiden
    by_cases hover : 0x10000 < base.toNat + (itemLengths items longs).sum
    · refine ⟨1, _, .exceeds hover, by omega, fun fuel _ => ?_⟩
      rw [hstep, if_pos hover]
    · by_cases hsame : wider = longs
      · refine ⟨1, _, .last (by omega) (hsame ▸ hwiden), by omega, fun fuel _ => ?_⟩
        rw [hstep, if_neg hover, if_pos (Or.inl hsame)]
      · have hlength' : wider.length = items.length := by
          rw [← (widen_wider hlength hwiden).length_eq, hlength]
        have hlt := (widen_shortBranches hlength hwiden).2 hsame
        obtain ⟨count, answer, hpasses, hcount, hrelax⟩ := ih _ (hshort ▸ hlt) hlength' rfl
        refine ⟨count + 1, answer, .next (by omega) hwiden hsame hpasses, by omega, ?_⟩
        intro fuel hfuel
        have hmore : ¬(wider = longs ∨ fuel = 0) := by
          rintro (hsame' | rfl)
          · exact hsame hsame'
          · omega
        rw [hstep, if_neg hover, if_neg hmore, hrelax _ (by omega)]

/-- A pass from below a consistent choice stays below it. -/
theorem Consistent.widen_below {other longs wider : List Bool}
    (h : Consistent base.toNat items other) (hbelow : Wider longs other)
    (hwiden : widen (layout base.toNat items longs).toArray 0 items longs = some wider) :
    Wider wider other :=
  widen_layout_below hwithin (hbelow.length_eq.trans h.length) hbelow
    (fun _ _ _ hitem hshort => h.near hitem hshort) hwiden

/-- Widening without end of memory stops at the least choice above the one it starts from. -/
theorem exists_least_above {longs : List Bool} (hlength : longs.length = items.length) :
    ∃ least, Wider longs least ∧
      widen (layout base.toNat items least).toArray 0 items least = some least ∧
      ∀ other, Consistent base.toNat items other → Wider longs other → Wider least other := by
  induction hshort : shortBranches items longs using Nat.strong_induction_on generalizing longs with
  | _ short ih =>
    obtain ⟨wider, hwiden⟩ := widen_layout hwithin hlength
    have hwider := widen_wider hlength hwiden
    by_cases hsame : wider = longs
    · subst hsame
      exact ⟨wider, .refl _, hwiden, fun other _ hbelow => hbelow⟩
    · have hlt := (widen_shortBranches hlength hwiden).2 hsame
      obtain ⟨least, habove, hstable, hleast⟩ :=
        ih _ (hshort ▸ hlt) (hwider.length_eq.symm.trans hlength) rfl
      exact ⟨least, hwider.trans habove, hstable, fun other hother hbelow =>
        hleast other hother (hother.widen_below hwithin hbelow hwiden)⟩

/-- Passes that start below a consistent choice end with lengths below it that no pass changes,
or else that choice does not fit. -/
theorem Passes.answer_cases {longs other : List Bool} {count : Nat}
    {answer : Except AssemblyError (List Bool × Array Nat)}
    (h : Passes base items longs count answer) (hother : Consistent base.toNat items other)
    (hbelow : Wider longs other) :
    (∃ found, answer = .ok (found, (layout base.toNat items found).toArray) ∧
        base.toNat + (itemLengths items found).sum ≤ 0x10000 ∧
        widen (layout base.toNat items found).toArray 0 items found = some found ∧
        Wider longs found ∧ Wider found other) ∨
      (∃ size, answer = .error (.doesNotFit size base)) ∧
        0x10000 < base.toNat + (itemLengths items other).sum := by
  induction h with
  | exceeds hover =>
    have hle := (hbelow.itemLengths_le items).sum_le_sum
    exact Or.inr ⟨⟨_, rfl⟩, by omega⟩
  | last hfits hstable => exact Or.inl ⟨_, rfl, hfits, hstable, .refl _, hbelow⟩
  | next _ hwiden _ _ ih =>
    have hwider := widen_wider (hbelow.length_eq.trans hother.length) hwiden
    rcases ih (hother.widen_below hwithin hbelow hwiden) with
      ⟨found, hanswer, hfits, hstable, habove, hunder⟩ | hover
    · exact Or.inl ⟨found, hanswer, hfits, hstable, hwider.trans habove, hunder⟩
    · exact Or.inr hover

end

/-! ### Assembly -/

namespace Emitter

/-- Nothing waits, and the start and all branches lead to items or to the end of the code. -/
structure Ready (e : Emitter) : Prop where
  waits : e.firstWaiting = none
  start : ∀ place, e.start = some place → place ≤ e.items.size
  branches : BranchesWithin (e.items.size + 1) e.items.toList

/-- The lengths above the first ones that no pass changes are consistent. -/
theorem consistent_above {e : Emitter} {base : Nat} {longs : List Bool}
    (h : Wider e.firstLongs longs)
    (hstable : widen (layout base e.items.toList longs).toArray 0 e.items.toList longs =
      some longs) : Consistent base e.items.toList longs :=
  consistent_of_stable (h.length_eq.symm.trans e.length_firstLongs) (backward_of_firstLongs h)
    hstable

namespace Ready

variable {e : Emitter} (h : e.Ready)
include h

theorem within : BranchesWithin (e.items.toList.length + 1) e.items.toList := by
  simpa using h.branches

/-- There is a least consistent choice, whether it fits or not. -/
theorem exists_least (base : UInt16) : ∃ least, Least base.toNat e.items.toList least := by
  obtain ⟨least, habove, hstable, hleast⟩ :=
    @exists_least_above base _ h.within _ e.length_firstLongs
  refine ⟨least, consistent_above habove hstable, fun other hother => ?_⟩
  exact hleast other hother (firstLongs_wider hother.length hother.backward)

/-- The passes end with the least consistent choice if it fits. -/
theorem passes_answer {base : UInt16} {least : List Bool}
    (hleast : Least base.toNat e.items.toList least) {count : Nat}
    {answer : Except AssemblyError (List Bool × Array Nat)}
    (hpasses : Passes base e.items.toList e.firstLongs count answer) :
    (base.toNat + (itemLengths e.items.toList least).sum ≤ 0x10000 →
      answer = .ok (least, (layout base.toNat e.items.toList least).toArray)) ∧
    (0x10000 < base.toNat + (itemLengths e.items.toList least).sum →
      ∃ size, answer = .error (.doesNotFit size base)) := by
  have hbelow : Wider e.firstLongs least := firstLongs_wider hleast.length hleast.backward
  rcases hpasses.answer_cases h.within hleast.toConsistent hbelow with
    ⟨found, rfl, hfits, hstable, habove, hunder⟩ | ⟨hrefused, hover⟩
  · obtain rfl := hunder.antisymm (hleast.below found (consistent_above habove hstable))
    exact ⟨fun _ => rfl, fun hover => absurd hfits (by omega)⟩
  · exact ⟨fun hfits => absurd hover (by omega), fun _ => hrefused⟩

/-- Code without a range error is assembled from the lengths that the passes end with. -/
theorem assemble_of_relax (hpending : e.pending = none) {base : UInt16} {longs : List Bool}
    (hlength : longs.length = e.items.toList.length)
    (hrelax : relax base e.items.toList e.items.size e.firstLongs =
      .ok (longs, (layout base.toNat e.items.toList longs).toArray)) :
    ∃ image, e.assemble base =
        (.ok image, { e with addresses := (layout base.toNat e.items.toList longs).toArray }) ∧
      image.code = encodeItems (layout base.toNat e.items.toList longs).toArray 0
        e.items.toList longs := by
  have hwaits := h.waits
  unfold firstWaiting at hwaits
  cases hstart : e.start with
  | none => simp [hstart] at hwaits
  | some place =>
    have hplace : place < (layout base.toNat e.items.toList longs).toArray.size := by
      have hle := h.start place hstart
      rw [List.size_toArray, length_layout _ _ hlength, Array.length_toList]
      omega
    unfold assemble
    rw [hpending, h.waits]
    dsimp only
    rw [hrelax]
    dsimp only
    rw [hstart, Option.getD_some, Array.getElem?_eq_getElem hplace]
    exact ⟨_, rfl, rfl⟩

end Ready

/-- **Assembly gives the shortest code.** There is a least consistent choice of long branches.
The passes over the code are at most one more than its branches, and they end with that choice
if it fits below the end of memory; the image is then its encoding, and no consistent choice
takes fewer bytes. If it does not fit, and only then, the code is refused for its size. -/
theorem assemble_shortest {e : Emitter} (h : e.Ready) (base : UInt16) :
    ∃ least count answer, Least base.toNat e.items.toList least ∧
      (∀ other, Consistent base.toNat e.items.toList other →
        (itemLengths e.items.toList least).sum ≤ (itemLengths e.items.toList other).sum) ∧
      Passes base e.items.toList e.firstLongs count answer ∧
      count ≤ branchCount e.items.toList + 1 ∧
      relax base e.items.toList e.items.size e.firstLongs = answer ∧
      (base.toNat + (itemLengths e.items.toList least).sum ≤ 0x10000 →
        answer = .ok (least, (layout base.toNat e.items.toList least).toArray) ∧
        (e.pending = none → ∃ image, e.assemble base = (.ok image,
            { e with addresses := (layout base.toNat e.items.toList least).toArray }) ∧
          image.code = encodeItems (layout base.toNat e.items.toList least).toArray 0
            e.items.toList least ∧
          image.code.length = (itemLengths e.items.toList least).sum)) ∧
      (0x10000 < base.toNat + (itemLengths e.items.toList least).sum →
        ∃ size, answer = .error (.doesNotFit size base) ∧
          (e.pending = none → e.assemble base = (.error (.doesNotFit size base), e))) := by
  obtain ⟨least, hleast⟩ := h.exists_least base
  obtain ⟨count, answer, hpasses, hcount, hrelax⟩ :=
    @exists_passes base _ h.within _ e.length_firstLongs
  have hshort := shortBranches_le e.items.toList e.firstLongs
  have hall : branchCount e.items.toList ≤ e.items.size := by
    rw [← Array.length_toList]
    exact List.countP_le_length
  have hrelaxed := hrelax e.items.size (hshort.trans hall)
  obtain ⟨hfound, hrefused⟩ := h.passes_answer hleast hpasses
  refine ⟨least, count, answer, hleast, fun other hother => ?_, hpasses, by omega, hrelaxed,
    fun hfits => ⟨hfound hfits, fun hpending => ?_⟩, fun hover => ?_⟩
  · exact ((hleast.below other hother).itemLengths_le _).sum_le_sum
  · rw [hfound hfits] at hrelaxed
    obtain ⟨image, hassemble, hcode⟩ := h.assemble_of_relax hpending hleast.length hrelaxed
    exact ⟨image, hassemble, hcode, hcode ▸ length_encodeItems hleast.length⟩
  · obtain ⟨size, hanswer⟩ := hrefused hover
    refine ⟨size, hanswer, fun hpending => ?_⟩
    unfold assemble
    rw [hpending, h.waits]
    dsimp only
    rw [hrelaxed, hanswer]

/-- Two branches forwards, the second between the first and its target: the second is too far
from its target, and only once it is long the first is too. -/
def nestedBranches : Emitter := ofOperations [
  .branch, .literal (List.replicate 249 0), .branch, .target 0, .literal (List.replicate 255 0),
  .target 2, .halt, .setStart 0]

theorem nestedBranches_items : nestedBranches.items = #[
    .branch false (some 3), .literal (List.replicate 249 0), .branch false (some 4),
    .literal (List.replicate 255 0), .op .halt []] := by
  decide +kernel

theorem nestedBranches_ready : nestedBranches.Ready where
  waits := by decide +kernel
  start := by
    have hstart : nestedBranches.start = some 0 := by decide +kernel
    simp [hstart]
  branches := by simp [BranchesWithin, nestedBranches_items, -List.reduceReplicate]

theorem nestedBranches_shortest : ∃ least count answer,
    Least 0 nestedBranches.items.toList least ∧
      Passes 0 nestedBranches.items.toList nestedBranches.firstLongs count answer ∧ count ≤ 3 ∧
      answer.map Prod.fst = .ok least ∧ least = [true, false, true, false, false] ∧
      ∃ image, (nestedBranches.assemble 0).1 = .ok image ∧
        image.code.length = (itemLengths nestedBranches.items.toList least).sum := by
  obtain ⟨least, count, answer, hleast, -, hpasses, hcount, hrelax, hfits, hover⟩ :=
    assemble_shortest nestedBranches_ready 0
  have hbranches : branchCount nestedBranches.items.toList = 2 := by decide +kernel
  have hlongs : answer.map Prod.fst = .ok [true, false, true, false, false] := by
    rw [← hrelax]
    decide +kernel
  refine ⟨least, count, answer, hleast, hpasses, by omega, ?_⟩
  rcases Nat.lt_or_ge 0x10000 ((0 : UInt16).toNat +
    (itemLengths nestedBranches.items.toList least).sum) with hlarge | hsmall
  · obtain ⟨size, herror, -⟩ := hover hlarge
    rw [herror] at hlongs
    cases hlongs
  · obtain ⟨hok, himage⟩ := hfits hsmall
    obtain ⟨image, hassemble, -, hlength⟩ := himage (by decide +kernel)
    rw [hok] at hlongs ⊢
    exact ⟨rfl, Except.ok.inj hlongs, image, congrArg Prod.fst hassemble, hlength⟩

end Emitter

end Terrace
