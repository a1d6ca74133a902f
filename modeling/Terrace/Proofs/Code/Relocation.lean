/-
# Assembling again, at another address

The choice between a short and a long branch is made from absolute addresses, and it can be
written into the branches themselves, where the next assembly finds it. Neither shows in the
result. An assembly in place begins by setting the lengths again, so it answers as an assembly
of a fresh copy does, whatever the lengths were (`Reused.assemble_eq`). And another base moves
every address alike, which keeps all distances and with them every choice
(`relax_origin`): the codes at two bases differ in the addresses of jumps and calls alone
(`Emitter.assemble_moved`).

Key definitions: `Reused`, `Reused.assemble`, `Reused.assembleAll`, `Instruction.Moved`,
`Image.Moved`.
Key theorems: `Reused.assemble_eq`, `relax_origin`, `Emitter.assemble_moved`,
`Reused.assembleAll_moved`.
-/
import Terrace.Proofs.Code.Fitting

namespace Terrace

/-! ### Assembling in place -/

/-- An emitter that may have been assembled before. Each item has a mark that tells whether it
is a long branch, and the marks are as the last assembly left them. -/
structure Reused extends Emitter where
  longs : List Bool

namespace Reused

/-- Sets the marks to those of the first layout, up to the first item that waits. -/
def restart (count : Nat) : Nat → List Item → List Bool → Option Waiting × List Bool
  | i, item :: items, long :: longs =>
    match item.waiting count i with
    | some waiting => (some waiting, long :: longs)
    | none =>
      let (found, rest) := restart count (i + 1) items longs
      (found, item.alwaysLong i :: rest)
  | _, _, longs => (none, longs)

/-- Marks the short branches whose distance does not fit in a byte, and tells whether there
were any. A branch that points past the end stops it, and nothing is told. -/
def sweep (addresses : Array Nat) : Nat → List Item → List Bool → Option Bool × List Bool
  | i, .branch _ (some target) :: items, false :: longs =>
    match addresses[target]?, addresses[i]? with
    | some there, some here =>
      let far := decide (255 < max there here - min there here)
      let (widened, rest) := sweep addresses (i + 1) items longs
      (widened.map (far || ·), far :: rest)
    | _, _ => (none, false :: longs)
  | i, _ :: items, long :: longs =>
    let (widened, rest) := sweep addresses (i + 1) items longs
    (widened, long :: rest)
  | _, _, longs => (some false, longs)

theorem length_restart (count : Nat) : ∀ (i : Nat) (items : List Item) (longs : List Bool),
    (restart count i items longs).2.length = longs.length := by
  intro i items longs
  fun_induction restart count i items longs with
  | case1 => rfl
  | case2 i item items long longs _ found rest heq ih => simpa [heq] using ih
  | case3 => rfl

theorem length_sweep (addresses : Array Nat) : ∀ (i : Nat) (items : List Item) (longs : List Bool),
    (sweep addresses i items longs).2.length = longs.length := by
  intro i items longs
  fun_induction sweep addresses i items longs with
  | case1 i ifFalse target items longs there here _ _ far widened rest heq ih =>
    simpa [heq] using ih
  | case2 => rfl
  | case3 i item items long longs _ widened rest heq ih => simpa [heq] using ih
  | case4 => rfl

/-- A sweep that marks a branch leaves fewer short ones. -/
theorem sweep_count (addresses : Array Nat) : ∀ (i : Nat) (items : List Item) (longs : List Bool),
    (sweep addresses i items longs).2.count false ≤ longs.count false ∧
      ((sweep addresses i items longs).1 = some true →
        (sweep addresses i items longs).2.count false < longs.count false) := by
  intro i items longs
  fun_induction sweep addresses i items longs with
  | case1 i ifFalse target items longs there here _ _ far widened rest heq ih =>
    obtain ⟨hle, hlt⟩ := ih
    rw [heq] at hle hlt
    cases hfar : far with
    | true => grind
    | false =>
      refine ⟨by simpa using hle, fun hsome => ?_⟩
      have hwidened : widened = some true := by simpa using hsome
      simpa using hlt hwidened
  | case2 => simp
  | case3 i item items long longs _ widened rest heq ih =>
    obtain ⟨hle, hlt⟩ := ih
    rw [heq] at hle hlt
    simp only [List.count_cons]
    exact ⟨Nat.add_le_add_right hle _, fun hsome => Nat.add_lt_add_right (hlt hsome) _⟩
  | case4 => simp

/-- Lays the items out and marks branches, again and again, until no sweep marks one. Tells the
addresses. -/
def settle (base : UInt16) (items : List Item) (longs : List Bool) :
    Except AssemblyError (Array Nat) × List Bool :=
  let addresses := (layout base.toNat items longs).toArray
  let stop := addresses.back?.getD 0
  if 0x10000 < stop then (.error (.doesNotFit (stop - base.toNat) base), longs)
  else match _hsweep : sweep addresses 0 items longs with
    | (none, longs) => (.error .outside, longs)
    | (some false, longs) => (.ok addresses, longs)
    | (some true, longs) => settle base items longs
termination_by longs.count false
decreasing_by
  rename_i before _
  have hcount := (sweep_count addresses 0 items before).2
  rw [_hsweep] at hcount
  exact hcount rfl

/-- Assembles the code at `base` with the marks that are there. -/
def assemble (base : UInt16) (e : Reused) : Except AssemblyError Image × Reused :=
  match e.pending with
  | some (error, _) => (.error (.range error), e)
  | none =>
    if e.start.isNone then (.error (.unresolved .start), e)
    else match restart e.items.size 0 e.items.toList e.longs with
      | (some waiting, longs) => (.error (.unresolved waiting), { e with longs })
      | (none, longs) =>
        match settle base e.items.toList longs with
        | (.error error, longs) => (.error error, { e with longs })
        | (.ok addresses, longs) =>
          let e := { e with longs, addresses }
          match addresses[e.start.getD 0]? with
          | none => (.error .outside, e)
          | some start =>
            (.ok {
              code := encodeItems addresses 0 e.items.toList longs
              base
              start := start.toUInt16 }, e)

/-- The answers of assemblies one after the other, each with the emitter it leaves. -/
def assembleAll : List UInt16 → Reused → List (Except AssemblyError Image × Emitter)
  | [], _ => []
  | base :: bases, e =>
    let (answer, e) := e.assemble base
    (answer, e.toEmitter) :: assembleAll bases e

/-! ### The marks do not matter -/

theorem restart_eq (count : Nat) : ∀ (i : Nat) (items : List Item) (longs : List Bool),
    longs.length = items.length →
    (restart count i items longs).1 =
        ((items.zipIdx i).findSome? fun (item, i) => item.waiting count i) ∧
      ((restart count i items longs).1 = none → (restart count i items longs).2 =
        (items.zipIdx i).map fun (item, i) => item.alwaysLong i)
  | _, [], [], _ => by simp [restart]
  | i, item :: items, long :: longs, hlength => by
    obtain ⟨hfound, hrest⟩ := restart_eq count (i + 1) items longs (by simpa using hlength)
    cases hwaiting : item.waiting count i with
    | some waiting => simp [restart, hwaiting]
    | none =>
      simp only [restart, hwaiting, List.zipIdx_cons, List.findSome?_cons, List.map_cons,
        List.cons.injEq, true_and]
      exact ⟨hfound, hrest⟩

/-- A sweep does what a pass of the widening does. -/
theorem sweep_of_widen {addresses : Array Nat} {i : Nat} {items : List Item}
    {longs wider : List Bool} (hlength : longs.length = items.length)
    (h : widen addresses i items longs = some wider) :
    sweep addresses i items longs = (some (decide (wider ≠ longs)), wider) := by
  fun_induction widen addresses i items longs generalizing wider with
  | case1 i ifFalse target items longs there here hthere hhere ih =>
    obtain ⟨rest, hrest, hw⟩ := Option.bind_eq_some_iff.mp h
    obtain rfl := Option.some.inj hw
    rw [sweep, hthere, hhere]
    simp only [ih (by simpa using hlength) hrest]
    by_cases hfar : 255 < max there here - min there here <;> simp [hfar]
  | case2 => simp at h
  | case3 i item items long longs hno ih =>
    obtain ⟨rest, hrest, hw⟩ := Option.bind_eq_some_iff.mp h
    obtain rfl := Option.some.inj hw
    rw [sweep]
    · simp [ih (by simpa using hlength) hrest]
    · exact hno
  | case4 =>
    rename_i items _ longs _ hno
    obtain rfl := Option.some.inj h
    cases items with
    | nil =>
      obtain rfl : longs = [] := by simpa using hlength
      rfl
    | cons item items =>
      cases longs with
      | nil => simp at hlength
      | cons long longs => exact (hno item items long longs rfl rfl).elim

theorem sweep_of_widen_none {addresses : Array Nat} {i : Nat} {items : List Item}
    {longs : List Bool} (h : widen addresses i items longs = none) :
    (sweep addresses i items longs).1 = none := by
  fun_induction widen addresses i items longs with
  | case1 i ifFalse target items longs there here hthere hhere ih =>
    rw [sweep, hthere, hhere]
    have hrest : widen addresses (i + 1) items longs = none := by
      cases hrest : widen addresses (i + 1) items longs with
      | none => rfl
      | some rest => simp [hrest] at h
    simp [ih hrest]
  | case2 i ifFalse target items longs hno =>
    rw [sweep]
    split
    · rename_i there here hthere hhere
      exact (hno there here hthere hhere).elim
    · rfl
  | case3 i item items long longs hno ih =>
    rw [sweep]
    · have hrest : widen addresses (i + 1) items longs = none := by
        cases hrest : widen addresses (i + 1) items longs with
        | none => rfl
        | some rest => simp [hrest] at h
      exact ih hrest
    · exact hno
  | case4 => simp at h

section
variable {base : UInt16} {items : List Item} {longs : List Bool} (hlength : longs.length = items.length)
include hlength

/-- One turn of the loop. -/
theorem settle_pass {wider : List Bool}
    (hwiden : widen (layout base.toNat items longs).toArray 0 items longs = some wider) :
    settle base items longs =
      if 0x10000 < base.toNat + (itemLengths items longs).sum then
        (.error (.doesNotFit (itemLengths items longs).sum base), longs)
      else if wider = longs then (.ok (layout base.toNat items longs).toArray, longs)
      else settle base items wider := by
  have hsweep := sweep_of_widen hlength hwiden
  rw [settle]
  simp only [layout_back? hlength, Option.getD_some, Nat.add_sub_cancel_left]
  by_cases hwide : 0x10000 < base.toNat + (itemLengths items longs).sum
  · rw [if_pos hwide, if_pos hwide]
  · rw [if_neg hwide, if_neg hwide]
    split
    next heq => simp [hsweep] at heq
    next after heq =>
      obtain ⟨hsame, rfl⟩ : wider = longs ∧ wider = after := by simpa [hsweep] using heq
      rw [if_pos hsame, hsame]
    next after heq =>
      obtain ⟨hother, rfl⟩ : wider ≠ longs ∧ wider = after := by simpa [hsweep] using heq
      rw [if_neg hother]

/-- The turn in which a branch points past the end. -/
theorem settle_outside
    (hwiden : widen (layout base.toNat items longs).toArray 0 items longs = none) (fuel : Nat) :
    ∃ error, (settle base items longs).1 = .error error ∧
      relax base items fuel longs = .error error := by
  have hsweep := sweep_of_widen_none hwiden
  rw [settle, relax]
  simp only [layout_back? hlength, Option.getD_some, Nat.add_sub_cancel_left, hwiden]
  by_cases hwide : 0x10000 < base.toNat + (itemLengths items longs).sum
  · rw [if_pos hwide, if_pos hwide]
    exact ⟨_, rfl, rfl⟩
  · rw [if_neg hwide, if_neg hwide]
    refine ⟨.outside, ?_, rfl⟩
    split
    next => rfl
    next heq => simp [heq] at hsweep
    next heq => simp [heq] at hsweep

/-- **The loop finds the layout that `relax` finds.** -/
theorem settle_eq {fuel : Nat} (hcount : longs.count false ≤ fuel) :
    (∃ error, (settle base items longs).1 = .error error ∧
      relax base items fuel longs = .error error) ∨
    ∃ addresses longs', settle base items longs = (.ok addresses, longs') ∧
      relax base items fuel longs = .ok (longs', addresses) := by
  induction fuel using Nat.strong_induction_on generalizing longs with
  | _ fuel ih =>
    cases hwiden : widen (layout base.toNat items longs).toArray 0 items longs with
    | none => exact Or.inl (settle_outside hlength hwiden fuel)
    | some wider =>
      rw [settle_pass hlength hwiden, relax_eq hlength hwiden]
      by_cases hwide : 0x10000 < base.toNat + (itemLengths items longs).sum
      · rw [if_pos hwide, if_pos hwide]
        exact Or.inl ⟨_, rfl, rfl⟩
      · rw [if_neg hwide, if_neg hwide]
        by_cases hsame : wider = longs
        · rw [if_pos hsame, if_pos (Or.inl hsame)]
          exact Or.inr ⟨_, _, rfl, rfl⟩
        · -- the turn marked a branch, so there was one to mark and fuel is left
          have hwider := widen_wider hlength hwiden
          have hfewer := hwider.count_lt hsame
          have hmore : ¬ (wider = longs ∨ fuel = 0) := by
            rintro (h | h)
            · exact hsame h
            · omega
          rw [if_neg hsame, if_neg hmore]
          exact ih (fuel - 1) (by omega) (by rw [← hwider.length_eq, hlength]) (by omega)

end

theorem length_settle (base : UInt16) (items : List Item) (longs : List Bool) :
    (settle base items longs).2.length = longs.length := by
  fun_induction settle base items longs with
  | case1 => rfl
  | case2 longs addresses _ _ after heq =>
    simpa [heq] using length_sweep addresses 0 items longs
  | case3 longs addresses _ _ after heq =>
    simpa [heq] using length_sweep addresses 0 items longs
  | case4 longs addresses _ _ after heq ih =>
    have hafter : after.length = longs.length := by
      simpa [heq] using length_sweep addresses 0 items longs
    rw [ih, hafter]

/-- **Whatever the marks are, an assembly in place does what an assembly does.** -/
theorem assemble_eq {e : Reused} (hlength : e.longs.length = e.items.size) (base : UInt16) :
    (e.assemble base).1 = (e.toEmitter.assemble base).1 ∧
      (e.assemble base).2.toEmitter = (e.toEmitter.assemble base).2 ∧
      (e.assemble base).2.longs.length = e.longs.length := by
  have hitems : e.longs.length = e.items.toList.length := by simpa using hlength
  obtain ⟨hfound, hfirst⟩ := restart_eq e.items.size 0 e.items.toList e.longs hitems
  have hrestarted := length_restart e.items.size 0 e.items.toList e.longs
  unfold assemble Emitter.assemble
  cases hpending : e.pending with
  | some pending => simp
  | none =>
    cases hstart : e.start with
    | none => simp [Emitter.firstWaiting, hstart]
    | some start =>
      have hwaiting : e.firstWaiting = (restart e.items.size 0 e.items.toList e.longs).1 := by
        rw [Emitter.firstWaiting, hstart, if_neg (by simp), hfound]
      rw [hwaiting, Option.isNone_some, if_neg (by simp)]
      revert hfirst hrestarted
      rcases restart e.items.size 0 e.items.toList e.longs with ⟨_ | waiting, longs⟩
      · intro hfirst hrestarted
        have hlongs : longs = e.firstLongs := hfirst rfl
        subst hlongs
        have hlast := length_settle base e.items.toList e.firstLongs
        rcases @settle_eq base _ _ (hrestarted.trans hitems) _ e.count_firstLongs_le with h | h
        · obtain ⟨error, hsettle, hrelax⟩ := h
          have hpair : settle base e.items.toList e.firstLongs = (.error error, _) :=
            Prod.ext hsettle rfl
          dsimp only
          rw [hpair, hrelax]
          exact ⟨rfl, rfl, hlast.trans hrestarted⟩
        · obtain ⟨addresses, after, hsettle, hrelax⟩ := h
          rw [hsettle] at hlast
          simp only [hsettle, hrelax, Option.getD_some]
          cases addresses[start]? with
          | none => exact ⟨rfl, rfl, hlast.trans hrestarted⟩
          | some address => exact ⟨rfl, rfl, hlast.trans hrestarted⟩
      · intro _ hrestarted
        exact ⟨rfl, rfl, hrestarted⟩

end Reused

/-- The code as it was built, never assembled. -/
def Emitter.fresh (e : Emitter) : Emitter := { e with addresses := #[] }

/-- Earlier addresses play no part in an assembly. -/
theorem Emitter.assemble_fresh (e : Emitter) (base : UInt16) :
    (e.fresh.assemble base).1 = (e.assemble base).1 ∧
      ∀ image, (e.assemble base).1 = .ok image →
        (e.fresh.assemble base).2 = (e.assemble base).2 := by
  have hwaiting : e.fresh.firstWaiting = e.firstWaiting := rfl
  have hlongs : e.fresh.firstLongs = e.firstLongs := rfl
  unfold assemble
  rw [hwaiting, hlongs]
  dsimp only [fresh]
  rcases e.pending with _ | ⟨error, noted⟩
  · rcases e.firstWaiting with _ | waiting
    · rcases relax base e.items.toList e.items.size e.firstLongs with error | ⟨longs, addresses⟩
      · exact ⟨rfl, by simp⟩
      · dsimp only
        cases addresses[e.start.getD 0]? with
        | none => exact ⟨rfl, by simp⟩
        | some start => exact ⟨rfl, by simp⟩
    · exact ⟨rfl, by simp⟩
  · exact ⟨rfl, by simp⟩

namespace Reused

/-- Nothing but the marks and the addresses changes. -/
theorem fresh_assemble {e : Reused} (hlength : e.longs.length = e.items.size) (base : UInt16) :
    (e.assemble base).2.fresh = e.toEmitter.fresh := by
  obtain ⟨-, hsame, -⟩ := assemble_eq hlength base
  obtain ⟨addresses, hleft⟩ := e.toEmitter.assemble_snd base
  rw [hsame, hleft]
  rfl

/-- **Each assembly of a sequence answers as if it were the first.** -/
theorem assembleAll_getElem? : ∀ {bases : List UInt16} {e : Reused},
    e.longs.length = e.items.size → ∀ {k : Nat} {base : UInt16}, bases[k]? = some base →
    ∃ e', (e.assembleAll bases)[k]? = some ((e.fresh.assemble base).1, e') ∧
      ∀ image, (e.fresh.assemble base).1 = .ok image → e' = (e.fresh.assemble base).2 := by
  intro bases
  induction bases with
  | nil => simp
  | cons first bases ih =>
    intro e hlength k base hbase
    obtain ⟨hanswer, hleft, hlength'⟩ := assemble_eq hlength first
    cases k with
    | zero =>
      obtain rfl : first = base := by simpa using hbase
      obtain ⟨hfresh, hafter⟩ := e.toEmitter.assemble_fresh first
      refine ⟨(e.assemble first).2.toEmitter, ?_, fun image hok => ?_⟩
      · simp [assembleAll, hfresh, hanswer]
      · rw [hleft, hafter image (hfresh ▸ hok)]
    | succ k =>
      have hfresh := fresh_assemble hlength first
      have hitems : (e.assemble first).2.items = e.items := (congrArg Emitter.items hfresh :)
      have hsecond : bases[k]? = some base := by simpa using hbase
      have hrest := @ih (e.assemble first).2 (by rw [hlength', hlength, hitems]) k base hsecond
      rw [hfresh] at hrest
      simpa [assembleAll] using hrest

end Reused

/-! ### The choice of encodings does not depend on the base -/

theorem layout_add (base : Nat) : ∀ (address : Nat) (items : List Item) (longs : List Bool),
    layout (base + address) items longs = (layout address items longs).map (base + ·) := by
  intro address items longs
  fun_induction layout address items longs with
  | case1 address item items long longs ih =>
    rw [layout, List.map_cons, ← ih, Nat.add_assoc]
  | case2 address items longs hno =>
    rw [layout]
    · rfl
    · exact hno

/-- A pass of the widening looks at distances alone. -/
theorem widen_add (base : Nat) (addresses : Array Nat) (i : Nat) (items : List Item)
    (longs : List Bool) :
    widen (addresses.map (base + ·)) i items longs = widen addresses i items longs := by
  fun_induction widen addresses i items longs with
  | case1 i ifFalse target items longs there here hthere hhere ih =>
    have hdistance : max (base + there) (base + here) - min (base + there) (base + here) =
        max there here - min there here := by omega
    rw [widen]
    simp only [Array.getElem?_map, hthere, hhere, Option.map_some, ih, hdistance]
  | case2 i ifFalse target items longs hno =>
    rw [widen]
    simp only [Array.getElem?_map]
    split
    next there here hthere hhere =>
      obtain ⟨there', hthere', -⟩ := Option.map_eq_some_iff.mp hthere
      obtain ⟨here', hhere', -⟩ := Option.map_eq_some_iff.mp hhere
      exact (hno there' here' hthere' hhere').elim
    next => rfl
  | case3 i item items long longs hno ih =>
    rw [widen]
    · rw [ih]
    · exact hno
  | case4 =>
    rw [widen]
    · assumption
    · assumption

/-- At any base a pass widens the branches that it widens at address 0. -/
theorem widen_layout_base (base : Nat) (items : List Item) (longs : List Bool) :
    widen (layout base items longs).toArray 0 items longs =
      widen (layout 0 items longs).toArray 0 items longs := by
  have hlayout : (layout base items longs).toArray =
      (layout 0 items longs).toArray.map (base + ·) := by
    rw [List.map_toArray, ← layout_add, Nat.add_zero]
  rw [hlayout, widen_add]

/-- **What `relax` chooses at some base it chooses at address 0.** -/
theorem relax_origin {base : UInt16} {items : List Item} {fuel : Nat} {longs longs' : List Bool}
    {addresses : Array Nat} (hlength : longs.length = items.length)
    (h : relax base items fuel longs = .ok (longs', addresses)) :
    ∃ addresses', relax 0 items fuel longs = .ok (longs', addresses') := by
  induction fuel using Nat.strong_induction_on generalizing longs with
  | _ fuel ih =>
    cases hwiden : widen (layout base.toNat items longs).toArray 0 items longs with
    | none =>
      obtain ⟨error, -, hrelax⟩ := Reused.settle_outside hlength hwiden fuel
      rw [hrelax] at h
      simp at h
    | some wider =>
      rw [relax_eq hlength hwiden] at h
      rw [widen_layout_base, ← widen_layout_base (0 : UInt16).toNat] at hwiden
      rw [relax_eq hlength hwiden]
      by_cases hwide : 0x10000 < base.toNat + (itemLengths items longs).sum
      · rw [if_pos hwide] at h
        simp at h
      · rw [if_neg hwide] at h
        rw [if_neg (by simp only [UInt16.toNat_zero]; omega)]
        by_cases hdone : wider = longs ∨ fuel = 0
        · rw [if_pos hdone] at h ⊢
          obtain ⟨rfl, -⟩ := Prod.mk.inj (Except.ok.inj h)
          exact ⟨_, rfl⟩
        · rw [if_neg hdone] at h ⊢
          have hlength' := (widen_wider hlength hwiden).length_eq
          exact ih (fuel - 1) (by omega) (by rw [← hlength', hlength]) h

/-- The encodings chosen at two bases are the same. -/
theorem relax_longs {base base' : UInt16} {items : List Item} {fuel : Nat}
    {longs first second : List Bool} {addresses addresses' : Array Nat}
    (hlength : longs.length = items.length)
    (h : relax base items fuel longs = .ok (first, addresses))
    (h' : relax base' items fuel longs = .ok (second, addresses')) : first = second := by
  obtain ⟨_, horigin⟩ := relax_origin hlength h
  obtain ⟨_, horigin'⟩ := relax_origin hlength h'
  rw [horigin] at horigin'
  exact (Prod.mk.inj (Except.ok.inj horigin')).1

/-! ### What moves -/

/-- The instruction is the same, except that a jump or a call leads `distance` further on. -/
def Instruction.Moved (distance : Int) (before after : Instruction) : Prop :=
  if before.op ∈ [Opcode.jump, .jumpIfFalse, .functionCall] then
    after.op = before.op ∧ ∃ place place' : UInt16,
      before.operands = [.address place] ∧ after.operands = [.address place'] ∧
        (place'.toNat : Int) - place.toNat = distance
  else after = before

theorem Instruction.Moved.length {distance : Int} {before after : Instruction}
    (h : before.Moved distance after) : after.length = before.length := by
  unfold Moved at h
  split_ifs at h
  · obtain ⟨-, place, place', hbefore, hafter, -⟩ := h
    simp [Instruction.length, hbefore, hafter, Operand.length]
  · rw [h]

/-- The code of the second image is that of the first, loaded elsewhere. -/
structure Image.Moved (before after : Image) : Prop where
  length : after.code.length = before.code.length
  start : after.start - after.base = before.start - before.base
  /-- Both codes are read to their ends, and the instructions lie at the same offsets. -/
  code : ∃ offsets instructions instructions',
    before.code = Instruction.encodeAll instructions ∧
    after.code = Instruction.encodeAll instructions' ∧
    Instruction.readAll before.code = (List.zip offsets instructions, none) ∧
    Instruction.readAll after.code = (List.zip offsets instructions', none) ∧
    List.Forall₂ (Instruction.Moved ((after.base.toNat : Int) - before.base.toNat))
      instructions instructions'

/-- The addresses of `count` items and of their end are as far from the second base as they are
from the first. -/
def Emitter.PlacesMoved (count : Nat) (e e' : Emitter) (base base' : UInt16) : Prop :=
  ∀ i : Nat, i ≤ count → ∃ address address', e.addressOf? i = some address ∧
    e'.addressOf? i = some address' ∧ address' - base' = address - base ∧
      (i < count → (address'.toNat : Int) - address.toNat = (base'.toNat : Int) - base.toNat)

/-! ### Code at two bases -/

/-- Layouts of the same items with the same branch lengths, at two bases. -/
structure Settled.Pair (items : List Item) (longs : List Bool) (base base' : UInt16)
    (addresses addresses' : Array Nat) : Prop where
  first : Settled base items longs addresses
  second : Settled base' items longs addresses'
  encodable : ∀ item ∈ items, item.Encodable
  /-- All that is pointed at are items. -/
  waiting : ∀ (i : Nat) (item : Item), items[i]? = some item → item.waiting items.length i = none
  within : BranchesWithin items.length items

namespace Settled.Pair

variable {items : List Item} {longs : List Bool} {base base' : UInt16}
  {addresses addresses' : Array Nat} (h : Settled.Pair items longs base base' addresses addresses')
include h

/-- Every address moves as the base does. -/
theorem place {i : Nat} (hi : i ≤ items.length) :
    ∃ offset, addresses.getD i 0 = base.toNat + offset ∧
      addresses'.getD i 0 = base'.toNat + offset :=
  ⟨_, h.first.getD hi, h.second.getD hi⟩

/-- The operand of a jump or a call to an item moves as the base does. -/
theorem target {i : Nat} (hi : i < items.length) :
    ((addresses'.getD i 0).toUInt16.toNat : Int) - (addresses.getD i 0).toUInt16.toNat =
      (base'.toNat : Int) - base.toNat := by
  obtain ⟨offset, hfirst, hsecond⟩ := h.place (Nat.le_of_lt hi)
  have hlimit := h.first.lt_limit h.encodable hi
  have hlimit' := h.second.lt_limit h.encodable hi
  simp only [Nat.toUInt16, UInt16.toNat_ofNat']
  omega

/-- The instruction of an item moves as the base does. -/
theorem instruction {i : Nat} {item : Item} {long : Bool} (hitem : items[i]? = some item) :
    (item.instruction addresses i long).Moved ((base'.toNat : Int) - base.toNat)
      (item.instruction addresses' i long) := by
  obtain ⟨hi, heq⟩ := List.getElem?_eq_some_iff.mp hitem
  have hmem : item ∈ items := heq ▸ List.getElem_mem hi
  have hwaiting := h.waiting i item hitem
  cases item with
  | op code operands =>
    have hcode : code.operands = List.replicate operands.length .byte := h.encodable _ hmem
    have hplain : code ∉ [Opcode.jump, .jumpIfFalse, .functionCall] := by
      intro hmoves
      have haddress : OperandKind.address ∈ code.operands := by
        simp only [List.mem_cons, List.not_mem_nil, or_false] at hmoves
        rcases hmoves with rfl | rfl | rfl <;> simp [Opcode.operands]
      rw [hcode] at haddress
      exact absurd (List.eq_of_mem_replicate haddress) (by decide)
    simp only [Item.instruction, Instruction.Moved, if_neg hplain]
  | literal value =>
    rcases value with _ | ⟨a, _ | ⟨b, rest⟩⟩ <;> rfl
  | branch ifFalse target =>
    obtain _ | target := target
    · simp [Item.waiting] at hwaiting
    · have htarget : target < items.length := h.within ifFalse target hmem
      have hoperand := h.target htarget
      obtain ⟨here, hhere, hhere'⟩ := h.place (Nat.le_of_lt hi)
      obtain ⟨there, hthere, hthere'⟩ := h.place (Nat.le_of_lt htarget)
      cases long with
      | true =>
        cases ifFalse with
        | true => exact ⟨rfl, _, _, rfl, rfl, hoperand⟩
        | false => exact ⟨rfl, _, _, rfl, rfl, hoperand⟩
      | false =>
        -- a short branch holds a distance, and both ends moved
        have hforward : addresses'.getD target 0 - addresses'.getD i 0 =
            addresses.getD target 0 - addresses.getD i 0 := by omega
        have hbackward : addresses'.getD i 0 - addresses'.getD target 0 =
            addresses.getD i 0 - addresses.getD target 0 := by omega
        have hsame : Item.instruction addresses' i false (.branch ifFalse (some target)) =
            Item.instruction addresses i false (.branch ifFalse (some target)) := by
          simp only [Item.instruction, Option.getD_some, hforward, hbackward, Bool.false_eq_true,
            if_false]
        have hplain : (Item.instruction addresses i false (.branch ifFalse (some target))).op ∉
            [Opcode.jump, .jumpIfFalse, .functionCall] := by
          simp only [Item.instruction, Bool.false_eq_true, if_false]
          split_ifs <;> simp
        rw [Instruction.Moved, if_neg hplain, hsame]
  | exit => exact (h.encodable _ hmem).elim
  | call entry =>
    obtain _ | entry := entry
    · simp [Item.waiting] at hwaiting
    · have hentry : entry < items.length := by
        by_contra hnot
        simp [Item.waiting, hnot] at hwaiting
      exact ⟨rfl, _, _, rfl, rfl, h.target hentry⟩
  | reserve size => rfl

/-- **So all instructions move as the base does.** -/
theorem instructions : List.Forall₂ (Instruction.Moved ((base'.toNat : Int) - base.toNat))
    (itemInstructions addresses 0 items longs) (itemInstructions addresses' 0 items longs) := by
  have hlength := h.first.length
  rw [List.forall₂_iff_get]
  refine ⟨by rw [length_itemInstructions hlength, length_itemInstructions hlength], ?_⟩
  intro i hi hi'
  have hitems : i < items.length := by rwa [length_itemInstructions hlength] at hi
  obtain ⟨long, hlong⟩ := h.first.long hitems
  have hitem : items[i]? = some items[i] := List.getElem?_eq_getElem hitems
  have hbefore := @itemInstructions_getElem? addresses 0 items longs i items[i] long hitem hlong
  have hafter := @itemInstructions_getElem? addresses' 0 items longs i items[i] long hitem hlong
  rw [Nat.zero_add] at hbefore hafter
  rw [List.getElem?_eq_getElem hi, Option.some.injEq] at hbefore
  rw [List.getElem?_eq_getElem hi', Option.some.injEq] at hafter
  rw [List.get_eq_getElem, List.get_eq_getElem, hbefore, hafter]
  exact h.instruction hitem

end Settled.Pair

/-- Instructions of the same lengths lie at the same offsets. -/
theorem Instruction.offsets_congr {distance : Int} {before after : List Instruction}
    (h : List.Forall₂ (Instruction.Moved distance) before after) (offset : Nat) :
    offsets offset after = offsets offset before := by
  induction h generalizing offset with
  | nil => rfl
  | cons hmoved _ ih => rw [offsets, offsets, hmoved.length, ih]

/-- What a successful assembly of built code is made of. -/
theorem Emitter.Built.encodable {e : Emitter} (hbuilt : e.Built) (hpending : e.pending = none)
    (hwaiting : e.firstWaiting = none) : ∀ item ∈ e.items.toList, item.Encodable := by
  intro item hmem
  obtain ⟨i, hitem⟩ := List.mem_iff_getElem?.mp hmem
  have hnone := waiting_of_firstWaiting hwaiting hitem
  rw [Array.getElem?_toList] at hitem
  cases item with
  | op code operands => exact hbuilt.tidy.operands code operands (by simpa using hmem)
  | literal value => exact hbuilt.tidy.literal_short hpending hitem
  | branch | call | reserve => trivial
  | exit => simp [Item.waiting] at hnone

theorem Emitter.addressOf?_getD {e : Emitter} {i address : Nat}
    (h : e.addresses[i]? = some address) :
    e.addressOf? i = some (e.addresses.getD i 0).toUInt16 := by
  have hplace : place? (i : Int) = some i := by simp [place?]
  simp [addressOf?, hplace, h]

/-- An address of an item, seen from the base. -/
theorem toUInt16_sub (base : UInt16) (offset : Nat) :
    (base.toNat + offset).toUInt16 - base = offset.toUInt16 := by
  have hsum : (base.toNat + offset).toUInt16 = base + offset.toUInt16 := by
    simp [Nat.toUInt16]
  rw [hsum, UInt16.add_comm, UInt16.add_sub_cancel]

/-- **The code at another base is the same code, moved.** -/
theorem Emitter.assemble_moved {e first second : Emitter} (hbuilt : e.Built)
    (hwithin : BranchesWithin e.items.size e.items.toList) {base base' : UInt16}
    {image image' : Image} (h : e.assemble base = (.ok image, first))
    (h' : e.assemble base' = (.ok image', second)) :
    image.base = base ∧ image'.base = base' ∧ image.Moved image' ∧
      first.PlacesMoved e.items.size second base base' := by
  have hfirstWaiting := firstWaiting_of_assemble h
  obtain ⟨longs, addresses, start, hpending, hrelax, rfl, hstart, rfl⟩ := assemble_ok h
  obtain ⟨longs', addresses', start', -, hrelax', rfl, hstart', rfl⟩ := assemble_ok h'
  have hlength : e.firstLongs.length = e.items.toList.length := by simp [firstLongs]
  obtain rfl := relax_longs hlength hrelax hrelax'
  have hcount : e.firstLongs.count false ≤ e.items.size :=
    Nat.le_trans List.count_le_length (by simp [firstLongs])
  have hpair : Settled.Pair e.items.toList longs base base' addresses addresses' := {
    first := (relax_settled hlength hcount hrelax).1
    second := (relax_settled hlength hcount hrelax').1
    encodable := hbuilt.encodable hpending hfirstWaiting
    waiting := fun i item hitem => by simpa using waiting_of_firstWaiting hfirstWaiting hitem
    within := by simpa using hwithin }
  have hmoved := hpair.instructions
  have hstartPlace : ∃ offset, start = base.toNat + offset ∧ start' = base'.toNat + offset := by
    obtain ⟨hin, hstartAt⟩ := Array.getElem?_eq_some_iff.mp hstart
    have hplace : e.start.getD 0 ≤ e.items.toList.length := by
      rw [hpair.first.lies, List.size_toArray, length_layout _ _ hpair.first.length] at hin
      omega
    rw [hpair.first.address hplace, Option.some.injEq] at hstart
    rw [hpair.second.address hplace, Option.some.injEq] at hstart'
    exact ⟨_, hstart.symm, hstart'.symm⟩
  refine ⟨rfl, rfl, ?_, ?_⟩
  · constructor
    · rw [length_encodeItems hpair.first.length, length_encodeItems hpair.first.length]
    · obtain ⟨offset, rfl, rfl⟩ := hstartPlace
      rw [toUInt16_sub, toUInt16_sub]
    · refine ⟨_, _, _, encodeItems_eq hpair.encodable, encodeItems_eq hpair.encodable,
        readAll_encodeItems hpair.encodable, ?_, hmoved⟩
      rw [readAll_encodeItems hpair.encodable, Instruction.offsets_congr hmoved]
  · intro i hi
    have hplace : i ≤ e.items.toList.length := by simpa using hi
    obtain ⟨offset, hat, hat'⟩ := hpair.place hplace
    refine ⟨(addresses.getD i 0).toUInt16, (addresses'.getD i 0).toUInt16, ?_, ?_, ?_, ?_⟩
    · exact addressOf?_getD (hpair.first.address hplace)
    · exact addressOf?_getD (hpair.second.address hplace)
    · rw [hat, hat', toUInt16_sub, toUInt16_sub]
    · exact fun hlt => hpair.target (by simpa using hlt)

namespace Reused

/-- **Assembling again changes nothing, and assembling elsewhere moves the code.** Each of a
sequence of assemblies answers as that of a fresh copy does, whatever the marks were before.
And where two of them succeed, the codes are as long as each other, the start and every item are
as far from the base, and the instructions differ in the addresses of jumps and calls alone, by
the distance of the bases. -/
theorem assembleAll_moved {e : Reused} (hbuilt : e.toEmitter.Built)
    (hlength : e.longs.length = e.items.size) (bases : List UInt16) :
    (∀ (k : Nat) (base : UInt16), bases[k]? = some base →
      ∃ e', (e.assembleAll bases)[k]? = some ((e.fresh.assemble base).1, e') ∧
        ∀ image, (e.fresh.assemble base).1 = .ok image → e' = (e.fresh.assemble base).2) ∧
    (BranchesWithin e.items.size e.items.toList →
      ∀ (j k : Nat) (base base' : UInt16) (image image' : Image) (first second : Emitter),
        bases[j]? = some base → bases[k]? = some base' →
        (e.assembleAll bases)[j]? = some (.ok image, first) →
        (e.assembleAll bases)[k]? = some (.ok image', second) →
          image.base = base ∧ image'.base = base' ∧ image.Moved image' ∧
            first.PlacesMoved e.items.size second base base') := by
  have hassembled : ∀ (k : Nat) (base : UInt16) (image : Image) (left : Emitter),
      bases[k]? = some base → (e.assembleAll bases)[k]? = some (.ok image, left) →
        e.toEmitter.assemble base = (.ok image, left) := by
    intro k base image left hbase hanswer
    obtain ⟨left', hanswer', hleft⟩ := assembleAll_getElem? hlength hbase
    rw [hanswer, Option.some.injEq, Prod.mk.injEq] at hanswer'
    obtain ⟨hok, rfl⟩ := hanswer'
    obtain ⟨hfresh, hafter⟩ := e.toEmitter.assemble_fresh base
    have hsame : (e.toEmitter.assemble base).1 = .ok image := by rw [← hfresh, ← hok]
    rw [hleft image hok.symm, hafter image hsame, ← hsame]
  refine ⟨fun k base => assembleAll_getElem? hlength, ?_⟩
  intro hwithin j k base base' image image' first second hbase hbase' hanswer hanswer'
  exact Emitter.assemble_moved hbuilt hwithin (hassembled j base image first hbase hanswer)
    (hassembled k base' image' second hbase' hanswer')

/-- The loop at two addresses, with a failed assembly in between and all marks set before. -/
theorem callingLoop_moved :
    ∃ image first second,
      (assembleAll [4096, 65530, 8192] ⟨Emitter.callingLoop, List.replicate 18 true⟩)[0]? =
        some (.ok Emitter.callingLoopImage, first) ∧
      (assembleAll [4096, 65530, 8192] ⟨Emitter.callingLoop, List.replicate 18 true⟩)[2]? =
        some (.ok image, second) ∧
      image.start = 8217 ∧ Emitter.callingLoopImage.Moved image ∧
        first.PlacesMoved 18 second 4096 8192 := by
  have hsize : Emitter.callingLoop.items.size = 18 := by
    rw [Emitter.callingLoop_items]
    rfl
  obtain ⟨hfresh, hmoved⟩ := @assembleAll_moved ⟨Emitter.callingLoop, List.replicate 18 true⟩
    (Emitter.built_ofOperations _) (by rw [hsize, List.length_replicate]) [4096, 65530, 8192]
  obtain ⟨first, hfirst, -⟩ := hfresh 0 4096 rfl
  obtain ⟨second, hsecond, -⟩ := hfresh 2 8192 rfl
  have hlow : (Emitter.callingLoop.fresh.assemble 4096).1 = .ok Emitter.callingLoopImage := by
    decide +kernel
  obtain ⟨image, hhigh, hstart⟩ : ∃ image,
      (Emitter.callingLoop.fresh.assemble 8192).1 = .ok image ∧ image.start = 8217 := by
    refine ⟨⟨Emitter.callingLoopImage.code.set 32 32, 8192, 8217⟩, ?_, rfl⟩
    decide +kernel
  rw [hlow] at hfirst
  rw [hhigh] at hsecond
  have hwithin : BranchesWithin Emitter.callingLoop.items.size
      Emitter.callingLoop.items.toList := by
    simp [BranchesWithin, Emitter.callingLoop_items]
  obtain ⟨-, -, hcode, hplaces⟩ :=
    hmoved hwithin 0 2 4096 8192 _ image first second rfl rfl hfirst hsecond
  exact ⟨image, first, second, hfirst, hsecond, hstart, hcode, hsize ▸ hplaces⟩

end Reused

end Terrace
