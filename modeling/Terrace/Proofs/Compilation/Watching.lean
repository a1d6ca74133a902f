/-
# Runs under watch

Turn by turn, a run is watched for what it does at each instruction. `Watched … P k s` says that the
next `k` turns of a session, as far as they come, go from one session as in `G` to the next, up to a
session as in `P`; the run goes on only after sessions as in `T`. Here `G` says that an indexed
instruction accesses the array that its access names, and `T` that stores are tame. Each item that
is none of these instructions takes some values off the stack and leaves another one.

Key definitions: `Watched`, `Program.Watches`.
Key theorems: `turn_outcome`, `Watched.bind`, `Watched.turns`, `Watched.holds`, `ItemPath.watched`,
`Poised.leaves`, `Poised.address`, `Poised.assigns`.
-/
import Terrace.Proofs.Compilation.Footing

namespace Terrace

open Machine

/-! ### Turn by turn -/

/-- **A turn is over for a reason, or does what its instruction does.** -/
theorem turn_outcome {σ : Type} {host : Host σ} {s : Session σ} {site : Site} {v : View}
    (E : Stop → Prop) {Q : Machine → Prop} (h : Stands site s.machine v)
    (hstep : ∀ m, m = { s.machine with steps := s.machine.steps + 1 } → Stands site m v →
      Yields step m E fun signal m' => signal = .next ∧ Q m') :
    (∃ s' how, turn host s = .ended s' how ∧ Excused E how) ∨
      ∃ s', turn host s = .on s' ∧ Q s'.machine := by
  have hout := (hstep _ rfl (h.at_steps (s.machine.steps + 1))).outcome
  rcases turn_cases host E s with ⟨how, hturn, hhow⟩ | hturn
  · exact Or.inl ⟨s, how, hturn, hhow⟩
  generalize { s.machine with steps := s.machine.steps + 1 } = m at hout hturn
  cases hrun : step.run m with
  | error stop m' =>
    rw [hrun] at hout hturn
    exact Or.inl ⟨_, _, hturn, .stop hout⟩
  | ok signal m' =>
    rw [hrun] at hout hturn
    obtain ⟨rfl, hQ⟩ := hout
    exact Or.inr ⟨_, hturn, hQ⟩

/-- The next `k` turns lead through sessions `G` to a session `P`, as long as sessions are `T`. -/
inductive Watched {σ : Type} (host : Host σ) (T G P : Session σ → Prop) : Nat → Session σ → Prop
  | here {k : Nat} {s : Session σ} (h : P s) : Watched host T G P k s
  | late {s : Session σ} (h : G s) : Watched host T G P 0 s
  | ended {k : Nat} {s s' : Session σ} {how : RunEnd} (h : G s) (hturn : turn host s = .ended s' how) :
    Watched host T G P k s
  | on {k : Nat} {s s' : Session σ} (h : G s) (hturn : turn host s = .on s')
    (hrest : T s → Watched host T G P k s') : Watched host T G P (k + 1) s

namespace Watched

variable {σ : Type} {host : Host σ} {T G P Q : Session σ → Prop} {k : Nat} {s : Session σ}
  {site : Site} {v : View}

/-- **What one stretch of a run leads to, the next goes on from.** -/
theorem bind (h : Watched host T G P k s)
    (hrest : ∀ k' ≤ k, ∀ s', P s' → Watched host T G Q k' s') : Watched host T G Q k s := by
  induction h with
  | here h => exact hrest _ (Nat.le_refl _) _ h
  | late h => exact .late h
  | ended h hturn => exact .ended h hturn
  | on h hturn _ ih => exact .on h hturn fun ht => ih ht fun k' hk' => hrest k' (by omega)

/-- **An instruction takes one turn**, after which the run goes on only from a session `T`. -/
theorem turns (hG : G s) (hs : Stands site s.machine v) {E : Stop → Prop} {Q : Machine → Prop}
    (hstep : ∀ m, m = { s.machine with steps := s.machine.steps + 1 } → Stands site m v →
      Yields step m E fun signal m' => signal = .next ∧ Q m')
    (hrest : ∀ k' < k, ∀ s', turn host s = .on s' → Q s'.machine → T s →
      Watched host T G P k' s') : Watched host T G P k s := by
  rcases k with _ | k
  · exact .late hG
  rcases turn_outcome E hs hstep with ⟨s', how, hturn, _⟩ | ⟨s', hturn, hQ⟩
  · exact .ended hG hturn
  · exact .on hG hturn fun ht => hrest k (Nat.lt_succ_self k) s' hturn hQ ht

theorem moves (hG : G s) (hs : Stands site s.machine v) {R : View → Prop}
    (hmoves : ∀ m, Stands site m v → Moves site m (fun _ => True) R)
    (hrest : ∀ k' < k, ∀ s' v', R v' → Stands site s'.machine v' → Watched host T G P k' s') :
    Watched host T G P k s := by
  refine turns hG hs (fun m _ hm => hmoves m hm) ?_
  rintro k' hk' s' _ ⟨v', hv', hs'⟩ _
  exact hrest k' hk' s' v' hv' hs'

/-- A system call is answered with a byte. -/
theorem system_call (hG : G s) (hs : Stands site s.machine v) {rest : Bytes} {address : UInt16}
    {a x y : UInt8} (hcode : Occurs site.low v.pc [Opcode.systemCall.byte, 5])
    (hstack : v.stack = rest ++ (addressBytes address ++ [a, x, y]))
    (hrest : ∀ k' < k, ∀ s' answer, Stands site s'.machine { v with
        pc := v.pc + 2, stack := rest ++ [answer], above := [] } → Watched host T G P k' s') :
    Watched host T G P k s := by
  rcases k with _ | k
  · exact .late hG
  have hout := ((hs.at_steps (s.machine.steps + 1)).system_call (E := fun _ => True) hcode
    hstack).outcome
  rcases turn_cases host (fun _ => True) s with ⟨how, hturn, _⟩ | hturn
  · exact .ended hG hturn
  generalize { s.machine with steps := s.machine.steps + 1 } = m at hout hturn
  cases hrun : step.run m with
  | error stop m' =>
    rw [hrun] at hturn
    exact .ended hG hturn
  | ok signal m' =>
    rw [hrun] at hout hturn
    obtain ⟨rfl, hstands⟩ := hout
    generalize hreply : host.serve ⟨address, a, x, y⟩ s.host = reply at hturn
    obtain ⟨⟨answer, failure⟩, state⟩ := reply
    have hpush := (@Stands.push site m' _ (fun _ => True) v.pc hstands [answer]
      fun _ _ _ => trivial).outcome
    rw [follow, serve] at hturn
    simp only [show (traced s).host = s.host from rfl, hreply] at hturn
    cases failure with
    | some reason => exact .ended hG hturn
    | none =>
      cases hpushed : (push v.pc [answer]).run m' with
      | error stop m'' =>
        simp only [hpushed] at hturn
        exact .ended hG hturn
      | ok _ m'' =>
        rw [hpushed] at hpush
        simp only [hpushed] at hturn
        exact .on hG hturn fun _ => hrest k (Nat.lt_succ_self k) _ answer hpush

/-- The end of the program ends the run. -/
theorem halts (hG : G s) (hs : Stands site s.machine v)
    (hcode : Occurs site.low v.pc [Opcode.halt.byte]) : Watched host T G P k s := by
  have hout := ((hs.at_steps (s.machine.steps + 1)).halt (E := fun _ => False) hcode).outcome
  rcases turn_cases host (fun _ => True) s with ⟨how, hturn, _⟩ | hturn
  · exact .ended hG hturn
  generalize { s.machine with steps := s.machine.steps + 1 } = m at hout hturn
  cases hrun : step.run m with
  | error stop m' =>
    rw [hrun] at hout
    exact hout.elim
  | ok signal m' =>
    rw [hrun] at hout hturn
    obtain ⟨rfl, _⟩ := hout
    exact .ended hG hturn

/-- **A run that is followed all the way is in a session `G`**, if all before were `T`. -/
theorem holds (h : Watched host T G (fun _ => False) k s) :
    ∀ {s' : Session σ}, loop host k s = (s', .unfinished) →
      (∀ j < k, ∀ t, loop host j s = (t, .unfinished) → T t) → G s' := by
  induction h with
  | here h => exact h.elim
  | late h =>
    intro s' hloop _
    cases hloop
    exact h
  | @ended k s s₁ how h hturn =>
    intro s' hloop _
    rcases k with _ | k
    · cases hloop
      exact h
    · rw [loop_succ, hturn] at hloop
      cases hloop
      exact (turn_reported host hturn).elim False.elim nofun
  | @on k s s₁ h hturn _ ih =>
    intro s' hloop htame
    rw [loop_succ, hturn] at hloop
    refine ih (htame 0 (by omega) s rfl) hloop fun j hj t hrun => ?_
    refine htame (j + 1) (by omega) t ?_
    rw [loop_succ, hturn]
    exact hrun

end Watched

/-! ### Instructions -/

/-- **The opcode at an item.** -/
theorem Stands.item_opcode {c : Assembly} {site : Site} {m : Machine} {v : View}
    (h : Stands site m v) (hsite : site.Carries c) {i : Nat} (hpc : v.pc = c.address i)
    {item : Item} (hitem : c.items[i]? = some item) :
    ∃ op, m.opcode? = some op ∧ (item.Unindexed → op ≠ .loadIndexed ∧ op ≠ .storeIndexed) ∧
      ∀ code operands, item = .op code operands → op = code := by
  obtain ⟨long, hlong⟩ := c.long hitem
  have hresolved := c.resolved hitem
  have hcode := hsite.item hitem hlong
  obtain ⟨op, operands, hencode, hplain, hop⟩ : ∃ (op : Opcode) (operands : Bytes),
      item.encode c.addresses i long = op.byte :: operands ∧
      (item.Unindexed → op ≠ .loadIndexed ∧ op ≠ .storeIndexed) ∧
      ∀ code operands, item = .op code operands → op = code := by
    cases item with
    | op op operands => exact ⟨op, operands, rfl, id, by rintro _ _ ⟨⟩; rfl⟩
    | literal value =>
      rcases value with _ | ⟨b, _ | ⟨b', rest⟩⟩
      · exact ⟨.loadNumber, _, rfl, fun _ => by decide, nofun⟩
      · exact ⟨.loadByte, _, rfl, fun _ => by decide, nofun⟩
      · exact ⟨.loadNumber, _, rfl, fun _ => by decide, nofun⟩
    | branch ifFalse target =>
      unfold Item.encode
      dsimp only
      split_ifs
      all_goals exact ⟨_, _, rfl, fun _ => by decide, nofun⟩
    | exit => exact hresolved.elim
    | call entry => exact ⟨.functionCall, _, rfl, fun _ => by decide, nofun⟩
    | reserve size => exact ⟨.allocate, _, rfl, fun _ => by decide, nofun⟩
  rw [hencode] at hcode
  have hbyte := h.low.get? (occurs_cons.mp hcode).1
  refine ⟨op, ?_, hplain, hop⟩
  rw [Nat.zero_add, ← hpc, ← h.pc] at hbyte
  rw [opcode?, hbyte, Option.bind_some, Opcode.ofByte?_byte]

namespace Emit

theorem unindexed_op {op : Opcode} {operands : List Int}
    (h : op ≠ .loadIndexed ∧ op ≠ .storeIndexed) :
    ∀ item ∈ code (Emit.op op operands), item.Unindexed := by
  rw [code_op, List.forall_mem_singleton]
  exact h

theorem unindexed_loadVariable (scope : Scope) (offset size : Int) :
    ∀ item ∈ code (loadVariable scope offset size), item.Unindexed := by
  unfold loadVariable
  split_ifs <;> exact unindexed_op (by simp)

theorem unindexed_storeVariable (scope : Scope) (offset size : Int) :
    ∀ item ∈ code (storeVariable scope offset size), item.Unindexed := by
  unfold storeVariable
  split_ifs <;> exact unindexed_op (by simp)

theorem unindexed_unary (operator : UnaryOp) (size : Int) :
    ∀ item ∈ code (unary operator size), item.Unindexed := by
  unfold unary
  cases operator <;> exact unindexed_op (by simp)

theorem unindexed_binary (operator : BinaryOp) (left right : Int) :
    ∀ item ∈ code (binary operator left right), item.Unindexed := by
  unfold binary
  cases operator with
  | compare _ | arithmetic _ =>
    dsimp only
    split_ifs <;> exact unindexed_op (by simp)
  | and | or | bitwise _ | shift _ => exact unindexed_op (by simp)

end Emit

/-- The next `k` turns lead to a session `P`, and indexed instructions on the way access the arrays
that are meant, as long as stores are tame. -/
abbrev Program.Watches {σ : Type} (program : Program) (host : Host σ) (c : Assembly)
    (P : Session σ → Prop) (k : Nat) (s : Session σ) : Prop :=
  Watched host (program.Tame host c) (program.Accesses host c) P k s

/-- There is nothing to say about other instructions. -/
theorem Stands.accesses {σ : Type} (host : Host σ) (program : Program) {c : Assembly} {site : Site}
    {s : Session σ} {v : View} (h : Stands site s.machine v) (hsite : site.Carries c) {i : Nat}
    (hpc : v.pc = c.address i) {item : Item} (hitem : c.items[i]? = some item)
    (hplain : item.Unindexed) : program.Accesses host c s := by
  obtain ⟨op, hop, hother, _⟩ := h.item_opcode hsite hpc hitem
  obtain ⟨hload, hstore⟩ := hother hplain
  constructor
  · rw [hop, Option.some.injEq]
    exact fun heq => absurd heq hload
  · rw [hop, Option.some.injEq]
    exact fun heq => absurd heq hstore

/-- Items that are none of these instructions are watched to their end. -/
theorem ItemPath.watched {σ : Type} {host : Host σ} {program : Program} {c : Assembly} {site : Site}
    {R : View → Prop} {v : View} (h : ItemPath c site (fun _ => True) R v) (hsite : site.Carries c) :
    ∀ {k : Nat} {s : Session σ}, Stands site s.machine v →
      program.Watches host c (fun s' => ∃ v', R v' ∧ Stands site s'.machine v') k s := by
  induction h with
  | done hv => exact fun hs => .here ⟨_, hv, hs⟩
  | step hitem hplain hpc hmoves _ ih =>
    intro k s hs
    have hG := hs.accesses host program hsite hpc hitem hplain
    exact .moves hG hs hmoves fun k' _ s' v' hv' hs' => ih v' hv' hs'

namespace Poised

variable {σ : Type} {host : Host σ} {program : Program} {c : Assembly} {bottom top n r i k : Nat}
  {calls : List PendingCall} {cells : Cells} {s : Session σ}

theorem accesses (host : Host σ) (program : Program) (h : Poised c bottom calls cells top i s)
    {item : Item} (hitem : c.items[i]? = some item) (hplain : item.Unindexed) :
    program.Accesses host c s := by
  obtain ⟨site, stack, hfooting, _⟩ := h
  exact hfooting.stands.accesses host program hfooting.carries rfl hitem hplain

/-- **An item that takes `n` bytes off the stack and leaves `r` others**, of which some may be
known. -/
theorem leavesWith (extra : Cells) (h : Poised c bottom calls cells (top + n) i s)
    (hfirm : Firm program bottom calls cells top) {items : List Item}
    (hitems : Occurs c.items i items) (hone : items.length = 1)
    (hplain : ∀ item ∈ items, item.Unindexed)
    (hmoves : ∀ {site rest taken m}, Footing c bottom calls cells i m site (rest ++ taken) →
      taken.length = n → bottom + rest.length = top → Moves site m (fun _ => True) fun v' =>
        ∃ value : Bytes, value.length = r ∧
          (∀ a bytes, extra a bytes → Occurs (rest ++ value) (a - bottom) bytes) ∧
          v' = viewAt c bottom calls (i + 1) (rest ++ value)) :
    program.Watches host c (Poised c bottom calls (cells.with extra) (top + r) (i + 1)) k s := by
  obtain ⟨item, rfl⟩ := List.length_eq_one_iff.mp hone
  rw [occurs_singleton] at hitems
  rw [List.forall_mem_singleton] at hplain
  have hG := h.accesses host program hitems hplain
  obtain ⟨site, rest, taken, hfooting, htaken, htop⟩ := h.split hfirm
  refine .moves hG hfooting.stands (fun m hm => hmoves
    ⟨hfooting.below, hfooting.carries, hfooting.origin, hfooting.cells, hm⟩ htaken htop) ?_
  rintro k' _ s' _ ⟨value, hvalue, hextra, rfl⟩ hs'
  have hnew := hfooting.replaced hfirm htop hs'
  refine .here ⟨site, rest ++ value, ⟨hnew.below, hnew.carries, hnew.origin, ?_, hs'⟩, ?_⟩
  · rintro a bytes (hcell | hcell)
    · exact hnew.cells a bytes hcell
    · exact hextra a bytes hcell
  · rw [List.length_append]
    omega

theorem leaves (h : Poised c bottom calls cells (top + n) i s)
    (hfirm : Firm program bottom calls cells top) {items : List Item}
    (hitems : Occurs c.items i items) (hone : items.length = 1)
    (hplain : ∀ item ∈ items, item.Unindexed)
    (hmoves : ∀ {site rest taken m}, Footing c bottom calls cells i m site (rest ++ taken) →
      taken.length = n → bottom + rest.length = top → Moves site m (fun _ => True) fun v' =>
        ∃ value : Bytes, value.length = r ∧ v' = viewAt c bottom calls (i + 1) (rest ++ value)) :
    program.Watches host c (Poised c bottom calls cells (top + r) (i + 1)) k s := by
  refine (h.leavesWith (fun _ _ => False) hfirm hitems hone hplain
    fun hfooting htaken htop => ?_).bind fun k' _ s' h' => .here (h'.weaken fun _ _ => Or.inl)
  refine (hmoves hfooting htaken htop).mono ?_
  rintro v' ⟨value, hvalue, hv'⟩
  exact ⟨value, hvalue, fun _ _ => False.elim, hv'⟩

/-! ### Values and variables -/

theorem literal (h : Poised c bottom calls cells top i s)
    (hfirm : Firm program bottom calls cells top) {value : Bytes}
    (hitem : Occurs c.items i (Emit.code (Emit.literal value))) :
    program.Watches host c (Poised c bottom calls cells (top + value.length) (i + 1)) k s := by
  rw [Emit.code_literal] at hitem
  refine leaves (n := 0) h hfirm hitem rfl (by simp [Item.Unindexed]) fun hfooting htaken _ => ?_
  obtain rfl := List.length_eq_zero_iff.mp htaken
  have hm := hfooting.stands
  rw [List.append_nil] at hm
  exact (hm.literal_item hfooting.carries (fun _ _ _ => trivial) (occurs_singleton.mp hitem)
    rfl).mono fun v' hv' => ⟨value, rfl, hv'⟩

/-- Loading puts a value of the size of the variable on the stack. -/
theorem load (h : Poised c bottom calls cells top i s)
    (hfirm : Firm program bottom calls cells top) (hscene : (program.scene calls).Sound)
    {place : Place} (hplace : place.Within ((program.scene calls).region place.scope))
    (hitem : Occurs c.items i
      (Emit.code (Emit.loadVariable place.scope place.offset place.slot.size))) :
    program.Watches host c (Poised c bottom calls cells (top + place.slot.size.toNat) (i + 1)) k
      s := by
  refine leaves (n := 0) h hfirm hitem (Emit.length_loadVariable _ _ _)
    (Emit.unindexed_loadVariable _ _ _) fun hfooting htaken htop => ?_
  obtain rfl := List.length_eq_zero_iff.mp htaken
  have hm := hfooting.stands
  rw [List.append_nil] at hm
  obtain ⟨before, value, after, hstack, hwhere, hvalue, hlow, hhigh, _, hsmall⟩ :=
    hfirm.variable_split hscene hplace (Nat.le_of_eq htop.symm)
  refine (hm.load_item hfooting.carries (fun _ _ _ => trivial) hitem rfl hstack ⟨hlow, hhigh⟩ ?_
    hvalue.symm hsmall).mono fun v' hv' => ⟨value, by omega, hv'⟩
  have hbelow := hfooting.below
  rw [hfooting.base]
  omega

/-- **The address of an array is that of the bytes it means.** -/
theorem address (h : Poised c bottom calls cells top i s)
    (hfirm : Firm program bottom calls cells top) (hscene : (program.scene calls).Sound)
    {place : Place} (hplace : place.Within ((program.scene calls).region place.scope))
    (hitem : Occurs c.items i (Emit.code place.emitAddress)) :
    program.Watches host c (Poised c bottom calls
      (cells.with (program.Started bottom calls place top)) (top + 2) (i + 1)) k s := by
  have hplain : ∀ item ∈ Emit.code place.emitAddress, item.Unindexed := by
    unfold Place.emitAddress
    split_ifs
    · exact Emit.unindexed_loadVariable _ _ _
    · exact Emit.unindexed_op (by simp)
  refine leavesWith (n := 0) _ h hfirm hitem place.length_emitAddress hplain
    fun {site rest taken m} hfooting htaken htop => ?_
  obtain rfl := List.length_eq_zero_iff.mp htaken
  have hcells := hfooting.cells
  have hm := hfooting.stands
  have hbase := hfooting.base
  have hbelow := hfooting.below
  rw [List.append_nil] at hcells hm
  obtain ⟨before, value, after, hstack, hwhere, hvalue, hlow, hhigh, _, hsmall⟩ :=
    hfirm.variable_split hscene hplace (Nat.le_of_eq htop.symm)
  -- What is pushed is the start of whatever the array means.
  have hpushed : ∀ pushed : Bytes, (∀ start size, program.Refers bottom calls place start size →
      pushed = addressBytes start.toUInt16) → ∀ a bytes,
      program.Started bottom calls place top a bytes →
        Occurs (rest ++ pushed) (a - bottom) bytes := by
    rintro pushed hstart a bytes ⟨rfl, start, size, hrefers, rfl⟩
    have hend : a - bottom = rest.length := by omega
    rw [hend, ← hstart start size hrefers, ← List.append_nil (rest ++ pushed)]
    exact occurs_middle rest pushed []
  unfold Place.emitAddress at hitem
  by_cases hreference : place.slot.isReference = true
  · rw [if_pos hreference] at hitem
    have hsize := (hscene.sized place.scope place.slot hplace.mem).reference hreference
    refine (hm.load_item hfooting.carries (fun _ _ _ => trivial) hitem rfl hstack ⟨hlow, hhigh⟩
      (by rw [hbase]; omega) (hsize.symm.trans hvalue.symm) hsmall).mono fun v' hv' =>
        ⟨value, by omega, hpushed value fun start size hrefers => ?_, hv'⟩
    obtain ⟨hscope, hcell, _⟩ := hfirm.passed place start size hreference hplace hrefers
    have hheld := hcells _ _ hcell
    have hplaced : frameAt bottom calls + place.offset.toNat - bottom = before.length := by
      rw [hscope, scopeAt] at hwhere
      omega
    rw [hplaced, hstack] at hheld
    exact hheld.eq_middle (show (2 : Nat) = _ by omega)
  · rw [if_neg hreference] at hitem
    unfold Emit.address at hitem
    rw [Emit.code_op, occurs_singleton] at hitem
    obtain ⟨hcode, hnext⟩ := Stands.op_item hfooting.carries hitem
    refine (hm.address_of (fun _ => trivial) hcode).mono fun v' hv' =>
      ⟨addressBytes (site.base (frameAt bottom calls) place.scope +
        (Emit.lowByte place.offset).toNat).toUInt16, rfl,
        hpushed _ fun start size hrefers => ?_, ?_⟩
    · cases hrefers with
      | own _ =>
        rw [hbase, Emit.toNat_operand (Int.toNat_of_nonneg hlow).symm (by omega)]
      | given hkept => exact absurd hkept.1 hreference
    · simp only [hv', viewAt, hnext]
      rfl

/-- The frame pointer is saved. -/
theorem saveFrame (h : Poised c bottom calls cells top i s)
    (hfirm : Firm program bottom calls cells top)
    (hitem : Occurs c.items i (Emit.code Emit.pushFrame)) :
    program.Watches host c (Poised c bottom calls (cells.with (savedFrame bottom calls top))
      (top + 2) (i + 1)) k s := by
  refine leavesWith (n := 0) _ h hfirm hitem rfl (Emit.unindexed_op (by simp))
    fun {site rest taken m} hfooting htaken htop => ?_
  obtain rfl := List.length_eq_zero_iff.mp htaken
  have hm := hfooting.stands
  rw [List.append_nil] at hm
  rw [Emit.code_pushFrame, occurs_singleton] at hitem
  obtain ⟨hcode, hnext⟩ := Stands.op_item hfooting.carries hitem
  refine (hm.load_frame (fun _ _ _ => trivial) hcode).mono fun v' hv' =>
    ⟨addressBytes (frameAt bottom calls).toUInt16, rfl, ?_, ?_⟩
  · rintro a bytes ⟨rfl, rfl⟩
    have hend : a - bottom = rest.length := by omega
    rw [hend, ← List.append_nil (rest ++ _)]
    exact occurs_middle rest _ []
  · simp only [hv', viewAt, hnext]
    rfl

/-! ### Operators and memory -/

theorem unary {a : Nat} (h : Poised c bottom calls cells (top + a) i s)
    (hfirm : Firm program bottom calls cells top) {operator : UnaryOp}
    (hitem : Occurs c.items i (Emit.code (Emit.unary operator a))) (hsmall : a ≤ 255)
    (hshape : unaryShape operator a = .ok (.scalar r)) :
    program.Watches host c (Poised c bottom calls cells (top + r) (i + 1)) k s := by
  refine h.leaves hfirm hitem (Emit.length_unary _ _) (Emit.unindexed_unary _ _)
    fun {site rest taken m} hfooting htaken htop => ?_
  subst htaken
  exact (hfooting.stands.unary_item hfooting.carries hitem rfl rfl rfl hsmall
    ⟨_, hshape⟩).mono fun v' hv' => ⟨_, Int.ofNat_inj.mp (UnaryOp.length_apply hshape), hv'⟩

theorem binary {a b : Nat} (h : Poised c bottom calls cells (top + (a + b)) i s)
    (hfirm : Firm program bottom calls cells top) {operator : BinaryOp}
    (hitem : Occurs c.items i (Emit.code (Emit.binary operator a b))) (ha : a ≤ 255)
    (hb : b ≤ 255) (hshape : binaryShape operator a b = .ok (.scalar r)) :
    program.Watches host c (Poised c bottom calls cells (top + r) (i + 1)) k s := by
  refine h.leaves hfirm hitem (Emit.length_binary _ _ _) (Emit.unindexed_binary _ _ _)
    fun {site rest taken m} hfooting htaken htop => ?_
  obtain ⟨left, right, rfl, rfl, rfl⟩ := exists_parts htaken
  have hm := hfooting.stands
  rw [← List.append_assoc] at hm
  refine (hm.binary_item hfooting.carries hitem rfl rfl rfl rfl ha hb ⟨_, hshape⟩
    fun _ _ => trivial).mono ?_
  rintro v' ⟨value, hvalue, hv'⟩
  exact ⟨value, Int.ofNat_inj.mp (BinaryOp.length_apply hshape hvalue), hv'⟩

theorem loadMemory (h : Poised c bottom calls cells (top + 2) i s)
    (hfirm : Firm program bottom calls cells top) (hsmall : r ≤ 255)
    (hitem : Occurs c.items i (Emit.code (Emit.loadMemory r))) :
    program.Watches host c (Poised c bottom calls cells (top + r) (i + 1)) k s := by
  refine h.leaves hfirm hitem (Emit.length_op _ _) (Emit.unindexed_op (by simp))
    fun {site rest taken m} hfooting htaken htop => ?_
  unfold Emit.loadMemory at hitem
  rw [Emit.code_op, occurs_singleton] at hitem
  obtain ⟨hcode, hnext⟩ := Stands.op_item hfooting.carries hitem
  refine (hfooting.stands.load_memory (fun _ => trivial) hcode rfl htaken
    fun _ => trivial).mono ?_
  rintro v' ⟨value, hvalue, hv'⟩
  refine ⟨value, hvalue.trans (Emit.toNat_lowByte hsmall), ?_⟩
  simp only [hv', viewAt, hnext]
  rfl

theorem systemCall (h : Poised c bottom calls cells (top + 5) i s)
    (hfirm : Firm program bottom calls cells top)
    (hitem : Occurs c.items i (Emit.code (Emit.systemCall systemCallSize))) :
    program.Watches host c (Poised c bottom calls cells (top + 1) (i + 1)) k s := by
  unfold Emit.systemCall at hitem
  rw [Emit.code_op, occurs_singleton] at hitem
  have hG := h.accesses host program hitem ⟨by simp, by simp⟩
  obtain ⟨site, rest, taken, hfooting, htaken, htop⟩ := h.split hfirm
  obtain ⟨hcode, hnext⟩ := Stands.op_item hfooting.carries hitem
  obtain ⟨low, high, a, x, y, rfl⟩ : ∃ low high a x y : UInt8, taken = [low, high, a, x, y] := by
    rcases taken with _ | ⟨low, _ | ⟨high, _ | ⟨a, _ | ⟨x, _ | ⟨y, _ | ⟨_, _⟩⟩⟩⟩⟩⟩
    all_goals simp only [List.length_cons, List.length_nil] at htaken
    all_goals first | omega | exact ⟨low, high, a, x, y, rfl⟩
  refine @Watched.system_call _ _ _ _ _ _ _ _ _ hG hfooting.stands rest
    (addressOfBytes low high) a x y hcode ?_ ?_
  · rw [addressBytes_addressOfBytes]
    rfl
  · intro k' _ s' answer hs'
    refine .here ⟨site, rest ++ [answer], hfooting.replaced hfirm htop ?_, ?_⟩
    · simp only [viewAt, hnext] at hs' ⊢
      exact hs'
    · rw [List.length_append, List.length_singleton]
      omega

/-! ### Statements -/

theorem discard (h : Poised c bottom calls cells (top + n) i s)
    (hfirm : Firm program bottom calls cells top) (hsmall : n ≤ 255)
    (hitem : Occurs c.items i (Emit.code (Emit.discard n))) :
    program.Watches host c
      (Poised c bottom calls cells top (i + (Emit.code (Emit.discard n)).length)) k s := by
  unfold Emit.discard at hitem ⊢
  by_cases hpos : 0 < (n : Int)
  · rw [if_pos hpos] at hitem ⊢
    rw [Emit.code_op, occurs_singleton] at hitem
    rw [Emit.length_op]
    have hG := h.accesses host program hitem ⟨by simp, by simp⟩
    obtain ⟨site, rest, taken, hfooting, htaken, htop⟩ := h.split hfirm
    obtain ⟨hcode, hnext⟩ := Stands.op_item hfooting.carries hitem
    refine .moves hG hfooting.stands (fun m hm => hm.free_space hcode rfl
      ((Emit.toNat_lowByte hsmall).trans htaken.symm)) ?_
    rintro k' _ s' v' hv' hs'
    have hleft : Stands site s'.machine (viewAt c bottom calls (i + 1) (rest ++ [])) := by
      have hforgotten := hs'.forget
      simp only [hv', viewAt, hnext, List.append_nil] at hforgotten ⊢
      exact hforgotten
    refine .here ⟨site, rest ++ [], hfooting.replaced hfirm htop hleft, ?_⟩
    rw [List.append_nil]
    exact htop
  · rw [if_neg hpos]
    obtain rfl : n = 0 := by omega
    exact .here h

/-- A condition decides where to go on. -/
theorem branchIfFalse (h : Poised c bottom calls cells (top + 1) i s)
    (hfirm : Firm program bottom calls cells top) {target : Nat}
    (hitem : c.items[i]? = some (.branch true (some target))) {P : Session σ → Prop}
    (hrest : ∀ k' < k, ∀ i' s', i' = target ∨ i' = i + 1 →
      Poised c bottom calls cells top i' s' → program.Watches host c P k' s') :
    program.Watches host c P k s := by
  have hG := h.accesses host program hitem trivial
  obtain ⟨site, rest, taken, hfooting, htaken, htop⟩ := h.split hfirm
  obtain ⟨b, rfl⟩ := List.length_eq_one_iff.mp htaken
  refine .moves hG hfooting.stands (fun m hm => hm.branch_if_false_item hfooting.carries hitem rfl
    rfl) ?_
  rintro k' hk' s' _ rfl hs'
  have hpoised : ∀ i', Stands site s'.machine (viewAt c bottom calls i' (rest ++ [])) →
      Poised c bottom calls cells top i' s' := by
    intro i' hi'
    refine ⟨site, rest ++ [], hfooting.replaced hfirm htop hi', ?_⟩
    rw [List.append_nil]
    exact htop
  dsimp only at hs'
  rw [← List.append_nil rest] at hs'
  split_ifs at hs'
  · exact hrest k' hk' target s' (Or.inl rfl) (hpoised target hs')
  · exact hrest k' hk' (i + 1) s' (Or.inr rfl) (hpoised (i + 1) hs')

theorem branch (h : Poised c bottom calls cells top i s) {target : Nat}
    (hitem : c.items[i]? = some (.branch false (some target))) {P : Session σ → Prop}
    (hrest : ∀ k' < k, ∀ s', Poised c bottom calls cells top target s' →
      program.Watches host c P k' s') : program.Watches host c P k s := by
  have hG := h.accesses host program hitem trivial
  obtain ⟨site, stack, hfooting, htop⟩ := h
  refine .moves hG hfooting.stands (fun m hm => hm.branch_item hfooting.carries hitem rfl) ?_
  rintro k' hk' s' _ rfl hs'
  exact hrest k' hk' s' ⟨site, stack,
    ⟨hfooting.below, hfooting.carries, hfooting.origin, hfooting.cells, hs'⟩, htop⟩

/-- **A variable is assigned the value on top**, which changes no cell. -/
theorem assigns {place : Place} (h : Poised c bottom calls cells (top + place.slot.size.toNat) i s)
    (hfirm : Firm program bottom calls cells top) (hscene : (program.scene calls).Sound)
    (hplace : place.Within ((program.scene calls).region place.scope))
    (hassigned : place ∈ assignedBlock (program.running calls))
    (hitem : Occurs c.items i
      (Emit.code (Emit.storeVariable place.scope place.offset place.slot.size))) :
    program.Watches host c (Poised c bottom calls cells top (i + 1)) k s := by
  obtain ⟨item, hone⟩ := List.length_eq_one_iff.mp
    (Emit.length_storeVariable place.scope place.offset place.slot.size)
  have hplain := Emit.unindexed_storeVariable place.scope place.offset place.slot.size
  rw [hone, List.forall_mem_singleton] at hplain
  have hG := h.accesses host program (occurs_singleton.mp (hone ▸ hitem))
    hplain
  obtain ⟨site, rest, new, hfooting, hnew, htop⟩ := h.split hfirm
  obtain ⟨before, old, after, hstack, hwhere, hold, hlow, hhigh, _, hsmall⟩ :=
    hfirm.variable_split hscene hplace (Nat.le_of_eq htop.symm)
  have hbelow := hfooting.below
  have hbase := hfooting.base place.scope
  have hlength : old.length = new.length := by omega
  have hm := hfooting.stands
  rw [hstack] at hm
  have hoffset := Emit.toNat_operand (Int.toNat_of_nonneg hlow).symm (by omega)
  have hsize := Emit.toNat_operand hold.symm hsmall
  refine .moves hG hm (R := fun v' => v' =
    viewAt c bottom calls (i + 1) (before ++ new ++ after)) (fun m hm => ?_) ?_
  · rw [Emit.storeVariable] at hitem
    split_ifs at hitem with hsingle
    · rw [Emit.code_op, occurs_singleton] at hitem
      obtain ⟨hcode, hnext⟩ := Stands.op_item hfooting.carries hitem
      refine (hm.assign_one hcode rfl hlength ?_ (by omega)).mono fun v' hv' => ?_
      · rw [hbase, hoffset]
        omega
      · simp only [hv', viewAt, hnext]
        rfl
    · rw [Emit.code_op, occurs_singleton] at hitem
      obtain ⟨hcode, hnext⟩ := Stands.op_item hfooting.carries hitem
      refine (hm.assign_variable hcode rfl hlength ?_ (by omega)).mono fun v' hv' => ?_
      · rw [hbase, hoffset]
        omega
      · simp only [hv', viewAt, hnext]
        rfl
  · rintro k' _ s' _ rfl hs'
    refine .here ⟨site, before ++ new ++ after, ⟨hbelow, hfooting.carries, hfooting.origin, ?_, hs'⟩,
      ?_⟩
    · -- A cell lies before the variable or behind it.
      intro a bytes hcell j b hj
      obtain ⟨hlt, _⟩ := List.getElem?_eq_some_iff.mp hj
      have hstart := hfirm.low a bytes hcell
      have hend := hfirm.high a bytes hcell
      have hapart := hfirm.apart a bytes hcell (a + j) (by omega) (by omega)
      have hout : ¬ (before.length ≤ a - bottom + j ∧
          a - bottom + j < before.length + old.length) := by
        rintro ⟨hge, hle⟩
        exact hapart (.own hplace (fun hkept => hkept.2 hassigned) (by omega) (by omega))
      have hbyte := hfooting.cells a bytes hcell j b hj
      rw [hstack] at hbyte htop
      rwa [getElem?_replaced hlength hout (by omega)]
    · rw [hstack] at htop
      simp only [List.length_append] at htop ⊢
      omega

end Poised

end Terrace
