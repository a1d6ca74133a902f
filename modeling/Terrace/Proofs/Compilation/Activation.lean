/-
# A machine inside a function

What the machine looks like between two items of a function: the value stack holds the
globals, what the callers have put there, the frame of the function and the values of the
expressions under way. `At … i store temps s` says that a session stands so before item `i`.
Each item that an expression ends with takes the values on top and leaves another one.

Key definitions: `Mishap`, `Tolerated`, `Activation`, `At`, `Leaves`.
Key theorems: `At.leaves`, `At.literal`, `At.loadVariable`, `At.address`, `At.unary`,
`At.binary`, `At.loadIndexed`, `At.systemCall`, `At.storeVariable`, `At.branchIfFalse`.
-/
import Terrace.Proofs.Machine.Operators
import Terrace.Proofs.Machine.Session
import Terrace.Source.Generation

namespace Terrace

open Machine

/-- The stops a program may bring about by the values it works on: a division by zero, a read
outside memory by an item that loads from a computed address, a call the host refuses. -/
inductive Mishap (c : Assembly) : Stop → Prop
  | division (here : Int) : Mishap c (.fault (.divisionByZero here))
  | reading {i : Nat} {op : Opcode} {operands : Bytes} (hop : op = .loadIndexed ∨ op = .loadMemory)
    (hitem : c.items[i]? = some (.op op operands)) (address : Int) (size : Nat) :
    Mishap c (.fault (.invalidAccess (c.address i) address size))
  | refusal (here : Int) (address : UInt16) (reason : Bytes) :
    Mishap c (.fault (.systemCall here address reason))

/-- The stops a run may end in: its room is used up, or, if `lenient`, there was a mishap. -/
def Tolerated (c : Assembly) (lenient : Prop) (stop : Stop) : Prop :=
  Stop.Exhausted stop ∨ lenient ∧ Mishap c stop

/-- What stays as it is while the code of a function is executed. -/
structure Activation where
  /-- What lies between the globals and the frame. -/
  below : Bytes
  fp : Nat
  returns : List Nat
  /-- The size of the globals. -/
  globals : Nat
  /-- The size of the frame. -/
  frame : Nat

namespace Activation

variable {σ : Type} (act : Activation)

/-- What lies below the values of the expressions under way. -/
def base (store : Store σ) : Bytes := store.globals ++ act.below ++ store.frame

/-- What the machine looks like before item `i`. -/
def view (c : Assembly) (i : Nat) (store : Store σ) (temps : Bytes) : View where
  pc := c.address i
  stack := act.base store ++ temps
  fp := act.fp
  returns := act.returns

/-- The frame pointer points at the frame, if there is one. -/
def Placed (site : Site) : Prop :=
  act.frame = 0 ∨ act.fp = site.low.length + act.globals + act.below.length

end Activation

/-- The session stands before item `i`, with this store and these values under way. -/
structure At {σ : Type} (c : Assembly) (site : Site) (act : Activation) (i : Nat)
    (store : Store σ) (temps : Bytes) (s : Session σ) : Prop where
  stands : Stands site s.machine (act.view c i store temps)
  host : s.host = store.host
  calls : s.calls = store.calls
  globals : store.globals.length = act.globals
  frame : store.frame.length = act.frame

/-- The session stands before item `i` with a store and a value on top as in `Q`. -/
def Leaves {σ : Type} (c : Assembly) (site : Site) (act : Activation) (i : Nat) (temps : Bytes)
    (Q : Post σ) (s : Session σ) : Prop :=
  ∃ store value, Q store value ∧ At c site act i store (temps ++ value) s

/-- The turns of a session lead to one of the sessions `P`, in a setting. -/
abbrev Setting.Arrives {σ : Type} (w : Setting σ) (c : Assembly) (P : Session σ → Prop) (k : Nat)
    (s : Session σ) : Prop :=
  Terrace.Arrives w.host w.lenient (Tolerated c w.lenient) P k s

namespace At

variable {σ : Type} {c : Assembly} {site : Site} {act : Activation} {w : Setting σ} {i k : Nat}
  {store : Store σ} {temps rest : Bytes} {s : Session σ} {Q : Post σ}

theorem exhausted {stop : Stop} (h : Stop.Exhausted stop) : Tolerated c w.lenient stop :=
  Or.inl h

/-- **An item that takes values off the stack and pushes another one.** -/
theorem leaves (h : At c site act i store temps s) {R : Bytes → Prop}
    (hmoves : ∀ m, Stands site m (act.view c i store temps) →
      Moves site m (Tolerated c w.lenient) fun v' => ∃ value, R value ∧
        v' = { act.view c i store temps with
          pc := c.address (i + 1), stack := act.base store ++ rest ++ value, above := [] })
    (hQ : ∀ value, R value → Q store value) :
    w.Arrives c (Leaves c site act (i + 1) rest Q) k s := by
  refine .moves h.stands hmoves ?_
  rintro s' v' ⟨value, hR, hv'⟩ hs' hhost hcalls
  refine .here ⟨store, value, hQ value hR, ?_, hhost.trans h.host, hcalls.trans h.calls, h.globals,
    h.frame⟩
  have hview : v' = act.view c (i + 1) store (rest ++ value) := by
    rw [hv', Activation.view, Activation.view, List.append_assoc]
  rwa [hview] at hs'

/-- An item whose value is known. -/
theorem leave (h : At c site act i store temps s) {value : Bytes}
    (hmoves : ∀ m, Stands site m (act.view c i store temps) →
      Moves site m (Tolerated c w.lenient) fun v' => v' = { act.view c i store temps with
        pc := c.address (i + 1), stack := act.base store ++ rest ++ value, above := [] })
    (hQ : Q store value) : w.Arrives c (Leaves c site act (i + 1) rest Q) k s := by
  refine @leaves _ _ _ _ _ _ _ _ _ _ _ Q h (fun v => v = value) (fun m hm => ?_) ?_
  · exact (hmoves m hm).mono fun v' hv' => ⟨value, rfl, hv'⟩
  · rintro _ rfl
    exact hQ

/-- An opcode that takes values off the stack and pushes another one. -/
theorem pushes (hsite : site.Carries c) (h : At c site act i store temps s) {op : Opcode}
    {operands : Bytes} (hitem : c.items[i]? = some (.op op operands)) {R : Bytes → Prop}
    (hmoves : ∀ m v, v = act.view c i store temps → Stands site m v →
      Occurs site.low v.pc (op.byte :: operands) →
      Moves site m (Tolerated c w.lenient) fun v' => ∃ value, R value ∧ v' = { v with
        pc := v.pc + (1 + operands.length), stack := act.base store ++ rest ++ value
        above := [] })
    (hQ : ∀ value, R value → Q store value) :
    w.Arrives c (Leaves c site act (i + 1) rest Q) k s := by
  obtain ⟨hcode, hnext⟩ := Stands.op_item hsite hitem
  refine h.leaves (fun m hm => ?_) hQ
  rw [hnext]
  exact hmoves m _ rfl hm hcode

theorem literal (hsite : site.Carries c) (h : At c site act i store temps s) {value : Bytes}
    (hitem : Occurs c.items i (Emit.code (Emit.literal value))) (hQ : Q store value) :
    w.Arrives c (Leaves c site act (i + 1) temps Q) k s := by
  rw [Emit.code_literal, occurs_singleton] at hitem
  exact h.leave (fun m hm => hm.literal_item hsite (fun _ => exhausted) hitem rfl) hQ

/-! ### Variables -/

/-- Where the bytes of a scope lie on the stack. -/
theorem region_split (h : At c site act i store temps s) (hact : act.Placed site) {place : Place}
    {before value after : Bytes}
    (hplace : place.Lies (store.region place.scope) before value after) :
    ∃ x y : Bytes, act.base store = x ++ value ++ y ∧
      site.base act.fp place.scope + before.length = site.low.length + x.length ∧
      ∀ new : Bytes,
        act.base (store.setRegion (before ++ new ++ after) place.scope) = x ++ new ++ y := by
  have hsplit := hplace.split
  have hpos := hplace.pos
  have hglobals := h.globals
  have hframe := h.frame
  cases hscope : place.scope with
  | globals =>
    rw [hscope] at hsplit
    change store.globals = _ at hsplit
    refine ⟨before, after ++ act.below ++ store.frame, ?_, rfl, fun new => ?_⟩
    · simp only [Activation.base, hsplit, List.append_assoc]
    · simp only [Activation.base, Store.setRegion, List.append_assoc]
  | frame =>
    rw [hscope] at hsplit
    change store.frame = _ at hsplit
    refine ⟨store.globals ++ act.below ++ before, after, ?_, ?_, fun new => ?_⟩
    · simp only [Activation.base, hsplit, List.append_assoc]
    · -- A frame with a variable in it is not empty.
      have hlength := congrArg List.length hsplit
      simp only [List.length_append] at hlength ⊢
      rcases hact with hempty | hfp
      · omega
      · simp only [Site.base]
        omega
    · simp only [Activation.base, Store.setRegion, List.append_assoc]

theorem loadVariable (hsite : site.Carries c) (h : At c site act i store temps s)
    (hact : act.Placed site) {place : Place} {size : Int}
    (hitem : Occurs c.items i (Emit.code (Emit.loadVariable place.scope place.offset size)))
    {before value after : Bytes}
    (hplace : place.Lies (store.region place.scope) before value after)
    (hsize : place.slot.size = size) (hQ : Q store value) :
    w.Arrives c (Leaves c site act (i + 1) temps Q) k s := by
  obtain ⟨x, y, hbase, hwhere, _⟩ := h.region_split hact hplace
  have hsmall := hplace.small
  have hoffset := hplace.offset
  have hstack : act.base store ++ temps = x ++ value ++ (y ++ temps) := by
    rw [hbase, List.append_assoc (x ++ value)]
  refine h.leave (fun m hm => hm.load_item hsite (fun _ => exhausted) hitem rfl hstack (by omega)
    ?_ (hsize.symm.trans hplace.size) (by omega)) hQ
  simp only [Activation.view]
  omega

theorem address (hsite : site.Carries c) (h : At c site act i store temps s)
    (hact : act.Placed site) {place : Place}
    (hitem : Occurs c.items i (Emit.code place.emitAddress))
    (hQ : place.ensuresAddress store (Q store)) :
    w.Arrives c (Leaves c site act (i + 1) temps Q) k s := by
  unfold Place.emitAddress at hitem
  unfold Place.ensuresAddress at hQ
  by_cases hreference : place.slot.isReference = true
  · rw [if_pos hreference] at hitem hQ
    obtain ⟨hsize, before, value, after, hplace, hQ⟩ := hQ
    exact h.loadVariable hsite hact hitem hplace hsize hQ
  · rw [if_neg hreference] at hitem hQ
    unfold Emit.address at hitem
    rw [Emit.code_op, occurs_singleton] at hitem
    obtain ⟨hcode, hnext⟩ := Stands.op_item hsite hitem
    refine h.leave (fun m hm => ?_)
      (hQ (site.base act.fp place.scope + (Emit.lowByte place.offset).toNat).toUInt16)
    rw [hnext]
    exact hm.address_of exhausted hcode

/-- **A variable is assigned the value on top.** -/
theorem storeVariable (hsite : site.Carries c) {new : Bytes}
    (h : At c site act i store (temps ++ new) s) (hact : act.Placed site) {place : Place}
    (hitem : Occurs c.items i
      (Emit.code (Emit.storeVariable place.scope place.offset place.slot.size)))
    {before old after : Bytes}
    (hplace : place.Lies (store.region place.scope) before old after)
    (hlength : old.length = new.length) {P : Session σ → Prop}
    (hP : ∀ s', At c site act (i + 1)
      (store.setRegion (before ++ new ++ after) place.scope) temps s' → P s') :
    w.Arrives c P k s := by
  obtain ⟨x, y, hbase, hwhere, hnew⟩ := h.region_split hact hplace
  have hsmall := hplace.small
  have hsize := hplace.size
  have hoffset := Emit.toNat_operand hplace.offset (by omega)
  have hbytes := Emit.toNat_operand hplace.size (by omega)
  have hstack : act.base store ++ (temps ++ new) = x ++ old ++ (y ++ temps) ++ new := by
    rw [hbase]
    simp only [List.append_assoc]
  -- The new value has the length of the old one, so the regions keep their sizes.
  have hafter : ∀ s' v', v' = { act.view c i store (temps ++ new) with
        pc := c.address (i + 1), stack := x ++ new ++ (y ++ temps), above := [] } →
      Stands site s'.machine v' → s'.host = s.host → s'.calls = s.calls → P s' := by
    intro s' v' hv' hs' hhost hcalls
    have hview : v' = act.view c (i + 1)
        (store.setRegion (before ++ new ++ after) place.scope) temps := by
      rw [hv', Activation.view, Activation.view, hnew, List.append_assoc (x ++ new)]
    rw [hview] at hs'
    have hsplit := congrArg List.length hplace.split
    have hglobals := h.globals
    have hframe := h.frame
    refine hP s' ⟨hs', ?_, ?_, ?_, ?_⟩
    · rw [hhost, h.host]
      cases place.scope <;> rfl
    · rw [hcalls, h.calls]
      cases place.scope <;> rfl
    · cases hscope : place.scope with
      | frame => exact hglobals
      | globals =>
        rw [hscope] at hsplit
        simp only [Store.region, Store.setRegion, List.length_append] at hsplit ⊢
        omega
    · cases hscope : place.scope with
      | globals => exact hframe
      | frame =>
        rw [hscope] at hsplit
        simp only [Store.region, Store.setRegion, List.length_append] at hsplit ⊢
        omega
  rw [Emit.storeVariable] at hitem
  by_cases hone : place.slot.size = 1
  · rw [if_pos hone, Emit.code_op, occurs_singleton] at hitem
    obtain ⟨hcode, hnext⟩ := Stands.op_item hsite hitem
    refine .moves h.stands (fun m hm => hm.assign_one hcode hstack hlength
      (by rw [hoffset]; exact hwhere) (by omega)) ?_
    intro s' v' hv' hs' hhost hcalls
    exact .here (hafter s' v' (by rw [hv', hnext]; rfl) hs' hhost hcalls)
  · rw [if_neg hone, Emit.code_op, occurs_singleton] at hitem
    obtain ⟨hcode, hnext⟩ := Stands.op_item hsite hitem
    refine .moves h.stands (fun m hm => hm.assign_variable hcode hstack hlength
      (by rw [hoffset]; exact hwhere) (by rw [hbytes, hlength])) ?_
    intro s' v' hv' hs' hhost hcalls
    exact .here (hafter s' v' (by rw [hv', hnext]; rfl) hs' hhost hcalls)

/-! ### Operators -/

theorem unary (hsite : site.Carries c) {a : Bytes} (h : At c site act i store (temps ++ a) s)
    {operator : UnaryOp} {size : Int}
    (hitem : Occurs c.items i (Emit.code (Emit.unary operator size))) (ha : a.length = size)
    (hsmall : a.length ≤ 255) (hshape : ∃ shape, unaryShape operator size = .ok shape)
    (hQ : Q store (operator.apply a)) :
    w.Arrives c (Leaves c site act (i + 1) temps Q) k s := by
  have hstack : act.base store ++ (temps ++ a) = act.base store ++ temps ++ a :=
    (List.append_assoc _ _ _).symm
  exact h.leave (fun m hm => hm.unary_item hsite hitem rfl hstack ha hsmall hshape) hQ

/-- **An operator takes two values and leaves its result**, unless the divisor is zero. -/
theorem binary (hsite : site.Carries c) {a b : Bytes}
    (h : At c site act i store (temps ++ a ++ b) s) {operator : BinaryOp} {left right : Int}
    (hitem : Occurs c.items i (Emit.code (Emit.binary operator left right)))
    (ha : a.length = left) (hb : b.length = right) (hasmall : a.length ≤ 255)
    (hbsmall : b.length ≤ 255) (hshape : ∃ shape, binaryShape operator left right = .ok shape)
    (hQ : match operator.apply a b with
      | some value => Q store value
      | none => w.lenient) :
    w.Arrives c (Leaves c site act (i + 1) temps Q) k s := by
  have hstack : act.base store ++ (temps ++ a ++ b) = act.base store ++ temps ++ a ++ b := by
    simp only [List.append_assoc]
  refine h.leaves (fun m hm => hm.binary_item hsite hitem rfl hstack ha hb hasmall hbsmall hshape
    fun hnone here => ?_) fun value hvalue => ?_
  · rw [hnone] at hQ
    exact Or.inr ⟨hQ, .division here⟩
  · rwa [hvalue] at hQ

/-! ### Computed addresses and system calls -/

theorem loadIndexed (hsite : site.Carries c) {start index : Bytes}
    (h : At c site act i store (temps ++ start ++ index) s) {element indexSize : Int}
    (hitem : Occurs c.items i (Emit.code (Emit.loadIndexed element indexSize)))
    (hstart : start.length = 2) (hindex : index.length = indexSize) (hshort : index.length ≤ 2)
    (hQ : w.ensuresRead element store Q) :
    w.Arrives c (Leaves c site act (i + 1) temps Q) k s := by
  obtain ⟨hlenient, n, helement, hsmall, hQ⟩ := hQ
  unfold Emit.loadIndexed at hitem
  rw [Emit.code_op, occurs_singleton] at hitem
  have hbyte := Emit.toNat_operand helement hsmall
  have hindexByte := Emit.toNat_operand hindex.symm (by omega)
  have hstack : act.base store ++ (temps ++ start ++ index) =
      act.base store ++ temps ++ start ++ index := by
    simp only [List.append_assoc]
  have hfound : ∀ value : Bytes, value.length = (Emit.lowByte element).toNat → Q store value :=
    fun value hvalue => hQ value (hvalue.trans hbyte)
  refine h.pushes hsite hitem ?_ hfound
  rintro m _ rfl hm hcode
  exact hm.load_indexed exhausted hcode hstack hstart hindexByte hshort fun address =>
    Or.inr ⟨hlenient, .reading (Or.inl rfl) hitem _ _⟩

theorem loadMemory (hsite : site.Carries c) {start : Bytes}
    (h : At c site act i store (temps ++ start) s) {size : Int}
    (hitem : Occurs c.items i (Emit.code (Emit.loadMemory size))) (hstart : start.length = 2)
    (hQ : w.ensuresRead size store Q) :
    w.Arrives c (Leaves c site act (i + 1) temps Q) k s := by
  obtain ⟨hlenient, n, hsize, hsmall, hQ⟩ := hQ
  unfold Emit.loadMemory at hitem
  rw [Emit.code_op, occurs_singleton] at hitem
  have hbyte := Emit.toNat_operand hsize hsmall
  have hstack : act.base store ++ (temps ++ start) = act.base store ++ temps ++ start :=
    (List.append_assoc _ _ _).symm
  have hfound : ∀ value : Bytes, value.length = (Emit.lowByte size).toNat → Q store value :=
    fun value hvalue => hQ value (hvalue.trans hbyte)
  refine h.pushes hsite hitem ?_ hfound
  rintro m _ rfl hm hcode
  exact hm.load_memory exhausted hcode hstack hstart fun address =>
    Or.inr ⟨hlenient, .reading (Or.inr rfl) hitem _ _⟩

/-- **A system call is served by the host.** -/
theorem systemCall (hsite : site.Carries c) {target : UInt16} {a x y : UInt8}
    (h : At c site act i store (temps ++ addressBytes target ++ [a] ++ [x] ++ [y]) s)
    (hitem : Occurs c.items i (Emit.code (Emit.systemCall systemCallSize)))
    (hQ : store.ensuresReply w ⟨target, a, x, y⟩ Q) :
    w.Arrives c (Leaves c site act (i + 1) temps Q) k s := by
  unfold Emit.systemCall at hitem
  rw [Emit.code_op, occurs_singleton] at hitem
  obtain ⟨hcode, hnext⟩ := Stands.op_item hsite hitem
  have hstack : act.base store ++ (temps ++ addressBytes target ++ [a] ++ [x] ++ [y]) =
      act.base store ++ temps ++ (addressBytes target ++ [a, x, y]) := by
    simp only [List.append_assoc, List.cons_append, List.nil_append]
  have hhost := h.host
  rw [Store.ensuresReply] at hQ
  refine .system_call h.stands exhausted hcode hstack ?_ ?_
  · intro here reason hfailure
    rw [hhost] at hfailure
    generalize w.host.serve ⟨target, a, x, y⟩ store.host = reply at hQ hfailure
    obtain ⟨⟨answer, failure⟩, state⟩ := reply
    obtain rfl : failure = some reason := hfailure
    exact Or.inr ⟨hQ, .refusal here target reason⟩
  · intro s' hfailure hs' hhost' hcalls'
    rw [hhost] at hfailure hs' hhost' hcalls'
    generalize w.host.serve ⟨target, a, x, y⟩ store.host = reply at *
    obtain ⟨⟨answer, failure⟩, state⟩ := reply
    obtain rfl : failure = none := hfailure
    refine .here ⟨_, [answer], hQ, ?_, hhost', ?_, h.globals, h.frame⟩
    · have hview : { act.view c i store
            (temps ++ addressBytes target ++ [a] ++ [x] ++ [y]) with
          pc := c.address i + 2, stack := act.base store ++ temps ++ [answer]
          above := [] } = act.view c (i + 1) store (temps ++ [answer]) := by
        rw [Activation.view, Activation.view, hnext, ← List.append_assoc _ temps [answer]]
        rfl
      exact hview ▸ hs'
    · rw [hcalls', h.calls]

/-! ### Values dropped, conditions and branches -/

theorem discard (hsite : site.Carries c) {dropped : Bytes}
    (h : At c site act i store (temps ++ dropped) s) {size : Int}
    (hitem : Occurs c.items i (Emit.code (Emit.discard size))) (hsize : dropped.length = size)
    (hsmall : dropped.length ≤ 255) {P : Session σ → Prop}
    (hP : ∀ s', At c site act (i + (Emit.code (Emit.discard size)).length) store temps s' → P s') :
    w.Arrives c P k s := by
  unfold Emit.discard at hitem hP
  by_cases hpos : 0 < size
  · rw [if_pos hpos, Emit.code_op] at hitem hP
    rw [occurs_singleton] at hitem
    obtain ⟨hcode, hnext⟩ := Stands.op_item hsite hitem
    have hstack : act.base store ++ (temps ++ dropped) = act.base store ++ temps ++ dropped :=
      (List.append_assoc _ _ _).symm
    refine .moves h.stands (fun m hm => hm.free_space hcode hstack
      (Emit.toNat_operand hsize.symm hsmall)) ?_
    intro s' v' hv' hs' hhost hcalls
    refine .here (hP s' ⟨?_, hhost.trans h.host, hcalls.trans h.calls, h.globals, h.frame⟩)
    have hview : { v' with above := [] } = act.view c (i + 1) store temps := by
      rw [hv', Activation.view, Activation.view, hnext]
      rfl
    exact hview ▸ hs'.forget
  · have hnil : dropped = [] := List.length_eq_zero_iff.mp (by omega)
    rw [if_neg hpos] at hP
    refine .here (hP s ?_)
    rw [hnil, List.append_nil] at h
    exact h

/-- **A condition decides where to go on.** -/
theorem branchIfFalse (hsite : site.Carries c) {b : UInt8}
    (h : At c site act i store (temps ++ [b]) s) {target : Nat}
    (hitem : c.items[i]? = some (.branch true (some target))) {P : Session σ → Prop}
    (hno : b = 0 → ∀ s', At c site act target store temps s' → w.Arrives c P (k - 1) s')
    (hyes : b ≠ 0 → ∀ s', At c site act (i + 1) store temps s' → w.Arrives c P (k - 1) s') :
    w.Arrives c P k s := by
  have hstack : act.base store ++ (temps ++ [b]) = act.base store ++ temps ++ [b] :=
    (List.append_assoc _ _ _).symm
  refine .moves h.stands (fun m hm => hm.branch_if_false_item hsite hitem rfl hstack) ?_
  intro s' v' hv' hs' hhost hcalls
  by_cases hb : b = 0
  · rw [if_pos hb] at hv'
    rw [hv'] at hs'
    exact hno hb s' ⟨hs', hhost.trans h.host, hcalls.trans h.calls, h.globals, h.frame⟩
  · rw [if_neg hb] at hv'
    rw [hv'] at hs'
    exact hyes hb s' ⟨hs', hhost.trans h.host, hcalls.trans h.calls, h.globals, h.frame⟩

theorem branch (hsite : site.Carries c) (h : At c site act i store temps s) {target : Nat}
    (hitem : c.items[i]? = some (.branch false (some target))) {P : Session σ → Prop}
    (hP : ∀ s', At c site act target store temps s' → w.Arrives c P (k - 1) s') :
    w.Arrives c P k s := by
  refine .moves h.stands (fun m hm => hm.branch_item hsite hitem rfl) ?_
  intro s' v' hv' hs' hhost hcalls
  rw [hv'] at hs'
  exact hP s' ⟨hs', hhost.trans h.host, hcalls.trans h.calls, h.globals, h.frame⟩

end At

end Terrace
