/-
# What each instruction does

The effect of the instructions on a machine as the program sees it. Every theorem asks
for the bytes of the instruction at the program counter and for the operands on the
stack, and tells the view the machine is left in. Instructions that write to addresses
taken from the stack are left out: they may change the code itself.

Key definitions: `Moves`, `Path`.
Key theorems: `Stands.moves`, `Stands.literal`, `Stands.arithmetic`, `Stands.load`,
`Stands.assign_variable`, `Stands.function_call`, `Stands.function_return`,
`Stands.copy_value`.
-/
import Terrace.Code.Assembly
import Terrace.Proofs.Machine.Number
import Terrace.Proofs.Machine.Standing

namespace Terrace

open Machine

/-- The address from which variables of a scope are counted. -/
def Site.base (site : Site) (fp : Nat) : Scope → Nat
  | .frame => fp
  | .globals => site.low.length

/-- One instruction leaves the machine at one of the views `P`, or stops it as in `E`. -/
def Moves (site : Site) (m : Machine) (E : Stop → Prop) (P : View → Prop) : Prop :=
  Yields step m E fun signal m' => signal = .next ∧ ∃ v, P v ∧ Stands site m' v

theorem Moves.mono {site : Site} {m : Machine} {E : Stop → Prop} {P Q : View → Prop}
    (h : Moves site m E P) (hPQ : ∀ v, P v → Q v) : Moves site m E Q :=
  Yields.mono h fun _ _ ⟨hsignal, v, hv, hs⟩ => ⟨hsignal, v, hPQ v hv, hs⟩

/-- From a view on, some instructions, none of them a system call, lead to one of the views `P`,
unless one of them stops the machine as in `E`. -/
inductive Path (site : Site) (E : Stop → Prop) (P : View → Prop) : View → Prop
  | done {v : View} (hv : P v) : Path site E P v
  | step {v : View} {Q : View → Prop} (h : ∀ m, Stands site m v → Moves site m E Q)
    (hrest : ∀ v', Q v' → Path site E P v') : Path site E P v

namespace Path

variable {site : Site} {v : View} {E : Stop → Prop} {P : View → Prop}

theorem of_moves (h : ∀ m, Stands site m v → Moves site m E P) : Path site E P v :=
  .step h fun _ hv => .done hv

theorem trans {Q : View → Prop} (h : Path site E P v) (hrest : ∀ v', P v' → Path site E Q v') :
    Path site E Q v := by
  induction h with
  | done hv => exact hrest _ hv
  | step h _ ih => exact .step h ih

/-- More stops may be tolerated. -/
theorem tolerate {E' : Stop → Prop} (h : Path site E P v) (hE : ∀ stop, E stop → E' stop) :
    Path site E' P v := by
  induction h with
  | done hv => exact .done hv
  | step h _ ih =>
    refine .step (fun m hm => ⟨?_⟩) ih
    have hout := (h m hm).outcome
    cases hrun : Machine.step.run m with
    | ok signal m' =>
      rw [hrun] at hout
      exact hout
    | error stop m' =>
      rw [hrun] at hout
      exact hE stop hout

end Path

namespace Stands

variable {site : Site} {m : Machine} {v : View} {E : Stop → Prop} {here : Int}

theorem step {op : Opcode} (h : Stands site m v) (hop : site.low[v.pc]? = some op.byte)
    {Q : Signal → Machine → Prop}
    (hx : ∀ m', Stands site m' { v with pc := v.pc + 1 } → Yields (execute v.pc op) m' E Q) :
    Yields Machine.step m E Q := by
  unfold Machine.step
  rw [yields_bind, yields_get]
  refine (h.fetch hop).bind ?_
  rintro b m' ⟨rfl, h'⟩
  rw [Opcode.ofByte?_byte, h.pc]
  exact hx m' h'

theorem execute_eq {op : Opcode} (hhalt : op ≠ .halt) (hcall : op ≠ .systemCall) :
    execute here op = (do perform here op; return .next) := by
  cases op <;> first | rfl | contradiction

/-- An instruction that leads to the next one does what `perform` does. -/
theorem moves {op : Opcode} {operands : Bytes} {P : View → Prop} (h : Stands site m v)
    (hcode : Occurs site.low v.pc (op.byte :: operands)) (hhalt : op ≠ .halt) (hcall : op ≠ .systemCall)
    (hx : ∀ m', Stands site m' { v with pc := v.pc + 1 } → Occurs site.low (v.pc + 1) operands →
      Yields (perform v.pc op) m' E fun _ m'' => ∃ v', P v' ∧ Stands site m'' v') :
    Moves site m E P := by
  obtain ⟨hop, hrest⟩ := occurs_cons.mp hcode
  refine h.step hop ?_
  intro m' h'
  rw [execute_eq hhalt hcall]
  refine (hx m' h' hrest).bind ?_
  intro _ m'' hP
  rw [yields_pure]
  exact ⟨rfl, hP⟩

/-! ### Literals -/

theorem load_number (h : Stands site m v) {bytes : Bytes}
    (hE : site.room < v.stack.length + bytes.length → ∀ {stop}, Stop.Exhausted stop → E stop)
    (hlength : bytes.length ≤ 255)
    (hcode : Occurs site.low v.pc (Opcode.loadNumber.byte :: bytes.length.toUInt8 :: bytes)) :
    Moves site m E fun v' => v' = { v with
      pc := v.pc + (2 + bytes.length), stack := v.stack ++ bytes, above := [] } := by
  have hin : v.pc + 2 + bytes.length ≤ memorySize := by
    have hend := hcode.le_length (by simp)
    have hsize := site.fits
    simp only [List.length_cons] at hend
    omega
  refine h.moves hcode (by decide) (by decide) ?_
  intro m₁ h₁ hrest
  obtain ⟨hsize, hbytes⟩ := occurs_cons.mp hrest
  unfold perform
  refine (h₁.fetchNat hsize).bind ?_
  rintro n m₂ ⟨rfl, h₂⟩
  rw [yields_bind, yields_get]
  have hcount : bytes.length.toUInt8.toNat = bytes.length := by
    rw [Number.toNat_toUInt8]
    omega
  refine (h₂.read_code hbytes hin hcount).bind ?_
  rintro taken m₃ ⟨htaken, h₃⟩
  rw [htaken]
  refine (h₃.push hE).bind ?_
  intro _ m₄ h₄
  rw [yields_modify]
  refine ⟨_, rfl, ?_⟩
  have hpc : m₄.pc + (bytes.length.toUInt8.toNat : Int) = ((v.pc + (2 + bytes.length) : Nat) : Int) := by
    rw [h₄.pc, hcount]
    simp only
    omega
  rw [hpc]
  exact h₄.at_pc _

theorem load_byte (h : Stands site m v)
    (hE : site.room < v.stack.length + 1 → ∀ {stop}, Stop.Exhausted stop → E stop) {b : UInt8}
    (hcode : Occurs site.low v.pc [Opcode.loadByte.byte, b]) :
    Moves site m E fun v' => v' = { v with
      pc := v.pc + 2, stack := v.stack ++ [b], above := [] } := by
  refine h.moves hcode (by decide) (by decide) ?_
  intro m₁ h₁ hrest
  unfold perform
  refine (h₁.fetch (occurs_cons.mp hrest).1).bind ?_
  rintro a m₂ ⟨rfl, h₂⟩
  refine (@push _ _ _ _ _ h₂ [a] hE).mono ?_
  intro _ m₃ h₃
  exact ⟨_, rfl, h₃⟩

/-- **A literal is pushed**, in either of its encodings. -/
theorem literal (h : Stands site m v) {bytes : Bytes}
    (hE : site.room < v.stack.length + bytes.length → ∀ {stop}, Stop.Exhausted stop → E stop)
    (hlength : bytes.length ≤ 255) {addresses : Array Nat} {i : Nat} {long : Bool}
    (hcode : Occurs site.low v.pc ((Item.literal bytes).encode addresses i long)) :
    Moves site m E fun v' => v' = { v with
      pc := v.pc + (Item.literal bytes).encodedLength long, stack := v.stack ++ bytes
      above := [] } := by
  rcases bytes with _ | ⟨b, _ | ⟨c, rest⟩⟩
  · exact h.load_number hE hlength hcode
  · exact h.load_byte hE hcode
  · exact h.load_number hE hlength hcode

/-! ### Operators -/

section
variable {rest a b : Bytes}

theorem compare_values (h : Stands site m v)
    (hE : site.room < rest.length + 1 → ∀ {stop}, Stop.Exhausted stop → E stop)
    {comparison : Comparison} {size : Nat} (hstack : v.stack = rest ++ a ++ b)
    (ha : size = a.length) (hb : size = b.length) :
    Yields (Machine.compare here comparison size) m E fun _ m' => Stands site m' { v with
      stack := rest ++ [Number.truth (Number.compare comparison a b)], above := [] } := by
  unfold Machine.compare
  refine (h.pop hstack hb).bind ?_
  rintro second m₁ ⟨hsecond, h₁⟩
  refine (h₁.pop rfl ha).bind ?_
  rintro first m₂ ⟨hfirst, h₂⟩
  rw [hsecond, hfirst]
  exact h₂.push hE

/-- **A comparison** replaces two values by a truth byte. -/
theorem compare (h : Stands site m v)
    (hE : site.room < rest.length + 1 → ∀ {stop}, Stop.Exhausted stop → E stop)
    {comparison : Comparison} {size : UInt8}
    (hcode : Occurs site.low v.pc [(Opcode.compare comparison).byte, size])
    (hstack : v.stack = rest ++ a ++ b) (ha : size.toNat = a.length) (hb : size.toNat = b.length) :
    Moves site m E fun v' => v' = { v with
      pc := v.pc + 2, stack := rest ++ [Number.truth (Number.compare comparison a b)]
      above := [] } := by
  refine h.moves hcode (by simp) (by simp) ?_
  intro m₁ h₁ hrest
  unfold perform
  refine (h₁.fetchNat (occurs_cons.mp hrest).1).bind ?_
  rintro n m₂ ⟨rfl, h₂⟩
  refine (h₂.compare_values hE hstack ha hb).mono ?_
  intro _ m₃ h₃
  exact ⟨_, rfl, h₃⟩

theorem compare_byte (h : Stands site m v)
    (hE : site.room < rest.length + 1 → ∀ {stop}, Stop.Exhausted stop → E stop)
    {comparison : Comparison} (hcode : Occurs site.low v.pc [(Opcode.compareByte comparison).byte])
    (hstack : v.stack = rest ++ a ++ b) (ha : 1 = a.length) (hb : 1 = b.length) :
    Moves site m E fun v' => v' = { v with
      pc := v.pc + 1, stack := rest ++ [Number.truth (Number.compare comparison a b)]
      above := [] } := by
  refine h.moves hcode (by simp) (by simp) ?_
  intro m₁ h₁ _
  unfold perform
  refine (h₁.compare_values hE hstack ha hb).mono ?_
  intro _ m₂ h₂
  exact ⟨_, rfl, h₂⟩

theorem arithmetic_values (h : Stands site m v) {operation : Arithmetic} {size : Nat}
    (hstack : v.stack = rest ++ a ++ b) (ha : size = a.length) (hb : size = b.length)
    (hzero : Number.arithmetic operation a b = none → E (.fault (.divisionByZero here))) :
    Yields (Machine.arithmetic here operation size) m E fun _ m' =>
      ∃ r, Number.arithmetic operation a b = some r ∧
        Stands site m' { v with stack := rest ++ r, above := [] } := by
  rw [Machine.arithmetic_eq]
  refine (h.pop hstack hb).bind ?_
  rintro second m₁ ⟨hsecond, h₁⟩
  refine (h₁.top rfl ha).bind ?_
  rintro first m₂ ⟨hfirst, h₂⟩
  rw [hsecond, hfirst]
  cases hr : Number.arithmetic operation a b with
  | none =>
    dsimp only
    rw [yields_fail]
    exact hzero hr
  | some r =>
    have hlength : r.length = a.length := Number.length_arithmetic (ha.symm.trans hb) hr
    refine (h₂.replaceTop rfl hlength).mono ?_
    intro _ m₃ h₃
    exact ⟨r, rfl, h₃.forget⟩

/-- **Arithmetic** replaces two values by their result, unless the divisor is zero. -/
theorem arithmetic (h : Stands site m v) {operation : Arithmetic} {size : UInt8}
    (hcode : Occurs site.low v.pc [(Opcode.arithmetic operation).byte, size])
    (hstack : v.stack = rest ++ a ++ b) (ha : size.toNat = a.length) (hb : size.toNat = b.length)
    (hzero : Number.arithmetic operation a b = none → E (.fault (.divisionByZero v.pc))) :
    Moves site m E fun v' => ∃ r, Number.arithmetic operation a b = some r ∧
      v' = { v with pc := v.pc + 2, stack := rest ++ r, above := [] } := by
  refine h.moves hcode (by simp) (by simp) ?_
  intro m₁ h₁ hrest
  unfold perform
  refine (h₁.fetchNat (occurs_cons.mp hrest).1).bind ?_
  rintro n m₂ ⟨rfl, h₂⟩
  refine (h₂.arithmetic_values hstack ha hb hzero).mono ?_
  rintro _ m₃ ⟨r, hr, h₃⟩
  exact ⟨_, ⟨r, hr, rfl⟩, h₃⟩

theorem arithmetic_byte (h : Stands site m v) {operation : Arithmetic}
    (hcode : Occurs site.low v.pc [(Opcode.arithmeticByte operation).byte])
    (hstack : v.stack = rest ++ a ++ b) (ha : 1 = a.length) (hb : 1 = b.length)
    (hzero : Number.arithmetic operation a b = none → E (.fault (.divisionByZero v.pc))) :
    Moves site m E fun v' => ∃ r, Number.arithmetic operation a b = some r ∧
      v' = { v with pc := v.pc + 1, stack := rest ++ r, above := [] } := by
  refine h.moves hcode (by simp) (by simp) ?_
  intro m₁ h₁ _
  unfold perform
  refine (h₁.arithmetic_values hstack ha hb hzero).mono ?_
  rintro _ m₂ ⟨r, hr, h₂⟩
  exact ⟨_, ⟨r, hr, rfl⟩, h₂⟩

theorem logical_values (h : Stands site m v)
    (hE : site.room < rest.length + 1 → ∀ {stop}, Stop.Exhausted stop → E stop)
    {combine : Bool → Bool → Bool} {x y : UInt8} (hstack : v.stack = rest ++ [x] ++ [y]) :
    Yields (Machine.logical here combine) m E fun _ m' => Stands site m' { v with
      stack := rest ++ [Number.truth (combine (x != 0) (y != 0))], above := [] } := by
  unfold Machine.logical
  refine (h.popByte hstack).bind ?_
  rintro second m₁ ⟨hsecond, h₁⟩
  refine (h₁.popByte rfl).bind ?_
  rintro first m₂ ⟨hfirst, h₂⟩
  rw [hsecond, hfirst]
  exact h₂.push hE

theorem logical_and (h : Stands site m v)
    (hE : site.room < rest.length + 1 → ∀ {stop}, Stop.Exhausted stop → E stop)
    (hcode : Occurs site.low v.pc [Opcode.logicalAnd.byte]) {x y : UInt8}
    (hstack : v.stack = rest ++ [x] ++ [y]) :
    Moves site m E fun v' => v' = { v with
      pc := v.pc + 1, stack := rest ++ [Number.truth (x != 0 && y != 0)], above := [] } := by
  refine h.moves hcode (by simp) (by simp) ?_
  intro m₁ h₁ _
  unfold perform
  refine (h₁.logical_values hE hstack).mono ?_
  intro _ m₂ h₂
  exact ⟨_, rfl, h₂⟩

theorem logical_or (h : Stands site m v)
    (hE : site.room < rest.length + 1 → ∀ {stop}, Stop.Exhausted stop → E stop)
    (hcode : Occurs site.low v.pc [Opcode.logicalOr.byte]) {x y : UInt8}
    (hstack : v.stack = rest ++ [x] ++ [y]) :
    Moves site m E fun v' => v' = { v with
      pc := v.pc + 1, stack := rest ++ [Number.truth (x != 0 || y != 0)], above := [] } := by
  refine h.moves hcode (by simp) (by simp) ?_
  intro m₁ h₁ _
  unfold perform
  refine (h₁.logical_values hE hstack).mono ?_
  intro _ m₂ h₂
  exact ⟨_, rfl, h₂⟩

theorem logical_not (h : Stands site m v)
    (hE : site.room < rest.length + 1 → ∀ {stop}, Stop.Exhausted stop → E stop)
    (hcode : Occurs site.low v.pc [Opcode.logicalNot.byte]) {x : UInt8}
    (hstack : v.stack = rest ++ [x]) :
    Moves site m E fun v' => v' = { v with
      pc := v.pc + 1, stack := rest ++ [Number.truth (x == 0)], above := [] } := by
  refine h.moves hcode (by simp) (by simp) ?_
  intro m₁ h₁ _
  unfold perform
  refine (h₁.popByte hstack).bind ?_
  rintro y m₂ ⟨rfl, h₂⟩
  refine (@push _ _ _ _ _ h₂ [_] hE).mono ?_
  intro _ m₃ h₃
  exact ⟨_, rfl, h₃⟩

/-- A value on top is replaced by one of the same length. -/
theorem top_replaced (h : Stands site m v) {size : Nat} {f : Bytes → Bytes}
    (hf : (f a).length = a.length) (hstack : v.stack = rest ++ a) (ha : size = a.length) :
    Yields (Machine.top here size >>= fun value => Machine.replaceTop (f value)) m E
      fun _ m' => Stands site m' { v with stack := rest ++ f a, above := [] } := by
  refine (h.top hstack ha).bind ?_
  rintro value m₁ ⟨hvalue, h₁⟩
  rw [hvalue]
  refine (h₁.replaceTop hstack hf).mono ?_
  intro _ m₂ h₂
  exact h₂.forget

theorem minus (h : Stands site m v) {size : UInt8}
    (hcode : Occurs site.low v.pc [Opcode.minus.byte, size]) (hstack : v.stack = rest ++ a)
    (ha : size.toNat = a.length) :
    Moves site m E fun v' => v' = { v with
      pc := v.pc + 2, stack := rest ++ Number.negate a, above := [] } := by
  refine h.moves hcode (by simp) (by simp) ?_
  intro m₁ h₁ hrest
  unfold perform
  refine (h₁.fetchNat (occurs_cons.mp hrest).1).bind ?_
  rintro n m₂ ⟨rfl, h₂⟩
  refine (h₂.top_replaced (Number.length_negate a) hstack ha).mono ?_
  intro _ m₃ h₃
  exact ⟨_, rfl, h₃⟩

theorem bitwise_not (h : Stands site m v) {size : UInt8}
    (hcode : Occurs site.low v.pc [Opcode.bitwiseNot.byte, size]) (hstack : v.stack = rest ++ a)
    (ha : size.toNat = a.length) :
    Moves site m E fun v' => v' = { v with
      pc := v.pc + 2, stack := rest ++ Number.invert a, above := [] } := by
  refine h.moves hcode (by simp) (by simp) ?_
  intro m₁ h₁ hrest
  unfold perform
  refine (h₁.fetchNat (occurs_cons.mp hrest).1).bind ?_
  rintro n m₂ ⟨rfl, h₂⟩
  refine (h₂.top_replaced (Number.length_invert a) hstack ha).mono ?_
  intro _ m₃ h₃
  exact ⟨_, rfl, h₃⟩

theorem bitwise (h : Stands site m v)
    (hE : site.room < rest.length + b.length → ∀ {stop}, Stop.Exhausted stop → E stop)
    {operation : Bitwise} {left right : UInt8}
    (hcode : Occurs site.low v.pc [(Opcode.bitwise operation).byte, left, right])
    (hstack : v.stack = rest ++ a ++ b) (ha : left.toNat = a.length)
    (hb : right.toNat = b.length) :
    Moves site m E fun v' => v' = { v with
      pc := v.pc + 3, stack := rest ++ Number.bitwise operation a b, above := [] } := by
  refine h.moves hcode (by simp) (by simp) ?_
  intro m₁ h₁ hrest
  obtain ⟨hleft, hmore⟩ := occurs_cons.mp hrest
  unfold perform
  refine (h₁.fetchNat hleft).bind ?_
  rintro n m₂ ⟨rfl, h₂⟩
  refine (h₂.fetchNat (occurs_cons.mp hmore).1).bind ?_
  rintro n m₃ ⟨rfl, h₃⟩
  refine (h₃.pop hstack hb).bind ?_
  rintro second m₄ ⟨hsecond, h₄⟩
  refine (h₄.pop rfl ha).bind ?_
  rintro first m₅ ⟨hfirst, h₅⟩
  rw [hsecond, hfirst]
  have hlength : (Number.bitwise operation a b).length = b.length := by simp
  refine (h₅.push (hlength ▸ hE)).mono ?_
  intro _ m₆ h₆
  exact ⟨_, rfl, h₆⟩

theorem shift (h : Stands site m v) {direction : Direction} {size amount : UInt8}
    (hcode : Occurs site.low v.pc [(Opcode.shift direction).byte, size])
    (hstack : v.stack = rest ++ a ++ [amount]) (ha : size.toNat = a.length) :
    Moves site m E fun v' => v' = { v with
      pc := v.pc + 2, stack := rest ++ Number.shift direction a amount.toNat, above := [] } := by
  refine h.moves hcode (by simp) (by simp) ?_
  intro m₁ h₁ hrest
  unfold perform
  refine (h₁.fetchNat (occurs_cons.mp hrest).1).bind ?_
  rintro n m₂ ⟨rfl, h₂⟩
  refine (h₂.popByte hstack).bind ?_
  rintro k m₃ ⟨rfl, h₃⟩
  have hlength := Number.length_shift direction a k.toNat
  refine (@top_replaced _ _ _ _ _ _ _ h₃ _ (fun x => Number.shift direction x k.toNat) hlength
    rfl ha).mono ?_
  intro _ m₄ h₄
  exact ⟨_, rfl, h₄⟩

end

/-! ### Branches -/

theorem branch_forward (h : Stands site m v) {distance : UInt8}
    (hcode : Occurs site.low v.pc [Opcode.branchForward.byte, distance])
    (htarget : v.pc + distance.toNat < 65536) :
    Moves site m E fun v' => v' = { v with pc := v.pc + distance.toNat } := by
  refine h.moves hcode (by simp) (by simp) ?_
  intro m₁ h₁ hrest
  unfold perform
  refine (h₁.fetchNat (occurs_cons.mp hrest).1).bind ?_
  rintro n m₂ ⟨rfl, h₂⟩
  refine (h₂.jump (Int.natCast_add _ _).symm htarget).mono ?_
  intro _ m₃ h₃
  exact ⟨_, rfl, h₃⟩

theorem branch_backward (h : Stands site m v) {distance : UInt8}
    (hcode : Occurs site.low v.pc [Opcode.branchBackward.byte, distance])
    (htarget : distance.toNat ≤ v.pc) (hpc : v.pc < 65536) :
    Moves site m E fun v' => v' = { v with pc := v.pc - distance.toNat } := by
  refine h.moves hcode (by simp) (by simp) ?_
  intro m₁ h₁ hrest
  unfold perform
  refine (h₁.fetchNat (occurs_cons.mp hrest).1).bind ?_
  rintro n m₂ ⟨rfl, h₂⟩
  refine (h₂.jump (Int.ofNat_sub htarget).symm (by omega)).mono ?_
  intro _ m₃ h₃
  exact ⟨_, rfl, h₃⟩

theorem jump_to (h : Stands site m v) {target : UInt16}
    (hcode : Occurs site.low v.pc (Opcode.jump.byte :: addressBytes target)) :
    Moves site m E fun v' => v' = { v with pc := target.toNat } := by
  refine h.moves hcode (by simp) (by simp) ?_
  intro m₁ h₁ hrest
  unfold perform
  refine (h₁.fetchAddress hrest).bind ?_
  rintro n m₂ ⟨rfl, h₂⟩
  refine (h₂.jump rfl target.toNat_lt).mono ?_
  intro _ m₃ h₃
  exact ⟨_, rfl, h₃⟩

/-- A conditional branch pops a byte and is taken if it is zero. -/
theorem branched (h : Stands site m v) {rest : Bytes} {x : UInt8} {address : Int} {target : Nat}
    (hstack : v.stack = rest ++ [x]) (haddress : address = target) (htarget : target < 65536) :
    Yields (Machine.popByte here >>= fun b =>
        if b == 0 then Machine.jump here address else pure PUnit.unit) m E
      fun _ m' => Stands site m' { v with
        pc := if x = 0 then target else v.pc, stack := rest, above := [] } := by
  refine (h.popByte hstack).bind ?_
  rintro b m₁ ⟨rfl, h₁⟩
  by_cases hb : b = 0
  · have hbeq : (b == 0) = true := by simpa using hb
    rw [if_pos hbeq, if_pos hb]
    exact h₁.forget.jump haddress htarget
  · have hbeq : ¬ (b == 0) = true := by simpa using hb
    rw [if_neg hbeq, if_neg hb, yields_pure]
    exact h₁.forget

theorem branch_forward_if_false (h : Stands site m v) {rest : Bytes} {x distance : UInt8}
    (hcode : Occurs site.low v.pc [Opcode.branchForwardIfFalse.byte, distance])
    (hstack : v.stack = rest ++ [x]) (htarget : v.pc + distance.toNat < 65536) :
    Moves site m E fun v' => v' = { v with
      pc := if x = 0 then v.pc + distance.toNat else v.pc + 2, stack := rest, above := [] } := by
  refine h.moves hcode (by simp) (by simp) ?_
  intro m₁ h₁ hrest
  unfold perform
  refine (h₁.fetchNat (occurs_cons.mp hrest).1).bind ?_
  rintro n m₂ ⟨rfl, h₂⟩
  refine (h₂.branched hstack (Int.natCast_add _ _).symm htarget).mono ?_
  intro _ m₃ h₃
  exact ⟨_, rfl, h₃⟩

theorem jump_if_false (h : Stands site m v) {rest : Bytes} {x : UInt8} {target : UInt16}
    (hcode : Occurs site.low v.pc (Opcode.jumpIfFalse.byte :: addressBytes target))
    (hstack : v.stack = rest ++ [x]) :
    Moves site m E fun v' => v' = { v with
      pc := if x = 0 then target.toNat else v.pc + 3, stack := rest, above := [] } := by
  refine h.moves hcode (by simp) (by simp) ?_
  intro m₁ h₁ hrest
  unfold perform
  refine (h₁.fetchAddress hrest).bind ?_
  rintro n m₂ ⟨rfl, h₂⟩
  refine (h₂.branched hstack rfl target.toNat_lt).mono ?_
  intro _ m₃ h₃
  exact ⟨_, rfl, h₃⟩

/-! ### Variables -/

section
variable {scope : Scope} {offset size : UInt8} {before bytes after : Bytes}

theorem yields_base {α : Type} {f : Int → Exec α} {Q : α → Machine → Prop} (h : Stands site m v)
    (hf : Yields (f (site.base v.fp scope)) m E Q) : Yields (Machine.base scope >>= f) m E Q := by
  unfold Machine.base
  rw [yields_bind, yields_bind, yields_get]
  cases scope with
  | frame =>
    dsimp only
    rw [yields_pure, h.fp]
    exact hf
  | globals =>
    dsimp only
    rw [yields_pure, h.bottom]
    exact hf

/-- The push of a variable, once its place is known. -/
theorem loaded (h : Stands site m v)
    (hE : site.room < v.stack.length + bytes.length → ∀ {stop}, Stop.Exhausted stop → E stop)
    {count : Nat}
    (hstack : v.stack = before ++ bytes ++ after)
    (hplace : site.base v.fp scope + offset.toNat = site.low.length + before.length)
    (hcount : count = bytes.length) :
    Yields (Machine.base scope >>= fun base =>
        Machine.frame here (base + offset.toNat) count >>= fun value => Machine.push here value)
      m E fun _ m' => Stands site m' { v with stack := v.stack ++ bytes, above := [] } := by
  have hwhere : v.stack ++ v.above = before ++ bytes ++ (after ++ v.above) := by
    rw [hstack, List.append_assoc (before ++ bytes)]
  refine h.yields_base ((h.frame hwhere ?_ hcount).bind ?_)
  · omega
  · rintro value m₁ ⟨hvalue, h₁⟩
    rw [hvalue]
    exact h₁.push hE

/-- **The value of a variable is pushed.** -/
theorem load (h : Stands site m v)
    (hE : site.room < v.stack.length + bytes.length → ∀ {stop}, Stop.Exhausted stop → E stop)
    (hcode : Occurs site.low v.pc [(Opcode.load scope).byte, offset, size])
    (hstack : v.stack = before ++ bytes ++ after)
    (hplace : site.base v.fp scope + offset.toNat = site.low.length + before.length)
    (hsize : size.toNat = bytes.length) :
    Moves site m E fun v' => v' = { v with
      pc := v.pc + 3, stack := v.stack ++ bytes, above := [] } := by
  refine h.moves hcode (by simp) (by simp) ?_
  intro m₁ h₁ hrest
  unfold perform
  refine h₁.fetchPair hrest fun m₃ h₃ => ?_
  refine (h₃.loaded hE hstack ?_ hsize).mono ?_
  · exact hplace
  · intro _ m₄ h₄
    exact ⟨_, rfl, h₄⟩

theorem load_one (h : Stands site m v)
    (hE : site.room < v.stack.length + bytes.length → ∀ {stop}, Stop.Exhausted stop → E stop)
    (hcode : Occurs site.low v.pc [(Opcode.loadOne scope).byte, offset])
    (hstack : v.stack = before ++ bytes ++ after)
    (hplace : site.base v.fp scope + offset.toNat = site.low.length + before.length)
    (hsize : 1 = bytes.length) :
    Moves site m E fun v' => v' = { v with
      pc := v.pc + 2, stack := v.stack ++ bytes, above := [] } := by
  refine h.moves hcode (by simp) (by simp) ?_
  intro m₁ h₁ hrest
  unfold perform
  refine (h₁.fetchNat (occurs_cons.mp hrest).1).bind ?_
  rintro n m₂ ⟨rfl, h₂⟩
  refine (h₂.loaded hE hstack ?_ hsize).mono ?_
  · exact hplace
  · intro _ m₃ h₃
    exact ⟨_, rfl, h₃⟩

/-- **The top of the stack moves into a variable.** -/
theorem assign_variable (h : Stands site m v)
    (hcode : Occurs site.low v.pc [(Opcode.assign scope).byte, offset, size]) {old : Bytes}
    (hstack : v.stack = before ++ old ++ after ++ bytes) (hold : old.length = bytes.length)
    (hplace : site.base v.fp scope + offset.toNat = site.low.length + before.length)
    (hsize : size.toNat = bytes.length) :
    Moves site m E fun v' => v' = { v with
      pc := v.pc + 3, stack := before ++ bytes ++ after, above := [] } := by
  refine h.moves hcode (by simp) (by simp) ?_
  intro m₁ h₁ hrest
  unfold perform
  refine h₁.fetchPair hrest fun m₃ h₃ => ?_
  refine h₃.yields_base ((h₃.assign hstack hold ?_ hsize).mono ?_)
  · dsimp only
    omega
  · intro _ m₄ h₄
    exact ⟨_, rfl, h₄⟩

theorem assign_one (h : Stands site m v)
    (hcode : Occurs site.low v.pc [(Opcode.assignOne scope).byte, offset]) {old : Bytes}
    (hstack : v.stack = before ++ old ++ after ++ bytes) (hold : old.length = bytes.length)
    (hplace : site.base v.fp scope + offset.toNat = site.low.length + before.length)
    (hsize : 1 = bytes.length) :
    Moves site m E fun v' => v' = { v with
      pc := v.pc + 2, stack := before ++ bytes ++ after, above := [] } := by
  refine h.moves hcode (by simp) (by simp) ?_
  intro m₁ h₁ hrest
  unfold perform
  refine (h₁.fetchNat (occurs_cons.mp hrest).1).bind ?_
  rintro n m₂ ⟨rfl, h₂⟩
  refine h₂.yields_base ((h₂.assign hstack hold ?_ hsize).mono ?_)
  · dsimp only
    omega
  · intro _ m₃ h₃
    exact ⟨_, rfl, h₃⟩

theorem address_of (h : Stands site m v) (hE : ∀ {stop}, Stop.Exhausted stop → E stop)
    (hcode : Occurs site.low v.pc [(Opcode.addressOf scope).byte, offset]) :
    Moves site m E fun v' => v' = { v with
      pc := v.pc + 2
      stack := v.stack ++ addressBytes (site.base v.fp scope + offset.toNat).toUInt16
      above := [] } := by
  refine h.moves hcode (by simp) (by simp) ?_
  intro m₁ h₁ hrest
  unfold perform
  refine (h₁.fetchNat (occurs_cons.mp hrest).1).bind ?_
  rintro n m₂ ⟨rfl, h₂⟩
  refine h₂.yields_base ((h₂.pushAddress (fun _ => hE) (Int.natCast_add _ _).symm).mono ?_)
  intro _ m₃ h₃
  exact ⟨_, rfl, h₃⟩

end

/-! ### Memory at computed addresses -/

theorem value_addressBytes (a : UInt16) : Number.value (addressBytes a) = a.toNat := by
  have ha := a.toNat_lt
  simp only [addressBytes, Number.value, UInt16.toNat_toUInt8, UInt16.toNat_shiftRight,
    Nat.shiftRight_eq_div_pow]
  rw [show UInt16.toNat 8 % 16 = 8 from rfl]
  omega

/-- A number of two bytes fits in any register. -/
theorem wrap_value {bytes : Bytes} (h : bytes.length ≤ 2) :
    wrap (Number.value (bytes.take 8)) = Number.value bytes ∧ Number.value bytes < 65536 := by
  have hlt : Number.value bytes < 65536 :=
    Nat.lt_of_lt_of_le (Number.value_lt bytes) (Nat.pow_le_pow_right (by decide) h)
  rw [List.take_of_length_le (by omega)]
  exact ⟨wrap_eq_self (by omega) (by omega), hlt⟩

section
variable {rest start : Bytes}

/-- An element is loaded from wherever its address points, or the address is out of range. -/
theorem load_indexed (h : Stands site m v) (hE : ∀ {stop}, Stop.Exhausted stop → E stop)
    {element indexSize : UInt8} {index : Bytes}
    (hcode : Occurs site.low v.pc [Opcode.loadIndexed.byte, element, indexSize])
    (hstack : v.stack = rest ++ start ++ index) (hstart : start.length = 2)
    (hindex : indexSize.toNat = index.length) (hshort : index.length ≤ 2)
    (hrange : ∀ address, E (.fault (.invalidAccess v.pc address element.toNat))) :
    Moves site m E fun v' => ∃ bytes : Bytes, bytes.length = element.toNat ∧
      v' = { v with pc := v.pc + 3, stack := rest ++ bytes, above := [] } := by
  refine h.moves hcode (by simp) (by simp) ?_
  intro m₁ h₁ hrest
  obtain ⟨helement, hmore⟩ := occurs_cons.mp hrest
  unfold perform
  refine (h₁.fetchNat helement).bind ?_
  rintro n m₂ ⟨rfl, h₂⟩
  refine (h₂.fetchNat (occurs_cons.mp hmore).1).bind ?_
  rintro n m₃ ⟨rfl, h₃⟩
  refine (h₃.popNumber hstack hindex).bind ?_
  rintro i m₄ ⟨hi', h₄⟩
  refine (h₄.popNumber rfl hstart.symm).bind ?_
  rintro n m₅ ⟨hs', h₅⟩
  obtain ⟨hi, hilt⟩ := wrap_value hshort
  obtain ⟨hs, hslt⟩ := wrap_value (Nat.le_of_eq hstart)
  have he := element.toNat_lt
  have hprod : Number.value index * element.toNat ≤ 65536 * 256 :=
    Nat.mul_le_mul (by omega) (by omega)
  have hcast : (Number.value index : Int) * (element.toNat : Int) =
      ((Number.value index * element.toNat : Nat) : Int) := (Int.natCast_mul _ _).symm
  rw [hi', hs', hi, hs, hcast, wrap_eq_self (by omega) (by omega)]
  refine (h₅.read (by omega) (hrange _)).bind ?_
  rintro bytes m₆ ⟨hlength, h₆⟩
  refine (h₆.push fun _ => hE).mono ?_
  intro _ m₇ h₇
  exact ⟨_, ⟨bytes, hlength, rfl⟩, h₇⟩

theorem load_memory (h : Stands site m v) (hE : ∀ {stop}, Stop.Exhausted stop → E stop)
    {size : UInt8} (hcode : Occurs site.low v.pc [Opcode.loadMemory.byte, size])
    (hstack : v.stack = rest ++ start) (hstart : start.length = 2)
    (hrange : ∀ address, E (.fault (.invalidAccess v.pc address size.toNat))) :
    Moves site m E fun v' => ∃ bytes : Bytes, bytes.length = size.toNat ∧
      v' = { v with pc := v.pc + 2, stack := rest ++ bytes, above := [] } := by
  refine h.moves hcode (by simp) (by simp) ?_
  intro m₁ h₁ hrest
  unfold perform
  refine (h₁.fetchNat (occurs_cons.mp hrest).1).bind ?_
  rintro n m₂ ⟨rfl, h₂⟩
  refine (h₂.popNumber hstack hstart.symm).bind ?_
  rintro n m₃ ⟨hs', h₃⟩
  obtain ⟨hs, hslt⟩ := wrap_value (Nat.le_of_eq hstart)
  have he := size.toNat_lt
  rw [hs', hs]
  refine (h₃.read (by omega) (hrange _)).bind ?_
  rintro bytes m₄ ⟨hlength, h₄⟩
  refine (h₄.push fun _ => hE).mono ?_
  intro _ m₅ h₅
  exact ⟨_, ⟨bytes, hlength, rfl⟩, h₅⟩

end

/-! ### Calls and frames -/

/-- **A call** remembers where it came from. -/
theorem function_call (h : Stands site m v)
    (hE : site.depth ≤ v.returns.length → ∀ {stop}, Stop.Exhausted stop → E stop) {target : UInt16} (hcode : Occurs site.low v.pc (Opcode.functionCall.byte :: addressBytes target)) :
    Moves site m E fun v' => v' = { v with
      pc := target.toNat, returns := v.returns ++ [v.pc + 3] } := by
  refine h.moves hcode (by simp) (by simp) ?_
  intro m₁ h₁ hrest
  unfold perform
  refine (h₁.fetchAddress hrest).bind ?_
  rintro n m₂ ⟨rfl, h₂⟩
  rw [yields_bind, yields_get]
  refine (h₂.pushReturn hE h₂.pc).bind ?_
  intro _ m₃ h₃
  refine (h₃.jump rfl target.toNat_lt).mono ?_
  intro _ m₄ h₄
  exact ⟨_, rfl, h₄⟩

/-- **A return** goes back to where the last call came from. -/
theorem function_return (h : Stands site m v) {returns : List Nat} {target : Nat}
    (hcode : Occurs site.low v.pc [Opcode.functionReturn.byte])
    (hreturns : v.returns = returns ++ [target]) (htarget : target < 65536) :
    Moves site m E fun v' => v' = { v with pc := target, returns } := by
  refine h.moves hcode (by simp) (by simp) ?_
  intro m₁ h₁ _
  unfold perform
  refine (h₁.popReturn hreturns htarget).bind ?_
  rintro n m₂ ⟨rfl, h₂⟩
  refine (h₂.jump rfl htarget).mono ?_
  intro _ m₃ h₃
  exact ⟨_, rfl, h₃⟩

theorem load_frame (h : Stands site m v)
    (hE : site.room < v.stack.length + 2 → ∀ {stop}, Stop.Exhausted stop → E stop)
    (hcode : Occurs site.low v.pc [Opcode.loadFrame.byte]) :
    Moves site m E fun v' => v' = { v with
      pc := v.pc + 1, stack := v.stack ++ addressBytes v.fp.toUInt16, above := [] } := by
  refine h.moves hcode (by simp) (by simp) ?_
  intro m₁ h₁ _
  unfold perform
  rw [yields_bind, yields_get]
  refine (h₁.pushAddress hE h₁.fp).mono ?_
  intro _ m₂ h₂
  exact ⟨_, rfl, h₂⟩

/-- The frame of a function starts at its parameters, which are on top of the stack. -/
theorem enter_frame (h : Stands site m v) {size : UInt8} {rest parameters : Bytes}
    (hcode : Occurs site.low v.pc [Opcode.enterFrame.byte, size])
    (hstack : v.stack = rest ++ parameters) (hsize : size.toNat = parameters.length) :
    Moves site m E fun v' => v' = { v with
      pc := v.pc + 2, fp := site.low.length + rest.length } := by
  refine h.moves hcode (by simp) (by simp) ?_
  intro m₁ h₁ hrest
  unfold perform
  refine (h₁.fetchNat (occurs_cons.mp hrest).1).bind ?_
  rintro n m₂ ⟨rfl, h₂⟩
  have hlength : v.stack.length = rest.length + parameters.length := by
    rw [hstack, List.length_append]
  have hsp : m₂.sp = site.low.length + v.stack.length := h₂.sp
  have hnot : ¬ m₂.sp - size.toNat < m₂.stackBase := by
    rw [hsp, h₂.bottom]
    omega
  have hfp : m₂.sp - size.toNat = ((site.low.length + rest.length : Nat) : Int) := by
    rw [hsp]
    omega
  have hfits := h.fits
  have hinside := site.stack_lt
  rw [yields_bind, yields_get, if_neg hnot, yields_set, hfp]
  exact ⟨_, rfl, h₂.at_fp (by omega)⟩

/-- The caller's frame pointer comes back from the stack. -/
theorem pop_frame (h : Stands site m v) {rest : Bytes} {fp : Nat}
    (hcode : Occurs site.low v.pc [Opcode.popFrame.byte])
    (hstack : v.stack = rest ++ addressBytes fp.toUInt16) (hfp : fp < 65536) :
    Moves site m E fun v' => v' = { v with
      pc := v.pc + 1, stack := rest, above := addressBytes fp.toUInt16 ++ v.above, fp } := by
  refine h.moves hcode (by simp) (by simp) ?_
  intro m₁ h₁ _
  unfold perform
  refine (h₁.popNumber hstack rfl).bind ?_
  rintro n m₂ ⟨hn, h₂⟩
  have hword : fp.toUInt16.toNat = fp := by
    simp only [Nat.toUInt16, UInt16.toNat_ofNat']
    omega
  have hshort : (addressBytes fp.toUInt16).length ≤ 2 := Nat.le_refl 2
  rw [yields_modify, hn, (wrap_value hshort).1, value_addressBytes, hword]
  exact ⟨_, rfl, h₂.at_fp hfp⟩

/-- Space on the stack is taken as it is found. -/
theorem allocate_space (h : Stands site m v) {size : UInt8}
    (hE : site.room < v.stack.length + size.toNat → ∀ {stop}, Stop.Exhausted stop → E stop)
    (hcode : Occurs site.low v.pc [Opcode.allocate.byte, size]) :
    Moves site m E fun v' => ∃ bytes : Bytes, bytes.length = size.toNat ∧
      (∀ found beyond, v.above = found ++ beyond → found.length = size.toNat → bytes = found) ∧
      v' = { v with pc := v.pc + 2, stack := v.stack ++ bytes, above := [] } := by
  refine h.moves hcode (by simp) (by simp) ?_
  intro m₁ h₁ hrest
  unfold perform
  refine (h₁.fetchNat (occurs_cons.mp hrest).1).bind ?_
  rintro n m₂ ⟨rfl, h₂⟩
  refine (h₂.allocate hE).mono ?_
  rintro _ m₃ ⟨rfl, hroom⟩
  have hsize := site.fits
  have hroom' : v.stack.length + size.toNat ≤ site.room := hroom
  have hfound := @Memory.holds_read m₂.memory (site.low.length + v.stack.length) size.toNat
    (by omega)
  have hlength := @Memory.length_read m₂.memory (site.low.length + v.stack.length) size.toNat
  refine ⟨_, ⟨_, hlength, ?_, rfl⟩, ?_⟩
  · intro found beyond habove hfound'
    have hold := (Memory.holds_append.mp h₂.stack).2
    dsimp only at hold
    rw [habove] at hold
    rw [← hfound']
    exact (Memory.holds_append.mp hold).1.read
  refine ⟨h₂.bottom, h₂.limit, h₂.depth, h₂.pc, ?_, h₂.fp, h₂.fp_lt, h₂.rsp, h₂.low, ?_, ?_,
    h₂.returns, h₂.returns_le⟩
  · simp only [h₂.sp, List.length_append, hlength]
    omega
  · rw [List.append_nil]
    exact Memory.holds_append.mpr ⟨(Memory.holds_append.mp h₂.stack).1, hfound⟩
  · simp only [List.length_append, hlength, List.length_nil]
    omega

theorem free_space (h : Stands site m v) {size : UInt8} {rest bytes : Bytes}
    (hcode : Occurs site.low v.pc [Opcode.free.byte, size])
    (hstack : v.stack = rest ++ bytes) (hsize : size.toNat = bytes.length) :
    Moves site m E fun v' => v' = { v with
      pc := v.pc + 2, stack := rest, above := bytes ++ v.above } := by
  refine h.moves hcode (by simp) (by simp) ?_
  intro m₁ h₁ hrest
  unfold perform
  refine (h₁.fetchNat (occurs_cons.mp hrest).1).bind ?_
  rintro n m₂ ⟨rfl, h₂⟩
  refine (h₂.pop hstack hsize).bind ?_
  rintro _ m₃ ⟨_, h₃⟩
  rw [yields_pure]
  exact ⟨_, rfl, h₃⟩

/-- **A value left above the stack is brought back**: `offset` counts from behind the saved
frame pointer, which lies right above the stack. -/
theorem copy_value (h : Stands site m v) {offset size : UInt8} {skipped bytes beyond : Bytes}
    (hE : site.room < v.stack.length + bytes.length → ∀ {stop}, Stop.Exhausted stop → E stop)
    (hcode : Occurs site.low v.pc [Opcode.copyValue.byte, offset, size])
    (habove : v.above = skipped ++ bytes ++ beyond)
    (hskipped : offset.toNat + addressSize = skipped.length) (hsize : size.toNat = bytes.length) :
    Moves site m E fun v' => v' = { v with
      pc := v.pc + 3, stack := v.stack ++ bytes, above := [] } := by
  refine h.moves hcode (by simp) (by simp) ?_
  intro m₁ h₁ hrest
  unfold perform
  refine h₁.fetchPair hrest fun m₃ h₃ => ?_
  rw [yields_bind, yields_get]
  have hwhere : v.stack ++ v.above = (v.stack ++ skipped) ++ bytes ++ beyond := by
    simp [habove]
  refine (h₃.frame hwhere ?_ hsize).bind ?_
  · rw [h₃.sp, List.length_append]
    simp only
    omega
  · rintro value m₄ ⟨hvalue, h₄⟩
    rw [hvalue]
    refine (h₄.push hE).mono ?_
    intro _ m₅ h₅
    exact ⟨_, rfl, h₅⟩

/-! ### The host and the end -/

/-- A system call takes its argument block off the stack. -/
theorem system_call (h : Stands site m v) {rest : Bytes} {address : UInt16} {a x y : UInt8}
    (hcode : Occurs site.low v.pc [Opcode.systemCall.byte, 5])
    (hstack : v.stack = rest ++ (addressBytes address ++ [a, x, y])) :
    Yields Machine.step m E fun signal m' =>
      signal = .call v.pc { address, a, x, y } ∧
        Stands site m' { v with pc := v.pc + 2, stack := rest, above := [] } := by
  obtain ⟨hop, hrest⟩ := occurs_cons.mp hcode
  refine h.step hop ?_
  intro m₁ h₁
  unfold execute
  refine (h₁.fetchNat (occurs_cons.mp hrest).1).bind ?_
  rintro n m₂ ⟨rfl, h₂⟩
  have hlong : ¬ UInt8.toNat 5 < addressSize := by decide
  rw [yields_bind]
  unfold arguments
  rw [if_neg hlong]
  refine (h₂.pop hstack rfl).bind ?_
  rintro block m₃ ⟨rfl, h₃⟩
  rw [yields_pure, yields_pure]
  refine ⟨?_, h₃.forget⟩
  simp [addressBytes]

theorem halt (h : Stands site m v) (hcode : Occurs site.low v.pc [Opcode.halt.byte]) :
    Yields Machine.step m E fun signal m' =>
      signal = .halted ∧ Stands site m' { v with pc := v.pc + 1 } := by
  obtain ⟨hop, _⟩ := occurs_cons.mp hcode
  refine h.step hop ?_
  intro m₁ h₁
  unfold execute
  rw [yields_pure]
  exact ⟨rfl, h₁⟩

end Stands

end Terrace
