/-
# What the items of expressions do

An expression ends with a literal, the value of a variable or an operator on the values on top of
the stack. Literals and variables need room for what they push. What an operator leaves takes no
more room than its operands, so an operator stops the machine only where it divides by zero.

Key theorems: `Stands.load_item`, `Stands.unary_item`, `Stands.binary_item`.
-/
import Terrace.Proofs.Machine.Calls
import Terrace.Proofs.Source.Meaning

namespace Terrace

open Machine

namespace Stands

variable {c : Assembly} {site : Site} {m : Machine} {v : View} {E : Stop → Prop} {i : Nat}

/-- The bytes of an emitted opcode at the program counter, and the address behind them. -/
theorem emitted_op (hsite : site.Carries c) {op : Opcode} {operands : List Int}
    (hitem : Occurs c.items i (Emit.code (Emit.op op operands))) (hpc : v.pc = c.address i) :
    Occurs site.low v.pc (op.byte :: operands.map Emit.lowByte) ∧
      c.address (i + 1) = v.pc + (1 + (operands.map Emit.lowByte).length) := by
  rw [Emit.code_op, occurs_singleton] at hitem
  rw [hpc]
  exact op_item hsite hitem

/-- **The value of a variable is pushed.** -/
theorem load_item (hsite : site.Carries c) (h : Stands site m v) {scope : Scope}
    {offset size : Int} {before bytes after : Bytes}
    (hE : site.room < v.stack.length + bytes.length → ∀ {stop}, Stop.Exhausted stop → E stop)
    (hitem : Occurs c.items i (Emit.code (Emit.loadVariable scope offset size)))
    (hpc : v.pc = c.address i) (hstack : v.stack = before ++ bytes ++ after)
    (hoffset : 0 ≤ offset ∧ offset ≤ 255)
    (hplace : site.base v.fp scope + offset = site.low.length + before.length)
    (hsize : size = bytes.length) (hsmall : bytes.length ≤ 255) :
    Moves site m E fun v' => v' = { v with
      pc := c.address (i + 1), stack := v.stack ++ bytes, above := [] } := by
  have hoffsetByte := Emit.toNat_operand (Int.toNat_of_nonneg hoffset.1).symm (by omega)
  have hsizeByte := Emit.toNat_operand hsize hsmall
  have hwhere : site.base v.fp scope + (Emit.lowByte offset).toNat =
      site.low.length + before.length := by omega
  rw [Emit.loadVariable] at hitem
  by_cases hone : size = 1
  · rw [if_pos hone] at hitem
    obtain ⟨hcode, hnext⟩ := emitted_op hsite hitem hpc
    rw [hnext]
    exact h.load_one hE hcode hstack hwhere (by omega)
  · rw [if_neg hone] at hitem
    obtain ⟨hcode, hnext⟩ := emitted_op hsite hitem hpc
    rw [hnext]
    exact h.load hE hcode hstack hwhere hsizeByte

section
variable {rest a b : Bytes}

theorem unary_item (hsite : site.Carries c) (h : Stands site m v) {operator : UnaryOp} {size : Int}
    (hitem : Occurs c.items i (Emit.code (Emit.unary operator size))) (hpc : v.pc = c.address i)
    (hstack : v.stack = rest ++ a) (ha : a.length = size) (hsmall : a.length ≤ 255)
    (hshape : ∃ shape, unaryShape operator size = .ok shape) :
    Moves site m E fun v' => v' = { v with
      pc := c.address (i + 1), stack := rest ++ operator.apply a, above := [] } := by
  have hbyte := Emit.toNat_operand ha.symm hsmall
  cases operator with
  | not =>
    -- Only a single byte can be negated.
    obtain ⟨shape, hshape⟩ := hshape
    have hone := (unaryShape_ok hshape).2 rfl
    replace hone : a.length = 1 := by omega
    obtain ⟨x, rfl⟩ := List.length_eq_one_iff.mp hone
    obtain ⟨hcode, hnext⟩ := @emitted_op _ _ _ _ hsite .logicalNot [] hitem hpc
    have hfits := h.fits
    rw [hstack, List.length_append] at hfits
    rw [hnext]
    exact h.logical_not (fun hfull => by omega) hcode hstack
  | minus =>
    obtain ⟨hcode, hnext⟩ := @emitted_op _ _ _ _ hsite .minus [size] hitem hpc
    rw [hnext]
    exact h.minus hcode hstack hbyte
  | invert =>
    obtain ⟨hcode, hnext⟩ := @emitted_op _ _ _ _ hsite .bitwiseNot [size] hitem hpc
    rw [hnext]
    exact h.bitwise_not hcode hstack hbyte

/-- **An operator takes two values and leaves its result**, unless the divisor is zero. -/
theorem binary_item (hsite : site.Carries c) (h : Stands site m v) {operator : BinaryOp}
    {left right : Int} (hitem : Occurs c.items i (Emit.code (Emit.binary operator left right)))
    (hpc : v.pc = c.address i) (hstack : v.stack = rest ++ a ++ b) (ha : a.length = left)
    (hb : b.length = right) (hasmall : a.length ≤ 255) (hbsmall : b.length ≤ 255)
    (hshape : ∃ shape, binaryShape operator left right = .ok shape)
    (hdivision : operator.apply a b = none → ∀ here, E (.fault (.divisionByZero here))) :
    Moves site m E fun v' => ∃ value, operator.apply a b = some value ∧ v' = { v with
      pc := c.address (i + 1), stack := rest ++ value, above := [] } := by
  obtain ⟨shape, hshape⟩ := hshape
  have hsizes := binaryShape_ok hshape
  have hleft := Emit.toNat_operand ha.symm hasmall
  have hright := Emit.toNat_operand hb.symm hbsmall
  -- The result fits where the operands were.
  have hfits := h.fits
  rw [hstack, List.length_append, List.length_append] at hfits
  have hpos := (binaryShape_ne_zero hshape).2
  cases operator with
  | compare comparison =>
    dsimp only at hsizes
    rw [Emit.binary] at hitem
    by_cases hone : left = 1
    · rw [if_pos hone] at hitem
      obtain ⟨hcode, hnext⟩ := emitted_op hsite hitem hpc
      rw [hnext]
      exact (h.compare_byte (fun hfull => by omega) hcode hstack (by omega) (by omega)).mono
        fun v' hv' => ⟨_, rfl, hv'⟩
    · rw [if_neg hone] at hitem
      obtain ⟨hcode, hnext⟩ := emitted_op hsite hitem hpc
      rw [hnext]
      exact (h.compare (fun hfull => by omega) hcode hstack hleft (by omega)).mono
        fun v' hv' => ⟨_, rfl, hv'⟩
  | arithmetic operation =>
    dsimp only at hsizes
    rw [Emit.binary] at hitem
    by_cases hone : left = 1
    · rw [if_pos hone] at hitem
      obtain ⟨hcode, hnext⟩ := emitted_op hsite hitem hpc
      rw [hnext]
      exact h.arithmetic_byte hcode hstack (by omega) (by omega) fun hnone => hdivision hnone _
    · rw [if_neg hone] at hitem
      obtain ⟨hcode, hnext⟩ := emitted_op hsite hitem hpc
      rw [hnext]
      exact h.arithmetic hcode hstack hleft (by omega) fun hnone => hdivision hnone _
  | and =>
    obtain ⟨x, rfl⟩ := List.length_eq_one_iff.mp (by omega : a.length = 1)
    obtain ⟨y, rfl⟩ := List.length_eq_one_iff.mp (by omega : b.length = 1)
    obtain ⟨hcode, hnext⟩ := @emitted_op _ _ _ _ hsite .logicalAnd [] hitem hpc
    rw [hnext]
    exact (h.logical_and (fun hfull => by omega) hcode hstack).mono fun v' hv' => ⟨_, rfl, hv'⟩
  | or =>
    obtain ⟨x, rfl⟩ := List.length_eq_one_iff.mp (by omega : a.length = 1)
    obtain ⟨y, rfl⟩ := List.length_eq_one_iff.mp (by omega : b.length = 1)
    obtain ⟨hcode, hnext⟩ := @emitted_op _ _ _ _ hsite .logicalOr [] hitem hpc
    rw [hnext]
    exact (h.logical_or (fun hfull => by omega) hcode hstack).mono fun v' hv' => ⟨_, rfl, hv'⟩
  | bitwise operation =>
    obtain ⟨hcode, hnext⟩ := emitted_op hsite hitem hpc
    rw [hnext]
    exact (h.bitwise (fun hfull => by omega) hcode hstack hleft hright).mono
      fun v' hv' => ⟨_, rfl, hv'⟩
  | shift direction =>
    dsimp only at hsizes
    obtain ⟨amount, rfl⟩ := List.length_eq_one_iff.mp (by omega : b.length = 1)
    obtain ⟨hcode, hnext⟩ := emitted_op hsite hitem hpc
    rw [hnext]
    exact (h.shift hcode hstack hleft).mono fun v' hv' => ⟨_, rfl, hv'⟩

end

end Stands

end Terrace
