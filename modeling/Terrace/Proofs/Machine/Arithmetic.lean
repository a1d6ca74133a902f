/-
# Arithmetic where it stands

The operators for numbers work on the top of the value stack: the bytes of the result take the place
of those of the first operand, the second operand is taken off the stack but its bytes stay in
memory, and nothing else changes (`Machine.Overwrites`). What they leave is the result in the
integers modulo the width: sums, differences, negations and products wrap, a quotient never has to,
and a shift multiplies or divides by a power of two.

Key definitions: `Machine.Atop`, `Machine.Overwrites`, `Number.productRows`.
Key theorems: `sums_wrap`, `products_and_quotients`, `shifts_scale`.
-/
import Terrace.Proofs.Machine.Crash
import Terrace.Proofs.Machine.Number

namespace Terrace

/-! ### Numbers modulo the width -/

namespace Number

variable {a b : Bytes}

theorem value_injective (hlength : a.length = b.length) (h : value a = value b) : a = b := by
  rw [← ofNat_value a, ← ofNat_value b, hlength, h]

theorem intCast_value_add (h : a.length = b.length) :
    (value (add a b) : Int) = ((value a : Int) + value b) % 256 ^ a.length := by
  rw [value_add h]
  push_cast
  rfl

theorem intCast_value_subtract (h : a.length = b.length) :
    (value (subtract a b) : Int) = ((value a : Int) - value b) % 256 ^ a.length := by
  have hb := value_lt b
  rw [← h] at hb
  have hexact : ((value a + 256 ^ a.length - value b : Nat) : Int) =
      ((value a : Int) - value b) + 256 ^ a.length := by
    rw [Nat.cast_sub (by omega)]
    push_cast
    ring
  rw [value_subtract h, Int.natCast_emod, hexact]
  push_cast
  exact Int.add_emod_right _ _

theorem intCast_value_negate (v : Bytes) :
    (value (negate v) : Int) = -(value v : Int) % 256 ^ v.length := by
  have hv := value_lt v
  have hexact : ((256 ^ v.length - value v : Nat) : Int) = -(value v : Int) + 256 ^ v.length := by
    rw [Nat.cast_sub (Nat.le_of_lt hv)]
    push_cast
    ring
  rw [value_negate, Int.natCast_emod, hexact]
  push_cast
  exact Int.add_emod_right _ _

/-- A value is its own remainder. -/
theorem intCast_value_emod (v : Bytes) : (value v : Int) % 256 ^ v.length = value v := by
  have hv := value_lt v
  refine Int.emod_eq_of_lt (Int.natCast_nonneg _) ?_
  exact_mod_cast hv

/-- **Subtraction undoes addition.** -/
theorem subtract_add (h : a.length = b.length) : subtract (add a b) b = a := by
  have hadd : (add a b).length = b.length := (length_add h).trans h
  refine value_injective ((length_subtract hadd).trans (length_add h)) (Int.ofNat_inj.mp ?_)
  rw [intCast_value_subtract hadd, intCast_value_add h, length_add h, Int.emod_sub_emod,
    Int.add_sub_cancel, intCast_value_emod]

/-- **Subtraction is addition of the negation.** -/
theorem subtract_eq_add_negate (h : a.length = b.length) : subtract a b = add a (negate b) := by
  have hnegate : a.length = (negate b).length := by rw [length_negate, h]
  refine value_injective ((length_subtract h).trans (length_add hnegate).symm)
    (Int.ofNat_inj.mp ?_)
  rw [intCast_value_subtract h, intCast_value_add hnegate, intCast_value_negate, ← h,
    Int.add_emod_emod, Int.sub_eq_add_neg]

/-! ### The words of a product -/

/-- The words that a row of a product goes through: each digit of the second factor times `digit`,
with the byte it is added to and the carry, all in numbers without a bound. -/
def rowWords (digit : UInt8) : Nat → Bytes → Bytes → List Nat
  | carry, sum :: sums, y :: b =>
    let word := sum.toNat + digit.toNat * y.toNat + carry
    word :: rowWords digit (word / 256) sums b
  | _, _, _ => []

/-- The rows of a product, one for each digit of the first factor. The low byte of a row is final;
the others are what the next row is added to. -/
def productRows (b : Bytes) : Bytes → Bytes → List (List Nat)
  | [], _ => []
  | digit :: digits, sums =>
    let row := rowWords digit 0 sums b
    row :: productRows b digits (row.map Nat.toUInt8).tail

theorem rowWords_lt (digit : UInt8) : ∀ {carry : Nat} {sums b : Bytes}, carry ≤ 255 →
    ∀ word ∈ rowWords digit carry sums b, word < 2 ^ 16
  | _, [], _, _ => by simp [rowWords]
  | _, _ :: _, [], _ => by simp [rowWords]
  | carry, sum :: sums, y :: b, hcarry => by
    have hs := sum.toNat_lt
    have hy := y.toNat_lt
    have hd := digit.toNat_lt
    have hprod : digit.toNat * y.toNat ≤ 255 * 255 := Nat.mul_le_mul (by omega) (by omega)
    rw [rowWords, List.forall_mem_cons]
    exact ⟨by omega, rowWords_lt digit (by omega)⟩

/-- A row in words of sixteen bits is the row in numbers without a bound. -/
theorem addProduct_eq_rowWords (digit : UInt8) : ∀ {carry : UInt64} {sums b : Bytes},
    sums.length ≤ b.length → carry.toNat ≤ 255 →
    addProduct digit carry sums b = (rowWords digit carry.toNat sums b).map Nat.toUInt8
  | _, [], b, _, _ => by simp [addProduct, rowWords]
  | carry, sum :: sums, y :: b, h, hcarry => by
    have hword := @rowWords_lt digit carry.toNat (sum :: sums) (y :: b) hcarry
    rw [rowWords, List.forall_mem_cons] at hword
    have ht : (sum.toUInt64 + digit.toUInt64 * y.toUInt64 + carry).toNat =
        sum.toNat + digit.toNat * y.toNat + carry.toNat := by
      simp only [UInt64.toNat_add, UInt64.toNat_mul, UInt8.toNat_toUInt64]
      omega
    have hlow : (sum.toUInt64 + digit.toUInt64 * y.toUInt64 + carry).toUInt8 =
        (sum.toNat + digit.toNat * y.toNat + carry.toNat).toUInt8 := by
      apply UInt8.toNat_inj.mp
      rw [toNat_low, toNat_toUInt8, ht]
    have hnext : ((sum.toUInt64 + digit.toUInt64 * y.toUInt64 + carry) >>> 8).toNat =
        (sum.toNat + digit.toNat * y.toNat + carry.toNat) / 256 := by
      rw [toNat_high, ht]
    have ih := @addProduct_eq_rowWords digit
      ((sum.toUInt64 + digit.toUInt64 * y.toUInt64 + carry) >>> 8) sums b
      (Nat.le_of_succ_le_succ h) (by rw [hnext]; omega)
    rw [addProduct, rowWords, List.map_cons, ih, hlow, hnext]

theorem productRows_lt (b : Bytes) : ∀ {digits sums : Bytes},
    ∀ row ∈ productRows b digits sums, ∀ word ∈ row, word < 2 ^ 16
  | [], _ => by simp [productRows]
  | digit :: digits, sums => by
    rw [productRows, List.forall_mem_cons]
    exact ⟨rowWords_lt digit (by decide), productRows_lt b⟩

/-- **The bytes of a product are the low bytes of its rows.** -/
theorem multiplyInto_eq_productRows (b : Bytes) : ∀ {digits sums : Bytes},
    sums.length ≤ b.length → digits.length = sums.length →
    multiplyInto b digits sums = (productRows b digits sums).map fun row =>
      (row.headD 0).toUInt8
  | [], [], _, _ => rfl
  | digit :: digits, sum :: sums, h, hdigits => by
    have hrow := @addProduct_eq_rowWords digit 0 (sum :: sums) b h (by decide)
    have hlength := length_addProduct digit 0 (sum :: sums) b
    rw [show UInt64.toNat 0 = 0 from rfl] at hrow
    rw [hrow, List.length_map] at hlength
    rw [multiplyInto, productRows, List.map_cons, hrow]
    cases hwords : rowWords digit 0 (sum :: sums) b with
    | nil => rw [hwords] at hlength; simp at hlength
    | cons word words =>
      rw [hwords, List.length_cons, List.length_cons] at hlength
      rw [List.length_cons, List.length_cons] at hdigits
      rw [List.length_cons] at h
      have ih := @multiplyInto_eq_productRows b digits (words.map Nat.toUInt8)
        (by rw [List.length_map]; omega) (by rw [List.length_map]; omega)
      rw [List.map_cons, List.tail_cons]
      dsimp only
      rw [ih, List.headD_cons]

theorem divide_eq_none : divide a b = none ↔ value b = 0 := by
  rw [divide_eq]
  split_ifs with hzero <;> simp [hzero]

/-- **The quotient fits in the width**: it is the number of times the divisor goes into the value. -/
theorem of_divide {q : Bytes} (h : divide a b = some q) : q.length = a.length ∧
    value q * value b ≤ value a ∧ value a < (value q + 1) * value b := by
  rw [divide_eq] at h
  split_ifs at h with hzero
  rw [Option.some.injEq] at h
  subst h
  have hfits : value a / value b < 256 ^ a.length :=
    Nat.lt_of_le_of_lt (Nat.div_le_self _ _) (value_lt a)
  rw [length_ofNat, value_ofNat, Nat.mod_eq_of_lt hfits]
  refine ⟨rfl, Nat.div_mul_le_self _ _, ?_⟩
  rw [Nat.mul_comm]
  exact Nat.lt_mul_div_succ _ (Nat.pos_of_ne_zero hzero)

end Number

/-! ### The top of the stack -/

namespace Machine

/-- The bytes lie on top of the value stack. -/
structure Atop (m : Machine) (bytes : Bytes) : Prop where
  bottom : 0 ≤ m.stackBase
  above : m.stackBase + bytes.length ≤ m.sp
  inside : m.sp ≤ memorySize
  holds : m.memory.Holds (m.sp.toNat - bytes.length) bytes

/-- The work puts `new` in the place of the bytes of its length that lie below `behind` on top of
the stack. What was behind them is taken off the stack, but its bytes stay as they are, and so does
the rest of memory and, but for the program counter, of the machine. -/
def Overwrites (x : Exec Unit) (m : Machine) (new behind : Bytes) : Prop :=
  ∃ m', x.run m = .ok () m' ∧
    m'.memory.Holds (m.sp.toNat - (new ++ behind).length) (new ++ behind) ∧
    (∀ i, i < m.sp.toNat - (new ++ behind).length ∨ m.sp.toNat - behind.length ≤ i →
      m'.memory.bytes[i]? = m.memory.bytes[i]?) ∧
    m' = { m with pc := m'.pc, sp := m.sp - behind.length, memory := m'.memory }

variable {m : Machine} {here : Int} {a b v : Bytes}

/-- The bytes on top are read from memory. -/
theorem Atop.read (h : m.Atop v) : m.memory.read (m.sp - v.length).toNat v.length = v := by
  have habove := h.above
  have hbottom := h.bottom
  have hplace : (m.sp - v.length).toNat = m.sp.toNat - v.length := by omega
  rw [hplace, h.holds.read]

theorem Atop.run_pop (h : m.Atop v) :
    (pop here v.length).run m = .ok v { m with sp := m.sp - v.length } := by
  have habove := h.above
  rw [Machine.run_pop h.bottom h.inside (by omega), h.read]

theorem Atop.run_top (h : m.Atop v) : (top here v.length).run m = .ok v m := by
  have habove := h.above
  have hbottom := h.bottom
  have hslice : m.memory.slice? (m.sp - v.length) m.sp = some v :=
    h.holds.slice? (by have hinside := h.inside; omega) (by omega) (by omega)
  unfold top slice
  rw [EStateM.run_bind, EStateM.run_get]
  dsimp only
  rw [if_neg (by omega), EStateM.run_bind, EStateM.run_get]
  dsimp only
  rw [hslice]
  rfl

/-- With the last bytes off the stack, the ones below them are on top. -/
theorem Atop.below (h : m.Atop (a ++ b)) : Atop { m with sp := m.sp - b.length } a := by
  have habove := h.above
  have hbottom := h.bottom
  have hinside := h.inside
  have hholds := (Memory.holds_append.mp h.holds).1
  rw [List.length_append] at habove hholds
  refine ⟨hbottom, ?_, ?_, ?_⟩
  · dsimp only
    omega
  · dsimp only
    omega
  · have hplace : (m.sp - b.length).toNat - a.length = m.sp.toNat - (a.length + b.length) := by
      omega
    dsimp only
    rwa [hplace]

theorem Atop.last (h : m.Atop (a ++ b)) : m.Atop b := by
  have habove := h.above
  have hbottom := h.bottom
  have hholds := (Memory.holds_append.mp h.holds).2
  rw [List.length_append] at habove hholds
  refine ⟨hbottom, by omega, h.inside, ?_⟩
  have hplace : m.sp.toNat - (a.length + b.length) + a.length = m.sp.toNat - b.length := by omega
  rwa [hplace] at hholds

/-- **The top of the stack is replaced in its place.** -/
theorem overwrites_replaceTop {m₁ : Machine} {new : Bytes} (h : m.Atop (a ++ b))
    (hlength : new.length = a.length) {x : Exec Unit} (pc : Int)
    (hm₁ : m₁ = { m with pc := pc, sp := m.sp - b.length })
    (hrun : x.run m = (replaceTop new).run m₁) : Overwrites x m new b := by
  subst hm₁
  have habove := h.above
  have hbottom := h.bottom
  have hinside := h.inside
  have hbehind := (Memory.holds_append.mp h.holds).2
  rw [List.length_append] at habove hbehind
  have hwhere : (m.sp - b.length - new.length).toNat = m.sp.toNat - (new ++ b).length := by
    rw [List.length_append]
    omega
  refine ⟨{ m with
    pc := pc, sp := m.sp - b.length
    memory := m.memory.write (m.sp.toNat - (new ++ b).length) new }, ?_, ?_, ?_, rfl⟩
  · rw [hrun]
    unfold replaceTop store
    rw [EStateM.run_bind, EStateM.run_get]
    dsimp only
    rw [EStateM.run_modify, hwhere]
  · rw [List.length_append]
    refine Memory.holds_append.mpr ⟨Memory.holds_write (by omega), ?_⟩
    rw [← hlength] at hbehind
    exact hbehind.write (by omega)
  · rintro i (hlow | hhigh)
    · exact Memory.write_getElem? (Or.inl hlow)
    · refine Memory.write_getElem? (Or.inr ?_)
      rw [List.length_append]
      omega

theorem run_arithmetic {operation : Arithmetic} (h : m.Atop (a ++ b)) (hlength : a.length = b.length) :
    (arithmetic here operation a.length).run m =
      (match Number.arithmetic operation a b with
        | some result => replaceTop result
        | none => fail (.divisionByZero here)).run { m with sp := m.sp - b.length } := by
  rw [arithmetic_eq, EStateM.run_bind]
  nth_rewrite 1 [hlength]
  rw [h.last.run_pop]
  cases hresult : Number.arithmetic operation a b <;>
    simp only [EStateM.run_bind, h.below.run_top, hresult]

/-- **Arithmetic puts the result in the place of the first operand.** -/
theorem overwrites_arithmetic {operation : Arithmetic} {result : Bytes} (h : m.Atop (a ++ b))
    (hlength : a.length = b.length) (hresult : Number.arithmetic operation a b = some result) :
    Overwrites (arithmetic here operation a.length) m result b := by
  refine overwrites_replaceTop h (Number.length_arithmetic hlength hresult) m.pc rfl ?_
  rw [run_arithmetic h hlength, hresult]

/-- A division by zero leaves memory as it is. -/
theorem run_divide_zero (h : m.Atop (a ++ b)) (hlength : a.length = b.length)
    (hzero : Number.value b = 0) : (arithmetic here .divide a.length).run m =
      .error (.fault (.divisionByZero here)) { m with sp := m.sp - b.length } := by
  rw [run_arithmetic h hlength, Number.arithmetic, Number.divide_eq_none.mpr hzero]
  rfl

theorem overwrites_minus {size : UInt8} (h : m.Atop v) (hsize : m.memory.get? m.pc = some size)
    (hlength : size.toNat = v.length) :
    Overwrites (perform here .minus) m (Number.negate v) [] := by
  have hatop : m.Atop (v ++ []) := by rwa [List.append_nil]
  refine overwrites_replaceTop hatop (Number.length_negate v) (m.pc + 1) rfl ?_
  have hfetched : Atop { m with pc := m.pc + 1 } v := ⟨h.bottom, h.above, h.inside, h.holds⟩
  unfold perform
  rw [EStateM.run_bind, run_fetchNat hsize]
  dsimp only
  rw [EStateM.run_bind, hlength, hfetched.run_top]
  simp

theorem overwrites_shift {direction : Direction} {size amount : UInt8}
    (h : m.Atop (v ++ [amount])) (hsize : m.memory.get? m.pc = some size)
    (hlength : size.toNat = v.length) :
    Overwrites (perform here (.shift direction)) m (Number.shift direction v amount.toNat)
      [amount] := by
  refine overwrites_replaceTop h (Number.length_shift direction v _) (m.pc + 1) rfl ?_
  have hfetched : Atop { m with pc := m.pc + 1 } (v ++ [amount]) :=
    ⟨h.bottom, h.above, h.inside, h.holds⟩
  have hpop := @Atop.run_pop _ here _ hfetched.last
  have htop := @Atop.run_top _ here _ hfetched.below
  rw [List.length_singleton] at hpop htop
  unfold perform popByte
  rw [EStateM.run_bind, run_fetchNat hsize]
  dsimp only
  rw [EStateM.run_bind, EStateM.run_bind, hpop]
  dsimp only
  rw [EStateM.run_pure]
  dsimp only
  rw [EStateM.run_bind, hlength, htop]
  rfl

end Machine

/-! ### The operators -/

open Machine

/-- **Sums, differences and negations wrap at the width**, so subtraction undoes addition and is
addition of the negation. The machine puts them in the place of the first operand and leaves the
second as it is. -/
theorem sums_wrap {a b : Bytes} (hlength : a.length = b.length) :
    (Number.value (Number.add a b) : Int) =
        ((Number.value a : Int) + Number.value b) % 256 ^ a.length ∧
      (Number.value (Number.subtract a b) : Int) =
        ((Number.value a : Int) - Number.value b) % 256 ^ a.length ∧
      (Number.value (Number.negate a) : Int) = -(Number.value a : Int) % 256 ^ a.length ∧
      (Number.add a b).length = a.length ∧ (Number.subtract a b).length = a.length ∧
      (Number.negate a).length = a.length ∧
      Number.subtract (Number.add a b) b = a ∧
      Number.subtract a b = Number.add a (Number.negate b) ∧
      (∀ (m : Machine) (here : Int), m.Atop (a ++ b) →
        Overwrites (arithmetic here .add a.length) m (Number.add a b) b ∧
        Overwrites (arithmetic here .subtract a.length) m (Number.subtract a b) b) ∧
      ∀ (m : Machine) (here : Int) (size : UInt8), m.Atop a → m.memory.get? m.pc = some size →
        size.toNat = a.length → Overwrites (perform here .minus) m (Number.negate a) [] :=
  ⟨Number.intCast_value_add hlength, Number.intCast_value_subtract hlength,
    Number.intCast_value_negate a, Number.length_add hlength, Number.length_subtract hlength,
    Number.length_negate a, Number.subtract_add hlength, Number.subtract_eq_add_negate hlength,
    fun _ _ h => ⟨overwrites_arithmetic h hlength rfl, overwrites_arithmetic h hlength rfl⟩,
    fun _ _ _ h hsize hwidth => overwrites_minus h hsize hwidth⟩

/-- A machine with two numbers of two bytes on its stack, and their size to be fetched. -/
def burdened : Machine where
  memory := (Memory.zero.write 0 [2]).write 1 [0xff, 0xff, 0x01, 0x80]
  stackBase := 1
  sp := 5
  stackLimit := 8

theorem burdened_atop : burdened.Atop ([0xff, 0xff] ++ [0x01, 0x80]) := by
  refine ⟨by decide, by decide, by decide, ?_⟩
  exact @Memory.holds_write [0xff, 0xff, 0x01, 0x80] (Memory.zero.write 0 [2]) 1 (by decide)

theorem burdened_size : burdened.memory.get? burdened.pc = some 2 := by
  have hsize : (Memory.zero.write 0 [2]).Holds 0 [2] := Memory.holds_write (by decide)
  have hkept : burdened.memory.Holds 0 [2] := hsize.write (Or.inl (by decide))
  exact @Memory.Holds.get? _ _ _ hkept 0 _ rfl

theorem sums_wrap_burdened :
    Overwrites (arithmetic 0 .add 2) burdened [0x00, 0x80] [0x01, 0x80] ∧
      Overwrites (arithmetic 0 .subtract 2) burdened [0xfe, 0x7f] [0x01, 0x80] ∧
      Overwrites (perform 0 .minus) burdened [0xff, 0x7f] [] := by
  have hfirst := (sums_wrap (a := [0xff, 0xff]) (b := [0x01, 0x80]) rfl).2.2.2.2.2.2.2.2.1
    burdened 0 burdened_atop
  have hsecond := (sums_wrap (a := [0x01, 0x80]) (b := [0x01, 0x80]) rfl).2.2.2.2.2.2.2.2.2
    burdened 0 2 burdened_atop.last burdened_size rfl
  exact ⟨hfirst.1, hfirst.2, hsecond⟩

/-- **Products wrap at the width, and quotients fit in it.** No word of a product has more than
sixteen bits: computed in numbers without a bound the rows have words below that, and the bytes of
the product are their low bytes. Only a division by zero is refused, with memory as it was. -/
theorem products_and_quotients {a b : Bytes} (hlength : a.length = b.length) :
    Number.value (Number.multiply a b) =
        Number.value a * Number.value b % 256 ^ a.length ∧
      (Number.multiply a b).length = a.length ∧
      (∀ row ∈ Number.productRows b a (List.replicate a.length 0), ∀ word ∈ row, word < 2 ^ 16) ∧
      Number.multiply a b = (Number.productRows b a (List.replicate a.length 0)).map
        (fun row => (row.headD 0).toUInt8) ∧
      (Number.divide a b = none ↔ Number.value b = 0) ∧
      (∀ q, Number.divide a b = some q → q.length = a.length ∧
        Number.value q * Number.value b ≤ Number.value a ∧
        Number.value a < (Number.value q + 1) * Number.value b) ∧
      ∀ (m : Machine) (here : Int), m.Atop (a ++ b) →
        Overwrites (arithmetic here .multiply a.length) m (Number.multiply a b) b ∧
        (Number.value b = 0 → (arithmetic here .divide a.length).run m =
          .error (.fault (.divisionByZero here)) { m with sp := m.sp - b.length }) ∧
        ∀ q, Number.divide a b = some q → Overwrites (arithmetic here .divide a.length) m q b := by
  refine ⟨Number.value_multiply hlength, Number.length_multiply, Number.productRows_lt b, ?_,
    Number.divide_eq_none, fun q => Number.of_divide, fun m here h =>
      ⟨overwrites_arithmetic h hlength rfl, run_divide_zero h hlength,
        fun q hq => overwrites_arithmetic h hlength hq⟩⟩
  rw [Number.multiply, Number.multiplyInto_eq_productRows b]
  · rw [List.length_replicate, hlength]
  · rw [List.length_replicate]

theorem products_and_quotients_burdened :
    Overwrites (arithmetic 0 .multiply 2) burdened [0xff, 0x7f] [0x01, 0x80] ∧
      Overwrites (arithmetic 0 .divide 2) burdened [0x01, 0x00] [0x01, 0x80] := by
  obtain ⟨hproduct, -, hquotient⟩ :=
    (products_and_quotients (a := [0xff, 0xff]) (b := [0x01, 0x80]) rfl).2.2.2.2.2.2
      burdened 0 burdened_atop
  exact ⟨hproduct, hquotient _ (by decide)⟩

/-- **Shifts scale by a power of two**, to the left modulo the width and to the right rounding down,
although each byte is overwritten in the place where the others are still read. -/
theorem shifts_scale (v : Bytes) (amount : Nat) :
    Number.value (Number.shiftLeft v amount) =
        Number.value v * 2 ^ amount % 256 ^ v.length ∧
      Number.value (Number.shiftRight v amount) = Number.value v / 2 ^ amount ∧
      (Number.shiftLeft v amount).length = v.length ∧
      (Number.shiftRight v amount).length = v.length ∧
      ∀ (m : Machine) (here : Int) (size count : UInt8), m.Atop (v ++ [count]) →
        m.memory.get? m.pc = some size → size.toNat = v.length → count.toNat = amount →
        Overwrites (perform here (.shift .left)) m (Number.shiftLeft v amount) [count] ∧
        Overwrites (perform here (.shift .right)) m (Number.shiftRight v amount) [count] := by
  refine ⟨?_, ?_, Number.length_shift .left v amount, Number.length_shift .right v amount, ?_⟩
  · rw [Number.shiftLeft_eq, Number.value_ofNat]
  · rw [Number.shiftRight_eq, Number.value_ofNat]
    exact Nat.mod_eq_of_lt (Nat.lt_of_le_of_lt (Nat.div_le_self _ _) (Number.value_lt v))
  · rintro m here size count h hsize hwidth rfl
    exact ⟨overwrites_shift h hsize hwidth, overwrites_shift h hsize hwidth⟩

theorem shifts_scale_burdened :
    Overwrites (perform 0 (.shift .left)) { burdened with sp := 4 } [0xfe, 0xff] [0x01] ∧
      Overwrites (perform 0 (.shift .right)) { burdened with sp := 4 } [0xff, 0x7f] [0x01] := by
  have hatop : Atop { burdened with sp := 4 } ([0xff, 0xff] ++ [0x01]) :=
    ⟨by decide, by decide, by decide,
      ((@Memory.holds_append _ _ [0xff, 0xff, 0x01] [0x80]).mp burdened_atop.holds).1⟩
  exact (shifts_scale [0xff, 0xff] 1).2.2.2.2 _ 0 2 1 hatop burdened_size rfl rfl

end Terrace
