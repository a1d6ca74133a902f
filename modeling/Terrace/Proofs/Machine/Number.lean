/-
# What the number operations compute

A byte string of length `n` denotes a natural number below `256 ^ n` (`value`), and is
determined by its length and its number (`ofNat_value`). Each operation on byte strings
is an operation on numbers, reduced to the width: addition and subtraction by an induction
that carries the carry, multiplication by one over the digits, division by way of the bytes
in the opposite order, comparison from the top, shifts bit by bit.

Key definitions: `Number.ofNat`.
Key theorems: `value_lt`, `value_ofNat`, `ofNat_value`, `value_add`, `value_subtract`,
`value_multiply`, `divide_eq`, `equal_iff`, `less_iff`, `value_negate`, `value_invert`,
`value_bitwise`, `shiftLeft_eq`, `shiftRight_eq`.
-/
import Mathlib.Algebra.Order.Ring.Nat
import Mathlib.Tactic.Common
import Mathlib.Tactic.Ring
import Terrace.Machine.Number

namespace Terrace.Number

/-- The low `width` bytes of a natural number. -/
def ofNat : Nat → Nat → Bytes
  | 0, _ => []
  | width + 1, n => n.toUInt8 :: ofNat width (n / 256)

theorem value_lt : ∀ v : Bytes, value v < 256 ^ v.length
  | [] => by simp [value]
  | b :: rest => by
    have hb := b.toNat_lt
    have ih := value_lt rest
    rw [value, List.length_cons, Nat.pow_succ]
    omega

@[simp] theorem length_ofNat : ∀ width n : Nat, (ofNat width n).length = width
  | 0, _ => rfl
  | width + 1, n => by rw [ofNat, List.length_cons, length_ofNat width]

/-- A remainder modulo a power of 256, digit by digit. -/
theorem mod_pow_succ (x width : Nat) :
    x % 256 ^ (width + 1) = x % 256 + 256 * (x / 256 % 256 ^ width) := by
  rw [Nat.pow_succ, Nat.mul_comm, Nat.mod_mul]

theorem toNat_toUInt8 (n : Nat) : n.toUInt8.toNat = n % 256 := by
  simp only [Nat.toUInt8, UInt8.toNat_ofNat']

theorem value_ofNat : ∀ width n : Nat, value (ofNat width n) = n % 256 ^ width
  | 0, n => by simp [ofNat, value, Nat.mod_one]
  | width + 1, n => by
    rw [ofNat, value, value_ofNat width, toNat_toUInt8, mod_pow_succ]

/-- **A value is determined by its width and its number.** -/
theorem ofNat_value : ∀ v : Bytes, ofNat v.length (value v) = v
  | [] => rfl
  | b :: rest => by
    have hb := b.toNat_lt
    have hlow : (b.toNat + 256 * value rest).toUInt8 = b := by
      apply UInt8.toNat_inj.mp
      rw [toNat_toUInt8]
      omega
    have hrest : (b.toNat + 256 * value rest) / 256 = value rest := by omega
    rw [List.length_cons, value, ofNat, hlow, hrest, ofNat_value rest]

theorem ofNat_mod (width n : Nat) : ofNat width (n % 256 ^ width) = ofNat width n := by
  rw [← value_ofNat]
  have h := ofNat_value (ofNat width n)
  rwa [length_ofNat] at h

/-- Byte strings with a width and a number are the digits of the number. -/
theorem eq_ofNat {v : Bytes} {width n : Nat} (hlength : v.length = width)
    (hvalue : value v = n % 256 ^ width) : v = ofNat width n := by
  rw [← ofNat_value v, hlength, hvalue, ofNat_mod]

theorem value_append : ∀ a b : Bytes, value (a ++ b) = value a + 256 ^ a.length * value b
  | [], b => by simp [value]
  | x :: a, b => by
    rw [List.cons_append, value, value_append a b, value, List.length_cons, Nat.pow_succ]
    ring

/-! ### Addition and subtraction -/

theorem toNat_low (t : UInt64) : t.toUInt8.toNat = t.toNat % 256 := by
  rw [UInt64.toNat_toUInt8]

theorem toNat_high (t : UInt64) : (t >>> 8).toNat = t.toNat / 256 := by
  rw [UInt64.toNat_shiftRight, Nat.shiftRight_eq_div_pow]
  rfl

theorem length_addFrom : ∀ {a b : Bytes} (carry : UInt64), a.length = b.length →
    (addFrom carry a b).length = a.length
  | [], [], _, _ => rfl
  | x :: a, y :: b, carry, h => by
    rw [addFrom, List.length_cons, length_addFrom _ (Nat.succ.inj h), List.length_cons]

theorem value_addFrom : ∀ {a b : Bytes} {carry : UInt64}, a.length = b.length →
    carry.toNat ≤ 1 →
    value (addFrom carry a b) = (value a + value b + carry.toNat) % 256 ^ a.length
  | [], [], carry, _, _ => by simp [addFrom, value, Nat.mod_one]
  | x :: a, y :: b, carry, h, hcarry => by
    have hx := x.toNat_lt
    have hy := y.toNat_lt
    have ht : (x.toUInt64 + y.toUInt64 + carry).toNat = x.toNat + y.toNat + carry.toNat := by
      simp only [UInt64.toNat_add, UInt8.toNat_toUInt64]
      omega
    have hnext : ((x.toUInt64 + y.toUInt64 + carry) >>> 8).toNat =
        (x.toNat + y.toNat + carry.toNat) / 256 := by
      rw [toNat_high, ht]
    have ih := @value_addFrom a b ((x.toUInt64 + y.toUInt64 + carry) >>> 8)
      (Nat.succ.inj h) (by rw [hnext]; omega)
    have hlow : (value (x :: a) + value (y :: b) + carry.toNat) % 256 =
        (x.toNat + y.toNat + carry.toNat) % 256 := by
      rw [value, value]
      omega
    have hhigh : (value (x :: a) + value (y :: b) + carry.toNat) / 256 =
        value a + value b + (x.toNat + y.toNat + carry.toNat) / 256 := by
      rw [value, value]
      omega
    rw [addFrom, value, ih, hnext, toNat_low, ht, List.length_cons, mod_pow_succ, hlow, hhigh]

theorem length_add {a b : Bytes} (h : a.length = b.length) : (add a b).length = a.length :=
  length_addFrom 0 h

/-- **Addition wraps at the width.** -/
theorem value_add {a b : Bytes} (h : a.length = b.length) :
    value (add a b) = (value a + value b) % 256 ^ a.length := by
  rw [add, value_addFrom h (by decide)]
  rfl

theorem length_subtractFrom : ∀ {a b : Bytes} (borrow : UInt64), a.length = b.length →
    (subtractFrom borrow a b).length = a.length
  | [], [], _, _ => rfl
  | x :: a, y :: b, borrow, h => by
    rw [subtractFrom, List.length_cons, length_subtractFrom _ (Nat.succ.inj h), List.length_cons]

theorem value_subtractFrom : ∀ {a b : Bytes} {borrow : UInt64}, a.length = b.length →
    borrow.toNat ≤ 1 →
    value (subtractFrom borrow a b) =
      (value a + 256 ^ a.length - (value b + borrow.toNat)) % 256 ^ a.length
  | [], [], borrow, _, _ => by simp [subtractFrom, value, Nat.mod_one]
  | x :: a, y :: b, borrow, h, hborrow => by
    have hx := x.toNat_lt
    have hy := y.toNat_lt
    have hlen : a.length = b.length := Nat.succ.inj h
    have hb := value_lt b
    rw [← hlen] at hb
    have ht : (x.toUInt64 - y.toUInt64 - borrow).toNat =
        (x.toNat + 2 ^ 64 - (y.toNat + borrow.toNat)) % 2 ^ 64 := by
      simp only [UInt64.toNat_sub, UInt8.toNat_toUInt64]
      omega
    have hnext : (((x.toUInt64 - y.toUInt64 - borrow) >>> 8) &&& 1).toNat =
        if x.toNat < y.toNat + borrow.toNat then 1 else 0 := by
      rw [UInt64.toNat_and, toNat_high, ht, show UInt64.toNat 1 = 1 from rfl, Nat.and_one_is_mod]
      split_ifs <;> omega
    have ih := @value_subtractFrom a b (((x.toUInt64 - y.toUInt64 - borrow) >>> 8) &&& 1)
      hlen (by rw [hnext]; split_ifs <;> omega)
    have hlow : (value (x :: a) + 256 ^ (a.length + 1) - (value (y :: b) + borrow.toNat)) % 256 =
        (x.toNat + 2 ^ 64 - (y.toNat + borrow.toNat)) % 2 ^ 64 % 256 := by
      rw [value, value, Nat.pow_succ]
      omega
    have hhigh : (value (x :: a) + 256 ^ (a.length + 1) - (value (y :: b) + borrow.toNat)) / 256 =
        value a + 256 ^ a.length -
          (value b + if x.toNat < y.toNat + borrow.toNat then 1 else 0) := by
      rw [value, value, Nat.pow_succ]
      split_ifs <;> omega
    rw [subtractFrom, value, ih, hnext, toNat_low, ht, List.length_cons, mod_pow_succ, hlow, hhigh]

theorem length_subtract {a b : Bytes} (h : a.length = b.length) :
    (subtract a b).length = a.length :=
  length_subtractFrom 0 h

/-- **Subtraction wraps at the width.** -/
theorem value_subtract {a b : Bytes} (h : a.length = b.length) :
    value (subtract a b) = (value a + 256 ^ a.length - value b) % 256 ^ a.length := by
  rw [subtract, value_subtractFrom h (by decide)]
  rfl

/-! ### Multiplication and division -/

theorem length_addProduct (digit : UInt8) : ∀ (carry : UInt64) (sums b : Bytes),
    (addProduct digit carry sums b).length = sums.length
  | _, [], _ => by simp [addProduct]
  | _, sum :: sums, [] => by simp [addProduct]
  | carry, sum :: sums, y :: b => by
    rw [addProduct, List.length_cons, length_addProduct digit, List.length_cons]

theorem value_addProduct (digit : UInt8) : ∀ {carry : UInt64} {sums b : Bytes},
    sums.length ≤ b.length → carry.toNat ≤ 255 →
    value (addProduct digit carry sums b) =
      (value sums + digit.toNat * value b + carry.toNat) % 256 ^ sums.length
  | carry, [], b, _, _ => by simp [addProduct, value, Nat.mod_one]
  | carry, sum :: sums, y :: b, h, hcarry => by
    have hs := sum.toNat_lt
    have hy := y.toNat_lt
    have hd := digit.toNat_lt
    have hprod : digit.toNat * y.toNat ≤ 255 * 255 :=
      Nat.mul_le_mul (by omega) (by omega)
    have ht : (sum.toUInt64 + digit.toUInt64 * y.toUInt64 + carry).toNat =
        sum.toNat + digit.toNat * y.toNat + carry.toNat := by
      simp only [UInt64.toNat_add, UInt64.toNat_mul, UInt8.toNat_toUInt64]
      omega
    have hnext : ((sum.toUInt64 + digit.toUInt64 * y.toUInt64 + carry) >>> 8).toNat =
        (sum.toNat + digit.toNat * y.toNat + carry.toNat) / 256 := by
      rw [toNat_high, ht]
    have ih := @value_addProduct digit ((sum.toUInt64 + digit.toUInt64 * y.toUInt64 + carry) >>> 8)
      sums b (Nat.le_of_succ_le_succ h) (by rw [hnext]; omega)
    have hexpand : digit.toNat * value (y :: b) =
        digit.toNat * y.toNat + 256 * (digit.toNat * value b) := by
      rw [value]
      ring
    have hlow : (value (sum :: sums) + digit.toNat * value (y :: b) + carry.toNat) % 256 =
        (sum.toNat + digit.toNat * y.toNat + carry.toNat) % 256 := by
      rw [hexpand, value]
      omega
    have hhigh : (value (sum :: sums) + digit.toNat * value (y :: b) + carry.toNat) / 256 =
        value sums + digit.toNat * value b +
          (sum.toNat + digit.toNat * y.toNat + carry.toNat) / 256 := by
      rw [hexpand, value]
      omega
    rw [addProduct, value, ih, hnext, toNat_low, ht, List.length_cons, mod_pow_succ, hlow, hhigh]

theorem length_multiplyInto (b : Bytes) : ∀ (digits sums : Bytes),
    (multiplyInto b digits sums).length = sums.length
  | [], sums => rfl
  | digit :: digits, sums => by
    have hlength := length_addProduct digit 0 sums b
    rw [multiplyInto]
    cases hsum : addProduct digit 0 sums b with
    | nil => rw [← hlength, hsum]
    | cons low rest =>
      rw [hsum] at hlength
      simp only [List.length_cons] at hlength ⊢
      rw [length_multiplyInto b digits rest, hlength]

theorem value_multiplyInto (b : Bytes) : ∀ {digits sums : Bytes},
    sums.length ≤ b.length → digits.length = sums.length →
    value (multiplyInto b digits sums) =
      (value sums + value digits * value b) % 256 ^ sums.length
  | [], [], _, _ => by simp [multiplyInto, value, Nat.mod_one]
  | digit :: digits, sum :: sums, h, hdigits => by
    have hlength := length_addProduct digit 0 (sum :: sums) b
    have hvalue := @value_addProduct digit 0 _ _ h (by decide)
    rw [multiplyInto]
    cases hsum : addProduct digit 0 (sum :: sums) b with
    | nil => simp [hsum] at hlength
    | cons low rest =>
      rw [hsum, List.length_cons, List.length_cons] at hlength
      have hrest : rest.length = sums.length := Nat.succ.inj hlength
      have ih := @value_multiplyInto b digits rest
        (by rw [List.length_cons] at h; omega) (by rw [hrest]; exact Nat.succ.inj hdigits)
      have hlow := low.toNat_lt
      rw [hsum, value, show UInt64.toNat 0 = 0 from rfl, Nat.add_zero, List.length_cons,
        mod_pow_succ] at hvalue
      have hexpand : value (digit :: digits) * value b =
          digit.toNat * value b + 256 * (value digits * value b) := by
        rw [value]
        ring
      rw [value, ih, hrest, hexpand, List.length_cons, mod_pow_succ]
      -- The product of the digit fixes the low byte; the rest goes into the bytes above it.
      generalize hy : value (sum :: sums) + digit.toNat * value b = y at hvalue
      have hbyte : low.toNat = y % 256 := by omega
      have habove : value rest = y / 256 % 256 ^ sums.length := by omega
      have hquotient : (value (sum :: sums) + (digit.toNat * value b +
          256 * (value digits * value b))) / 256 = y / 256 + value digits * value b := by omega
      have hremainder : (value (sum :: sums) + (digit.toNat * value b +
          256 * (value digits * value b))) % 256 = y % 256 := by omega
      rw [hbyte, habove, hquotient, hremainder, Nat.mod_add_mod]

theorem length_multiply {a b : Bytes} : (multiply a b).length = a.length := by
  rw [multiply, length_multiplyInto, List.length_replicate]

/-- **Multiplication wraps at the width.** -/
theorem value_multiply {a b : Bytes} (h : a.length = b.length) :
    value (multiply a b) = value a * value b % 256 ^ a.length := by
  have hzero : ∀ n : Nat, value (List.replicate n 0) = 0 := by
    intro n
    induction n with
    | zero => rfl
    | succ n ih => rw [List.replicate_succ, value, ih]; rfl
  rw [multiply, value_multiplyInto b (by simp [h]) (by simp), hzero, Nat.zero_add,
    List.length_replicate]

/-- Bytes with the high one first denote the value of the bytes in the opposite order. -/
theorem ofBigEndian_reverse : ∀ v : Bytes, ofBigEndian v.reverse = value v
  | [] => rfl
  | b :: rest => by
    have ih := ofBigEndian_reverse rest
    rw [ofBigEndian] at ih ⊢
    rw [List.reverse_cons, List.foldl_append, ih, List.foldl_cons, List.foldl_nil, value]
    omega

theorem unbounded_eq (v : Bytes) : unbounded v = value v := ofBigEndian_reverse v

/-- **A number fits in a width if it is below the power of 256**, and is then written in the
opposite order of the value's bytes. -/
theorem fill?_eq : ∀ width n : Nat,
    fill? width n = if n < 256 ^ width then some (ofNat width n).reverse else none
  | 0, n => by
    have hzero : n < 256 ^ 0 ↔ n = 0 := by rw [Nat.pow_zero, Nat.lt_one_iff]
    simp only [fill?, hzero, ofNat, List.reverse_nil]
  | width + 1, n => by
    have hfits : n / 256 < 256 ^ width ↔ n < 256 ^ (width + 1) := by
      rw [Nat.pow_succ, Nat.div_lt_iff_lt_mul (by decide)]
    rw [fill?, fill?_eq width]
    by_cases hlt : n < 256 ^ (width + 1)
    · rw [if_pos hlt, if_pos (hfits.mpr hlt), Option.map_some, ofNat, List.reverse_cons]
    · rw [if_neg hlt, if_neg (hfits.not.mpr hlt), Option.map_none]

theorem bounded?_eq {width n : Nat} (h : n < 256 ^ width) :
    bounded? width n = some (ofNat width n) := by
  rw [bounded?, fill?_eq, if_pos h, Option.map_some, List.reverse_reverse]

/-- **A quotient always fits**, so only a division by zero has none. -/
theorem divide_eq (a b : Bytes) :
    divide a b = if value b = 0 then none else some (ofNat a.length (value a / value b)) := by
  have hfits : value a / value b < 256 ^ a.length :=
    Nat.lt_of_le_of_lt (Nat.div_le_self _ _) (value_lt a)
  rw [divide, unbounded_eq, unbounded_eq, bounded?_eq hfits]

/-- Arithmetic has a result unless it divides by zero. -/
theorem value_of_arithmetic_eq_none {operation : Arithmetic} {a b : Bytes}
    (h : arithmetic operation a b = none) : value b = 0 := by
  cases operation with
  | add | subtract | multiply => cases h
  | divide =>
    rw [arithmetic, divide_eq] at h
    split_ifs at h with hzero
    exact hzero

/-- The result of arithmetic has the width of its operands. -/
theorem length_arithmetic {operation : Arithmetic} {a b r : Bytes} (h : a.length = b.length)
    (hr : arithmetic operation a b = some r) : r.length = a.length := by
  cases operation with
  | add => exact Option.some.inj hr ▸ length_add h
  | subtract => exact Option.some.inj hr ▸ length_subtract h
  | multiply => exact Option.some.inj hr ▸ length_multiply
  | divide =>
    rw [arithmetic, divide_eq] at hr
    split_ifs at hr
    rw [← Option.some.inj hr, length_ofNat]

/-! ### Comparison -/

/-- **Values of one width are equal if their numbers are.** -/
theorem equal_iff : ∀ {a b : Bytes}, a.length = b.length →
    (equal a b = true ↔ value a = value b)
  | [], [], _ => by simp [equal]
  | x :: a, y :: b, h => by
    have hx := x.toNat_lt
    have hy := y.toNat_lt
    have ih := equal_iff (Nat.succ.inj h)
    rw [equal, Bool.and_eq_true, beq_iff_eq, ih, value, value, ← UInt8.toNat_inj]
    constructor
    · rintro ⟨hxy, hab⟩
      rw [hxy, hab]
    · intro hsum
      constructor <;> omega

theorem lessFromTop_iff : ∀ {a b : Bytes}, a.length = b.length →
    (lessFromTop a b = true ↔ value a.reverse < value b.reverse)
  | [], [], _ => by simp [lessFromTop]
  | x :: a, y :: b, h => by
    have hlen : a.length = b.length := Nat.succ.inj h
    have ih := lessFromTop_iff hlen
    have ha := value_lt a.reverse
    have hb := value_lt b.reverse
    have htop : ∀ (z : UInt8) (c : Bytes), value (c.reverse ++ [z]) =
        value c.reverse + 256 ^ c.length * z.toNat := by
      intro z c
      rw [value_append, List.length_reverse]
      rfl
    rw [lessFromTop, List.reverse_cons, List.reverse_cons, htop, htop, ← hlen]
    rw [List.length_reverse] at ha hb
    rw [← hlen] at hb
    by_cases hxy : x = y
    · subst hxy
      simp [ih]
    · have hne : x.toNat ≠ y.toNat := fun heq => hxy (UInt8.toNat_inj.mp heq)
      simp only [bne_iff_ne, ne_eq, hxy, not_false_eq_true, ↓reduceIte, decide_eq_true_eq,
        UInt8.lt_iff_toNat_lt]
      -- The more significant byte decides, whatever the others are.
      rcases Nat.lt_or_gt_of_ne hne with hlt | hgt
      · have hmul : 256 ^ a.length * (x.toNat + 1) ≤ 256 ^ a.length * y.toNat :=
          Nat.mul_le_mul_left _ hlt
        rw [Nat.mul_add, Nat.mul_one] at hmul
        constructor <;> intro <;> omega
      · have hmul : 256 ^ a.length * (y.toNat + 1) ≤ 256 ^ a.length * x.toNat :=
          Nat.mul_le_mul_left _ hgt
        rw [Nat.mul_add, Nat.mul_one] at hmul
        constructor <;> intro <;> omega

/-- **The order of values of one width is that of their numbers.** -/
theorem less_iff {a b : Bytes} (h : a.length = b.length) :
    less a b = true ↔ value a < value b := by
  rw [less, lessFromTop_iff (by simpa using h), List.reverse_reverse, List.reverse_reverse]

/-! ### Negation and inversion -/

@[simp] theorem length_invert (v : Bytes) : (invert v).length = v.length := by
  simp [invert]

theorem value_invert_add : ∀ v : Bytes, value (invert v) + value v + 1 = 256 ^ v.length
  | [] => rfl
  | b :: rest => by
    have hb := b.toNat_lt
    have ih := value_invert_add rest
    have hnot : (~~~b).toNat = 255 - b.toNat := by
      rw [UInt8.toNat_not]
      rfl
    have hcons : invert (b :: rest) = ~~~b :: invert rest := rfl
    rw [hcons, value, value, List.length_cons, Nat.pow_succ, hnot]
    omega

/-- **Inversion** subtracts from the largest number of the width. -/
theorem value_invert (v : Bytes) : value (invert v) = 256 ^ v.length - 1 - value v := by
  have h := value_invert_add v
  omega

@[simp] theorem length_addCarry : ∀ (carry : UInt64) (v : Bytes),
    (addCarry carry v).length = v.length
  | _, [] => rfl
  | carry, b :: rest => by
    rw [addCarry, List.length_cons, length_addCarry, List.length_cons]

theorem value_addCarry : ∀ {carry : UInt64} {v : Bytes}, carry.toNat ≤ 1 →
    value (addCarry carry v) = (value v + carry.toNat) % 256 ^ v.length
  | carry, [], _ => by simp [addCarry, value, Nat.mod_one]
  | carry, b :: rest, h => by
    have hb := b.toNat_lt
    have ht : (b.toUInt64 + carry).toNat = b.toNat + carry.toNat := by
      simp only [UInt64.toNat_add, UInt8.toNat_toUInt64]
      omega
    have hnext : ((b.toUInt64 + carry) >>> 8).toNat = (b.toNat + carry.toNat) / 256 := by
      rw [toNat_high, ht]
    have ih := @value_addCarry ((b.toUInt64 + carry) >>> 8) rest (by rw [hnext]; omega)
    have hlow : (value (b :: rest) + carry.toNat) % 256 = (b.toNat + carry.toNat) % 256 := by
      rw [value]
      omega
    have hhigh : (value (b :: rest) + carry.toNat) / 256 =
        value rest + (b.toNat + carry.toNat) / 256 := by
      rw [value]
      omega
    rw [addCarry, value, ih, hnext, toNat_low, ht, List.length_cons, mod_pow_succ, hlow, hhigh]

@[simp] theorem length_negate (v : Bytes) : (negate v).length = v.length := by
  rw [negate, length_addCarry, length_invert]

/-- **Negation** subtracts from zero and wraps. -/
theorem value_negate (v : Bytes) :
    value (negate v) = (256 ^ v.length - value v) % 256 ^ v.length := by
  have h := value_invert_add v
  rw [negate, value_addCarry (by decide), length_invert, show UInt64.toNat 1 = 1 from rfl]
  congr 1
  omega

/-! ### Bits -/

/-- A bitwise operation on natural numbers. -/
def bitwiseNat (operation : Bitwise) (a b : Nat) : Nat :=
  match operation with
  | .and => a &&& b
  | .or => a ||| b
  | .xor => a ^^^ b

theorem toNat_bitwiseByte (operation : Bitwise) (a b : UInt8) :
    (bitwiseByte operation a b).toNat = bitwiseNat operation a.toNat b.toNat := by
  cases operation with
  | and => exact UInt8.toNat_and a b
  | or => exact UInt8.toNat_or a b
  | xor => exact UInt8.toNat_xor a b

theorem bitwiseNat_mod (operation : Bitwise) (a b : Nat) :
    bitwiseNat operation a b % 256 = bitwiseNat operation (a % 256) (b % 256) := by
  cases operation with
  | and => exact @Nat.and_mod_two_pow a b 8
  | or => exact @Nat.or_mod_two_pow a b 8
  | xor => exact @Nat.xor_mod_two_pow a b 8

theorem bitwiseNat_div (operation : Bitwise) (a b : Nat) :
    bitwiseNat operation a b / 256 = bitwiseNat operation (a / 256) (b / 256) := by
  cases operation with
  | and => exact @Nat.and_div_two_pow a b 8
  | or => exact @Nat.or_div_two_pow a b 8
  | xor => exact @Nat.xor_div_two_pow a b 8

@[simp] theorem length_bitwise (operation : Bitwise) : ∀ a b : Bytes,
    (bitwise operation a b).length = b.length
  | [], [] => rfl
  | _ :: _, [] => rfl
  | [], _ :: b => by
    rw [bitwise, List.length_cons, length_bitwise operation [] b, List.length_cons]
  | _ :: a, _ :: b => by
    rw [bitwise, List.length_cons, length_bitwise operation a b, List.length_cons]

/-- **Bitwise operations** work on the numbers, cut to the width of the second. -/
theorem value_bitwise (operation : Bitwise) : ∀ a b : Bytes,
    value (bitwise operation a b) =
      bitwiseNat operation (value a) (value b) % 256 ^ b.length
  | [], [] => by simp [bitwise, value, Nat.mod_one]
  | _ :: _, [] => by simp [bitwise, value, Nat.mod_one]
  | [], y :: b => by
    have hy := y.toNat_lt
    have ih := value_bitwise operation [] b
    have hlow : (y.toNat + 256 * value b) % 256 = y.toNat := by omega
    have hhigh : (y.toNat + 256 * value b) / 256 = value b := by omega
    have hfirst : value (bitwise operation [] (y :: b)) =
        bitwiseNat operation 0 y.toNat + 256 * value (bitwise operation [] b) := by
      rw [bitwise, value, toNat_bitwiseByte]
      rfl
    rw [hfirst, ih, List.length_cons, mod_pow_succ, bitwiseNat_mod, bitwiseNat_div, value, value,
      hlow, hhigh]
  | x :: a, y :: b => by
    have hx := x.toNat_lt
    have hy := y.toNat_lt
    have ih := value_bitwise operation a b
    have hlow : (y.toNat + 256 * value b) % 256 = y.toNat := by omega
    have hhigh : (y.toNat + 256 * value b) / 256 = value b := by omega
    have hlow' : (x.toNat + 256 * value a) % 256 = x.toNat := by omega
    have hhigh' : (x.toNat + 256 * value a) / 256 = value a := by omega
    rw [bitwise, value, ih, List.length_cons, mod_pow_succ, bitwiseNat_mod, bitwiseNat_div, value,
      value, hlow, hhigh, hlow', hhigh', toNat_bitwiseByte]

/-! ### Shifts -/

theorem getElem?_ofNat : ∀ {width i : Nat} (n : Nat), i < width →
    (ofNat width n)[i]? = some (n / 256 ^ i).toUInt8
  | width + 1, 0, n, _ => by simp [ofNat]
  | width + 1, i + 1, n, h => by
    rw [ofNat, List.getElem?_cons_succ, getElem?_ofNat (n / 256) (Nat.lt_of_succ_lt_succ h),
      Nat.div_div_eq_div_mul, Nat.pow_succ, Nat.mul_comm 256]

/-- A bit of a byte of a value is a bit of its number. -/
theorem testBit_getD (v : Bytes) (i : Nat) {j : Nat} (hj : j < 8) :
    (v.getD i 0).toNat.testBit j = (value v).testBit (8 * i + j) := by
  have hbyte : (v.getD i 0).toNat = value v / 2 ^ (8 * i) % 2 ^ 8 := by
    rw [Nat.pow_mul]
    rcases Nat.lt_or_ge i v.length with hlt | hge
    · have hget := getElem?_ofNat (value v) hlt
      rw [ofNat_value] at hget
      rw [List.getD_eq_getElem?_getD, hget, Option.getD_some, toNat_toUInt8]
      rfl
    · have hzero : value v / (2 ^ 8) ^ i = 0 := by
        apply Nat.div_eq_of_lt
        exact Nat.lt_of_lt_of_le (value_lt v) (Nat.pow_le_pow_right (by decide) hge)
      rw [hzero, List.getD_eq_getElem?_getD, List.getElem?_eq_none hge]
      rfl
  rw [hbyte, Nat.testBit_mod_two_pow, Nat.testBit_div_two_pow]
  simp [hj, Nat.add_comm]

/-- Bytes are equal if their bits are. -/
theorem byte_ext {a b : UInt8} (h : ∀ j < 8, a.toNat.testBit j = b.toNat.testBit j) : a = b := by
  apply UInt8.toNat_inj.mp
  apply Nat.eq_of_testBit_eq
  intro j
  rcases Nat.lt_or_ge j 8 with hlt | hge
  · exact h j hlt
  · have hpow : 2 ^ 8 ≤ 2 ^ j := Nat.pow_le_pow_right (by decide) hge
    rw [Nat.testBit_lt_two_pow (Nat.lt_of_lt_of_le a.toNat_lt hpow),
      Nat.testBit_lt_two_pow (Nat.lt_of_lt_of_le b.toNat_lt hpow)]

theorem testBit_shiftLeft {b : UInt8} {bits j : Nat} (hbits : bits < 8) (hj : j < 8) :
    (b <<< bits.toUInt8).toNat.testBit j = (decide (bits ≤ j) && b.toNat.testBit (j - bits)) := by
  have hamount : bits.toUInt8.toNat % 8 = bits := by
    rw [toNat_toUInt8]
    omega
  rw [UInt8.toNat_shiftLeft, hamount, Nat.testBit_mod_two_pow, Nat.testBit_shiftLeft]
  simp [hj]

theorem testBit_shiftRight {b : UInt8} {bits j : Nat} (hbits : bits < 8) :
    (b >>> bits.toUInt8).toNat.testBit j = b.toNat.testBit (bits + j) := by
  have hamount : bits.toUInt8.toNat % 8 = bits := by
    rw [toNat_toUInt8]
    omega
  rw [UInt8.toNat_shiftRight, hamount, Nat.testBit_shiftRight]

/-- The byte put at place `i` by a shift to the left. -/
theorem leftShifted_eq {whole bits : Nat} (hbits : bits < 8) (v : Bytes) (i : Nat) :
    leftShifted whole bits v i = (value v * 2 ^ (8 * whole + bits) / 256 ^ i).toUInt8 := by
  apply byte_ext
  intro j hj
  -- The bit asked for is `8 * whole + bits` places further down in the number.
  have htarget : (value v * 2 ^ (8 * whole + bits) / 256 ^ i).toUInt8.toNat.testBit j =
      (decide (8 * whole + bits ≤ 8 * i + j) &&
        (value v).testBit (8 * i + j - (8 * whole + bits))) := by
    rw [toNat_toUInt8, ← Nat.shiftLeft_eq, show (256 : Nat) = 2 ^ 8 from rfl, ← Nat.pow_mul,
      Nat.testBit_mod_two_pow, Nat.testBit_div_two_pow, Nat.testBit_shiftLeft, Nat.add_comm j]
    simp [hj]
  rw [htarget, leftShifted]
  by_cases hlow : i < whole
  · have hfalse : ¬ 8 * whole + bits ≤ 8 * i + j := by omega
    simp [hlow, hfalse]
  · rw [if_neg hlow]
    have hfirst : (v.getD (i - whole) 0 <<< bits.toUInt8).toNat.testBit j =
        (decide (bits ≤ j) && (value v).testBit (8 * i + j - (8 * whole + bits))) := by
      rw [testBit_shiftLeft hbits hj]
      by_cases hle : bits ≤ j
      · rw [testBit_getD v _ (by omega)]
        congr 2
        omega
      · simp [hle]
    by_cases hsecond : 0 < bits ∧ 0 < i - whole
    · have hcond : (0 < bits && 0 < i - whole) = true := by simpa using hsecond
      have hle : 8 * whole + bits ≤ 8 * i + j := by omega
      simp only [hcond, ↓reduceIte, UInt8.toNat_or, Nat.testBit_or, hfirst]
      rw [testBit_shiftRight (by omega)]
      by_cases hj' : bits ≤ j
      · have hout : (v.getD (i - whole - 1) 0).toNat.testBit (8 - bits + j) = false := by
          apply Nat.testBit_lt_two_pow
          exact Nat.lt_of_lt_of_le (UInt8.toNat_lt _) (Nat.pow_le_pow_right (by decide) (by omega))
        rw [hout]
        simp [hj', hle]
      · rw [testBit_getD v _ (by omega)]
        have hplace : 8 * (i - whole - 1) + (8 - bits + j) = 8 * i + j - (8 * whole + bits) := by
          omega
        simp [hplace, hj', hle]
    · have hcond : ¬ (0 < bits && 0 < i - whole) = true := by simpa using hsecond
      rw [if_neg hcond, hfirst]
      congr 1
      simp only [decide_eq_decide]
      omega

theorem leftShifted_congr {whole bits i : Nat} {v w : Bytes}
    (h : ∀ n ≤ i, v.getD n 0 = w.getD n 0) :
    leftShifted whole bits v i = leftShifted whole bits w i := by
  simp only [leftShifted, h (i - whole) (by omega), h (i - whole - 1) (by omega)]

/-- The places below `count` are shifted, each from bytes that are still there. -/
theorem getElem?_shiftLeftBelow (whole bits : Nat) : ∀ (count : Nat) (v : Bytes) (i : Nat),
    count ≤ v.length → (shiftLeftBelow whole bits count v)[i]? =
      if i < count then some (leftShifted whole bits v i) else v[i]?
  | 0, v, i, _ => by simp [shiftLeftBelow]
  | count + 1, v, i, h => by
    have hkept : ∀ k, k < count → leftShifted whole bits
        (v.set count (leftShifted whole bits v count)) k = leftShifted whole bits v k := by
      intro k hk
      apply leftShifted_congr
      intro n hn
      rw [List.getD_eq_getElem?_getD, List.getElem?_set_ne (by omega),
        ← List.getD_eq_getElem?_getD]
    rw [shiftLeftBelow, getElem?_shiftLeftBelow whole bits count _ i (by simp; omega)]
    rcases Nat.lt_trichotomy i count with hlt | rfl | hgt
    · rw [if_pos hlt, if_pos (by omega), hkept i hlt]
    · rw [if_neg (by omega), if_pos (by omega), List.getElem?_set_self (by omega)]
    · rw [if_neg (by omega), if_neg (by omega), List.getElem?_set_ne (by omega)]

/-- **A shift to the left** multiplies by a power of two and wraps. -/
theorem shiftLeft_eq (v : Bytes) (amount : Nat) :
    shiftLeft v amount = ofNat v.length (value v * 2 ^ amount) := by
  apply List.ext_getElem?
  intro i
  rw [shiftLeft, getElem?_shiftLeftBelow _ _ _ _ _ (Nat.le_refl _)]
  split_ifs with hi
  · rw [leftShifted_eq (Nat.mod_lt _ (by decide)), Nat.div_add_mod, getElem?_ofNat _ hi]
  · rw [List.getElem?_eq_none (by omega), List.getElem?_eq_none (by rw [length_ofNat]; omega)]

/-- The byte put at place `i` by a shift to the right. -/
theorem rightShifted_eq {whole bits : Nat} (hbits : bits < 8) (v : Bytes) (i : Nat) :
    rightShifted whole bits v i = (value v / 2 ^ (8 * whole + bits) / 256 ^ i).toUInt8 := by
  apply byte_ext
  intro j hj
  have htarget : (value v / 2 ^ (8 * whole + bits) / 256 ^ i).toUInt8.toNat.testBit j =
      (value v).testBit (8 * (i + whole) + (bits + j)) := by
    rw [toNat_toUInt8, show (256 : Nat) = 2 ^ 8 from rfl, ← Nat.pow_mul,
      Nat.testBit_mod_two_pow, Nat.testBit_div_two_pow, Nat.testBit_div_two_pow]
    simp only [hj, decide_true, Bool.true_and]
    congr 1
    omega
  -- No bit of the number lies behind its last byte.
  have hbeyond : ∀ k, 8 * v.length ≤ k → (value v).testBit k = false := by
    intro k hk
    apply Nat.testBit_lt_two_pow
    refine Nat.lt_of_lt_of_le (value_lt v) ?_
    rw [show (256 : Nat) = 2 ^ 8 from rfl, ← Nat.pow_mul]
    exact Nat.pow_le_pow_right (by decide) hk
  rw [htarget, rightShifted]
  by_cases hout : v.length ≤ i + whole
  · rw [if_pos hout, hbeyond _ (by omega)]
    exact Nat.zero_testBit j
  · rw [if_neg hout]
    have hfirst : (v.getD (i + whole) 0 >>> bits.toUInt8).toNat.testBit j =
        (decide (bits + j < 8) && (value v).testBit (8 * (i + whole) + (bits + j))) := by
      rw [testBit_shiftRight hbits]
      by_cases hin : bits + j < 8
      · rw [testBit_getD v _ hin]
        simp [hin]
      · rw [Nat.testBit_lt_two_pow (Nat.lt_of_lt_of_le (UInt8.toNat_lt _)
          (Nat.pow_le_pow_right (by decide) (by omega)))]
        simp [hin]
    by_cases hsecond : 0 < bits ∧ i + whole + 1 < v.length
    · have hcond : (0 < bits && i + whole + 1 < v.length) = true := by simpa using hsecond
      simp only [hcond, ↓reduceIte, UInt8.toNat_or, Nat.testBit_or, hfirst]
      rw [testBit_shiftLeft (by omega) hj]
      by_cases hin : bits + j < 8
      · have hnot : ¬ 8 - bits ≤ j := by omega
        simp [hin, hnot]
      · have hle : 8 - bits ≤ j := by omega
        rw [testBit_getD v _ (by omega)]
        have hplace : 8 * (i + whole + 1) + (j - (8 - bits)) = 8 * (i + whole) + (bits + j) := by
          omega
        simp [hin, hle, hplace]
    · have hcond : ¬ (0 < bits && i + whole + 1 < v.length) = true := by simpa using hsecond
      rw [if_neg hcond, hfirst]
      by_cases hin : bits + j < 8
      · simp [hin]
      · rw [hbeyond _ (by omega)]
        simp

theorem rightShifted_congr {whole bits i : Nat} {v w : Bytes} (hlength : v.length = w.length)
    (h : ∀ n ≥ i, v.getD n 0 = w.getD n 0) :
    rightShifted whole bits v i = rightShifted whole bits w i := by
  simp only [rightShifted, hlength, h (i + whole) (by omega), h (i + whole + 1) (by omega)]

/-- The next `count` places from `i` on are shifted, each from bytes that are still there. -/
theorem getElem?_shiftRightFrom (whole bits : Nat) : ∀ (count i : Nat) (v : Bytes) (k : Nat),
    i + count ≤ v.length → (shiftRightFrom whole bits count i v)[k]? =
      if i ≤ k ∧ k < i + count then some (rightShifted whole bits v k) else v[k]?
  | 0, i, v, k, _ => by
    have hnot : ¬ (i ≤ k ∧ k < i + 0) := by omega
    rw [if_neg hnot, shiftRightFrom]
  | count + 1, i, v, k, h => by
    have hkept : ∀ n, i < n → rightShifted whole bits
        (v.set i (rightShifted whole bits v i)) n = rightShifted whole bits v n := by
      intro n hn
      apply rightShifted_congr List.length_set
      intro l hl
      rw [List.getD_eq_getElem?_getD, List.getElem?_set_ne (by omega),
        ← List.getD_eq_getElem?_getD]
    rw [shiftRightFrom, getElem?_shiftRightFrom whole bits count (i + 1) _ k (by simp; omega)]
    rcases Nat.lt_trichotomy i k with hlt | rfl | hgt
    · by_cases hin : k < i + (count + 1)
      · rw [if_pos (by omega), if_pos (by omega), hkept k hlt]
      · rw [if_neg (by omega), if_neg (by omega), List.getElem?_set_ne (by omega)]
    · rw [if_neg (by omega), if_pos (by omega), List.getElem?_set_self (by omega)]
    · rw [if_neg (by omega), if_neg (by omega), List.getElem?_set_ne (by omega)]

/-- **A shift to the right** divides by a power of two. -/
theorem shiftRight_eq (v : Bytes) (amount : Nat) :
    shiftRight v amount = ofNat v.length (value v / 2 ^ amount) := by
  apply List.ext_getElem?
  intro i
  rw [shiftRight, getElem?_shiftRightFrom _ _ _ _ _ _ (by omega)]
  rcases Nat.lt_or_ge i v.length with hlt | hge
  · rw [if_pos (by omega), rightShifted_eq (Nat.mod_lt _ (by decide)), Nat.div_add_mod,
      getElem?_ofNat _ hlt]
  · rw [if_neg (by omega), List.getElem?_eq_none hge,
      List.getElem?_eq_none (by rw [length_ofNat]; omega)]

theorem length_shift (direction : Direction) (v : Bytes) (amount : Nat) :
    (shift direction v amount).length = v.length := by
  cases direction with
  | left => rw [shift, shiftLeft_eq, length_ofNat]
  | right => rw [shift, shiftRight_eq, length_ofNat]

end Terrace.Number
