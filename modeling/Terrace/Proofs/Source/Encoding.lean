/-
# The bytes of a number literal

A number literal is a sign perhaps and digits, or a sign perhaps, `0x` and hexadecimal digits. A
decimal literal has bytes exactly if some number of bytes holds its value, with a sign bit if the
value is negative, and takes the fewest. A hexadecimal literal has bytes exactly if it has at most
eight digits; their number goes by that of the digits, and the value is cut to them.

Reading a literal is exact: digits are read as the number they denote or found to be too large, and
a number that is too large for the reader is too large for any literal.

Key definitions: `Number.twosComplement`, `FitsIn`, `Fewest`, `EncodesDecimal`,
`EncodesHexadecimal`, `signedWord`, `EncodesNumeral`.
Key theorems: `readDigits_eq`, `readDecimal_eq`, `encodeNumber_decimal`, `encodeNumber_hexadecimal`,
`number_literal_bytes`.
-/
import Terrace.Proofs.Source.Numerals
import Terrace.Proofs.Token.Cover

namespace Terrace

open Text

/-! ### What bytes hold -/

/-- The integer that bytes denote in two's complement, low byte first. -/
def Number.twosComplement (bytes : Bytes) : Int :=
  if 2 * value bytes < 256 ^ bytes.length then value bytes
  else (value bytes : Int) - 256 ^ bytes.length

/-- Whether so many bytes hold an integer: unsigned, or in two's complement if it is negative. -/
def FitsIn (width : Nat) (v : Int) : Prop :=
  if 0 ≤ v then v < 256 ^ width else -256 ^ width ≤ 2 * v

/-- The numbers of bytes that a literal may take. -/
def literalWidths : List Nat := [1, 2, 4]

/-- The fewest bytes that are enough. -/
structure Fewest (Enough : Nat → Prop) (width : Nat) : Prop where
  mem : width ∈ literalWidths
  enough : Enough width
  least : ∀ other ∈ literalWidths, Enough other → width ≤ other

/-- The bytes of a decimal literal with this value. -/
structure EncodesDecimal (v : Int) (found : Option Bytes) : Prop where
  fails : found = none ↔ v < -2 ^ 31 ∨ 2 ^ 32 - 1 < v
  width : ∀ bytes, found = some bytes → Fewest (FitsIn · v) bytes.length
  unsigned : ∀ bytes, found = some bytes → 0 ≤ v → (Number.value bytes : Int) = v
  signed : ∀ bytes, found = some bytes → v < 0 → Number.twosComplement bytes = v

/-- The bytes of a hexadecimal literal with so many digits and this value. -/
structure EncodesHexadecimal (digits : Nat) (v : Int) (found : Option Bytes) : Prop where
  fails : found = none ↔ 8 < digits
  width : ∀ bytes, found = some bytes → Fewest ((digits + 1) / 2 ≤ ·) bytes.length
  cut : ∀ bytes, found = some bytes → (Number.value bytes : Int) = v % 256 ^ bytes.length

theorem value_bytesOf (v : Int) (size : Nat) :
    (Number.value (bytesOf v size) : Int) = v % 256 ^ size := by
  have hpos : (0 : Int) < 256 ^ size := Int.pow_pos (by decide)
  have hmod := Int.emod_nonneg v (Int.ne_of_gt hpos)
  have hlt := Int.emod_lt_of_pos v hpos
  rw [← Value.bytes_ofInt, Value.value_bytes, Value.ofInt, Value.ofNat]
  dsimp only
  rw [Nat.mod_eq_of_lt]
  · omega
  · rw [← Int.ofNat_lt, Int.toNat_of_nonneg hmod]
    exact_mod_cast hlt

/-- **Bytes that hold an integer denote it.** -/
theorem bytesOf_fits {v : Int} {size : Nat} (h : FitsIn size v) :
    (0 ≤ v → (Number.value (bytesOf v size) : Int) = v) ∧
      (v < 0 → Number.twosComplement (bytesOf v size) = v) := by
  have hpos : (0 : Int) < 256 ^ size := Int.pow_pos (by decide)
  unfold FitsIn at h
  constructor
  · intro hv
    rw [if_pos hv] at h
    rw [value_bytesOf, Int.emod_eq_of_lt hv h]
  · intro hv
    rw [if_neg (by omega)] at h
    have hmod : v % 256 ^ size = v + 256 ^ size := by
      rw [← Int.add_emod_right, Int.emod_eq_of_lt (by omega) (by omega)]
    have hvalue := value_bytesOf v size
    rw [hmod] at hvalue
    have htop : ¬ 2 * Number.value (bytesOf v size) < 256 ^ (bytesOf v size).length := by
      rw [length_bytesOf, ← Int.ofNat_lt]
      push_cast
      omega
    rw [Number.twosComplement, if_neg htop, length_bytesOf, hvalue]
    omega

/-! ### Reading digits -/

theorem digitValue_of_isDigit {b : UInt8} (h : isDigit b = true) :
    ∃ d, digitValue b = some d ∧ d < 10 := by
  refine ⟨b.toNat - 48, by rw [digitValue, if_pos h], ?_⟩
  simp only [isDigit, Bool.and_eq_true, decide_eq_true_eq, UInt8.le_iff_toNat_le] at h
  have hnine : ('9'.toUInt8).toNat = 57 := rfl
  omega

theorem digitValue_of_isHexDigit {b : UInt8} (h : isHexDigit b = true) :
    ∃ d, digitValue b = some d ∧ d < 16 := by
  by_cases hdigit : isDigit b = true
  · obtain ⟨d, hd, hlt⟩ := digitValue_of_isDigit hdigit
    exact ⟨d, hd, by omega⟩
  have hletters : (('a'.toUInt8).toNat = 97 ∧ ('f'.toUInt8).toNat = 102 ∧
      ('z'.toUInt8).toNat = 122) ∧ ('A'.toUInt8).toNat = 65 ∧ ('F'.toUInt8).toNat = 70 ∧
      ('Z'.toUInt8).toNat = 90 := by decide
  rw [isHexDigit, Bool.eq_false_iff.mpr hdigit] at h
  simp only [Bool.false_or, Bool.or_eq_true, Bool.and_eq_true, decide_eq_true_eq,
    UInt8.le_iff_toNat_le] at h
  simp only [digitValue, hdigit, if_false, Bool.false_eq_true, Bool.and_eq_true, decide_eq_true_eq,
    UInt8.le_iff_toNat_le]
  rcases h with hlower | hupper
  · exact ⟨_, if_pos (by omega), by omega⟩
  · exact ⟨_, (if_neg (by omega)).trans (if_pos (by omega)), by omega⟩

/-- Digits of a base. -/
def AreDigits (base : Nat) (digits : Bytes) : Prop :=
  ∀ b ∈ digits, ∃ d, digitValue b = some d ∧ d < base

theorem le_foldl_digits {base : Nat} (hbase : 0 < base) : ∀ (digits : Bytes) (n : Nat),
    n ≤ digits.foldl (fun n b => n * base + (digitValue b).getD 0) n
  | [], _ => Nat.le_refl _
  | _ :: digits, n =>
    Nat.le_trans (Nat.le_trans (Nat.le_mul_of_pos_right n hbase) (Nat.le_add_right _ _))
      (le_foldl_digits hbase digits _)

/-- More digits make the number no smaller, so the first number above the bound tells that the
whole number is above it. -/
theorem digitsFrom_eq {base limit : Nat} (hbase : 0 < base) : ∀ {digits : Bytes} {n : Nat},
    AreDigits base digits → n ≤ limit →
    Numeral.digitsFrom base limit false n digits =
      if digits.foldl (fun n b => n * base + (digitValue b).getD 0) n ≤ limit then
        .ok (digits.foldl (fun n b => n * base + (digitValue b).getD 0) n)
      else .error .outOfRange
  | [], n, _, hn => by
    rw [List.foldl_nil, if_pos hn, Numeral.digitsFrom]
  | b :: digits, n, h, hn => by
    obtain ⟨d, hd, hlt⟩ := h b List.mem_cons_self
    have hrest : AreDigits base digits := fun c hc => h c (List.mem_cons_of_mem _ hc)
    rw [List.foldl_cons, hd, Option.getD_some, Numeral.digitsFrom]
    simp only [Bool.false_and, Bool.false_eq_true, if_false, hd]
    rw [if_neg (by omega)]
    by_cases habove : limit < n * base + d
    · have hgrow := le_foldl_digits hbase digits (n * base + d)
      rw [if_pos habove, if_neg (by omega)]
    · rw [if_neg habove, digitsFrom_eq hbase hrest (by omega)]

/-- **Digits are read as the number they denote**, unless it is above the bound. -/
theorem readDigits_eq {base limit : Nat} (hbase : 0 < base) {digits : Bytes} (hne : digits ≠ [])
    (h : AreDigits base digits) : Numeral.readDigits base limit digits =
      if digitsNumber base digits ≤ limit then .ok (digitsNumber base digits)
      else .error .outOfRange := by
  rw [Numeral.readDigits, if_neg (by simpa using hne), digitsFrom_eq hbase h (Nat.zero_le _)]
  rfl

theorem digitsNumber_lt {base : Nat} (digits : Bytes) (h : AreDigits base digits) :
    digitsNumber base digits < base ^ digits.length := by
  have hfold : ∀ (digits : Bytes) (n m : Nat), AreDigits base digits → n < m →
      digits.foldl (fun n b => n * base + (digitValue b).getD 0) n < m * base ^ digits.length := by
    intro digits
    induction digits with
    | nil => exact fun n m _ hn => by simpa using hn
    | cons b digits ih =>
      intro n m h hn
      obtain ⟨d, hd, hlt⟩ := h b List.mem_cons_self
      have hnext : n * base + d < m * base := by
        calc n * base + d < n * base + base := by omega
          _ = (n + 1) * base := by ring
          _ ≤ m * base := Nat.mul_le_mul_right base hn
      rw [List.foldl_cons, hd, Option.getD_some, List.length_cons, pow_succ', ← mul_assoc]
      exact ih _ _ (fun c hc => h c (List.mem_cons_of_mem _ hc)) hnext
  simpa [digitsNumber] using hfold digits 0 1 h Nat.one_pos

/-! ### Literals -/

/-- Digits with a minus sign in front, or without one. -/
def signedWord (negative : Bool) (digits : Bytes) : Bytes :=
  if negative then '-'.toUInt8 :: digits else digits

/-- Digits do not begin with a sign. -/
theorem digits_head {base : Nat} {digits : Bytes} (h : AreDigits base digits) :
    digits.head? ≠ some '-'.toUInt8 ∧ digits.head? ≠ some '+'.toUInt8 := by
  cases digits with
  | nil => exact ⟨nofun, nofun⟩
  | cons b digits =>
    obtain ⟨d, hd, _⟩ := h b List.mem_cons_self
    constructor
    · intro hminus
      obtain rfl : b = '-'.toUInt8 := Option.some.inj hminus
      cases hd
    · intro hplus
      obtain rfl : b = '+'.toUInt8 := Option.some.inj hplus
      cases hd

/-- **A decimal numeral is read as the number it denotes**, unless that lies outside the range of
the reader. -/
theorem readDecimal_eq (negative : Bool) {digits : Bytes} (hne : digits ≠ [])
    (h : AreDigits 10 digits) : Numeral.readDecimal 64 (signedWord negative digits) =
      if -2 ^ 63 ≤ signed negative (digitsNumber 10 digits) ∧
          signed negative (digitsNumber 10 digits) < 2 ^ 63 then
        .ok (signed negative (digitsNumber 10 digits))
      else .error .outOfRange := by
  have hread : ∀ limit, Numeral.readDigits 10 limit digits = _ := fun limit =>
    readDigits_eq (by decide) hne h
  have hhalf : Nat.pow 2 (64 - 1) = 2 ^ 63 := rfl
  obtain ⟨first, rest, rfl⟩ := List.exists_cons_of_ne_nil hne
  obtain ⟨hminus, hplus⟩ := digits_head h
  rw [List.head?_cons, ne_eq, Option.some.injEq] at hminus hplus
  generalize digitsNumber 10 (first :: rest) = n at hread ⊢
  -- A magnitude that is cut is out of range with either sign.
  cases negative with
  | true =>
    simp only [Numeral.readDecimal, Numeral.readSigned, signedWord, signed, if_true, hread, hhalf]
    by_cases hn : n ≤ 2 ^ 63
    · rw [if_pos (by omega), if_pos (by omega)]
      exact if_neg (by omega)
    · rw [if_neg (by omega : ¬ (-2 ^ 63 ≤ -(n : Int) ∧ -(n : Int) < 2 ^ 63))]
      by_cases hcut : n ≤ 2 * 2 ^ 63 - 1
      · rw [if_pos hcut]
        exact if_pos (by omega)
      · rw [if_neg hcut]
        show (if (2 ^ 63 : Nat) < 2 * 2 ^ 63 - 1 then Except.error _
          else Except.ok (-((2 * 2 ^ 63 - 1 : Nat) : Int))) = _
        rw [if_pos (by omega)]
  | false =>
    simp only [Numeral.readDecimal, Numeral.readSigned, signedWord, signed, hread, hhalf, hminus,
      hplus, Bool.false_eq_true, if_false]
    by_cases hn : n < 2 ^ 63
    · rw [if_pos (by omega), if_pos (by omega)]
      exact if_neg (by omega)
    · rw [if_neg (by omega : ¬ (-2 ^ 63 ≤ (n : Int) ∧ (n : Int) < 2 ^ 63))]
      by_cases hcut : n ≤ 2 * 2 ^ 63 - 1
      · rw [if_pos hcut]
        exact if_pos (by omega)
      · rw [if_neg hcut]
        show (if (2 ^ 63 : Nat) ≤ 2 * 2 ^ 63 - 1 then Except.error _
          else Except.ok ((2 * 2 ^ 63 - 1 : Nat) : Int)) = _
        rw [if_pos (by omega)]

theorem decimalSize?_none {v : Int} : decimalSize? v = none ↔ v < -2 ^ 31 ∨ 2 ^ 32 - 1 < v := by
  unfold decimalSize?
  split_ifs <;> simp <;> omega

/-- **The size of a decimal number is the least that holds it.** -/
theorem decimalSize?_some {v : Int} {size : Nat} (h : decimalSize? v = some size) :
    Fewest (FitsIn · v) size := by
  unfold decimalSize? at h
  split_ifs at h <;> cases h <;> refine ⟨by simp [literalWidths], ?_, ?_⟩ <;>
    simp only [literalWidths, FitsIn, List.mem_cons, List.not_mem_nil, or_false, forall_eq_or_imp,
      forall_eq] <;> split_ifs <;> omega

theorem hexSize_fewest {digits : Nat} (h : digits ≤ 8) :
    Fewest ((digits + 1) / 2 ≤ ·) (hexSize digits) := by
  unfold hexSize
  split_ifs <;> refine ⟨by simp [literalWidths], by omega, ?_⟩ <;>
    simp only [literalWidths, List.mem_cons, List.not_mem_nil, or_false, forall_eq_or_imp,
      forall_eq] <;> omega

/-- A word in which no sign stands behind the first place is told apart into its sign and what is
behind it. -/
theorem unsigned_signedWord (negative : Bool) {digits : Bytes}
    (h : digits.head? ≠ some '-'.toUInt8) :
    ((signedWord negative digits).head? = some '-'.toUInt8 ↔ negative = true) ∧
      (if (signedWord negative digits).head? = some '-'.toUInt8 then
        (signedWord negative digits).drop 1 else signedWord negative digits) = digits := by
  cases negative with
  | true => exact ⟨by simp [signedWord], by simp [signedWord]⟩
  | false => exact ⟨by simp [signedWord, h], by simp [signedWord, h]⟩

/-- Decimal digits have no mark for base sixteen. -/
theorem hexDigits?_digits {digits : Bytes} (h : ∀ b ∈ digits, isDigit b = true) :
    hexDigits? digits = none := by
  match digits with
  | [] | [_] => rfl
  | zero :: mark :: digits =>
    have hmark := h mark (by simp)
    rw [hexDigits?, if_neg]
    simp only [Bool.and_eq_true, Bool.or_eq_true, decide_eq_true_eq]
    rintro ⟨_, rfl | rfl⟩
    · revert hmark
      decide
    · revert hmark
      decide

/-- **A decimal literal has bytes exactly if its value is in range**, and then the fewest that hold
it. -/
theorem encodeNumber_decimal (negative : Bool) {digits : Bytes} (hne : digits ≠ [])
    (h : ∀ b ∈ digits, isDigit b = true) :
    EncodesDecimal (signed negative (digitsNumber 10 digits))
      (encodeNumber (signedWord negative digits)) := by
  have hdigits : AreDigits 10 digits := fun b hb => digitValue_of_isDigit (h b hb)
  have hencode : encodeNumber (signedWord negative digits) =
      (decimalSize? (signed negative (digitsNumber 10 digits))).map
        (bytesOf (signed negative (digitsNumber 10 digits))) := by
    unfold encodeNumber
    dsimp only
    rw [(unsigned_signedWord negative (digits_head hdigits).1).2, hexDigits?_digits h,
      readDecimal_eq negative hne hdigits]
    dsimp only
    generalize signed negative (digitsNumber 10 digits) = v
    by_cases hrange : -2 ^ 63 ≤ v ∧ v < 2 ^ 63
    · rw [if_pos hrange]
    · rw [if_neg hrange, decimalSize?_none.mpr (by omega), Option.map_none]
  rw [hencode]
  generalize signed negative (digitsNumber 10 digits) = v
  have hsome : ∀ bytes, (decimalSize? v).map (bytesOf v) = some bytes →
      ∃ size, Fewest (FitsIn · v) size ∧ bytes = bytesOf v size := by
    intro bytes hbytes
    obtain ⟨size, hsize, rfl⟩ := Option.map_eq_some_iff.mp hbytes
    exact ⟨size, decimalSize?_some hsize, rfl⟩
  refine ⟨by rw [Option.map_eq_none_iff, decimalSize?_none], fun bytes hbytes => ?_,
    fun bytes hbytes hv => ?_, fun bytes hbytes hv => ?_⟩
  · obtain ⟨size, hfewest, rfl⟩ := hsome bytes hbytes
    rwa [length_bytesOf]
  · obtain ⟨size, hfewest, rfl⟩ := hsome bytes hbytes
    exact (bytesOf_fits hfewest.enough).1 hv
  · obtain ⟨size, hfewest, rfl⟩ := hsome bytes hbytes
    exact (bytesOf_fits hfewest.enough).2 hv

/-- **A hexadecimal literal has bytes exactly if it has at most eight digits**, as many as these ask
for. -/
theorem encodeNumber_hexadecimal (negative : Bool) {mark : UInt8} {digits : Bytes}
    (hmark : mark = 'x'.toUInt8 ∨ mark = 'X'.toUInt8) (hne : digits ≠ [])
    (h : ∀ b ∈ digits, isHexDigit b = true) :
    EncodesHexadecimal digits.length (signed negative (digitsNumber 16 digits))
      (encodeNumber (signedWord negative ('0'.toUInt8 :: mark :: digits))) := by
  have hdigits : AreDigits 16 digits := fun b hb => digitValue_of_isHexDigit (h b hb)
  have hplain : ('0'.toUInt8 :: mark :: digits).head? ≠ some '-'.toUInt8 := by
    rw [List.head?_cons]
    decide
  have hsign := unsigned_signedWord negative hplain
  have hhex : hexDigits? ('0'.toUInt8 :: mark :: digits) = some digits := by
    rw [hexDigits?, if_pos (by simpa using hmark)]
  have hencode : encodeNumber (signedWord negative ('0'.toUInt8 :: mark :: digits)) =
      if 8 < digits.length then none
      else some (bytesOf (signed negative (digitsNumber 16 digits)) (hexSize digits.length)) := by
    unfold encodeNumber
    dsimp only
    rw [hsign.2, hhex]
    dsimp only
    rw [readDigits_eq (by decide) hne hdigits]
    simp only [hsign.1]
    by_cases hlong : 8 < digits.length
    · simp only [if_pos hlong]
      split <;> rfl
    · -- Eight digits are below the bound.
      have hlt := digitsNumber_lt digits hdigits
      have hpow : 16 ^ digits.length ≤ 16 ^ 8 := Nat.pow_le_pow_right (by decide) (by omega)
      rw [if_neg hlong, if_pos (by omega)]
      dsimp only
      rw [if_neg hlong]
      rfl
  rw [hencode]
  split_ifs with hlong
  · exact ⟨by simp [hlong], nofun, nofun⟩
  · refine ⟨by simp [hlong], ?_, ?_⟩
    · rintro _ ⟨⟩
      rw [length_bytesOf]
      exact hexSize_fewest (by omega)
    · rintro _ ⟨⟩
      rw [length_bytesOf]
      exact value_bytesOf _ _

/-- What the bytes of a number literal are, by its form. -/
inductive EncodesNumeral : Bytes → Option Bytes → Prop
  | decimal (negative : Bool) {digits : Bytes} {found : Option Bytes} (hne : digits ≠ [])
    (hdigits : ∀ b ∈ digits, isDigit b = true)
    (hfound : EncodesDecimal (signed negative (digitsNumber 10 digits)) found) :
    EncodesNumeral (signedWord negative digits) found
  | hexadecimal (negative : Bool) {mark : UInt8} {digits : Bytes} {found : Option Bytes}
    (hmark : mark = 'x'.toUInt8 ∨ mark = 'X'.toUInt8) (hne : digits ≠ [])
    (hdigits : ∀ b ∈ digits, isHexDigit b = true)
    (hfound : EncodesHexadecimal digits.length (signed negative (digitsNumber 16 digits)) found) :
    EncodesNumeral (signedWord negative ('0'.toUInt8 :: mark :: digits)) found

/-- **The bytes of number literals.** A word that is a number is a sign perhaps and digits, or a
sign perhaps, a mark for base sixteen and hexadecimal digits. Its bytes, if it has any, are 1, 2
or 4. A decimal literal has none exactly if its value is outside the range of 32 bits with or
without a sign; else it takes the fewest that hold its value, and they denote it. A hexadecimal
literal has none exactly if it has more than eight digits; else it takes the fewest that have room
for its digits, and they denote its value cut to their width. -/
theorem number_literal_bytes {word : Bytes} (h : TokenKind.ofWord word = .number) :
    EncodesNumeral word (encodeNumber word) := by
  obtain ⟨magnitude, hword, hmagnitude⟩ := (classified_ofWord word).number.mp h
  obtain ⟨negative, rfl⟩ : ∃ negative, word = signedWord negative magnitude := by
    rcases hword with rfl | rfl
    · exact ⟨false, rfl⟩
    · exact ⟨true, rfl⟩
  rcases hmagnitude with ⟨hne, hdigits⟩ | ⟨mark, digits, rfl, hmark, hne, hdigits⟩
  · exact .decimal negative hne hdigits (encodeNumber_decimal negative hne hdigits)
  · exact .hexadecimal negative hmark hne hdigits
      (encodeNumber_hexadecimal negative hmark hne hdigits)

/-- The lowest number that has bytes: its sign bit is all it has. -/
theorem lowest_literal_bytes :
    TokenKind.ofWord "-2147483648" = .number ∧
      encodeNumber "-2147483648" = some [0, 0, 0, 0x80] ∧
      EncodesNumeral "-2147483648" (encodeNumber "-2147483648") :=
  ⟨by decide, by decide, number_literal_bytes (by decide)⟩

end Terrace
