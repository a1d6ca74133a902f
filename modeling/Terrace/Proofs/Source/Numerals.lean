/-
# What number literals denote

A number literal has a sign perhaps and digits, which denote a number in base ten or, behind a
mark, in base sixteen. Its bytes are those of this number in two's complement: a decimal number
takes the fewest bytes it fits in, a hexadecimal one as many as its digits ask for.

Key definitions: `Value.ofInt`, `digitsNumber`, `numeralValue`.
Key theorems: `Value.bytes_ofInt`, `bytes_numeralValue`.
-/
import Terrace.Proofs.Source.Interpretation
import Terrace.Source.Literal

namespace Terrace

open Text

theorem length_bytesOf : ∀ (size : Nat) (v : Int), (bytesOf v size).length = size
  | 0, _ => rfl
  | size + 1, v => by rw [bytesOf, List.length_cons, length_bytesOf size]

/-- An integer in two's complement, cut to the width. -/
def Value.ofInt (width : Nat) (n : Int) : Value := .ofNat width (n % 256 ^ width).toNat

/-- The low byte of an integer cut to a width, and what is above it. -/
theorem emod_pow_succ (n : Int) (width : Nat) :
    n % 256 ^ (width + 1) = n % 256 + 256 * (n / 256 % 256 ^ width) := by
  rw [pow_succ', Int.emod_def n (256 * _), ← Int.ediv_ediv_of_nonneg (by decide),
    Int.emod_def (n / 256), mul_assoc]
  omega

theorem Value.bytes_ofInt (n : Int) (width : Nat) : (ofInt width n).bytes = bytesOf n width := by
  rw [ofInt, bytes_ofNat]
  induction width generalizing n with
  | zero => rfl
  | succ width ih =>
    have hpos : (0 : Int) < 256 ^ width := Int.pow_pos (by decide)
    have hhigh := Int.emod_nonneg (n / 256) (Int.ne_of_gt hpos)
    have hlow : (n % 256 ^ (width + 1)).toNat.toUInt8 = (n % 256).toNat.toUInt8 := by
      rw [← UInt8.toNat_inj, Number.toNat_toUInt8, Number.toNat_toUInt8, emod_pow_succ]
      omega
    have hrest : (n % 256 ^ (width + 1)).toNat / 256 = (n / 256 % 256 ^ width).toNat := by
      rw [emod_pow_succ]
      omega
    rw [Number.ofNat, bytesOf, hlow, hrest, ih]

/-! ### Digits -/

/-- The number that digits denote in a base, the first one with the highest weight. -/
def digitsNumber (base : Nat) (digits : Bytes) : Nat :=
  digits.foldl (fun n b => n * base + (digitValue b).getD 0) 0

theorem digitsFrom_ok {base limit : Nat} : ∀ {digits : Bytes} {n r : Nat},
    Numeral.digitsFrom base limit false n digits = .ok r →
    r = digits.foldl (fun n b => n * base + (digitValue b).getD 0) n
  | [], n, r, h => by
    cases h
    rfl
  | b :: digits, n, r, h => by
    rw [Numeral.digitsFrom] at h
    cases hdigit : digitValue b with
    | none => simp [hdigit] at h
    | some d =>
      simp only [hdigit, Bool.false_and, Bool.false_eq_true, if_false] at h
      split_ifs at h
      rw [digitsFrom_ok h, List.foldl_cons, hdigit, Option.getD_some]

theorem readDigits_ok {base limit : Nat} {digits : Bytes} {r : Nat}
    (h : Numeral.readDigits base limit digits = .ok r) : r = digitsNumber base digits := by
  unfold Numeral.readDigits at h
  split_ifs at h
  exact digitsFrom_ok h

/-! ### Numerals -/

/-- Whether a numeral has a minus sign. -/
def isNegative (numeral : Bytes) : Bool := numeral.head? == some '-'.toUInt8

/-- A number with its sign. -/
def signed (negative : Bool) (n : Nat) : Int := if negative then -(n : Int) else n

/-- **What a numeral denotes.** -/
def numeralValue (numeral : Bytes) : Value :=
  let digits := if isNegative numeral then numeral.drop 1 else numeral
  match hexDigits? digits with
  | some digits =>
    .ofInt (hexSize digits.length) (signed (isNegative numeral) (digitsNumber 16 digits))
  | none =>
    let n := signed (isNegative numeral) (digitsNumber 10 digits)
    .ofInt ((decimalSize? n).getD 0) n

/-- A numeral with a sign is read like its digits: a magnitude that was cut is out of range with
any sign. -/
theorem readSigned_ok {bits : Nat} (hbits : 2 ≤ bits)
    {read : Nat → Bytes → Except Numeral.Fault Nat} {text : Bytes} {n : Int}
    (h : Numeral.readSigned bits read text = .ok n) :
    ∃ negative magnitude limit rest, read limit rest = .ok magnitude ∧
      n = signed negative magnitude ∧
      (negative = true ∧ text = '-'.toUInt8 :: rest ∨
        negative = false ∧ (text = '+'.toUInt8 :: rest ∨
          text = rest ∧ text.head? ≠ some '-'.toUInt8)) := by
  unfold Numeral.readSigned at h
  extract_lets half magnitude bounded at h
  have hhalf : 2 ^ 1 ≤ half := Nat.pow_le_pow_right (by decide) (by omega)
  have hread : ∀ negative rest, (magnitude rest >>= bounded negative) = .ok n →
      ∃ value, read (2 * half - 1) rest = .ok value ∧ n = signed negative value := by
    intro negative rest h
    obtain ⟨value, hvalue, hbounded⟩ : ∃ value, magnitude rest = .ok value ∧
        bounded negative value = .ok n := by
      cases hrest : magnitude rest with
      | ok value =>
        rw [hrest] at h
        exact ⟨value, rfl, h⟩
      | error fault =>
        rw [hrest] at h
        cases h
    have hle : value ≤ half ∧ n = signed negative value := by
      cases negative with
      | true =>
        simp only [bounded, if_true] at hbounded
        split_ifs at hbounded
        cases hbounded
        exact ⟨by omega, rfl⟩
      | false =>
        simp only [bounded, Bool.false_eq_true, if_false] at hbounded
        split_ifs at hbounded
        cases hbounded
        exact ⟨by omega, rfl⟩
    refine ⟨value, ?_, hle.2⟩
    simp only [magnitude] at hvalue
    split at hvalue
    · cases hvalue
      omega
    · exact hvalue
  cases text with
  | nil => cases h
  | cons sign rest =>
    dsimp only at h
    by_cases hminus : sign = '-'.toUInt8
    · rw [if_pos hminus] at h
      obtain ⟨value, hok, hn⟩ := hread true rest h
      exact ⟨true, value, _, rest, hok, hn, .inl ⟨rfl, by rw [hminus]⟩⟩
    rw [if_neg hminus] at h
    by_cases hplus : sign = '+'.toUInt8
    · rw [if_pos hplus] at h
      obtain ⟨value, hok, hn⟩ := hread false rest h
      exact ⟨false, value, _, rest, hok, hn, .inr ⟨rfl, .inl (by rw [hplus])⟩⟩
    · rw [if_neg hplus] at h
      obtain ⟨value, hok, hn⟩ := hread false (sign :: rest) h
      exact ⟨false, value, _, sign :: rest, hok, hn, .inr ⟨rfl, .inr ⟨rfl, by simpa using hminus⟩⟩⟩

theorem readDecimal_ok {numeral : Bytes} {n : Int} (h : Numeral.readDecimal 64 numeral = .ok n) :
    n = signed (isNegative numeral)
      (digitsNumber 10 (if isNegative numeral then numeral.drop 1 else numeral)) := by
  obtain ⟨negative, magnitude, limit, rest, hread, rfl, hsign⟩ := readSigned_ok (by decide) h
  rw [readDigits_ok hread]
  rcases hsign with ⟨rfl, rfl⟩ | ⟨rfl, rfl | ⟨rfl, hhead⟩⟩
  · rfl
  · -- A plus sign adds nothing.
    rfl
  · have hplain : isNegative numeral = false := by
      rw [isNegative, beq_eq_false_iff_ne]
      exact hhead
    rw [hplain]
    rfl

/-- **The bytes of a literal are those of the number it denotes.** -/
theorem bytes_numeralValue {numeral bytes : Bytes} (h : encodeNumber numeral = some bytes) :
    (numeralValue numeral).bytes = bytes := by
  have hnegative : ∀ {α : Type} (x y : α), (if numeral.head? = some '-'.toUInt8 then x else y) =
      if isNegative numeral then x else y := by
    intro α x y
    simp [isNegative]
  unfold encodeNumber at h
  dsimp only at h
  simp only [hnegative] at h
  unfold numeralValue
  dsimp only
  cases hdigits : hexDigits? (if isNegative numeral then numeral.drop 1 else numeral) with
  | some digits =>
    simp only [hdigits] at h ⊢
    split at h
    · cases h
    next magnitude hread =>
      by_cases hlong : 8 < digits.length
      · rw [if_pos hlong] at h
        cases h
      · rw [if_neg hlong] at h
        cases h
        rw [Value.bytes_ofInt, ← readDigits_ok hread, signed]
  | none =>
    simp only [hdigits] at h ⊢
    split at h
    · cases h
    next n hread =>
      obtain ⟨size, hsize, rfl⟩ := Option.map_eq_some_iff.mp h
      rw [← readDecimal_ok hread, hsize, Option.getD_some, Value.bytes_ofInt]

end Terrace
