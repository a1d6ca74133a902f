/-
# Hexadecimal numerals

A number is written in base sixteen with digits that denote it (`Bytes.digitsNumber_hex`), and
whatever digits denote it are the same ones in either letter case, perhaps behind zeros
(`Bytes.hex_of_digits`).

Key theorems: `isHexDigit_iff`, `Bytes.mem_hex`, `Bytes.digitsNumber_hex`, `Bytes.hex_of_digits`.
-/
import Mathlib.Data.List.Induction
import Terrace.Proofs.Source.Encoding

namespace Terrace

theorem isHexDigit_iff {b : UInt8} : isHexDigit b = true ↔ ∃ d, digitValue b = some d ∧ d < 16 := by
  refine ⟨digitValue_of_isHexDigit, ?_⟩
  rintro ⟨d, hd, hlt⟩
  have hletters : (('a'.toUInt8).toNat = 97 ∧ ('f'.toUInt8).toNat = 102 ∧
      ('z'.toUInt8).toNat = 122) ∧ ('A'.toUInt8).toNat = 65 ∧ ('F'.toUInt8).toNat = 70 ∧
      ('Z'.toUInt8).toNat = 90 := by decide
  unfold digitValue at hd
  simp only [Bool.and_eq_true, decide_eq_true_eq, UInt8.le_iff_toNat_le] at hd
  simp only [isHexDigit, Bool.or_eq_true, Bool.and_eq_true, decide_eq_true_eq,
    UInt8.le_iff_toNat_le]
  split_ifs at hd with hdigit hlower hupper
  · exact .inl (.inl hdigit)
  · rw [Option.some.injEq] at hd
    exact .inl (.inr (by omega))
  · rw [Option.some.injEq] at hd
    exact .inr (by omega)

theorem digitValue_eq_zero {b : UInt8} (h : digitValue b = some 0) : b = '0'.toUInt8 := by
  have hletters : ('0'.toUInt8).toNat = 48 := by decide
  unfold digitValue at h
  simp only [isDigit, Bool.and_eq_true, decide_eq_true_eq, UInt8.le_iff_toNat_le] at h
  split_ifs at h with hdigit hlower hupper
  · rw [Option.some.injEq] at h
    rw [← UInt8.toNat_inj]
    omega
  · rw [Option.some.injEq] at h
    omega
  · rw [Option.some.injEq] at h
    omega

theorem digitValue_digitChar : ∀ d < 16, digitValue (Nat.digitChar d).toUInt8 = some d := by decide

theorem digitsNumber_append_singleton (base : Nat) (digits : Bytes) (b : UInt8) :
    digitsNumber base (digits ++ [b]) =
      digitsNumber base digits * base + (digitValue b).getD 0 := by
  rw [digitsNumber, List.foldl_append, List.foldl_cons, List.foldl_nil, digitsNumber]

namespace Bytes

theorem hex_of_lt {n : Nat} (h : n < 16) : hex n = [(Nat.digitChar n).toUInt8] := by
  rw [hex, Nat.toDigits_of_lt_base h, List.map_singleton]

theorem hex_of_le {n : Nat} (h : 16 ≤ n) :
    hex n = hex (n / 16) ++ [(Nat.digitChar (n % 16)).toUInt8] := by
  rw [hex, Nat.toDigits_of_base_le (by decide) h, List.map_append, List.map_singleton, hex]

theorem hex_ne_nil (n : Nat) : hex n ≠ [] := by
  rw [hex, Ne, List.map_eq_nil_iff]
  exact Nat.toDigits_ne_nil

theorem mem_hex {b : UInt8} : ∀ {n : Nat}, b ∈ hex n → isHexDigit b = true := by
  intro n h
  have hdigit : ∀ d < 16, isHexDigit (Nat.digitChar d).toUInt8 = true := by decide
  by_cases hlt : n < 16
  · rw [hex_of_lt hlt, List.mem_singleton] at h
    exact h ▸ hdigit n hlt
  · rw [hex_of_le (by omega), List.mem_append, List.mem_singleton] at h
    rcases h with h | h
    · exact mem_hex h
    · exact h ▸ hdigit _ (Nat.mod_lt _ (by decide))

theorem digitsNumber_hex : ∀ n : Nat, digitsNumber 16 (hex n) = n := by
  intro n
  by_cases hlt : n < 16
  · rw [hex_of_lt hlt, digitsNumber, List.foldl_cons, List.foldl_nil, digitValue_digitChar n hlt]
    simp
  · rw [hex_of_le (by omega), digitsNumber_append_singleton, digitsNumber_hex (n / 16),
      digitValue_digitChar _ (Nat.mod_lt _ (by decide)), Option.getD_some]
    omega

/-- Digits that have the same values denote the same number. -/
theorem digitsNumber_congr (base : Nat) {digits others : Bytes}
    (h : digits.map digitValue = others.map digitValue) :
    digitsNumber base digits = digitsNumber base others := by
  have hvalues : ∀ digits : Bytes, digitsNumber base digits =
      (digits.map digitValue).foldl (fun n d => n * base + d.getD 0) 0 := fun digits => by
    rw [digitsNumber, List.foldl_map]
  rw [hvalues, hvalues, h]

/-- Hexadecimal digits are those of their number, in either letter case, behind zeros. -/
theorem hex_of_digits {digits : Bytes} (hne : digits ≠ [])
    (h : ∀ b ∈ digits, isHexDigit b = true) : ∃ zeros written,
      digits = List.replicate zeros '0'.toUInt8 ++ written ∧
      written.map digitValue = (hex (digitsNumber 16 digits)).map digitValue := by
  -- the digits are taken from the right, as the number grows
  induction digits using List.reverseRecOn with
  | nil => exact absurd rfl hne
  | append_singleton digits b ih =>
    obtain ⟨d, hd, hlt⟩ := isHexDigit_iff.mp (h b (by simp))
    rw [digitsNumber_append_singleton, hd, Option.getD_some]
    have hb : [b].map digitValue = (hex d).map digitValue := by
      rw [hex_of_lt hlt, List.map_singleton, List.map_singleton, hd, digitValue_digitChar d hlt]
    by_cases hempty : digits = []
    · subst hempty
      refine ⟨0, [b], rfl, hb.trans ?_⟩
      rw [digitsNumber, List.foldl_nil, Nat.zero_mul, Nat.zero_add]
    · obtain ⟨zeros, written, hdigits, hwritten⟩ :=
        ih hempty fun b hb => h b (List.mem_append_left _ hb)
      by_cases hzero : digitsNumber 16 digits = 0
      · -- so far there were zeros only
        rw [hzero, hex_of_lt (by decide), List.map_singleton, List.map_eq_singleton_iff] at hwritten
        obtain ⟨z, rfl, hz⟩ := hwritten
        obtain rfl : z = '0'.toUInt8 := digitValue_eq_zero hz
        refine ⟨zeros + 1, [b], ?_, ?_⟩
        · rw [hdigits, List.replicate_succ', List.append_assoc]
        · rw [hzero, Nat.zero_mul, Nat.zero_add, hb]
      · refine ⟨zeros, written ++ [b], ?_, ?_⟩
        · rw [hdigits, List.append_assoc]
        · have hquotient : (digitsNumber 16 digits * 16 + d) / 16 = digitsNumber 16 digits := by
            omega
          have hremainder : (digitsNumber 16 digits * 16 + d) % 16 = d := by omega
          rw [hex_of_le (by omega), hquotient, hremainder, List.map_append, List.map_append,
            hwritten, hb, hex_of_lt hlt]

end Bytes

end Terrace
