/-
# Timeouts in nanoseconds

A timeout is asked for in seconds and kept in nanoseconds, in the 64 bits of a duration. The sign of
the seconds is checked before they are multiplied, so from 9223372037 seconds on the timeout is not
the one asked for: it can be negative, or zero, and a run then has no deadline at all
(`Invocation.timeout_of_seconds`).

Key definitions: `nanosecondWord`.
Key theorems: `nanoseconds_eq_iff`, `nanoseconds_eq_zero_iff`, `Invocation.timeout_of_seconds`.
-/
import Mathlib.Data.Int.GCD
import Terrace.Application.Work
import Terrace.Proofs.Options.Values

namespace Terrace

open CommandLine

/-! ### The multiplication -/

/-- The nanoseconds of a number of seconds that are left in a word of 64 bits. -/
def nanosecondWord (seconds : Int) : Int := seconds * 10 ^ 9 % 2 ^ 64

section
variable {seconds : Int}

theorem nanosecondWord_bounds (seconds : Int) :
    0 ≤ nanosecondWord seconds ∧ nanosecondWord seconds < 2 ^ 64 :=
  ⟨Int.emod_nonneg _ (by decide), Int.emod_lt_of_pos _ (by decide)⟩

/-- The upper half of the words stands for negative durations. -/
theorem nanoseconds_eq (seconds : Int) :
    nanoseconds seconds = if nanosecondWord seconds < 2 ^ 63 then nanosecondWord seconds
      else nanosecondWord seconds - 2 ^ 64 := rfl

theorem nanoseconds_neg_iff : nanoseconds seconds < 0 ↔ 2 ^ 63 ≤ nanosecondWord seconds := by
  have hbounds := nanosecondWord_bounds seconds
  rw [nanoseconds_eq]
  split_ifs <;> omega

theorem nanoseconds_pos_iff :
    0 < nanoseconds seconds ↔ 0 < nanosecondWord seconds ∧ nanosecondWord seconds < 2 ^ 63 := by
  have hbounds := nanosecondWord_bounds seconds
  rw [nanoseconds_eq]
  split_ifs <;> omega

/-- The product fits if it is less than 2 ^ 63. -/
theorem nanoseconds_eq_iff (hseconds : 0 ≤ seconds) :
    nanoseconds seconds = seconds * 10 ^ 9 ↔ seconds ≤ 9223372036 := by
  have hbounds := nanosecondWord_bounds seconds
  rw [nanoseconds_eq]
  constructor
  · split_ifs <;> omega
  · intro hle
    have hword : nanosecondWord seconds = seconds * 10 ^ 9 :=
      Int.emod_eq_of_lt (by omega) (by omega)
    rw [hword, if_pos (by omega)]

/-- Nothing is left of the product if 2 ^ 55 divides the seconds: a billion has the other nine
factors of two. -/
theorem nanoseconds_eq_zero_iff : nanoseconds seconds = 0 ↔ 2 ^ 55 ∣ seconds := by
  have hbounds := nanosecondWord_bounds seconds
  have hword : nanoseconds seconds = 0 ↔ nanosecondWord seconds = 0 := by
    rw [nanoseconds_eq]
    split_ifs <;> omega
  calc nanoseconds seconds = 0
      ↔ (2 ^ 64 : Int) ∣ seconds * 10 ^ 9 := hword.trans Int.dvd_iff_emod_eq_zero.symm
    _ ↔ 2 ^ 9 * 2 ^ 55 ∣ 2 ^ 9 * (seconds * 5 ^ 9) := by
      rw [show (2 : Int) ^ 64 = 2 ^ 9 * 2 ^ 55 by decide, Int.mul_left_comm,
        show (2 : Int) ^ 9 * 5 ^ 9 = 10 ^ 9 by decide]
    _ ↔ 2 ^ 55 ∣ seconds * 5 ^ 9 := Int.mul_dvd_mul_iff_left (by decide)
    _ ↔ 2 ^ 55 ∣ seconds :=
      ⟨fun h => Int.dvd_of_dvd_mul_left_of_gcd_one h (by decide), fun h => h.mul_right _⟩

end

/-! ### The timeout of a run -/

/-- A run has a deadline if and only if its timeout is positive. -/
theorem Work.deadline_isSome_iff (o : Options) (w : World) :
    (runContext o w).deadline.isSome ↔ 0 < o.timeout := by
  rw [runContext]
  split_ifs with hpos <;> simp [hpos]

namespace Invocation

section
variable {arguments : List Bytes} {env : Environment} {i : Invocation} {seconds : Int}
  (h : ofArguments arguments env = .ok i) (hseconds : secondsAsked arguments env = seconds)
include h hseconds

theorem timeout_exact_iff :
    i.timeout = seconds * 10 ^ 9 ↔ seconds = 0 ∨ i.isWork ∧ seconds ≤ 9223372036 := by
  cases i with
  | help settings =>
    simp only [timeout, isWork, Bool.false_eq_true, false_and, or_false]
    omega
  | work o =>
    obtain ⟨hnonneg, htimeout⟩ := timeout_eq h
    rw [hseconds] at hnonneg htimeout
    simp only [timeout, isWork, htimeout, true_and, nanoseconds_eq_iff hnonneg]
    omega

theorem timeout_neg_iff : i.timeout < 0 ↔ i.isWork ∧ 2 ^ 63 ≤ nanosecondWord seconds := by
  cases i with
  | help settings => simp [timeout, isWork]
  | work o =>
    rw [timeout, (timeout_eq h).2, hseconds, nanoseconds_neg_iff]
    simp [isWork]

theorem timeout_eq_zero_iff : i.timeout = 0 ↔ (i.isWork → 2 ^ 55 ∣ seconds) := by
  cases i with
  | help settings => simp [timeout, isWork]
  | work o =>
    rw [timeout, (timeout_eq h).2, hseconds, nanoseconds_eq_zero_iff]
    simp [isWork]

end

/-- **The timeout of an accepted command line and the deadline of its run**. The timeout is exact for
at most 9223372036 seconds, unless only help is asked for. Beyond that what is left of the product in
64 bits decides: in its upper half the timeout is negative, and there is no deadline. -/
theorem timeout_of_seconds {arguments : List Bytes} {env : Environment} {i : Invocation}
    {seconds : Int} (h : ofArguments arguments env = .ok i)
    (hseconds : secondsAsked arguments env = seconds) :
    (i.timeout = seconds * 10 ^ 9 ↔ seconds = 0 ∨ i.isWork ∧ seconds ≤ 9223372036) ∧
      (i.timeout < 0 ↔ i.isWork ∧ 2 ^ 63 ≤ nanosecondWord seconds) ∧
      (i.timeout = 0 ↔ (i.isWork → 2 ^ 55 ∣ seconds)) ∧
      ∀ o, i = .work o → ∀ w,
        ((Work.runContext o w).deadline.isSome ↔
          0 < nanosecondWord seconds ∧ nanosecondWord seconds < 2 ^ 63) ∧
        (seconds ≤ 9223372036 → (Work.runContext o w).deadline =
          if 0 < seconds then some (seconds * 10 ^ 9) else none) := by
  refine ⟨timeout_exact_iff h hseconds, timeout_neg_iff h hseconds, timeout_eq_zero_iff h hseconds,
    ?_⟩
  rintro o rfl w
  obtain ⟨hnonneg, htimeout⟩ := timeout_eq h
  rw [hseconds] at hnonneg htimeout
  constructor
  · calc (Work.runContext o w).deadline.isSome
        ↔ 0 < o.timeout := Work.deadline_isSome_iff o w
      _ ↔ 0 < nanosecondWord seconds ∧ nanosecondWord seconds < 2 ^ 63 := by
        rw [htimeout, nanoseconds_pos_iff]
  · intro hle
    rw [Work.runContext, htimeout, (nanoseconds_eq_iff hnonneg).mpr hle]
    exact if_congr (by omega) rfl rfl

/-- The options of a program with two seconds to run. -/
def timedOptions : Options where
  job := .build "a.peb" []
  target := .vm
  output := []
  debug := false
  color := false
  run := false
  interactive := false
  includeDir := []
  base := none
  routines := []
  timeout := 2 * 10 ^ 9
  steps := 0
  level := .info

/-- The two seconds of the command line are taken, whatever the environment asks for. -/
theorem timeout_of_two_seconds :
    ofArguments ["--timeout", "2", "a.peb"] { timeout := "7" } = .ok (.work timedOptions) ∧
      secondsAsked ["--timeout", "2", "a.peb"] { timeout := "7" } = 2 ∧
      timedOptions.timeout = 2 * 10 ^ 9 ∧ ¬ timedOptions.timeout < 0 ∧ timedOptions.timeout ≠ 0 ∧
      ∀ w, (Work.runContext timedOptions w).deadline = some (2 * 10 ^ 9) := by
  have haccepted : ofArguments ["--timeout", "2", "a.peb"] { timeout := "7" } =
      .ok (.work timedOptions) := by
    decide +kernel
  have hasked : secondsAsked ["--timeout", "2", "a.peb"] { timeout := "7" } = 2 := by
    decide +kernel
  obtain ⟨hexact, hneg, hzero, hdeadline⟩ := timeout_of_seconds haccepted hasked
  refine ⟨haccepted, hasked, hexact.mpr (.inr ⟨rfl, by decide⟩), ?_, ?_, fun w => ?_⟩
  · exact fun h => absurd (hneg.mp h).2 (by decide)
  · exact fun h => absurd (hzero.mp h rfl) (by decide)
  · exact (hdeadline _ rfl w).2 (by decide)

/-- **A long timeout is none**: 9223372037 seconds are a negative timeout, and the run has no
deadline. -/
theorem longTimeout_is_none :
    ∃ o, ofArguments ["--timeout", "9223372037", "a.peb"] {} = .ok (.work o) ∧
      secondsAsked ["--timeout", "9223372037", "a.peb"] {} = 9223372037 ∧
      o.timeout < 0 ∧ ∀ w, (Work.runContext o w).deadline = none := by
  refine ⟨{ timedOptions with timeout := -9223372036709551616 }, ?_, ?_, by decide, fun w => rfl⟩
  all_goals decide +kernel

-- The nanoseconds of 2 ^ 55 seconds leave nothing in 64 bits, which stands for no timeout.
example : (ofArguments ["--timeout", "36028797018963968", "a.peb"] {}).toOption.map timeout =
    some 0 := by
  decide +kernel

end Invocation

end Terrace
