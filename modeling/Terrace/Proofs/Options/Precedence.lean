/-
# Flags before the environment

An invocation has what its command line gives it, whatever the environment says, with one exception:
a flag that is given its default value counts as not given, and the environment is asked. For a
timeout this also needs that the seconds fit (`Invocation.KeepsTimeout`).

Key definitions: `Invocation.KeepsTimeout`.
Key theorems: `Invocation.logLevel_given_iff`, `Invocation.includeDir_given_iff`,
`Invocation.timeout_given_iff`, `Invocation.flags_precede_iff`.
-/
import Terrace.Proofs.Options.Timeout

namespace Terrace

open CommandLine

namespace Invocation

/-- There is work to do within the seconds that are given, and an invocation can keep so many; if
they are zero, the environment asks for none either. -/
def KeepsTimeout (i : Invocation) (seconds : Int) (env : Environment) : Prop :=
  if seconds = 0 then i.isWork → 2 ^ 55 ∣ env.seconds else i.isWork ∧ seconds ≤ 9223372036

section
variable {arguments : List Bytes} {env : Environment} {i : Invocation} {value : Bytes}
  (h : ofArguments arguments env = .ok i)
include h

theorem logLevel_given_iff (hgiven : given arguments .logLevel = some value) :
    i.logLevel = value ↔ (value = "info" → env.levelName = "info") := by
  rw [logLevel_eq h, hgiven, Option.getD_some]
  by_cases husual : value = "info" <;> simp [husual]

theorem includeDir_given_iff (hgiven : given arguments .includeDir = some value) :
    i.includeDir = value ↔ (value = [] → env.includeDir = []) := by
  rw [includeDir_eq h, hgiven, Option.getD_some]
  by_cases hempty : value = [] <;> simp [hempty]

theorem timeout_given_iff :
    i.timeout = secondsGiven arguments * 10 ^ 9 ↔ i.KeepsTimeout (secondsGiven arguments) env := by
  rw [KeepsTimeout]
  split_ifs with hzero
  · have hasked : secondsAsked arguments env = env.seconds := by rw [secondsAsked, if_pos hzero]
    rw [hzero, Int.zero_mul, timeout_eq_zero_iff h hasked]
  · have hasked : secondsAsked arguments env = secondsGiven arguments := by
      rw [secondsAsked, if_neg hzero]
    rw [timeout_exact_iff h hasked]
    simp [hzero]

end

theorem same_and_eq_iff {α : Type} {a b value : α} : a = b ∧ a = value ↔ a = value ∧ b = value :=
  ⟨fun ⟨hsame, h⟩ => ⟨h, hsame ▸ h⟩, fun ⟨h₁, h₂⟩ => ⟨h₁.trans h₂.symm, h₁⟩⟩

/-- **What a command line gives is the same in two environments**, and what it says, if and only if
no environment has something else where a default value is given. -/
theorem flags_precede_iff {arguments : List Bytes} {env₁ env₂ : Environment} {i₁ i₂ : Invocation}
    (h₁ : ofArguments arguments env₁ = .ok i₁) (h₂ : ofArguments arguments env₂ = .ok i₂) :
    (∀ value, given arguments .logLevel = some value →
      (i₁.logLevel = i₂.logLevel ∧ i₁.logLevel = value ↔
        (value = "info" → env₁.levelName = "info" ∧ env₂.levelName = "info"))) ∧
    (∀ value, given arguments .includeDir = some value →
      (i₁.includeDir = i₂.includeDir ∧ i₁.includeDir = value ↔
        (value = [] → env₁.includeDir = [] ∧ env₂.includeDir = []))) ∧
    ∀ value, given arguments .timeout = some value → ∃ seconds, secondsOf value = some seconds ∧
      (i₁.timeout = i₂.timeout ∧ i₁.timeout = seconds * 10 ^ 9 ↔
        i₁.KeepsTimeout seconds env₁ ∧ i₂.KeepsTimeout seconds env₂) := by
  refine ⟨fun value hgiven => ?_, fun value hgiven => ?_, fun value hgiven =>
    ⟨secondsGiven arguments, secondsOf_given h₁ hgiven, ?_⟩⟩
  · calc i₁.logLevel = i₂.logLevel ∧ i₁.logLevel = value
        ↔ i₁.logLevel = value ∧ i₂.logLevel = value := same_and_eq_iff
      _ ↔ (value = "info" → env₁.levelName = "info") ∧ (value = "info" → env₂.levelName = "info") :=
        and_congr (logLevel_given_iff h₁ hgiven) (logLevel_given_iff h₂ hgiven)
      _ ↔ (value = "info" → env₁.levelName = "info" ∧ env₂.levelName = "info") := imp_and.symm
  · calc i₁.includeDir = i₂.includeDir ∧ i₁.includeDir = value
        ↔ i₁.includeDir = value ∧ i₂.includeDir = value := same_and_eq_iff
      _ ↔ (value = [] → env₁.includeDir = []) ∧ (value = [] → env₂.includeDir = []) :=
        and_congr (includeDir_given_iff h₁ hgiven) (includeDir_given_iff h₂ hgiven)
      _ ↔ (value = [] → env₁.includeDir = [] ∧ env₂.includeDir = []) := imp_and.symm
  · exact same_and_eq_iff.trans (and_congr (timeout_given_iff h₁) (timeout_given_iff h₂))

/-- A command line that gives all three values. -/
def outspoken : List Bytes := ["-l", "error", "-I", "lib", "--timeout", "2", "a.peb"]

/-- An environment that asks for other values. -/
def contrary : Environment where
  logLevel := "DEBUG"
  includeDir := "other"
  timeout := "7"

theorem outspoken_precedes :
    ∃ i, ofArguments outspoken {} = .ok i ∧ ofArguments outspoken contrary = .ok i ∧
      i.logLevel = "error" ∧ i.includeDir = "lib" ∧ i.timeout = 2 * 10 ^ 9 := by
  have hplain : ofArguments outspoken {} = .ok (.work { timedOptions with
      includeDir := "lib", level := .error }) := by
    decide +kernel
  have hcontrary : ofArguments outspoken contrary = .ok (.work { timedOptions with
      includeDir := "lib", level := .error }) := by
    decide +kernel
  obtain ⟨hlevel, hdir, htimeout⟩ := flags_precede_iff hplain hcontrary
  refine ⟨_, hplain, hcontrary, ?_, ?_, ?_⟩
  · exact ((hlevel "error" (by decide +kernel)).mpr (by decide +kernel)).2
  · exact ((hdir "lib" (by decide +kernel)).mpr (by decide +kernel)).2
  · obtain ⟨seconds, hseconds, hkept⟩ := htimeout "2" (by decide +kernel)
    have htwo : secondsOf "2" = some 2 := by decide +kernel
    obtain rfl : 2 = seconds := Option.some.inj (htwo.symm.trans hseconds)
    exact (hkept.mpr ⟨⟨rfl, by decide⟩, rfl, by decide⟩).2

/-- **The usual log level cannot be asked for**: an environment that asks for another one prevails
over the flag. -/
theorem usualLevel_overridden :
    given ["-l", "info", "a.peb"] .logLevel = some (Bytes.ofString "info") ∧
      ∃ i₁ i₂, ofArguments ["-l", "info", "a.peb"] {} = .ok i₁ ∧
        ofArguments ["-l", "info", "a.peb"] { logLevel := "debug" } = .ok i₂ ∧
        i₁.logLevel = "info" ∧ i₂.logLevel = "debug" ∧ i₁.logLevel ≠ i₂.logLevel := by
  refine ⟨by decide +kernel, .work { timedOptions with timeout := 0 },
    .work { timedOptions with timeout := 0, level := .debug }, ?_⟩
  decide +kernel

-- Nor can an empty directory be asked for, and no timeout.
example : (ofArguments ["-I", "", "--timeout", "0", "a.peb"]
    { includeDir := "other", timeout := "7" }).toOption.map (fun i => (i.includeDir, i.timeout)) =
      some (Bytes.ofString "other", 7 * 10 ^ 9) := by
  decide +kernel

end Invocation

end Terrace
