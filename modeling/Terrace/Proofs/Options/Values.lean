/-
# Values given on the command line

What a command line gives a flag is the last value it has there (`CommandLine.given`). The setting of
the flag is this value when the flags are read, and its default if the flag is not given
(`CommandLine.field_ofParts`). From there on, the log level and the include directory of an
invocation are the setting, or what the environment says if the setting is the default, and its
timeout is the setting, or what the environment says if that is zero, in nanoseconds.

Key definitions: `CommandLine.given`, `CommandLine.secondsGiven`, `CommandLine.secondsAsked`,
`Invocation.logLevel`, `Invocation.includeDir`, `Invocation.timeout`.
Key theorems: `CommandLine.ofParts_lent`, `CommandLine.field_ofParts`, `Invocation.logLevel_eq`,
`Invocation.includeDir_eq`, `Invocation.timeout_eq`.
-/
import Terrace.Proofs.Options.CommandLine

namespace Terrace

namespace CommandLine

/-- The value a part gives a flag. -/
def Part.valueOf (flag : Flag) : Part → Option Bytes
  | .flag argument next =>
    match flagSetting argument next with
    | .ok setting => if setting.flag = flag then some setting.value else none
    | .error _ => none
  | .terminator | .positional _ => none

/-- The last value that parts give a flag. -/
def lastValue (flag : Flag) : List Part → Option Bytes
  | [] => none
  | part :: rest => (lastValue flag rest).or (part.valueOf flag)

/-- The part with a value lent to it if it is a flag that lacks one. -/
def Part.lend (spare : Option Bytes) : Part → Part
  | .flag argument none => .flag argument (if takesNext argument then spare else none)
  | part => part

/-- The value a command line gives a flag, the last one if there are several. A flag at the end that
lacks its value has the first positional argument. -/
def given (arguments : List Bytes) (flag : Flag) : Option Bytes :=
  lastValue flag ((parts arguments).map (Part.lend (positionals (parts arguments)).head?))

/-- The seconds a value of the timeout stands for. -/
def secondsOf (value : Bytes) : Option Int :=
  (Text.Numeral.readSigned 64 Text.Numeral.readFree value).toOption

/-- The seconds a command line gives; zero if it gives none. -/
def secondsGiven (arguments : List Bytes) : Int :=
  ((given arguments .timeout).bind secondsOf).getD 0

/-- The seconds a run may take: those the command line gives, or if these are none those of the
environment. -/
def secondsAsked (arguments : List Bytes) (env : Environment) : Int :=
  if secondsGiven arguments = 0 then env.seconds else secondsGiven arguments

/-! ### Settings as they are given -/

theorem lend_complete {front : List Bytes} (h : Complete front) (spare : Option Bytes) :
    (parts front).map (Part.lend spare) = parts front := by
  induction h with
  | nil => rfl
  | positional hflag _ ih =>
    rw [parts_positional hflag, List.map_cons, ih]
    rfl
  | @flag argument next rest hflag hdash hnext _ ih =>
    rw [parts_flag _ hflag hdash hnext, List.map_cons, ih]
    cases next with
    | none => simp [Part.lend, ← hnext]
    | some value => rfl

/-- **What is read is what the command line gives**, the lent value included. -/
theorem ofParts_lent {arguments others : List Bytes} {s settings : Settings}
    (h : readFlags s (arranged arguments) = .ok (settings, others)) :
    s.ofParts ((parts arguments).map (Part.lend (positionals (parts arguments)).head?)) =
      .ok settings := by
  cases shape arguments with
  | complete hcomplete =>
    rw [readFlags_complete hcomplete] at h
    rw [lend_complete hcomplete, (eq_of_map_pair h).1]
  | @terminated front hfront behind =>
    have hset : s.ofParts (parts front) = .ok settings := by
      cases behind with
      | nil =>
        rw [readFlags_terminated_nil hfront] at h
        exact (eq_of_map_pair h).1
      | cons first rest =>
        rw [readFlags_terminated hfront] at h
        exact (eq_of_map_pair h).1
    have hbehind : ∀ spare, (Part.terminator :: behind.map Part.positional).map (Part.lend spare) =
        .terminator :: behind.map .positional := fun spare => by
      simp [Part.lend, Function.comp_def]
    rw [parts_append hfront, parts_terminator, List.map_append, lend_complete hfront, hbehind,
      ofParts_terminated, hset]
  | @lacking front argument hfront hflag hdash hnext =>
    have hfiles : positionals (parts (front ++ [argument])) = positionals (parts front) := by
      rw [parts_append hfront, parts_lacking hflag hdash hnext, positionals_append]
      exact List.append_nil _
    rw [hfiles, parts_append hfront, parts_lacking hflag hdash hnext, List.map_append,
      lend_complete hfront, List.map_singleton, Part.lend, if_pos hnext]
    cases hfile : positionals (parts front) with
    | nil => exact absurd h (readFlags_lacking_nil hfront s hflag hdash hnext hfile _)
    | cons first rest =>
      rw [readFlags_unfinished hfront s hflag hdash hnext hfile] at h
      exact (eq_of_map_pair h).1

theorem secondsOf_of_flagNumber {name value : Bytes} {seconds : Int}
    (h : flagNumber name value = .ok seconds) : secondsOf value = some seconds := by
  rw [flagNumber] at h
  rw [secondsOf]
  cases hread : Text.Numeral.readSigned 64 Text.Numeral.readFree value with
  | error fault =>
    rw [hread] at h
    cases h
  | ok n =>
    rw [hread] at h
    cases h
    rfl

/-- What setting a flag does to the settings that the environment can fill. -/
theorem of_set {s s' : Settings} {flag : Flag} {name value : Bytes}
    (h : s.set flag name value = .ok s') :
    (if flag = .logLevel then some value else some s.logLevel) = some s'.logLevel ∧
      (if flag = .includeDir then some value else some s.includeDir) = some s'.includeDir ∧
      (if flag = .timeout then secondsOf value else some s.timeout) = some s'.timeout := by
  cases flag with
  | timeout =>
    obtain ⟨seconds, hseconds, heq⟩ := exists_of_bind h
    cases heq
    exact ⟨rfl, rfl, secondsOf_of_flagNumber hseconds⟩
  | steps | debug | color | run | interactive | help =>
    obtain ⟨_, -, heq⟩ := exists_of_bind h
    cases heq
    exact ⟨rfl, rfl, rfl⟩
  | target | output | includeDir | base | routines | check | logLevel =>
    cases h
    exact ⟨rfl, rfl, rfl⟩

section
variable {α : Type} {flag : Flag} {field : Settings → α} {read : Bytes → Option α}
  (hset : ∀ {s s' : Settings} {other : Flag} {name value : Bytes},
    s.set other name value = .ok s' →
      (if other = flag then read value else some (field s)) = some (field s'))
include hset

theorem field_apply {s s' : Settings} {part : Part} (h : s.apply part = .ok s') :
    (part.valueOf flag).elim (some (field s)) read = some (field s') := by
  cases part with
  | terminator | positional =>
    cases h
    rfl
  | flag argument next =>
    obtain ⟨setting, hsetting, h⟩ := exists_of_bind h
    rw [← hset h, Part.valueOf, hsetting]
    by_cases hflag : setting.flag = flag <;> simp [hflag]

/-- **A setting is the last value it is given**, or what it was before. -/
theorem field_ofParts {parts : List Part} {s s' : Settings} (h : s.ofParts parts = .ok s') :
    (lastValue flag parts).elim (some (field s)) read = some (field s') := by
  induction parts generalizing s with
  | nil =>
    cases h
    rfl
  | cons part rest ih =>
    obtain ⟨middle, hpart, hrest⟩ := exists_of_bind h
    have hlast := ih hrest
    rw [lastValue]
    cases hvalue : lastValue flag rest with
    | some value => simpa [hvalue] using hlast
    | none =>
      rw [hvalue, Option.elim_none] at hlast
      rw [Option.none_or, field_apply hset hpart, hlast]

end

theorem secondsGiven_of_elim {arguments : List Bytes} {seconds : Int}
    (h : (given arguments .timeout).elim (some 0) secondsOf = some seconds) :
    secondsGiven arguments = seconds := by
  rw [secondsGiven]
  cases hgiven : given arguments .timeout with
  | none =>
    rw [hgiven] at h
    exact Option.some.inj h
  | some value =>
    rw [hgiven, Option.elim_some] at h
    rw [Option.bind_some, h, Option.getD_some]

theorem eq_getD_of_elim {α : Type} {value : Option α} {usual a : α}
    (h : value.elim (some usual) some = some a) : a = value.getD usual := by
  cases value <;> exact (Option.some.inj h).symm

/-- The settings that the environment can fill, before it does. -/
theorem of_readFlags {arguments others : List Bytes} {settings : Settings}
    (h : readFlags {} (arranged arguments) = .ok (settings, others)) :
    settings.logLevel = (given arguments .logLevel).getD "info" ∧
      settings.includeDir = (given arguments .includeDir).getD [] ∧
      (given arguments .timeout).elim (some 0) secondsOf = some settings.timeout := by
  have hparts := ofParts_lent h
  refine ⟨eq_getD_of_elim ?_, eq_getD_of_elim ?_, ?_⟩
  · exact @field_ofParts Bytes .logLevel Settings.logLevel some
      (fun hset => (of_set hset).1) _ _ _ hparts
  · exact @field_ofParts Bytes .includeDir Settings.includeDir some
      (fun hset => (of_set hset).2.1) _ _ _ hparts
  · exact @field_ofParts Int .timeout Settings.timeout secondsOf
      (fun hset => (of_set hset).2.2) _ _ _ hparts

end CommandLine

open CommandLine

/-! ### Values of an invocation -/

theorem Level.name_of_ofName? {name : Bytes} {level : Level} (h : ofName? name = some level) :
    level.name = name := by
  simpa using List.find?_some h

/-- The log level an environment asks for, the usual one if it asks for none. -/
def Environment.levelName (env : Environment) : Bytes :=
  if env.logLevel.isEmpty then "info" else Text.toLower env.logLevel

namespace Invocation

/-- Whether there is work to do, and not only help to show. -/
def isWork : Invocation → Bool
  | .help _ => false
  | .work _ => true

/-- The name of the log level. -/
def logLevel : Invocation → Bytes
  | .help settings => settings.logLevel
  | .work o => o.level.name

/-- The directory in which files to include are searched. -/
def includeDir : Invocation → Bytes
  | .help settings => settings.includeDir
  | .work o => o.includeDir

/-- The timeout in nanoseconds; a call for help has none. -/
def timeout : Invocation → Int
  | .help _ => 0
  | .work o => o.timeout

variable {arguments : List Bytes} {env : Environment} {i : Invocation}

/-- Invocations have the values of their settings, a timeout only with work to do. -/
theorem of_settings (h : ofArguments arguments env = .ok i) :
    ∃ settings others, readFlags {} (arranged arguments) = .ok (settings, others) ∧
      i.logLevel = (settings.fill env).logLevel ∧
      i.includeDir = (settings.fill env).includeDir ∧
      ∀ o, i = .work o → 0 ≤ (settings.fill env).timeout ∧
        o.timeout = nanoseconds (settings.fill env).timeout := by
  obtain ⟨settings, others, hread, rfl | ⟨o, rfl, hvalid⟩⟩ := of_ofArguments h
  · exact ⟨settings, others, hread, rfl, rfl, fun o heq => Invocation.noConfusion heq⟩
  · obtain ⟨hlevel, htimeout, -, hdir, hnanoseconds⟩ := Settings.of_validate hvalid
    refine ⟨settings, others, hread, Level.name_of_ofName? hlevel, hdir, ?_⟩
    rintro _ ⟨⟩
    exact ⟨htimeout, hnanoseconds⟩

/-- The log level is that of the command line, or if this is the usual one that of the
environment. -/
theorem logLevel_eq (h : ofArguments arguments env = .ok i) :
    i.logLevel = if (given arguments .logLevel).getD "info" = "info" then env.levelName
      else (given arguments .logLevel).getD "info" := by
  obtain ⟨settings, others, hread, hlevel, -⟩ := of_settings h
  rw [hlevel, ← (of_readFlags hread).1, Settings.fill, Environment.levelName]
  by_cases husual : settings.logLevel = "info" <;> cases env.logLevel.isEmpty <;> simp [husual]

/-- The include directory is that of the command line, or if this is empty that of the
environment. -/
theorem includeDir_eq (h : ofArguments arguments env = .ok i) :
    i.includeDir = if (given arguments .includeDir).getD [] = [] then env.includeDir
      else (given arguments .includeDir).getD [] := by
  obtain ⟨settings, others, hread, -, hdir, -⟩ := of_settings h
  rw [hdir, ← (of_readFlags hread).2.1, Settings.fill]
  simp

/-- What is given for a timeout are seconds. -/
theorem secondsOf_given {value : Bytes} (h : ofArguments arguments env = .ok i)
    (hgiven : given arguments .timeout = some value) :
    secondsOf value = some (secondsGiven arguments) := by
  obtain ⟨settings, others, hread, -⟩ := of_settings h
  have hseconds := (of_readFlags hread).2.2
  rw [secondsGiven_of_elim hseconds, ← hseconds, hgiven, Option.elim_some]

/-- The timeout are the seconds asked for, which are not negative. -/
theorem timeout_eq {o : Options} (h : ofArguments arguments env = .ok (.work o)) :
    0 ≤ secondsAsked arguments env ∧ o.timeout = nanoseconds (secondsAsked arguments env) := by
  obtain ⟨settings, others, hread, -, -, htimeout⟩ := of_settings h
  rw [secondsAsked, secondsGiven_of_elim (of_readFlags hread).2.2]
  exact htimeout o rfl

end Invocation

end Terrace
