/-
# Command lines read from left to right

Read from left to right, an argument of a command line is a flag, together with the argument behind
it where that is its value, or it is positional; a double dash makes every argument behind it
positional (`CommandLine.parts`). The program goes another way: it moves what it takes for flags to
the front, each with its value, and then reads flags up to the first argument that is none. Both ways
agree on what a flag takes (`takesNext_of_flagParts`), so up to a double dash, or to a flag at the
end that lacks its value, a command line is read in its own order (`CommandLine.readFlags_arranged`).
A flag at the end then takes the first positional argument, and the arguments behind a double dash
come before the positional ones in front of it.

Key definitions: `CommandLine.Part`, `CommandLine.parts`, `Settings.ofParts`, `CommandLine.Complete`,
`CommandLine.Shape`, `CommandLine.arranged`.
Key theorems: `takesNext_of_flagParts`, `CommandLine.shape`, `CommandLine.readFlags_complete`,
`CommandLine.readFlags_terminated`, `CommandLine.readFlags_unfinished`, `Settings.of_validate`.
-/
import Mathlib.Data.List.TakeDrop
import Mathlib.Data.List.TakeWhile
import Mathlib.Tactic.Common
import Mathlib.Tactic.SplitIfs
import Terrace.Options

namespace Terrace

namespace CommandLine

/-- What arguments of a command line are for. -/
inductive Part where
  /-- A flag, and the argument behind it if that is its value. -/
  | flag (argument : Bytes) (value : Option Bytes)
  /-- The double dash behind which there are no flags. -/
  | terminator
  | positional (argument : Bytes)
deriving DecidableEq, Repr

/-- The parts of a command line from left to right. -/
@[simp] def parts : List Bytes → List Part
  | [] => []
  | argument :: rest =>
    if argument = "--" then .terminator :: rest.map .positional
    else if !isFlagArgument argument then .positional argument :: parts rest
    else if !takesNext argument then .flag argument none :: parts rest
    else match rest with
      | [] => [.flag argument none]
      | value :: rest => .flag argument (some value) :: parts rest

namespace Part

/-- The positional argument a part is, if it is one. -/
def positional? : Part → Option Bytes
  | .positional argument => some argument
  | .flag _ _ | .terminator => none

end Part

/-- The positional arguments among parts. -/
def positionals (parts : List Part) : List Bytes := parts.filterMap Part.positional?

/-- The arguments in the order in which the program reads them. -/
def arranged (arguments : List Bytes) : List Bytes :=
  (arrange arguments).1 ++ (arrange arguments).2

end CommandLine

open CommandLine

theorem exists_of_bind {ε α β : Type} {x : Except ε α} {f : α → Except ε β} {b : β}
    (h : x >>= f = .ok b) : ∃ a, x = .ok a ∧ f a = .ok b := by
  cases x with
  | error e => cases h
  | ok a => exact ⟨a, rfl, h⟩

theorem exists_of_map {ε α β : Type} {x : Except ε α} {f : α → β} {b : β}
    (h : x.map f = .ok b) : ∃ a, x = .ok a ∧ f a = b := by
  cases x with
  | error e => cases h
  | ok a => exact ⟨a, rfl, Except.ok.inj h⟩

theorem eq_of_map_pair {ε α β : Type} {x : Except ε α} {a : α} {b b' : β}
    (h : x.map (fun a => (a, b)) = .ok (a, b')) : x = .ok a ∧ b' = b := by
  obtain ⟨a', rfl, heq⟩ := exists_of_map h
  cases heq
  exact ⟨rfl, rfl⟩

/-! ### Flags and their values -/

theorem doubleDash_eq : Bytes.ofString "--" = [dash, dash] := by decide

theorem isFlagArgument_iff {argument : Bytes} :
    isFlagArgument argument = true ↔ ∃ b rest, argument = dash :: b :: rest := by
  rcases argument with _ | ⟨a, _ | ⟨b, rest⟩⟩ <;> simp [isFlagArgument]

/-- The text of a flag argument, without the dashes that `flagParts` takes off. -/
theorem exists_flagText {argument : Bytes} (hflag : isFlagArgument argument = true) :
    ∃ text, (if argument.startsWith "--" then argument.drop 2 else argument.drop 1) = text ∧
      (text.head? ≠ some dash → argument.dropWhile (· == dash) = text) := by
  obtain ⟨b, rest, rfl⟩ := isFlagArgument_iff.mp hflag
  refine ⟨_, rfl, fun hhead => ?_⟩
  by_cases hb : b = dash
  · subst hb
    have hstart : Bytes.startsWith (dash :: dash :: rest) "--" = true := by
      simp [Bytes.startsWith, doubleDash_eq]
    simp only [hstart, if_true, List.drop_succ_cons, List.drop_zero] at hhead ⊢
    rcases rest with _ | ⟨c, rest⟩
    · simp
    · simp at hhead
      simp [hhead]
  · have hstart : Bytes.startsWith (dash :: b :: rest) "--" = false := by
      simp [Bytes.startsWith, doubleDash_eq, List.isPrefixOf, Ne.symm hb]
    simp [hstart, hb]

/-- A flag argument that can be read is dashes, a name, and maybe an equals sign and a value. -/
theorem of_flagParts {argument name : Bytes} {own : Option Bytes}
    (hflag : isFlagArgument argument = true) (h : flagParts argument = .ok (name, own)) :
    '='.toUInt8 ∉ name ∧ argument.dropWhile (· == dash) =
      name ++ (own.map ('='.toUInt8 :: ·)).getD [] := by
  obtain ⟨text, htext, hdashes⟩ := exists_flagText hflag
  unfold flagParts at h
  simp only [htext] at h
  cases hhead : text.head? with
  | none => simp [hhead] at h
  | some first =>
    simp only [hhead] at h
    split at h
    · cases h
    next hfirst =>
      rw [Bool.or_eq_true, not_or] at hfirst
      simp only [decide_eq_true_eq] at hfirst
      rw [hdashes (by simp [hhead, hfirst.1])]
      have hjoin := List.takeWhile_append_dropWhile (p := fun b => !(b == '='.toUInt8)) (l := text)
      have hname : '='.toUInt8 ∉ text.takeWhile (fun b => !(b == '='.toUInt8)) := fun hmem => by
        simpa using List.mem_takeWhile_imp hmem
      rw [Bytes.splitAtFirst, List.span_eq_takeWhile_dropWhile] at h
      cases hbehind : text.dropWhile (fun b => !(b == '='.toUInt8)) with
      | nil =>
        rw [hbehind] at h hjoin
        cases h
        exact ⟨hname, hjoin.symm⟩
      | cons sign value =>
        rw [hbehind] at h hjoin
        cases h
        have hsign : sign = '='.toUInt8 := by
          have hstop := List.head_dropWhile_not (fun b => !(b == '='.toUInt8)) (l := text)
            (by simp [hbehind])
          simpa [hbehind] using hstop
        refine ⟨hname, ?_⟩
        rw [hsign] at hjoin
        exact hjoin.symm

/-- **A flag takes the next argument if and only if it is read with it**: it is no switch, and has no
value behind an equals sign. -/
theorem takesNext_of_flagParts {argument name : Bytes} {own : Option Bytes}
    (hflag : isFlagArgument argument = true) (h : flagParts argument = .ok (name, own)) :
    takesNext argument = (own.isNone && !(Flag.ofName? name).any Flag.isSwitch) := by
  obtain ⟨hname, htext⟩ := of_flagParts hflag h
  rw [takesNext, htext]
  cases own with
  | none => simp [hname]
  | some value => simp

/-- A flag, the name it goes by, and the value it is to be set to. -/
structure FlagSetting where
  flag : Flag
  name : Bytes
  value : Bytes
deriving DecidableEq, Repr

/-- What a flag argument sets. The next argument is the value if the flag is no switch and has no
value of its own. -/
def flagSetting (argument : Bytes) (next : Option Bytes) : Except OptionError FlagSetting :=
  match flagParts argument with
  | .error e => .error e
  | .ok (name, own) =>
    match Flag.ofName? name with
    | none => .error (.unknownFlag name)
    | some flag =>
      if flag.isSwitch then .ok ⟨flag, name, own.getD "true"⟩
      else match own.or next with
        | some value => .ok ⟨flag, name, value⟩
        | none => .error (.noValue name)

/-- Sets a flag as it stands in a command line. -/
def Settings.setFlag (s : Settings) (argument : Bytes) (next : Option Bytes) :
    Except OptionError Settings := do
  let setting ← flagSetting argument next
  s.set setting.flag setting.name setting.value

/-- Does what a part of a command line says: a flag is set, and anything else sets nothing. -/
def Settings.apply (s : Settings) : Part → Except OptionError Settings
  | .flag argument value => s.setFlag argument value
  | .terminator | .positional _ => .ok s

/-- Sets the flags of a command line in their order, each to the value it has there. -/
def Settings.ofParts (s : Settings) (parts : List Part) : Except OptionError Settings :=
  parts.foldlM Settings.apply s

section
variable {s : Settings} {argument : Bytes} (hflag : isFlagArgument argument = true)
include hflag

/-- A flag is read with the next argument if it takes that, and else alone. At the end of the
arguments there is no next one to take. -/
theorem readFlags_flag (next : Option Bytes) (hdash : argument ≠ "--") {rest : List Bytes}
    (hnext : next.isSome = takesNext argument ∨ next = none ∧ rest = []) :
    readFlags s (argument :: (next.toList ++ rest)) =
      s.setFlag argument next >>= (readFlags · rest) := by
  rw [readFlags, Settings.setFlag, flagSetting]
  cases hparts : flagParts argument with
  | error e =>
    simp [hflag, hdash]
    rfl
  | ok found =>
    obtain ⟨name, own⟩ := found
    rw [takesNext_of_flagParts hflag hparts] at hnext
    cases hname : Flag.ofName? name with
    | none =>
      simp [hflag, hdash, hname]
      rfl
    | some flag =>
      rw [hname] at hnext
      rcases hnext with hnext | ⟨rfl, rfl⟩
      · cases hswitch : flag.isSwitch <;> cases own <;> cases next <;>
          simp [hswitch] at hnext <;> simp [hflag, hdash, hname, hswitch] <;> rfl
      · cases hswitch : flag.isSwitch <;> cases own <;>
          simp [hflag, hdash, hname, hswitch] <;> rfl

/-- A flag that takes the next argument is not set without one. -/
theorem setFlag_lacking (hnext : takesNext argument = true) (s' : Settings) :
    s.setFlag argument none ≠ .ok s' := by
  intro hset
  obtain ⟨setting, hsetting, -⟩ := exists_of_bind hset
  rw [flagSetting] at hsetting
  cases hparts : flagParts argument with
  | error e => simp [hparts] at hsetting
  | ok found =>
    obtain ⟨name, own⟩ := found
    rw [takesNext_of_flagParts hflag hparts, Bool.and_eq_true, Option.isNone_iff_eq_none] at hnext
    obtain ⟨rfl, hswitch⟩ := hnext
    cases hname : Flag.ofName? name with
    | none => simp [hparts, hname] at hsetting
    | some flag =>
      rw [hname] at hswitch
      simp at hswitch
      simp [hparts, hname, hswitch] at hsetting

/-- A flag at the end that takes the next argument is refused. -/
theorem readFlags_lacking (hdash : argument ≠ "--") (hnext : takesNext argument = true)
    (found : Settings × List Bytes) : readFlags s [argument] ≠ .ok found := by
  intro hread
  rw [show [argument] = argument :: (Option.toList none ++ []) from rfl,
    readFlags_flag hflag none hdash (.inr ⟨rfl, rfl⟩)] at hread
  obtain ⟨s', hset, -⟩ := exists_of_bind hread
  exact setFlag_lacking hflag hnext s' hset

end

/-! ### Settings that are accepted -/

/-- Settling options fills in the output at most. -/
theorem Options.of_settle {o o' : Options} (h : o.settle = .ok o') :
    ∃ output, o' = { o with output } := by
  unfold settle at h
  split at h
  · exact ⟨o.output, by cases h; rfl⟩
  · split at h
    · exact ⟨o.output, by cases h; rfl⟩
    · cases h
  · split_ifs at h
    · exact ⟨defaultOutput, by cases h; rfl⟩
    · exact ⟨o.output, by cases h; rfl⟩

/-- What options say of the settings they were made from. -/
theorem Settings.of_validate {s : Settings} {arguments : List Bytes} {o : Options}
    (h : s.validate arguments = .ok o) :
    Level.ofName? s.logLevel = some o.level ∧ 0 ≤ s.timeout ∧ s.job arguments = .ok o.job ∧
      o.includeDir = s.includeDir ∧ o.timeout = nanoseconds s.timeout := by
  unfold Settings.validate at h
  cases hlevel : Level.ofName? s.logLevel with
  | none =>
    rw [hlevel] at h
    cases h
  | some level =>
    simp only [hlevel] at h
    by_cases htimeout : s.timeout < 0
    · rw [if_pos htimeout] at h
      cases h
    rw [if_neg htimeout] at h
    by_cases hsteps : s.steps < 0
    · rw [if_pos hsteps] at h
      cases h
    rw [if_neg hsteps] at h
    cases htarget : Target.ofName? s.target with
    | none =>
      rw [htarget] at h
      cases h
    | some target =>
      simp only [htarget] at h
      obtain ⟨base, -, h⟩ := exists_of_bind h
      obtain ⟨job, hjob, h⟩ := exists_of_bind h
      obtain ⟨output, rfl⟩ := Options.of_settle h
      exact ⟨rfl, Int.not_lt.mp htimeout, hjob, rfl, rfl⟩

/-- The arguments of a build are its source and, if there are two, its manifest. -/
theorem Settings.of_job {s : Settings} {arguments : List Bytes} {source manifest : Bytes}
    (h : s.job arguments = .ok (.build source manifest)) :
    arguments = [source] ∧ manifest = [] ∨ arguments = [source, manifest] := by
  unfold Settings.job at h
  split at h
  · split at h <;> cases h
  · split at h
    · cases h
    · cases h
      exact .inl ⟨rfl, rfl⟩
    · cases h
      exact .inr rfl
    · cases h

/-- What an accepted command line is: a call for help, whatever else it says, or work with checked
options. -/
theorem Invocation.of_ofArguments {arguments : List Bytes} {env : Environment} {i : Invocation}
    (h : Invocation.ofArguments arguments env = .ok i) :
    ∃ settings others, readFlags {} (arranged arguments) = .ok (settings, others) ∧
      (i = .help (settings.fill env) ∨
        ∃ o, i = .work o ∧ (settings.fill env).validate others = .ok o) := by
  unfold Invocation.ofArguments at h
  obtain ⟨⟨settings, others⟩, hread, h⟩ := exists_of_bind h
  refine ⟨settings, others, hread, ?_⟩
  dsimp only at h
  by_cases hhelp : (settings.fill env).help = true
  · rw [if_pos hhelp] at h
    cases h
    exact .inl rfl
  · rw [if_neg hhelp] at h
    obtain ⟨o, hvalid, h⟩ := exists_of_bind h
    cases h
    exact .inr ⟨o, rfl, hvalid⟩

namespace CommandLine

/-! ### Command lines whose flags have their values -/

section
variable {argument : Bytes} {rest : List Bytes}

theorem ne_doubleDash (h : isFlagArgument argument = false) : argument ≠ "--" := by
  rintro rfl
  simp [doubleDash_eq, isFlagArgument] at h

theorem parts_positional (h : isFlagArgument argument = false) (rest : List Bytes) :
    parts (argument :: rest) = .positional argument :: parts rest := by
  rw [parts.eq_def]
  simp [h, ne_doubleDash h]

theorem parts_flag (next : Option Bytes) (hflag : isFlagArgument argument = true)
    (hdash : argument ≠ "--") (hnext : next.isSome = takesNext argument) (rest : List Bytes) :
    parts (argument :: (next.toList ++ rest)) = .flag argument next :: parts rest := by
  rw [parts.eq_def]
  cases next <;> simp at hnext <;> simp [hflag, hdash, ← hnext]

theorem parts_lacking (hflag : isFlagArgument argument = true) (hdash : argument ≠ "--")
    (hnext : takesNext argument = true) : parts [argument] = [.flag argument none] := by
  rw [parts.eq_def]
  simp [hflag, hdash, hnext]

theorem parts_terminator (behind : List Bytes) :
    parts (Bytes.ofString "--" :: behind) = .terminator :: behind.map .positional := by
  rw [parts.eq_def]
  simp

theorem arrange_positional (h : isFlagArgument argument = false) (rest : List Bytes) :
    arrange (argument :: rest) = ((arrange rest).1, argument :: (arrange rest).2) := by
  rw [arrange.eq_def]
  simp [h]

theorem arrange_flag (next : Option Bytes) (hflag : isFlagArgument argument = true)
    (hnext : next.isSome = takesNext argument) (rest : List Bytes) :
    arrange (argument :: (next.toList ++ rest)) =
      (argument :: (next.toList ++ (arrange rest).1), (arrange rest).2) := by
  rw [arrange.eq_def]
  cases next <;> simp at hnext <;> simp [hflag, ← hnext]

theorem arrange_lacking (hflag : isFlagArgument argument = true)
    (hnext : takesNext argument = true) : arrange [argument] = ([argument], []) := by
  rw [arrange.eq_def]
  simp [hflag, hnext]

end

/-- No argument is a double dash in the place of a flag, and every flag that takes the next argument
has one. -/
inductive Complete : List Bytes → Prop
  | nil : Complete []
  | positional {argument : Bytes} {rest : List Bytes} (hflag : isFlagArgument argument = false)
    (hrest : Complete rest) : Complete (argument :: rest)
  | flag {argument : Bytes} {next : Option Bytes} {rest : List Bytes}
    (hflag : isFlagArgument argument = true) (hdash : argument ≠ "--")
    (hnext : next.isSome = takesNext argument) (hrest : Complete rest) :
    Complete (argument :: (next.toList ++ rest))

/-- How far a command line is complete. -/
inductive Shape : List Bytes → Prop
  | complete {arguments : List Bytes} (h : Complete arguments) : Shape arguments
  /-- Up to a double dash. -/
  | terminated {front : List Bytes} (h : Complete front) (behind : List Bytes) :
    Shape (front ++ Bytes.ofString "--" :: behind)
  /-- Up to a flag at the end that lacks its value. -/
  | lacking {front : List Bytes} {argument : Bytes} (h : Complete front)
    (hflag : isFlagArgument argument = true) (hdash : argument ≠ "--")
    (hnext : takesNext argument = true) : Shape (front ++ [argument])

theorem Shape.append (start : List Bytes) {rest : List Bytes}
    (hstart : ∀ {rest}, Complete rest → Complete (start ++ rest)) (h : Shape rest) :
    Shape (start ++ rest) := by
  cases h with
  | complete h => exact .complete (hstart h)
  | terminated h behind =>
    rw [← List.append_assoc]
    exact .terminated (hstart h) behind
  | lacking h hflag hdash hnext =>
    rw [← List.append_assoc]
    exact .lacking (hstart h) hflag hdash hnext

theorem shape (arguments : List Bytes) : Shape arguments := by
  fun_induction parts arguments with
  | case1 => exact .complete .nil
  | case2 rest => exact .terminated .nil rest
  | case3 argument rest hdash hflag ih =>
    rw [Bool.not_eq_true'] at hflag
    exact ih.append [argument] (.positional hflag)
  | case4 argument rest hdash hflag hnext ih =>
    simp only [Bool.not_eq_true', Bool.not_eq_false] at hflag hnext
    exact ih.append [argument] fun h => @Complete.flag argument none _ hflag hdash hnext.symm h
  | case5 argument hdash hflag hnext =>
    simp only [Bool.not_eq_true', Bool.not_eq_false] at hflag hnext
    exact .lacking .nil hflag hdash hnext
  | case6 argument hdash hflag hnext value rest ih =>
    simp only [Bool.not_eq_true', Bool.not_eq_false] at hflag hnext
    exact ih.append [argument, value] fun h =>
      @Complete.flag argument (some value) _ hflag hdash hnext.symm h

/-! ### The two readings -/

section
variable {front : List Bytes}

theorem parts_append (h : Complete front) (rest : List Bytes) :
    parts (front ++ rest) = parts front ++ parts rest := by
  induction h with
  | nil => rfl
  | positional hflag _ ih =>
    rw [List.cons_append, parts_positional hflag, parts_positional hflag, ih, List.cons_append]
  | flag hflag hdash hnext _ ih =>
    rw [List.cons_append, List.append_assoc, parts_flag _ hflag hdash hnext,
      parts_flag _ hflag hdash hnext, ih, List.cons_append]

theorem arrange_append (h : Complete front) (rest : List Bytes) :
    arrange (front ++ rest) =
      ((arrange front).1 ++ (arrange rest).1, (arrange front).2 ++ (arrange rest).2) := by
  induction h with
  | nil => rfl
  | positional hflag _ ih =>
    rw [List.cons_append, arrange_positional hflag, arrange_positional hflag, ih, List.cons_append]
  | flag hflag hdash hnext _ ih =>
    rw [List.cons_append, List.append_assoc, arrange_flag _ hflag hnext,
      arrange_flag _ hflag hnext, ih, List.cons_append, List.append_assoc]

/-- The arguments that are moved behind the flags are the positional ones. -/
theorem arrange_others (h : Complete front) : (arrange front).2 = positionals (parts front) := by
  induction h with
  | nil => rfl
  | positional hflag _ ih =>
    rw [arrange_positional hflag, parts_positional hflag, ih]
    rfl
  | flag hflag hdash hnext _ ih =>
    rw [arrange_flag _ hflag hnext, parts_flag _ hflag hdash hnext, ih]
    rfl

/-- **The flags moved to the front are read as they stand in the command line.** -/
theorem readFlags_arrange (h : Complete front) (s : Settings) (rest : List Bytes) :
    readFlags s ((arrange front).1 ++ rest) =
      s.ofParts (parts front) >>= (readFlags · rest) := by
  induction h generalizing s with
  | nil => rfl
  | positional hflag _ ih =>
    rw [arrange_positional hflag, parts_positional hflag, ih]
    rfl
  | flag hflag hdash hnext _ ih =>
    rw [arrange_flag _ hflag hnext, parts_flag _ hflag hdash hnext, List.cons_append,
      List.append_assoc, readFlags_flag hflag _ hdash (.inl hnext)]
    simp only [ih, Settings.ofParts, List.foldlM_cons, bind_assoc]
    rfl

end

theorem readFlags_others (s : Settings) {others : List Bytes}
    (h : ∀ argument ∈ others, isFlagArgument argument = false) :
    readFlags s others = .ok (s, others) := by
  cases others with
  | nil => rfl
  | cons argument rest =>
    rw [readFlags, h argument (by simp)]
    rfl

theorem readFlags_terminator (s : Settings) (rest : List Bytes) :
    readFlags s (Bytes.ofString "--" :: rest) = .ok (s, rest) := by
  rw [readFlags, show isFlagArgument "--" = true from rfl]
  simp

/-- No argument that looks like a flag is moved behind the flags. -/
theorem isFlagArgument_others (arguments : List Bytes) :
    ∀ argument ∈ (arrange arguments).2, isFlagArgument argument = false := by
  fun_induction arrange arguments with
  | case1 => simp
  | case2 argument rest hflag flags others hrest ih =>
    rw [hrest] at ih
    simpa using ⟨by simpa using hflag, ih⟩
  | case3 argument rest hflag hnext flags others hrest ih =>
    rw [hrest] at ih
    exact ih
  | case4 argument => simp
  | case5 argument _ _ value rest flags others hrest ih =>
    rw [hrest] at ih
    exact ih

theorem length_arrange (arguments : List Bytes) :
    ((arrange arguments).1 ++ (arrange arguments).2).length = arguments.length := by
  fun_induction arrange arguments with
  | case1 => rfl
  | case2 argument rest hflag flags others hrest ih =>
    rw [hrest] at ih
    simp at ih ⊢
    omega
  | case3 argument rest hflag hnext flags others hrest ih =>
    rw [hrest] at ih
    simpa using ih
  | case4 argument => rfl
  | case5 argument _ _ value rest flags others hrest ih =>
    rw [hrest] at ih
    simpa using ih

theorem arranged_singleton (argument : Bytes) : arranged [argument] = [argument] := by
  rw [arranged, arrange.eq_def]
  cases hflag : isFlagArgument argument <;> cases hnext : takesNext argument <;>
    simp [hflag, hnext, arrange]

section
variable {front : List Bytes} (h : Complete front) (s : Settings)
include h

/-- What is read behind a complete front, the positional arguments of the front put in between. -/
theorem readFlags_arranged (rest : List Bytes) :
    readFlags s (arranged (front ++ rest)) = s.ofParts (parts front) >>= fun settings =>
      readFlags settings ((arrange rest).1 ++ (positionals (parts front) ++ (arrange rest).2)) := by
  rw [arranged, arrange_append h, arrange_others h, List.append_assoc, readFlags_arrange h]

theorem readFlags_ending (rest : List Bytes) {arguments : List Bytes}
    (hrest : ∀ settings, readFlags settings
      ((arrange rest).1 ++ (positionals (parts front) ++ (arrange rest).2)) =
        .ok (settings, arguments)) :
    readFlags s (arranged (front ++ rest)) =
      (s.ofParts (parts front)).map fun settings => (settings, arguments) := by
  rw [readFlags_arranged h]
  simp only [hrest]
  cases s.ofParts (parts front) <;> rfl

/-- **A complete command line is read in its own order.** -/
theorem readFlags_complete : readFlags s (arranged front) =
    (s.ofParts (parts front)).map fun settings => (settings, positionals (parts front)) := by
  rw [← arrange_others h]
  have hread := readFlags_ending h s [] fun settings => by
    rw [← arrange_others h]
    simpa [arrange] using readFlags_others settings (isFlagArgument_others front)
  rwa [List.append_nil] at hread

/-- **Arguments behind a double dash come first**, the positional ones in front of it only then. -/
theorem readFlags_terminated (first : Bytes) (rest : List Bytes) :
    readFlags s (arranged (front ++ Bytes.ofString "--" :: first :: rest)) =
      (s.ofParts (parts front)).map fun settings => (settings,
        first :: ((arrange rest).1 ++ (positionals (parts front) ++ (arrange rest).2))) := by
  refine readFlags_ending h s _ fun settings => ?_
  have harrange : arrange (Bytes.ofString "--" :: first :: rest) =
      (Bytes.ofString "--" :: first :: (arrange rest).1, (arrange rest).2) :=
    arrange_flag (some first) rfl rfl rest
  rw [harrange, List.cons_append, readFlags_terminator]
  rfl

/-- A double dash at the end makes no difference. -/
theorem readFlags_terminated_nil :
    readFlags s (arranged (front ++ [Bytes.ofString "--"])) =
      (s.ofParts (parts front)).map fun settings => (settings, positionals (parts front)) := by
  refine readFlags_ending h s _ fun settings => ?_
  rw [arrange_lacking rfl rfl, List.cons_append, readFlags_terminator]
  simp

/-- **A flag at the end that lacks its value takes the first positional argument.** -/
theorem readFlags_unfinished {argument first : Bytes} {others : List Bytes}
    (hflag : isFlagArgument argument = true) (hdash : argument ≠ "--")
    (hnext : takesNext argument = true) (hfirst : positionals (parts front) = first :: others) :
    readFlags s (arranged (front ++ [argument])) =
      (s.ofParts (parts front ++ [.flag argument (some first)])).map fun settings =>
        (settings, others) := by
  have hothers : ∀ other ∈ others, isFlagArgument other = false := fun other hother =>
    isFlagArgument_others front other (by rw [arrange_others h, hfirst]; simp [hother])
  have hread : ∀ settings, readFlags settings (argument :: first :: others) =
      settings.setFlag argument (some first) >>= (readFlags · others) := fun settings =>
    readFlags_flag hflag (some first) hdash (.inl hnext.symm)
  rw [readFlags_arranged h, arrange_lacking hflag hnext, hfirst]
  simp only [List.cons_append, List.nil_append, List.append_nil, hread, readFlags_others _ hothers,
    Settings.ofParts, List.foldlM_append, List.foldlM_cons, List.foldlM_nil, Settings.apply]
  cases List.foldlM Settings.apply s (parts front) with
  | error e => rfl
  | ok settings =>
    show (settings.setFlag argument (some first) >>= _) =
      (settings.setFlag argument (some first) >>= pure).map _
    cases settings.setFlag argument (some first) <;> rfl

/-- Without a positional argument it is refused. -/
theorem readFlags_lacking_nil {argument : Bytes} (hflag : isFlagArgument argument = true)
    (hdash : argument ≠ "--") (hnext : takesNext argument = true)
    (hnone : positionals (parts front) = []) (found : Settings × List Bytes) :
    readFlags s (arranged (front ++ [argument])) ≠ .ok found := by
  rw [readFlags_arranged h, arrange_lacking hflag hnext, hnone]
  cases s.ofParts (parts front) with
  | error e => nofun
  | ok settings => exact readFlags_lacking hflag hdash hnext found

end

theorem positionals_append (first second : List Part) :
    positionals (first ++ second) = positionals first ++ positionals second := List.filterMap_append

theorem positionals_terminated (behind : List Bytes) :
    positionals (.terminator :: behind.map .positional) = behind := by
  rw [positionals, List.filterMap_cons_none rfl, List.filterMap_map]
  exact List.filterMap_some

/-- Nothing is set behind a double dash. -/
theorem ofParts_terminated (s : Settings) (first : List Part) (behind : List Bytes) :
    s.ofParts (first ++ .terminator :: behind.map .positional) = s.ofParts first := by
  have hbehind : ∀ settings : Settings,
      settings.ofParts (.terminator :: behind.map .positional) = .ok settings := by
    intro settings
    show settings.ofParts (behind.map .positional) = .ok settings
    induction behind with
    | nil => rfl
    | cons argument behind ih => exact ih
  simp only [Settings.ofParts] at hbehind ⊢
  simp only [List.foldlM_append, hbehind]
  cases List.foldlM Settings.apply s first <;> rfl

end CommandLine

end Terrace
