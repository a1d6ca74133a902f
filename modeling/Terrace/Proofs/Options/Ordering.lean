/-
# Files in the order of the command line

The files of a build are the positional arguments of its command line, the source first and the
manifest second, and no flag takes one of them as its value (`ReadInOrder`), unless the command line
ends in a flag that lacks its value (`Unfinished`), or has one of two different files in front of a
double dash and the other behind it (`Swapped`). In these two cases it is otherwise: the flag takes
the first file, or the second file is the source.

Key definitions: `CommandLine.ReadInOrder`, `CommandLine.Unfinished`, `CommandLine.Swapped`.
Key theorems: `CommandLine.readFlags_ordered`, `CommandLine.ofArguments_inOrder_iff`.
-/
import Terrace.Proofs.Options.CommandLine

namespace Terrace

namespace CommandLine

/-- The options are those of the flags with the values they have in the command line, and the files
are the positional arguments in their order. -/
structure ReadInOrder (arguments : List Bytes) (env : Environment) (o : Options)
    (source manifest : Bytes) : Prop where
  /-- Every flag is set to its own value, so that none takes a positional argument. -/
  flags : ∃ settings, Settings.ofParts {} (parts arguments) = .ok settings ∧
    (settings.fill env).validate (positionals (parts arguments)) = .ok o
  files : positionals (parts arguments) = [source] ∧ manifest = [] ∨
    positionals (parts arguments) = [source, manifest]

/-- The command line ends in a flag that lacks its value. -/
def Unfinished (arguments : List Bytes) : Prop :=
  ∃ front argument, arguments = front ++ [argument] ∧ Complete front ∧
    isFlagArgument argument = true ∧ argument ≠ "--" ∧ takesNext argument = true

/-- One of two different files stands behind a double dash, and the other in front of it. -/
def Swapped (arguments : List Bytes) : Prop :=
  ∃ front first second, arguments = front ++ [Bytes.ofString "--", second] ∧ Complete front ∧
    positionals (parts front) = [first] ∧ first ≠ second

/-- A flag without the value it needs is not set. -/
theorem Unfinished.ofParts {arguments : List Bytes} (h : Unfinished arguments)
    (s s' : Settings) : s.ofParts (parts arguments) ≠ .ok s' := by
  obtain ⟨front, argument, rfl, hfront, hflag, hdash, hnext⟩ := h
  rw [parts_append hfront, parts_lacking hflag hdash hnext, Settings.ofParts, List.foldlM_append]
  intro hset
  obtain ⟨settings, -, hlast⟩ := exists_of_bind hset
  obtain ⟨s', hlacking, -⟩ := exists_of_bind hlast
  exact setFlag_lacking hflag hnext s' hlacking

/-- Of two files, the one behind the double dash comes first. -/
theorem Swapped.readFlags {arguments : List Bytes} (h : Swapped arguments) :
    ∃ first second, first ≠ second ∧ positionals (parts arguments) = [first, second] ∧
      ∀ s found, readFlags s (arranged arguments) = .ok found →
        found.2 = [second, first] := by
  obtain ⟨front, first, second, rfl, hfront, hfirst, hne⟩ := h
  refine ⟨first, second, hne, ?_, fun s found hread => ?_⟩
  · rw [parts_append hfront, parts_terminator, positionals_append, positionals_terminated, hfirst]
    rfl
  · rw [readFlags_terminated hfront] at hread
    obtain ⟨settings, -, rfl⟩ := exists_of_map hread
    simp [arrange, hfirst]

/-- **A command line of at most two files is read in its own order**, but for the two exceptions. -/
theorem readFlags_ordered {arguments others : List Bytes} {s settings : Settings}
    (h : readFlags s (arranged arguments) = .ok (settings, others)) (hfiles : others.length ≤ 2)
    (hunfinished : ¬ Unfinished arguments) (hswapped : ¬ Swapped arguments) :
    s.ofParts (parts arguments) = .ok settings ∧ others = positionals (parts arguments) := by
  cases shape arguments with
  | complete hcomplete =>
    rw [readFlags_complete hcomplete] at h
    exact eq_of_map_pair h
  | lacking hfront hflag hdash hnext =>
    exact absurd ⟨_, _, rfl, hfront, hflag, hdash, hnext⟩ hunfinished
  | @terminated front hfront behind =>
    rw [parts_append hfront, parts_terminator, ofParts_terminated, positionals_append,
      positionals_terminated]
    cases behind with
    | nil =>
      rw [readFlags_terminated_nil hfront] at h
      rw [List.append_nil]
      exact eq_of_map_pair h
    | cons first rest =>
      rw [readFlags_terminated hfront] at h
      obtain ⟨hset, rfl⟩ := eq_of_map_pair h
      refine ⟨hset, ?_⟩
      have hsingle := arranged_singleton
      simp only [arranged] at hsingle
      have hrest := length_arrange rest
      simp only [List.length_append, List.length_cons] at hfiles hrest
      -- At most one argument stands beside the first one behind the double dash.
      cases hfile : positionals (parts front) with
      | nil =>
        rcases rest with _ | ⟨second, _ | ⟨_, _⟩⟩
        · rfl
        · simp [hsingle]
        · simp [hfile] at hfiles hrest
          omega
      | cons file files =>
        simp only [hfile, List.length_cons] at hfiles
        obtain rfl := List.eq_nil_of_length_eq_zero (l := files) (by omega)
        obtain rfl := List.eq_nil_of_length_eq_zero (l := rest) (by omega)
        have hsame : file = first := by
          by_contra hne
          exact hswapped ⟨front, file, first, rfl, hfront, hfile, hne⟩
        simp [arrange, hsame]

/-- **Files are taken in the order of the command line** if and only if it does not end in a flag
that lacks its value, and a double dash does not stand between two different files. -/
theorem ofArguments_inOrder_iff {arguments : List Bytes} {env : Environment} {o : Options}
    {source manifest : Bytes} (h : Invocation.ofArguments arguments env = .ok (.work o))
    (hjob : o.job = .build source manifest) :
    ReadInOrder arguments env o source manifest ↔
      ¬ Unfinished arguments ∧ ¬ Swapped arguments := by
  obtain ⟨settings, others, hread, ⟨⟨⟩⟩ | ⟨_, ⟨⟩, hvalid⟩⟩ := Invocation.of_ofArguments h
  have hjobs := (Settings.of_validate hvalid).2.2.1
  rw [hjob] at hjobs
  have hothers := Settings.of_job hjobs
  constructor
  · rintro ⟨⟨own, hown, -⟩, hfiles⟩
    refine ⟨fun hunfinished => hunfinished.ofParts _ _ hown, fun hswapped => ?_⟩
    obtain ⟨first, second, hne, hpositionals, hread'⟩ := hswapped.readFlags
    have hlast := hread' _ _ hread
    rw [hpositionals] at hfiles
    dsimp only at hlast
    simp [hlast] at hothers hfiles
    exact hne (by rw [hfiles.1, ← hothers.1])
  · rintro ⟨hunfinished, hswapped⟩
    have hlength : others.length ≤ 2 := by
      rcases hothers with ⟨rfl, -⟩ | rfl <;> simp
    obtain ⟨hset, hpositionals⟩ := readFlags_ordered hread hlength hunfinished hswapped
    rw [hpositionals] at hvalid hothers
    exact ⟨⟨settings, hset, hvalid⟩, hothers⟩

/-- A command line with flags before, between and behind the files. -/
def mixed : List Bytes :=
  ["-t", "6502", "game.peb", "--routines=r.oph", "-d", "-o", "game.oph", "files.txt"]

/-- The options of `mixed`. -/
def mixedOptions : Options where
  job := .build "game.peb" "files.txt"
  target := .mos6502
  output := "game.oph"
  debug := true
  color := false
  run := false
  interactive := false
  includeDir := []
  base := none
  routines := "r.oph"
  timeout := 0
  steps := 0
  level := .info

theorem mixed_inOrder :
    Invocation.ofArguments mixed {} = .ok (.work mixedOptions) ∧
      mixedOptions.job = .build "game.peb" "files.txt" ∧
      ReadInOrder mixed {} mixedOptions "game.peb" "files.txt" := by
  have hread : Invocation.ofArguments mixed {} = .ok (.work mixedOptions) := by decide +kernel
  have hlast : mixed.reverse.take 2 = ([Bytes.ofString "files.txt", "game.oph"] : List Bytes) := by
    decide +kernel
  refine ⟨hread, rfl, (ofArguments_inOrder_iff hread rfl).mpr ⟨?_, ?_⟩⟩
  · rintro ⟨front, argument, hmixed, -, hflag, -⟩
    rw [hmixed, List.reverse_append] at hlast
    obtain ⟨rfl, -⟩ := List.cons.inj hlast
    revert hflag
    decide +kernel
  · rintro ⟨front, first, second, hmixed, -⟩
    rw [hmixed, List.reverse_append] at hlast
    obtain ⟨-, hdash⟩ := List.cons.inj hlast
    exact absurd (List.cons.inj hdash).1 (by decide +kernel)

/-- **A flag at the end takes the source**: the program is compiled from the second file, and
written over the first. -/
theorem lastFlag_takes_source :
    ∃ o, Invocation.ofArguments ["a.peb", "b.peb", "-o"] {} = .ok (.work o) ∧
      o.job = .build "b.peb" [] ∧ o.output = "a.peb" ∧
      positionals (parts ["a.peb", "b.peb", "-o"]) = [Bytes.ofString "a.peb", "b.peb"] ∧
      ¬ ReadInOrder ["a.peb", "b.peb", "-o"] {} o "b.peb" [] := by
  have hpositionals : positionals (parts ["a.peb", "b.peb", "-o"]) =
      [Bytes.ofString "a.peb", "b.peb"] := by
    decide +kernel
  refine ⟨{
      job := .build "b.peb" [], target := .vm, output := "a.peb", debug := false, color := false
      run := false, interactive := false, includeDir := [], base := none, routines := []
      timeout := 0, steps := 0, level := .info }, by decide +kernel, rfl, rfl, hpositionals, ?_⟩
  rintro ⟨-, hfiles⟩
  rw [hpositionals] at hfiles
  revert hfiles
  decide +kernel

-- A double dash swaps two files, of which the one behind it then is the source.
example : (readFlags {} (arranged ["a.peb", "--", "m.txt"])).map Prod.snd =
    .ok [Bytes.ofString "m.txt", "a.peb"] := by
  decide +kernel

end CommandLine

end Terrace
