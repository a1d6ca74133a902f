/-
# The lines around an error

A failed compilation shows the lines around the place of its error, if its file has the name of
the file that was compiled. Since errors point into the file in which they were raised, an error
in the text itself is always shown in its lines. But the name is not all of a file: a file of the
library can have the name of the program, and then an error in it is shown in lines of the text
that have nothing to do with it.

Key definitions: `Marks`, `CompileError.Raised`.
Key theorems: `excerpt_marks`, `Opens.name`, `Program.parse_points`, `compile_context_iff`.
-/
import Terrace.Proofs.Compilation.Generation
import Terrace.Proofs.Source.Location

namespace Terrace

/-! ### Excerpts -/

/-- The context shows lines of the text; this line is marked, with a caret at the column below it,
and no other line is. -/
def Marks (source context : Bytes) (line column : Nat) : Prop :=
  ∃ (width : Nat) (row : Bytes) (before after : List (Bytes × Nat)),
    (rowsOf source)[line - 1]? = some row ∧
    (∀ shown ∈ before ++ after,
      shown.2 ≠ line ∧ (rowsOf source)[shown.2 - 1]? = some shown.1) ∧
    context = before.flatMap (fun shown => excerptLine width false shown.2 shown.1) ++
      (excerptLine width true line row ++ caretLine width column) ++
      after.flatMap fun shown => excerptLine width false shown.2 shown.1

section
variable {source : Bytes} {line column : Nat}

theorem hasLine_iff : hasLine source line = true ↔
    source ≠ [] ∧ 1 ≤ line ∧ line ≤ source.count '\n'.toUInt8 + 1 := by
  have hlength := Bytes.length_rowsOf source
  rw [rowsOf] at hlength
  simp only [hasLine, Bool.and_eq_true, Bool.not_eq_true', List.isEmpty_eq_false_iff,
    decide_eq_true_eq, and_assoc, hlength]
  exact and_congr_right fun _ => by omega

/-- The lines that an excerpt shows, with their numbers. -/
def shownLines (source : Bytes) (line : Nat) : List (Bytes × Nat) :=
  (((rowsOf source).zipIdx 1).take (min (line + excerptReach) (rowsOf source).length)).drop
    (line - 1 - excerptReach)

theorem shownLines_sublist (source : Bytes) (line : Nat) :
    (shownLines source line).Sublist ((rowsOf source).zipIdx 1) :=
  (List.drop_sublist _ _).trans (List.take_sublist _ _)

/-- The line itself is among them, once. -/
theorem shownLines_split (h : hasLine source line = true) :
    ∃ row before after, (rowsOf source)[line - 1]? = some row ∧
      shownLines source line = before ++ (row, line) :: after ∧
      ∀ shown ∈ before ++ after, shown.2 ≠ line ∧
        (rowsOf source)[shown.2 - 1]? = some shown.1 := by
  obtain ⟨-, hpos, hle⟩ := hasLine_iff.mp h
  rw [← Bytes.length_rowsOf] at hle
  have hnumbers : ∀ shown ∈ shownLines source line,
      (rowsOf source)[shown.2 - 1]? = some shown.1 := fun shown hshown =>
    (List.mem_zipIdx_iff_le_and_getElem?_sub.mp ((shownLines_sublist source line).subset hshown)).2
  obtain ⟨row, hrow⟩ : ∃ row, (rowsOf source)[line - 1]? = some row :=
    ⟨_, List.getElem?_eq_getElem (by omega)⟩
  have hmem : (row, line) ∈ shownLines source line := by
    refine List.mem_of_getElem? (i := line - 1 - (line - 1 - excerptReach)) ?_
    rw [shownLines, List.getElem?_drop, List.getElem?_take, List.getElem?_zipIdx, if_pos]
    · have hindex : line - 1 - excerptReach + (line - 1 - (line - 1 - excerptReach)) = line - 1 := by
        omega
      rw [hindex, hrow, Option.map_some, show 1 + (line - 1) = line by omega]
    · omega
  obtain ⟨before, after, hsplit⟩ := List.append_of_mem hmem
  refine ⟨row, before, after, hrow, hsplit, fun shown hshown => ⟨?_, hnumbers shown ?_⟩⟩
  · -- no number comes twice
    have hnodup : ((shownLines source line).map Prod.snd).Nodup := by
      refine List.Nodup.sublist ((shownLines_sublist source line).map _) ?_
      rw [List.zipIdx_map_snd]
      exact List.nodup_range'
    rw [hsplit, List.map_append, List.map_cons, List.nodup_middle, List.nodup_cons,
      ← List.map_append] at hnodup
    intro hsame
    exact hnodup.1 (List.mem_map.mpr ⟨shown, hshown, hsame⟩)
  · rw [hsplit]
    rcases List.mem_append.mp hshown with hshown | hshown <;> simp [hshown]

/-- A line as it is shown in an excerpt that marks line `line`. -/
def shownAs (width line column : Nat) (shown : Bytes × Nat) : Bytes :=
  if shown.2 = line then excerptLine width true shown.2 shown.1 ++ caretLine width column
  else excerptLine width false shown.2 shown.1

theorem excerpt_eq (h : hasLine source line = true) :
    excerpt source line column = (shownLines source line).flatMap
      (shownAs (Bytes.decimal (min (line + excerptReach) (rowsOf source).length)).length
        line column) := by
  rw [excerpt, h]
  rfl

/-- **An excerpt marks its line.** -/
theorem excerpt_marks (h : hasLine source line = true) :
    Marks source (excerpt source line column) line column := by
  obtain ⟨row, before, after, hrow, hsplit, hothers⟩ := shownLines_split h
  have hexcerpt := @excerpt_eq source line column h
  set width := (Bytes.decimal (min (line + excerptReach) (rowsOf source).length)).length
  have hplain : ∀ shown ∈ before ++ after,
      shownAs width line column shown = excerptLine width false shown.2 shown.1 :=
    fun shown hshown => if_neg (hothers shown hshown).1
  rw [List.forall_mem_append] at hplain
  refine ⟨width, row, before, after, hrow, hothers, ?_⟩
  calc excerpt source line column
      = before.flatMap (shownAs width line column) ++ shownAs width line column (row, line) ++
          after.flatMap (shownAs width line column) := by
        rw [hexcerpt, hsplit, List.flatMap_append, List.flatMap_cons, List.append_assoc]
    _ = _ := by
        rw [List.flatMap_congr hplain.1, List.flatMap_congr hplain.2, shownAs, if_pos rfl]

theorem Marks.ne_nil {context : Bytes} (h : Marks source context line column) : context ≠ [] := by
  obtain ⟨width, row, before, after, -, -, rfl⟩ := h
  have hcaret : caretLine width column ≠ [] :=
    List.append_ne_nil_of_right_ne_nil _ (by decide)
  simp [hcaret]

theorem excerpt_ne_nil_iff : excerpt source line column ≠ [] ↔ hasLine source line = true := by
  constructor
  · intro hne
    by_contra hno
    exact hne (by rw [excerpt, if_pos (by simpa using hno)])
  · exact fun h => (excerpt_marks h).ne_nil

end

/-! ### Compile errors -/

section
variable {options : CompileOptions} {source : Bytes}

theorem compile_of_parse_error {e : ParseError}
    (h : (Program.parse options.loader source options.fileName).1 = .error e) :
    (compile source options).1 =
      .error (.ofParse (SourceFile.ofName options.fileName).name source e) := by
  unfold compile
  dsimp only
  cases hrun : Program.parse options.loader source options.fileName with
  | mk result records =>
    obtain rfl : result = .error e := (congrArg Prod.fst hrun).symm.trans h
    rfl

/-- **What a failed compilation shows**: lines around the error of a parser, or no lines. -/
theorem compile_error_cases {err : CompileError} (h : (compile source options).1 = .error err) :
    (∃ e, (Program.parse options.loader source options.fileName).1 = .error e ∧
      err = .ofParse (SourceFile.ofName options.fileName).name source e) ∨ err.context = [] := by
  cases hparse : (Program.parse options.loader source options.fileName).1 with
  | error e =>
    have hcompile := compile_of_parse_error hparse
    exact .inl ⟨e, rfl, Except.error.inj (h.symm.trans hcompile)⟩
  | ok program =>
    right
    unfold compile at h
    dsimp only at h
    split at h
    next e records hrun =>
      rw [hrun] at hparse
      cases hparse
    next found records hrun =>
      split at h
      next error hassemble =>
        cases h
        unfold assembleProgram at hassemble
        split at hassemble
        · cases hassemble
          rfl
        · split at hassemble
          · cases hassemble
            rfl
          · cases hassemble
      · cases h

theorem Marks.of_own {e : ParseError} {s : ParserState} {inner : OpenFile}
    (h : e.Raised options source s inner []) (hsource : source ≠ []) :
    Marks source (CompileError.ofParse (SourceFile.ofName options.fileName).name source e).context
      e.line e.column := by
  have hplace := h.place
  have hname := h.name
  rw [h.opens.own] at hplace hname
  obtain ⟨hpos, hle, -⟩ := hplace.row
  rw [CompileError.ofParse, hname]
  dsimp only
  rw [if_pos rfl]
  exact excerpt_marks (hasLine_iff.mpr ⟨hsource, hpos, hle⟩)

end

/-- **Compile errors point into their files.** An error of a parser is raised while it reads a
file; it has the name of that file, its line is one of the text of that file, and its column is in
that line or at its end. If the file is the program's own and its text is not empty, then the
compile error shows lines of the text and marks this one. There is no other error before the code
is assembled: the generator notes none. -/
theorem Program.parse_points (options : CompileOptions) (source : Bytes) :
    (∀ e, (Program.parse options.loader source options.fileName).1 = .error e →
      ∃ s inner outer, Parse.program options.fileName (.start options source) = .error e s ∧
        e.Raised options source s inner outer ∧
        1 ≤ e.line ∧ e.line ≤ inner.text.count '\n'.toUInt8 + 1 ∧ 1 ≤ e.column ∧
        (∃ row, (rowsOf inner.text)[e.line - 1]? = some row ∧ e.column ≤ row.length + 1) ∧
        ∃ err, (compile source options).1 = .error err ∧ err.cause = .parsing e.cause ∧
          (err.file, err.line, err.column) = (inner.file.name, e.line, e.column) ∧
          (outer = [] → source ≠ [] →
            err.context ≠ [] ∧ Marks source err.context e.line e.column)) ∧
    ∀ program, (Program.parse options.loader source options.fileName).1 = .ok program →
      ∃ emitter functions, program.generate = .ok (emitter, functions) ∧
        emitter.pending = none := by
  refine ⟨fun e hparse => ?_, fun program hparse => ?_⟩
  · obtain ⟨s, inner, outer, hrun, hraised⟩ := Program.parse_raised hparse
    obtain ⟨hline, hline', hcolumn, hrow⟩ := hraised.place.row
    refine ⟨s, inner, outer, hrun, hraised, hline, hline', hcolumn, hrow, _,
      compile_of_parse_error hparse, rfl, by rw [← hraised.name]; rfl, ?_⟩
    rintro rfl hsource
    have hmarks := Marks.of_own hraised hsource
    exact ⟨hmarks.ne_nil, hmarks⟩
  · obtain ⟨emitter, hgenerate, -⟩ := program.generate_eq
    exact ⟨emitter, _, hgenerate, (Program.parse_typed hparse).pending hgenerate⟩

/-- A text with an escape that does not exist. -/
def misspelt : Bytes := "y = 1\nx = \"a\\q\"\n"

theorem misspelt_fails : ∃ e, (Program.parse none misspelt []).1 = .error e ∧
    e.cause = .lexical (.invalidEscape 'q'.toUInt8) ∧ (e.line, e.column) = (2, 9) := by
  have hcomputed : (match (Program.parse none misspelt []).1 with
      | .error e => some (e.cause, e.line, e.column)
      | .ok _ => none) = some (.lexical (.invalidEscape 'q'.toUInt8), 2, 9) := by
    decide +kernel
  split at hcomputed
  next e hparse =>
    simp only [Option.some.injEq, Prod.mk.injEq] at hcomputed
    obtain ⟨hcause, hline, hcolumn⟩ := hcomputed
    exact ⟨e, hparse, hcause, by rw [hline, hcolumn]⟩
  · cases hcomputed

theorem misspelt_points : ∃ err, (compile misspelt {}).1 = .error err ∧
    err.cause = .parsing (.lexical (.invalidEscape 'q'.toUInt8)) ∧
    (err.line, err.column) = (2, 9) ∧ Marks misspelt err.context 2 9 := by
  obtain ⟨e, hparse, hcause, hplace⟩ := misspelt_fails
  obtain ⟨s, inner, outer, -, hraised, -, -, -, -, err, hcompile, herr, hshown, hmarks⟩ :=
    (Program.parse_points {} misspelt).1 e hparse
  simp only [Prod.mk.injEq] at hplace hshown
  obtain ⟨-, hmarked⟩ := hmarks (hraised.opens.alone rfl) (by decide)
  rw [hplace.1, hplace.2] at hmarked
  exact ⟨err, hcompile, by rw [herr, hcause], by rw [hshown.2.1, hshown.2.2, hplace.1, hplace.2],
    hmarked⟩

/-- **Where the context of an error comes from.** A failed compilation shows lines of its text
exactly if the text is not empty and the error was raised in the text itself, or in a file of the
library that has the name of the program, at a line that the text has too. -/
theorem compile_context_iff {options : CompileOptions} {source : Bytes} {err : CompileError}
    (h : (compile source options).1 = .error err) :
    err.context ≠ [] ↔ source ≠ [] ∧ ∃ e s inner outer,
      Parse.program options.fileName (.start options source) = .error e s ∧
      e.Raised options source s inner outer ∧
      err = .ofParse (SourceFile.ofName options.fileName).name source e ∧
      (outer = [] ∨
        inner.file = { name := (SourceFile.ofName options.fileName).name, isLibrary := true } ∧
          e.line ≤ source.count '\n'.toUInt8 + 1) := by
  constructor
  · intro hcontext
    rcases compile_error_cases h with ⟨e, hparse, rfl⟩ | hnone
    · obtain ⟨s, inner, outer, hrun, hraised⟩ := Program.parse_raised hparse
      by_cases hname : e.file = (SourceFile.ofName options.fileName).name
      · rw [CompileError.ofParse] at hcontext
        dsimp only at hcontext
        rw [if_pos hname, excerpt_ne_nil_iff] at hcontext
        obtain ⟨hsource, -, hline⟩ := hasLine_iff.mp hcontext
        refine ⟨hsource, e, s, inner, outer, hrun, hraised, rfl, ?_⟩
        rw [hraised.name] at hname
        rcases hraised.opens.name hname with hown | hlibrary
        · exact .inl hown
        · rw [hname] at hlibrary
          exact .inr ⟨hlibrary, hline⟩
      · rw [CompileError.ofParse] at hcontext
        dsimp only at hcontext
        exact absurd (if_neg hname) hcontext
    · exact absurd hnone hcontext
  · rintro ⟨hsource, e, s, inner, outer, -, hraised, rfl, rfl | ⟨hlibrary, hline⟩⟩
    · exact (Marks.of_own hraised hsource).ne_nil
    · have hname : e.file = (SourceFile.ofName options.fileName).name := by
        rw [hraised.name, hlibrary]
      obtain ⟨hpos, -⟩ := hraised.place.row
      rw [CompileError.ofParse]
      dsimp only
      rw [if_pos hname, excerpt_ne_nil_iff, hasLine_iff]
      exact ⟨hsource, hpos, hline⟩

/-- The lines that a compilation shows, if it fails. -/
def shownContext : Except CompileError Compiled → Bytes
  | .error err => err.context
  | .ok _ => []

theorem misspelt_context : ∃ err, (compile misspelt {}).1 = .error err ∧
    err.context ≠ [] ∧ ∃ e s inner, Parse.program [] (.start {} misspelt) = .error e s ∧
      e.Raised {} misspelt s inner [] := by
  have hcomputed : shownContext (compile misspelt {}).1 ≠ [] := by decide +kernel
  cases hcompile : (compile misspelt {}).1 with
  | ok compiled =>
    rw [hcompile] at hcomputed
    exact absurd rfl hcomputed
  | error err =>
    have hcontext : err.context ≠ [] := by rwa [hcompile] at hcomputed
    obtain ⟨-, e, s, inner, outer, hrun, hraised, -, -⟩ :=
      (compile_context_iff hcompile).mp hcontext
    rw [hraised.opens.alone rfl] at hraised
    exact ⟨err, rfl, hcontext, e, s, inner, hrun, hraised⟩

/-- A program that includes a file of the library with its own name. -/
def namesake : Bytes := "include \"<a>\"\n"

/-- The library file holds more than definitions. -/
def namesakeOptions : CompileOptions where
  fileName := "a"
  library := some (.memory [("a", "x = 1\n")])

/-- The error in the library file is shown at the include line of the program. -/
theorem namesake_context : ∃ err, (compile namesake namesakeOptions).1 = .error err ∧
    err.context = Bytes.ofString "> 1 | include \"<a>\"\n      ^\n  2 | \n" ∧
    ¬ ∃ e s inner, Parse.program "a" (.start namesakeOptions namesake) = .error e s ∧
      e.Raised namesakeOptions namesake s inner [] := by
  have hcomputed : shownContext (compile namesake namesakeOptions).1 =
      Bytes.ofString "> 1 | include \"<a>\"\n      ^\n  2 | \n" := by
    decide +kernel
  have hstopped : (match Parse.program "a" (.start namesakeOptions namesake) with
      | .error _ s => s.file
      | .ok _ s => s.file) = { name := "a", isLibrary := true } := by
    decide +kernel
  cases hcompile : (compile namesake namesakeOptions).1 with
  | ok compiled =>
    rw [hcompile] at hcomputed
    have hnone : [] = Bytes.ofString "> 1 | include \"<a>\"\n      ^\n  2 | \n" := hcomputed
    exact absurd hnone (by decide)
  | error err =>
    rw [hcompile] at hcomputed
    refine ⟨err, rfl, hcomputed, ?_⟩
    rintro ⟨e, s, inner, hrun, hraised⟩
    rw [hrun] at hstopped
    have hfile : s.file = SourceFile.ofName namesakeOptions.fileName := by
      rw [hraised.inside.file, hraised.opens.own]
    have hlibrary : s.file.isLibrary = true := congrArg SourceFile.isLibrary hstopped
    rw [hfile] at hlibrary
    revert hlibrary
    decide

end Terrace
