/-
# Blank lines, comments and the style of blanks

A program is the same after lines that hold nothing were put into its text, blanks or comments
were put at the ends of its lines, and tabs that indent a line were written as spaces: none of
these shows in the shape of the text, unless a string is left open at the end of a line.

Key definitions: `Restyles`, `Restyled`.
Key theorems: `Restyles.shape_eq`, `Restyled.shape_eq`, `compile_restyled`.
-/
import Mathlib.Logic.Relation
import Terrace.Proofs.Compilation.Soundness
import Terrace.Proofs.Source.Agreement

namespace Terrace

/-- The lines of a text before and after one change of its style. -/
inductive Restyles : List Bytes → List Bytes → Prop where
  /-- A line of blanks and perhaps a comment is put in front of any line, or at the end. -/
  | insert {row : Bytes} (before after : List Bytes) (hblank : Row.isBlank row = true)
      (hline : '\n'.toUInt8 ∉ row) : Restyles (before ++ after) (before ++ row :: after)
  /-- Blanks and perhaps a comment are put at the end of a line. -/
  | append {tail : Bytes} (before after : List Bytes) (row : Bytes)
      (hblank : Row.isBlank tail = true) (hline : '\n'.toUInt8 ∉ tail) :
      Restyles (before ++ row :: after) (before ++ (row ++ tail) :: after)
  /-- A tab among the blanks that a line begins with is written as four spaces. -/
  | widen {blanks : Bytes} (before after : List Bytes) (rest : Bytes)
      (hblanks : ∀ b ∈ blanks, isSpace b = true) :
      Restyles (before ++ (blanks ++ '\t'.toUInt8 :: rest) :: after)
        (before ++ (blanks ++ (List.replicate 4 ' '.toUInt8 ++ rest)) :: after)

/-- A text after one change of its style. -/
def RestyledOnce (source source' : Bytes) : Prop := Restyles (rowsOf source) (rowsOf source')

/-- A text after any number of changes of its style. -/
def Restyled : Bytes → Bytes → Prop := Relation.ReflTransGen RestyledOnce

/-! ### One line -/

variable {row tail : Bytes} {rows after : List Bytes} {levels : List Nat}

/-- An error in the words of a line is what a text gives at this line. -/
theorem error_mem_andThen {slip : Slip} {line : Nat} : ∀ {column : Nat} {row : Bytes},
    .error slip ∈ Row.wordsFrom line column row → ∀ after : List Lexeme,
    .error slip ∈ andThen ((Row.wordsFrom line column row).map Row.bare) after := by
  intro column row h after
  cases hpiece : Row.wordPiece row with
  | none =>
    rw [Row.wordsFrom_none hpiece] at h
    cases h
  | some found =>
    obtain ⟨slip' | token, rest⟩ := found
    · rw [Row.wordsFrom_error hpiece] at h ⊢
      exact h
    · have hshorter := (Row.wordPiece_suffix hpiece).2
      rw [Row.wordsFrom_ok hpiece] at h ⊢
      rcases List.mem_cons.mp h with h | h
      · cases h
      · exact List.mem_cons_of_mem _ (error_mem_andThen h after)
termination_by _ row => row.length

/-- What a line gives is told by its blankness, its width and its words. -/
theorem shape_congr {row' : Bytes} (hblank : Row.isBlank row' = Row.isBlank row)
    (hwidth : Row.isBlank row = false → Row.width row' = Row.width row)
    (hwords : Row.isBlank row = false →
      (enterLevel (Row.width row) levels).headD 0 = Row.width row →
        Parse.bareWords row' = Parse.bareWords row) (after : List Bytes) :
    shape levels (row' :: after) = shape levels (row :: after) := by
  cases hrow : Row.isBlank row with
  | true => rw [Parse.shape_blank hrow, Parse.shape_blank (hblank.trans hrow)]
  | false =>
    have hrow' := hblank.trans hrow
    have hsame := hwidth hrow
    by_cases hfits : (enterLevel (Row.width row) levels).headD 0 = Row.width row
    · rw [Parse.shape_row hrow hfits, Parse.shape_row hrow' (by rw [hsame]; exact hfits),
        hwords hrow hfits, hsame]
    · rw [Parse.shape_misfit hrow hfits, Parse.shape_misfit hrow' (by rw [hsame]; exact hfits)]

/-- What is put at the end of a line does not show, unless a string is open there. -/
theorem shape_append_tail (hline : '\n'.toUInt8 ∉ row) (htail : Row.isBlank tail = true)
    (hstrings : .error .unterminated ∉ shape levels (row :: after)) :
    shape levels ((row ++ tail) :: after) = shape levels (row :: after) := by
  have hbody (hrow : Row.isBlank row = false) : row.dropWhile isSpace ≠ [] := by
    intro hempty
    rw [Row.isBlank, hempty] at hrow
    cases hrow
  refine shape_congr ?_ (fun hrow => ?_) (fun hrow hfits => ?_) after
  · cases hrow : Row.isBlank row with
    | true => exact Row.isBlank_append hrow htail
    | false =>
      have hne := hbody hrow
      rw [Row.isBlank, Row.dropWhile_append hne]
      rw [Row.isBlank] at hrow
      cases hskip : row.dropWhile isSpace with
      | nil => exact absurd hskip hne
      | cons b rest =>
        rw [hskip] at hrow
        exact hrow
  · rw [Row.width, Row.width, Row.takeWhile_append (hbody hrow)]
  · rw [Parse.bareWords, Parse.bareWords, Row.wordsFrom_append hline htail]
    intro hopen
    rw [Parse.shape_row hrow hfits] at hstrings
    exact absurd (List.mem_append_right _ (error_mem_andThen hopen _)) hstrings

theorem dropWhile_blanks {blanks rest : Bytes} (hblanks : ∀ b ∈ blanks, isSpace b = true) :
    (blanks ++ rest).dropWhile isSpace = rest.dropWhile isSpace ∧
      (blanks ++ rest).takeWhile isSpace = blanks ++ rest.takeWhile isSpace :=
  ⟨List.dropWhile_append_of_pos hblanks, List.takeWhile_append_of_pos hblanks⟩

/-- Blanks in front of a line show in its width only. -/
theorem shape_blanks {blanks blanks' rest : Bytes} (hblanks : ∀ b ∈ blanks, isSpace b = true)
    (hblanks' : ∀ b ∈ blanks', isSpace b = true)
    (hwidth : Row.width (blanks' ++ rest) = Row.width (blanks ++ rest)) :
    shape levels ((blanks' ++ rest) :: after) = shape levels ((blanks ++ rest) :: after) := by
  have hskip : (blanks' ++ rest).dropWhile isSpace = (blanks ++ rest).dropWhile isSpace := by
    rw [(dropWhile_blanks hblanks').1, (dropWhile_blanks hblanks).1]
  refine shape_congr (by rw [Row.isBlank, Row.isBlank, hskip]) (fun _ => hwidth)
    (fun _ _ => ?_) after
  rw [Parse.bareWords, Parse.bareWords, Row.wordsFrom_skip 0 0 (blanks' ++ rest),
    Row.wordsFrom_skip 0 0 (blanks ++ rest), hskip]
  exact Row.bare_wordsFrom _ _ _ _ _

/-- A tab counts like four spaces. -/
theorem shape_widen {blanks rest : Bytes} (hblanks : ∀ b ∈ blanks, isSpace b = true) :
    shape levels ((blanks ++ (List.replicate 4 ' '.toUInt8 ++ rest)) :: after) =
      shape levels ((blanks ++ '\t'.toUInt8 :: rest) :: after) := by
  have htab : ∀ b ∈ blanks ++ ['\t'.toUInt8], isSpace b = true := by
    intro b hb
    rcases List.mem_append.mp hb with hb | hb
    · exact hblanks b hb
    · rw [List.mem_singleton.mp hb]
      rfl
  have hspaces : ∀ b ∈ blanks ++ List.replicate 4 ' '.toUInt8, isSpace b = true := by
    intro b hb
    rcases List.mem_append.mp hb with hb | hb
    · exact hblanks b hb
    · rw [List.eq_of_mem_replicate hb]
      rfl
  have hwidth : ∀ {blanks : Bytes}, (∀ b ∈ blanks, isSpace b = true) →
      Row.width (blanks ++ rest) = blanks.foldr (fun b width => blankWidth b + width)
        (Row.width rest) := by
    intro blanks hblanks
    rw [Row.width, (dropWhile_blanks hblanks).2, List.foldr_append]
    rfl
  have hsame := @shape_blanks after levels _ _ rest htab hspaces (by
    rw [hwidth hspaces, hwidth htab, List.foldr_append, List.foldr_append]
    congr 1
    show 1 + (1 + (1 + (1 + Row.width rest))) = 4 + Row.width rest
    omega)
  rwa [List.append_assoc, List.append_assoc] at hsame

/-! ### Texts -/

/-- Lines behind others are replaced by lines of the same shape. -/
theorem shape_replace {rows' : List Bytes} (h : ∀ levels,
    .error .unterminated ∉ shape levels rows → shape levels rows' = shape levels rows) :
    ∀ {before : List Bytes} {levels : List Nat},
      .error .unterminated ∉ shape levels (before ++ rows) →
        shape levels (before ++ rows') = shape levels (before ++ rows)
  | [], levels, hstrings => h levels hstrings
  | row :: before, levels, hstrings => by
    rw [List.cons_append] at hstrings ⊢
    rw [List.cons_append]
    cases hblank : Row.isBlank row with
    | true =>
      rw [Parse.shape_blank hblank] at hstrings ⊢
      rw [Parse.shape_blank hblank]
      exact shape_replace h hstrings
    | false =>
      by_cases hfits : (enterLevel (Row.width row) levels).headD 0 = Row.width row
      · rw [Parse.shape_row hblank hfits] at hstrings ⊢
        rw [Parse.shape_row hblank hfits]
        congr 1
        by_cases herror : ∃ slip, .error slip ∈ Parse.bareWords row
        · obtain ⟨slip, hslip⟩ := herror
          obtain ⟨_, _, hcut, _, _⟩ := andThen_error hslip
          rw [hcut, hcut]
        · have hnone : ∀ slip, .error slip ∉ Parse.bareWords row :=
            fun slip hslip => herror ⟨slip, hslip⟩
          rw [andThen_ok hnone] at hstrings ⊢
          rw [andThen_ok hnone, shape_replace h fun hmem => hstrings ?_]
          exact List.mem_append_right _
            (List.mem_append_right _ (List.mem_cons_of_mem _ hmem))
      · rw [Parse.shape_misfit hblank hfits, Parse.shape_misfit hblank hfits]

/-- **A change of style does not show** in the shape of lines. -/
theorem Restyles.shape_eq {rows' : List Bytes} (h : Restyles rows rows')
    (hlines : ∀ row ∈ rows, '\n'.toUInt8 ∉ row) (levels : List Nat)
    (hstrings : .error .unterminated ∉ shape levels rows) :
    shape levels rows' = shape levels rows := by
  cases h with
  | insert before after hblank hline =>
    exact shape_replace (fun levels _ => Parse.shape_blank hblank) hstrings
  | append before after row hblank hline =>
    have hrow : '\n'.toUInt8 ∉ row :=
      hlines row (List.mem_append_right _ List.mem_cons_self)
    exact shape_replace (fun levels hstrings => shape_append_tail hrow hblank hstrings) hstrings
  | widen before after rest hblanks =>
    exact shape_replace (fun levels _ => shape_widen hblanks) hstrings

theorem Restyled.shape_eq {source source' : Bytes} (h : Restyled source source')
    (hstrings : .error .unterminated ∉ shape [] (rowsOf source)) :
    shape [] (rowsOf source') = shape [] (rowsOf source) := by
  induction h with
  | refl => rfl
  | tail _ hstep ih =>
    rw [← ih] at hstrings ⊢
    exact hstep.shape_eq (fun row hrow => Bytes.mem_splitOn hrow) [] hstrings

theorem error_mem_condense {slip : Slip} : ∀ {skipping : Bool} {items : List Lexeme},
    .error slip ∈ condense skipping items → .error slip ∈ items
  | _, [], h => by cases h
  | _, .error slip' :: items, h => by
    cases List.mem_singleton.mp h
    exact List.mem_cons_self
  | skipping, .ok token :: items, h => by
    have hrest : ∃ skipping, .error slip ∈ condense skipping items := by
      rw [condense] at h
      split_ifs at h
      · exact ⟨_, h⟩
      all_goals
        rcases List.mem_cons.mp h with h | h
        · cases h
        · exact ⟨_, h⟩
    obtain ⟨_, hrest⟩ := hrest
    exact List.mem_cons_of_mem _ (error_mem_condense hrest)

/-- An error that a scanner hands out is the answer of one of its calls. -/
theorem Scanner.Gives.call_of_mem {s : Scanner} {items : List Lexeme} (h : s.Gives items)
    {slip : Slip} (hmem : .error slip ∈ items) :
    ∃ n e, s.call n = .error e ∧ e.cause.slip = slip := by
  induction h with
  | finish => cases List.mem_singleton.mp hmem
  | @error s e hnext =>
    cases List.mem_singleton.mp hmem
    exact ⟨0, e, by rw [call, hnext]; rfl, rfl⟩
  | token hnext _ _ ih =>
    rcases List.mem_cons.mp hmem with hmem | hmem
    · cases hmem
    · obtain ⟨n, e, hcall, hslip⟩ := ih hmem
      exact ⟨n + 1, e, by rw [call_succ hnext]; exact hcall, hslip⟩

/-- A text in which no string is found open has none in its shape. -/
theorem no_open_string {source : Bytes} (h : ∀ n e, (Scanner.ofSource source).call n = .error e →
    e.cause ≠ .unterminatedString) : .error .unterminated ∉ shape [] (rowsOf source) := by
  intro hmem
  rw [← condense_outline 1] at hmem
  obtain ⟨n, e, hcall, hslip⟩ :=
    (Scanner.gives_ofSource source).call_of_mem (error_mem_condense hmem)
  refine h n e hcall ?_
  cases hcause : e.cause <;> rw [hcause] at hslip <;> first | rfl | cases hslip

/-- What is compiled is told by the shape of the text. -/
theorem compile_shape {source source' : Bytes}
    (hshape : shape [] (rowsOf source) = shape [] (rowsOf source')) {options : CompileOptions}
    {compiled : Compiled} (h : (compile source options).1 = .ok compiled) :
    (compile source' options).1 = .ok compiled := by
  obtain ⟨program, hparse, hassemble⟩ := compile_ok h
  exact compile_of_program (Program.parse_shape hshape hparse) hassemble

/-- **Blank lines, comments and the style of blanks do not matter.** Unless a string is found open
at the end of a line, a text compiles after any number of changes of its style exactly if it does
before them, and to the same image, functions and globals. -/
theorem compile_restyled {source source' : Bytes} (hrestyled : Restyled source source')
    (hstrings : ∀ n e, (Scanner.ofSource source).call n = .error e →
      e.cause ≠ .unterminatedString) (options : CompileOptions) (compiled : Compiled) :
    (compile source options).1 = .ok compiled ↔ (compile source' options).1 = .ok compiled := by
  have hshape := hrestyled.shape_eq (no_open_string hstrings)
  exact ⟨compile_shape hshape.symm, compile_shape hshape⟩

/-- A program that makes a choice. -/
def choice : Bytes := "x = 1\nif x > 0\n\tx = 2\nelse\n\tx = 3\n"

/-- The choice in another style. -/
def styledChoice : Bytes := "x = 1  # one\nif x > 0\n    x = 2\n # or\nelse\n\tx = 3\n"

theorem choice_restyled : Restyled choice styledChoice ∧ ∃ compiled : Compiled,
    (compile choice { base := 256 }).1 = .ok compiled ∧
      (compile styledChoice { base := 256 }).1 = .ok compiled := by
  have hrows : rowsOf choice = ["x = 1", "if x > 0", "\tx = 2", "else", "\tx = 3", ""] := by
    decide +kernel
  have hwiden : RestyledOnce choice "x = 1\nif x > 0\n    x = 2\nelse\n\tx = 3\n" := by
    rw [RestyledOnce, hrows]
    exact @Restyles.widen [] ["x = 1", "if x > 0"] ["else", "\tx = 3", ""] "x = 2" nofun
  have hinsert : RestyledOnce "x = 1\nif x > 0\n    x = 2\nelse\n\tx = 3\n"
      "x = 1\nif x > 0\n    x = 2\n # or\nelse\n\tx = 3\n" :=
    @Restyles.insert " # or" ["x = 1", "if x > 0", "    x = 2"] ["else", "\tx = 3", ""]
      (by decide) (by decide)
  have happend : RestyledOnce "x = 1\nif x > 0\n    x = 2\n # or\nelse\n\tx = 3\n" styledChoice :=
    @Restyles.append "  # one" [] ["if x > 0", "    x = 2", " # or", "else", "\tx = 3", ""] "x = 1"
      (by decide) (by decide)
  have hrestyled : Restyled choice styledChoice :=
    ((Relation.ReflTransGen.single hwiden).tail hinsert).tail happend
  have hend : ((Scanner.ofSource choice).call 30).toOption.map (·.kind) = some .finish := by
    decide +kernel
  obtain ⟨last, hlast, hfinish⟩ := Option.map_eq_some_iff.mp hend
  have hcompiled : (compile choice { base := 256 }).1.toOption.isSome = true := by decide +kernel
  obtain ⟨compiled, hcompiled⟩ := Option.isSome_iff_exists.mp hcompiled
  have hcompile := Except.eq_ok_of_toOption hcompiled
  refine ⟨hrestyled, compiled, hcompile, ?_⟩
  exact (compile_restyled hrestyled (fun n e herror =>
    absurd herror (no_error_of_finish (Except.eq_ok_of_toOption hlast) hfinish n e))
    { base := 256 } compiled).mp hcompile

end Terrace
