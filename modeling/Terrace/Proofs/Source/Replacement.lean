/-
# Lines in place of include lines

The text of a program without its include lines: each one is replaced by the text of the file it
names, in which the include lines are replaced likewise, and a newline. Line by line this puts the
lines of files in place of include lines. What stands next in a text tells how its lines begin:
there are none but blank ones, or the first one is indented, or it begins with a word.

Key definitions: `includeTarget?`, `replaceLines`, `replacement`, `CompileOptions.splice`, `expand`.
Key theorems: `rowsOf_replaceLines`, `head_shape`.
-/
import Terrace.Compilation
import Terrace.Proofs.Source.Agreement

namespace Terrace

/-- The name on an include line. It is not indented, and nothing follows the name on the line. -/
def includeTarget? (row : Bytes) : Option Bytes :=
  match Parse.bareWords row with
  | [.ok word, .ok path] =>
    if Row.width row = 0 ∧ word.isWord "include" ∧ path.kind = .string then some path.value
    else none
  | _ => none

/-- The text of lines, where a line for which there is a text is replaced by it and a newline. -/
def replaceLines (f : Bytes → Option Bytes) : List Bytes → Bytes
  | [] => []
  | [row] => (f row).elim row (· ++ ['\n'.toUInt8])
  | row :: rows => (f row).getD row ++ '\n'.toUInt8 :: replaceLines f rows

/-- What replaces a line of a file: the text of the file that an include line names, with its own
include lines replaced, for as many files inside each other as `depth`. -/
def replacement : (depth : Nat) → Option Loader → SourceFile → Bytes → Option Bytes
  | 0, _, _, _ => none
  | depth + 1, loader, file, row => do
    let target ← includeTarget? row
    let loader ← loader
    let included ← (loader.resolve file target).toOption
    let (text, opened) ← (loader.openFile included).toOption
    return replaceLines (replacement depth (some opened) included) (rowsOf text)

/-- A source text with its include lines replaced by the texts of the files they name. -/
def CompileOptions.splice (options : CompileOptions) (source : Bytes) : Bytes :=
  let file := SourceFile.ofName options.fileName
  let loader := (options.loader.mapM (Loader.enter · file)).toOption.join
  replaceLines (replacement (Loader.depthOf loader) loader file) (rowsOf source)

/-- Lines with those of other texts in place of some. -/
def expand (f : Bytes → Option Bytes) (rows : List Bytes) : List Bytes :=
  rows.flatMap fun row => (f row).elim [row] rowsOf

variable {f : Bytes → Option Bytes} {row target : Bytes} {rows blanks after : List Bytes}
  {levels : List Nat} {token : Token}

/-! ### Lines of texts -/

/-- A newline ends a line, whatever the text before it is. -/
theorem rowsOf_append (after : Bytes) : ∀ before : Bytes,
    rowsOf (before ++ '\n'.toUInt8 :: after) = rowsOf before ++ rowsOf after
  | [] => by simp [rowsOf, Bytes.splitOn]
  | b :: before => by
    have hrest := rowsOf_append after before
    rw [rowsOf, rowsOf, rowsOf] at hrest
    rw [rowsOf, rowsOf, rowsOf, List.cons_append, Bytes.splitOn, Bytes.splitOn, hrest]
    split_ifs
    · rfl
    · cases hsplit : Bytes.splitOn '\n'.toUInt8 before with
      | nil => exact absurd hsplit (rowsOf_ne_nil before)
      | cons piece pieces => rfl

theorem rowsOf_row (hline : '\n'.toUInt8 ∉ row) :
    rowsOf ((f row).getD row) = (f row).elim [row] rowsOf := by
  cases f row with
  | none => exact Bytes.splitOn_piece hline
  | some text => rfl

theorem expand_cons (row : Bytes) (rows : List Bytes) :
    expand f (row :: rows) = (f row).elim [row] rowsOf ++ expand f rows := List.flatMap_cons

/-- **The lines of a text with lines replaced** are those with the lines of the other texts in their
place, and perhaps a blank one at the end. -/
theorem rowsOf_replaceLines : ∀ {rows : List Bytes}, rows ≠ [] →
    (∀ row ∈ rows, '\n'.toUInt8 ∉ row) → ∃ blanks, (∀ row ∈ blanks, Row.isBlank row = true) ∧
      rowsOf (replaceLines f rows) = expand f rows ++ blanks
  | [], hne, _ => absurd rfl hne
  | [row], _, hlines => by
    have hrow := rowsOf_row (f := f) (hlines row List.mem_cons_self)
    rw [replaceLines, expand_cons, expand, List.flatMap_nil, List.append_nil]
    cases hf : f row with
    | none =>
      rw [hf] at hrow
      exact ⟨[], nofun, by rw [List.append_nil]; exact hrow⟩
    | some text => exact ⟨[[]], by simp [Row.isBlank], rowsOf_append [] text⟩
  | row :: next :: others, _, hlines => by
    obtain ⟨blanks, hblanks, hrest⟩ := @rowsOf_replaceLines (next :: others) (by simp)
      fun row hrow => hlines row (List.mem_cons_of_mem _ hrow)
    have hmore : replaceLines f (row :: next :: others) =
        (f row).getD row ++ '\n'.toUInt8 :: replaceLines f (next :: others) := rfl
    refine ⟨blanks, hblanks, ?_⟩
    rw [hmore, rowsOf_append, hrest, rowsOf_row (hlines row List.mem_cons_self),
      expand_cons row (next :: others), List.append_assoc]

theorem expand_append (before after : List Bytes) :
    expand f (before ++ after) = expand f before ++ expand f after := List.flatMap_append

/-- Where nothing is replaced, the lines are the same. -/
theorem expand_same (h : ∀ row ∈ rows, f row = none) : expand f rows = rows := by
  rw [expand]
  calc rows.flatMap (fun row => (f row).elim [row] rowsOf)
    _ = rows.flatMap fun row => [row] := by
      refine List.flatMap_congr fun row hrow => ?_
      rw [h row hrow]
      rfl
    _ = rows := List.flatMap_singleton' rows

/-! ### Include lines -/

theorem bareWords_blank (h : Row.isBlank row = true) : Parse.bareWords row = [] := by
  rw [Parse.bareWords, Row.wordsFrom_none (Row.wordPiece_eq_none.mpr h)]
  rfl

theorem includeTarget?_blank (h : Row.isBlank row = true) : includeTarget? row = none := by
  rw [includeTarget?, bareWords_blank h]

theorem includeTarget?_indented (h : 0 < Row.width row) : includeTarget? row = none := by
  rw [includeTarget?]
  split
  · exact if_neg fun hline => absurd hline.1 (Nat.ne_of_gt h)
  · rfl

/-- An include line begins with the word. -/
theorem includeTarget?_word (h : (includeTarget? row).isSome) : Row.width row = 0 ∧
    ∃ word words, Parse.bareWords row = .ok word :: words ∧ word.isWord "include" := by
  rw [includeTarget?] at h
  split at h
  next word path hwords =>
    split_ifs at h with hline
    · exact ⟨hline.1, word, _, hwords, hline.2.1⟩
    · cases h
  · cases h

/-- A line that begins with another word is none. -/
theorem includeTarget?_other {words : List Lexeme} (hwords : Parse.bareWords row = .ok token :: words)
    (hother : ¬ token.isWord "include") : includeTarget? row = none := by
  refine Option.not_isSome_iff_eq_none.mp fun hsome => ?_
  obtain ⟨_, word, _, hwords', hinclude⟩ := includeTarget?_word hsome
  cases hwords.symm.trans hwords'
  exact hother hinclude

theorem replacement_none {depth : Nat} {loader : Option Loader} {file : SourceFile}
    (h : includeTarget? row = none) : replacement depth loader file row = none := by
  cases depth with
  | zero => rfl
  | succ depth => rw [replacement, h]; rfl

/-- What replaces an include line. -/
theorem replacement_some {depth : Nat} {loader opened : Loader} {file included : SourceFile}
    {text : Bytes} (htarget : includeTarget? row = some target)
    (hresolve : loader.resolve file target = .ok included)
    (hopen : loader.openFile included = .ok (text, opened)) :
    replacement (depth + 1) (some loader) file row =
      some (replaceLines (replacement depth (some opened) included) (rowsOf text)) := by
  rw [replacement, htarget]
  dsimp only [Option.bind_eq_bind, Option.bind_some]
  rw [hresolve]
  dsimp only [Except.toOption, Option.bind_some]
  rw [hopen]
  rfl

/-! ### How lines begin -/

theorem first_row : ∀ rows : List Bytes, (∀ row ∈ rows, Row.isBlank row = true) ∨
    ∃ blanks row after, rows = blanks ++ row :: after ∧
      (∀ row ∈ blanks, Row.isBlank row = true) ∧ Row.isBlank row = false
  | [] => Or.inl nofun
  | row :: rows => by
    cases hrow : Row.isBlank row with
    | false => exact Or.inr ⟨[], row, rows, rfl, nofun, hrow⟩
    | true =>
      rcases first_row rows with hall | ⟨blanks, first, after, rfl, hblanks, hfirst⟩
      · exact Or.inl (List.forall_mem_cons.mpr ⟨hrow, hall⟩)
      · exact Or.inr ⟨row :: blanks, first, after, rfl,
          List.forall_mem_cons.mpr ⟨hrow, hblanks⟩, hfirst⟩

/-- Blank lines do not show. -/
theorem shape_skip : ∀ {blanks : List Bytes}, (∀ row ∈ blanks, Row.isBlank row = true) →
    shape levels (blanks ++ rows) = shape levels rows
  | [], _ => rfl
  | row :: blanks, h => by
    rw [List.cons_append, Parse.shape_blank (h row List.mem_cons_self)]
    exact shape_skip fun row hrow => h row (List.mem_cons_of_mem _ hrow)

theorem flush_skip : ∀ {blanks : List Bytes}, (∀ row ∈ blanks, Row.isBlank row = true) →
    (Flush (blanks ++ rows) ↔ Flush rows)
  | [], _ => Iff.rfl
  | row :: blanks, h => by
    rw [List.cons_append, Flush, if_pos (h row List.mem_cons_self)]
    exact flush_skip fun row hrow => h row (List.mem_cons_of_mem _ hrow)

theorem flush_blanks (h : ∀ row ∈ rows, Row.isBlank row = true) : Flush rows := by
  rw [← List.append_nil rows, flush_skip h]
  trivial

theorem flush_row (hblank : Row.isBlank row = false) :
    Flush (row :: rows) ↔ Row.width row = 0 := by
  rw [Flush, if_neg (by simp [hblank])]

/-- A line that is not indented begins with its first word. -/
theorem shape_word (hblank : Row.isBlank row = false) (hwidth : Row.width row = 0) :
    shape [] (row :: rows) =
      andThen (Parse.bareWords row) (.ok (mark .newline 0 0) :: shape [] rows) := by
  have henter : enterLevel (Row.width row) [] = [] := by rw [hwidth, enterLevel_zero .nil]
  rw [Parse.shape_row hblank (by rw [henter, hwidth]; rfl), henter]
  rfl

theorem shape_indented (hblank : Row.isBlank row = false) (hwidth : 0 < Row.width row) :
    (shape [] (row :: rows)).head? = some (.ok (mark .indent 0 0)) := by
  have henter : enterLevel (Row.width row) [] = [Row.width row] := if_pos hwidth
  rw [Parse.shape_row hblank (by rw [henter]; rfl), henter]
  simp [marks]

/-- Blank lines at the end do not show either. -/
theorem shape_blanksBehind (hblanks : ∀ row ∈ blanks, Row.isBlank row = true) :
    ∀ {rows : List Bytes} {levels : List Nat},
      shape levels (rows ++ blanks) = shape levels rows
  | [], levels => by
    rw [List.nil_append, ← List.append_nil blanks]
    exact shape_skip hblanks
  | row :: rows, levels => by
    rw [List.cons_append, shape, shape, shape_blanksBehind hblanks]
    dsimp only
    rw [shape_blanksBehind hblanks]

/-- **How lines begin** is told by what they hand out first. -/
theorem head_shape (h : (shape [] rows).head? = some (.ok token)) :
    token.kind = .finish ∧ (∀ row ∈ rows, Row.isBlank row = true) ∨
      token.kind = .indent ∧ ¬ Flush rows ∨
      token.kind.isWord = true ∧ ∃ blanks row after words, rows = blanks ++ row :: after ∧
        (∀ row ∈ blanks, Row.isBlank row = true) ∧ Row.isBlank row = false ∧ Row.width row = 0 ∧
        Parse.bareWords row = .ok token :: words := by
  rcases first_row rows with hall | ⟨blanks, row, after, rfl, hblanks, hrow⟩
  · have hend := @shape_skip [] [] rows hall
    rw [List.append_nil] at hend
    rw [hend] at h
    cases h
    exact Or.inl ⟨rfl, hall⟩
  rw [shape_skip hblanks] at h
  rcases Nat.eq_zero_or_pos (Row.width row) with hwidth | hwidth
  · rw [shape_word hrow hwidth] at h
    cases hwords : Parse.bareWords row with
    | nil => exact absurd hwords (Parse.bareWords_ne_nil hrow)
    | cons item words =>
      rw [hwords] at h
      cases item with
      | error slip => cases h
      | ok word =>
        cases h
        have hword : token.kind.isWord = true :=
          Parse.bareWords_isWord (hwords ▸ List.mem_cons_self)
        exact Or.inr (Or.inr ⟨hword, blanks, row, after, words, rfl, hblanks, hrow, hwidth, hwords⟩)
  · cases (shape_indented hrow hwidth).symm.trans h
    rw [flush_skip hblanks, flush_row hrow]
    exact Or.inr (Or.inl ⟨rfl, Nat.ne_of_gt hwidth⟩)

/-- No line begins with a newline. -/
theorem shape_solid (h : (shape [] rows).head? = some (.ok token)) : token.kind ≠ .newline := by
  rcases head_shape h with ⟨hkind, _⟩ | ⟨hkind, _⟩ | ⟨hword, _⟩
  · simp [hkind]
  · simp [hkind]
  · intro hkind
    rw [hkind] at hword
    cases hword

/-- A block opens exactly if the first line is indented. -/
theorem flush_iff (h : (shape [] rows).head? = some (.ok token)) :
    Flush rows ↔ token.kind ≠ .indent := by
  rcases head_shape h with ⟨hkind, hall⟩ | ⟨hkind, hnone⟩ |
    ⟨hword, blanks, row, after, _, rfl, hblanks, hrow, hwidth, _⟩
  · simp [hkind, flush_blanks hall]
  · simp [hkind, hnone]
  · rw [flush_skip hblanks, flush_row hrow]
    refine iff_of_true hwidth fun hkind => ?_
    rw [hkind] at hword
    cases hword

end Terrace
