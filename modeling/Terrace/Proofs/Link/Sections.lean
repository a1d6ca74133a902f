/-
# A routine library is split without loss

The lines of a runtime library are cut before each label: what stands before the first one is the
header, and each label begins the routine it names. Each line leaves the reader with what it has
read cut like that, and with the last routine to take the next line (`RoutineReader.Behind.step`),
and so do all of them (`RoutineReader.Behind.run`). Nothing is lost or moved, and there is no other
way to cut the lines (`RoutineLibrary.Splits.eq_cut`). A text is read into its lines, unless one of
them is too long for the reader, and is then cut (`RoutineLibrary.parse_splits`).

Key definitions: `linesOf`, `LabelLine`, `LabelName`, `RoutineLibrary.Splits`,
`RoutineReader.Behind`, `RoutineLibrary.cut`.
Key theorems: `Text.readLines_eq`, `RoutineReader.Behind.step`, `RoutineReader.Behind.run`,
`RoutineLibrary.ofLines_eq_cut`, `RoutineLibrary.parse_splits`.
-/
import Terrace.Link.Routines
import Terrace.Proofs.Token.Outline

namespace Terrace

/-! ### The lines of a text -/

/-- The lines of a text. Behind its last newline there is one only if there is anything. -/
def linesOf (text : Bytes) : List Bytes :=
  if (rowsOf text).getLast? = some [] then (rowsOf text).dropLast else rowsOf text

theorem linesOf_row {row : Bytes} (h : '\n'.toUInt8 ∉ row) (hrow : row ≠ []) :
    linesOf row = [row] := by
  have hrows : rowsOf row = [row] := Bytes.splitOn_piece h
  rw [linesOf, hrows, if_neg (by simpa using hrow)]

theorem linesOf_append {row : Bytes} (h : '\n'.toUInt8 ∉ row) (rest : Bytes) :
    linesOf (row ++ '\n'.toUInt8 :: rest) = row :: linesOf rest := by
  have hrows : rowsOf (row ++ '\n'.toUInt8 :: rest) = row :: rowsOf rest :=
    Bytes.splitOn_append h rest
  have hlast : (row :: rowsOf rest).getLast? = (rowsOf rest).getLast? :=
    List.getLast?_cons_of_ne_nil (rowsOf_ne_nil rest)
  rw [linesOf, linesOf, hrows, hlast, List.dropLast_cons_of_ne_nil (rowsOf_ne_nil rest)]
  split_ifs <;> rfl

/-- The first line of a text goes up to its first newline, and the others stand behind that. -/
theorem linesOf_eq {text : Bytes} (h : text ≠ []) : ∃ row rest,
    Bytes.splitAtFirst (· == '\n'.toUInt8) text = (row, rest) ∧
      rest.length ≤ text.length ∧ linesOf text = row :: linesOf (rest.drop 1) := by
  obtain ⟨row, rows, hrows⟩ := List.exists_cons_of_ne_nil (rowsOf_ne_nil text)
  have hrow : '\n'.toUInt8 ∉ row := Bytes.mem_splitOn (hrows ▸ List.mem_cons_self)
  have hall : ∀ b ∈ row, (!(b == '\n'.toUInt8)) = true := by
    intro b hb
    simpa using fun hsame : b = '\n'.toUInt8 => hrow (hsame ▸ hb)
  rw [Bytes.splitAtFirst, List.span_eq_takeWhile_dropWhile]
  rcases rowsOf_cases hrows with ⟨-, rfl⟩ | ⟨rest, rfl, -⟩
  · refine ⟨text, [], ?_, Nat.zero_le _, linesOf_row hrow h⟩
    rw [List.takeWhile_eq_self_iff.mpr hall, List.dropWhile_eq_nil_iff.mpr hall]
  · refine ⟨row, '\n'.toUInt8 :: rest, ?_, by simp, linesOf_append hrow rest⟩
    rw [List.takeWhile_append_of_pos hall, List.dropWhile_append_of_pos hall,
      List.takeWhile_cons_of_neg (by decide), List.dropWhile_cons_of_neg (by decide),
      List.append_nil]

namespace Text

/-- **A text is read into its lines**, each without the carriage return at its end, unless one of
them is too long. -/
theorem takeLines_eq : ∀ {count : Nat} {input : Bytes}, input.length ≤ count →
    takeLines count input = if ∀ line ∈ linesOf input, line.length < lineLimit then
      some ((linesOf input).map dropReturn) else none
  | 0, input, hcount => by
    rw [List.eq_nil_of_length_eq_zero (Nat.le_zero.mp hcount)]
    rfl
  | count + 1, [], _ => rfl
  | count + 1, b :: input, hcount => by
    obtain ⟨row, rest, hcut, hlength, hlines⟩ := linesOf_eq (List.cons_ne_nil b input)
    have hrest : (rest.drop 1).length ≤ count := by
      rw [List.length_drop]
      omega
    have hnext : nextLine (b :: input) =
        if lineLimit ≤ row.length then .tooLong else .line (dropReturn row) (rest.drop 1) := by
      rw [nextLine, hcut]
      simp
    rw [takeLines, hnext, hlines]
    by_cases hlong : lineLimit ≤ row.length
    · rw [if_pos hlong, if_neg]
      exact fun hshort => absurd (hshort row List.mem_cons_self) (Nat.not_lt.mpr hlong)
    · rw [if_neg hlong]
      dsimp only
      rw [takeLines_eq hrest]
      simp only [List.forall_mem_cons, Nat.not_le.mp hlong, true_and]
      split_ifs <;> rfl

theorem readLines_eq (text : Bytes) :
    readLines text = if ∀ line ∈ linesOf text, line.length < lineLimit then
      some ((linesOf text).map dropReturn) else none :=
  takeLines_eq (Nat.le_refl _)

end Text

/-! ### Labels -/

/-- A line that begins a routine: it has a colon, and neither is it indented nor a comment. -/
structure LabelLine (line : Bytes) : Prop where
  colon : ':'.toUInt8 ∈ line
  space : line.head? ≠ some ' '.toUInt8
  tab : line.head? ≠ some '\t'.toUInt8
  comment : line.head? ≠ some ';'.toUInt8

theorem isLabelLine_iff {line : Bytes} : isLabelLine line = true ↔ LabelLine line := by
  cases line with
  | nil => exact iff_of_false (by simp [isLabelLine]) fun h => by simpa using h.colon
  | cons first rest =>
    simp only [isLabelLine, Bool.and_eq_true, bne_iff_ne, ne_eq, List.contains_iff_mem]
    constructor
    · rintro ⟨⟨⟨hspace, htab⟩, hcomment⟩, hcolon⟩
      exact ⟨hcolon, by simpa using hspace, by simpa using htab, by simpa using hcomment⟩
    · rintro ⟨hcolon, hspace, htab, hcomment⟩
      exact ⟨⟨⟨by simpa using hspace, by simpa using htab⟩, by simpa using hcomment⟩, hcolon⟩

/-- A name is what stands in front of the first colon of a line. -/
def LabelName (line name : Bytes) : Prop :=
  ∃ behind, line = name ++ ':'.toUInt8 :: behind ∧ ':'.toUInt8 ∉ name

theorem LabelName.eq_labelName {line name : Bytes} (h : LabelName line name) :
    name = labelName line := by
  obtain ⟨behind, rfl, hname⟩ := h
  rw [labelName, List.takeWhile_append_of_pos, List.takeWhile_cons_of_neg (by simp),
    List.append_nil]
  intro b hb
  simpa using fun hsame : b = ':'.toUInt8 => hname (hsame ▸ hb)

/-- A line with a colon has a name in front of the first one. -/
theorem LabelName.of_colon {line : Bytes} (h : ':'.toUInt8 ∈ line) :
    LabelName line (labelName line) := by
  obtain ⟨name, behind, hline, hname⟩ := List.eq_append_cons_of_mem h
  have hnamed : LabelName line name := ⟨behind, hline, hname⟩
  exact hnamed.eq_labelName ▸ hnamed

namespace RoutineLibrary

/-- **The lines of a library, cut before each label.** -/
structure Splits (library : RoutineLibrary) (lines : List Bytes) : Prop where
  lossless : library.header ++ library.routines.flatMap (·.lines) = lines
  header : ∀ line ∈ library.header, ¬ LabelLine line
  /-- A routine has its label, by whose name it goes, in its first line and in no other one. -/
  routines : ∀ r ∈ library.routines, ∃ first rest, r.lines = first :: rest ∧
    LabelLine first ∧ LabelName first r.name ∧ ∀ line ∈ rest, ¬ LabelLine line

variable {library : RoutineLibrary} {lines : List Bytes} {line : Bytes}

/-- A label begins a routine behind the others. -/
theorem Splits.concat_label (h : library.Splits lines) (hlabel : LabelLine line) :
    Splits { library with routines := library.routines ++ [⟨labelName line, [line]⟩] }
      (lines ++ [line]) where
  lossless := by rw [List.flatMap_append, ← List.append_assoc, h.lossless, List.flatMap_singleton]
  header := h.header
  routines r hr := by
    rcases List.mem_append.mp hr with hr | hr
    · exact h.routines r hr
    · obtain rfl := List.mem_singleton.mp hr
      exact ⟨line, [], rfl, hlabel, LabelName.of_colon hlabel.colon, nofun⟩

/-- In front of the first label a line goes to the header. -/
theorem Splits.concat_header (h : library.Splits lines) (hnone : library.routines = [])
    (hline : ¬ LabelLine line) :
    Splits { library with header := library.header ++ [line] } (lines ++ [line]) where
  lossless := by
    rw [← h.lossless, hnone, List.flatMap_nil, List.append_nil, List.append_nil]
  header other hother := by
    rcases List.mem_append.mp hother with hother | hother
    · exact h.header other hother
    · exact List.mem_singleton.mp hother ▸ hline
  routines := h.routines

/-- Behind a label a line goes to the last routine. -/
theorem Splits.concat_last {before : List Routine} {last : Routine} (h : library.Splits lines)
    (hlast : library.routines = before ++ [last]) (hline : ¬ LabelLine line) :
    Splits { library with
      routines := before ++ [{ last with lines := last.lines ++ [line] }] } (lines ++ [line]) where
  lossless := by
    rw [← h.lossless, hlast, List.flatMap_append, List.flatMap_append, List.flatMap_singleton,
      List.flatMap_singleton, List.append_assoc, List.append_assoc]
  header := h.header
  routines r hr := by
    rcases List.mem_append.mp hr with hr | hr
    · exact h.routines r (hlast ▸ List.mem_append_left _ hr)
    · obtain rfl := List.mem_singleton.mp hr
      obtain ⟨first, rest, hlines, hfirst, hname, hrest⟩ :=
        h.routines last (hlast ▸ List.mem_append_right _ List.mem_cons_self)
      refine ⟨first, rest ++ [line], by rw [hlines, List.cons_append], hfirst, hname, ?_⟩
      intro other hother
      rcases List.mem_append.mp hother with hother | hother
      · exact hrest other hother
      · exact List.mem_singleton.mp hother ▸ hline

end RoutineLibrary

/-! ### Reading line by line -/

namespace RoutineReader

open RoutineLibrary

variable {reader : RoutineReader} {lines : List Bytes}

/-- A reader that has come behind some lines: they are cut before each label, and the routine
that takes the next ones is the last. -/
structure Behind (reader : RoutineReader) (lines : List Bytes) : Prop where
  splits : reader.library.Splits lines
  current : (reader.library.routines = [] ∧ reader.current? = none) ∨
    ∃ before last, reader.library.routines = before ++ [last] ∧
      reader.current? = some before.length

theorem behind_nil : Behind {} [] := ⟨⟨rfl, nofun, nofun⟩, Or.inl ⟨rfl, rfl⟩⟩

theorem put_start (reader : RoutineReader) (name line : Bytes) :
    (reader.start name).put line = {
      library := { reader.library with
        routines := reader.library.routines ++ [⟨name, [line]⟩] }
      current? := some reader.library.routines.length } := by
  simp [start, put, List.modify_eq_take_cons_drop]

/-- **A line leaves a reader behind it.** -/
theorem Behind.step (h : reader.Behind lines) (line : Bytes) :
    (reader.step line).Behind (lines ++ [line]) := by
  rw [RoutineReader.step]
  split_ifs with hlabel
  · rw [put_start]
    exact ⟨h.splits.concat_label (isLabelLine_iff.mp hlabel), Or.inr ⟨_, _, rfl, rfl⟩⟩
  · have hline : ¬ LabelLine line := mt isLabelLine_iff.mpr hlabel
    rcases h.current with ⟨hnone, hcurrent⟩ | ⟨before, last, hlast, hcurrent⟩
    · have hput : reader.put line =
          { reader with library.header := reader.library.header ++ [line] } := by
        rw [put, hcurrent]
      rw [hput]
      exact ⟨h.splits.concat_header hnone hline, Or.inl ⟨hnone, hcurrent⟩⟩
    · have hput : reader.put line = { reader with
          library.routines := before ++ [{ last with lines := last.lines ++ [line] }] } := by
        rw [put, hcurrent, hlast]
        simp [List.modify_eq_take_cons_drop]
      rw [hput]
      exact ⟨h.splits.concat_last hlast hline, Or.inr ⟨_, _, rfl, hcurrent⟩⟩

/-- **So do all lines of a text.** -/
theorem Behind.run : ∀ {rest lines : List Bytes} {reader : RoutineReader}, reader.Behind lines →
    (rest.foldl RoutineReader.step reader).Behind (lines ++ rest)
  | [], lines, _, h => by rwa [List.append_nil]
  | line :: rest, lines, _, h => by
    rw [List.foldl_cons, List.append_cons]
    exact (h.step line).run

end RoutineReader

/-! ### The only way to cut -/

namespace RoutineLibrary

theorem splits_ofLines (lines : List Bytes) : (ofLines lines).Splits lines :=
  RoutineReader.behind_nil.run.splits

/-- Lines cut before each label, from the last line on. -/
def cut : List Bytes → RoutineLibrary
  | [] => ⟨[], []⟩
  | line :: rest =>
    let ⟨before, routines⟩ := cut rest
    if isLabelLine line then ⟨[], ⟨labelName line, line :: before⟩ :: routines⟩
    else ⟨line :: before, routines⟩

/-- **Lines are cut in one way only.** -/
theorem Splits.eq_cut : ∀ {lines : List Bytes} {library : RoutineLibrary},
    library.Splits lines → library = cut lines
  | [], ⟨header, routines⟩, ⟨hlossless, _, hroutines⟩ => by
    obtain ⟨rfl, hnone⟩ := List.append_eq_nil_iff.mp hlossless
    cases routines with
    | nil => rfl
    | cons r routines =>
      obtain ⟨first, rest, hr, -⟩ := hroutines r List.mem_cons_self
      rw [List.flatMap_cons, hr] at hnone
      cases hnone
  | line :: lines, ⟨first :: header, routines⟩, ⟨hlossless, hheader, hroutines⟩ => by
    obtain ⟨rfl, hrest⟩ := List.cons_eq_cons.mp hlossless
    obtain ⟨hfirst, hheader⟩ := List.forall_mem_cons.mp hheader
    have hcut : Splits ⟨header, routines⟩ lines := ⟨hrest, hheader, hroutines⟩
    rw [cut, ← hcut.eq_cut]
    exact (if_neg (mt isLabelLine_iff.mp hfirst)).symm
  | line :: lines, ⟨[], []⟩, ⟨hlossless, _, _⟩ => by cases hlossless
  | line :: lines, ⟨[], r :: routines⟩, ⟨hlossless, _, hroutines⟩ => by
    obtain ⟨⟨first, rest, hr, hlabel, hname, hothers⟩, hbehind⟩ := List.forall_mem_cons.mp hroutines
    obtain ⟨name, own⟩ := r
    obtain rfl : own = first :: rest := hr
    obtain ⟨rfl, hrest⟩ := List.cons_eq_cons.mp hlossless
    obtain rfl : name = labelName first := hname.eq_labelName
    have hcut : Splits ⟨rest, routines⟩ lines := ⟨hrest, hothers, hbehind⟩
    rw [cut, ← hcut.eq_cut]
    exact (if_pos (isLabelLine_iff.mpr hlabel)).symm

/-- **Read from the first line on, a library is the same.** -/
theorem ofLines_eq_cut (lines : List Bytes) : ofLines lines = cut lines :=
  (splits_ofLines lines).eq_cut

/-- **A library is split without loss.** If no line of a text is too long, the header and the
lines of the routines behind it are the lines of the text, cut before each label and nowhere
else; and the library is the only one of which that is true. -/
theorem parse_splits {text : Bytes} (h : ∀ line ∈ linesOf text, line.length < Text.lineLimit) :
    ∃ library, parse text = some library ∧
      library.Splits ((linesOf text).map Text.dropReturn) ∧
      ∀ other : RoutineLibrary, other.Splits ((linesOf text).map Text.dropReturn) →
        other = library := by
  refine ⟨ofLines ((linesOf text).map Text.dropReturn), ?_, splits_ofLines _, fun _ hother => ?_⟩
  · rw [parse, Text.readLines_eq, if_pos h, Option.map_some]
  · rw [hother.eq_cut, ofLines_eq_cut]

/-- A library whose lines end in different ways, with colons that make no label. -/
def smallRuntime : Bytes :=
  "; runtime: small\r\n.org $8000\n_next: lda (pc), y ; a: next\r\n jmp go:\nEnd:\n rts\r"

theorem smallRuntime_splits : ∃ library, parse smallRuntime = some library ∧
    library.header = ["; runtime: small", ".org $8000"] ∧
    library.routines = [⟨"_next", ["_next: lda (pc), y ; a: next", " jmp go:"]⟩,
      ⟨"End", ["End:", " rts"]⟩] ∧
    library.Splits ((linesOf smallRuntime).map Text.dropReturn) := by
  have hread : parse smallRuntime = some ⟨["; runtime: small", ".org $8000"],
      [⟨"_next", ["_next: lda (pc), y ; a: next", " jmp go:"]⟩, ⟨"End", ["End:", " rts"]⟩]⟩ := by
    decide +kernel
  obtain ⟨library, hparse, hsplits, -⟩ := @parse_splits smallRuntime (by decide +kernel)
  obtain rfl := Option.some.inj (hread.symm.trans hparse)
  exact ⟨_, hread, rfl, rfl, hsplits⟩

end RoutineLibrary

end Terrace
