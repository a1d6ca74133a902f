/-
# The margin of an excerpt

An excerpt is made of whole lines: those from two before its line to two behind it, as far as the
text has them. Each has a mark, its number and a bar in front of it, and the number is filled with
blanks to the width of the last one shown. As no other is longer, all lines begin at the same
place. The caret below the line is moved by that width and not by what stands in the line, and so
it is under the byte of its column.

Key definitions: `Trimmed`, `Shows`, `shownRows`.
Key theorems: `shownLines_eq`, `excerpt_rows`, `excerpt_layout`.
-/
import Mathlib.Data.List.DropRight
import Mathlib.Data.List.Intervals
import Terrace.Proofs.Compilation.Excerpts
import Terrace.Proofs.Token.Blocks

namespace Terrace

/-- A line without the carriage returns at its end. -/
def Trimmed (row text : Bytes) : Prop :=
  (∃ count, row = text ++ List.replicate count '\r'.toUInt8) ∧
    text.getLast? ≠ some '\r'.toUInt8

/-- A line as it is shown: a mark, the number behind blanks, a bar, and the trimmed line, which
begins at an offset. -/
def Shows (offset : Nat) (mark : Bytes) (number : Nat) (row shown : Bytes) : Prop :=
  ∃ (blanks : Nat) (text : Bytes), Trimmed row text ∧
    shown = mark ++ List.replicate blanks ' '.toUInt8 ++ Bytes.decimal number ++ " | " ++ text ∧
    mark.length + blanks + (Bytes.decimal number).length + 3 = offset

/-! ### Numbers and lines -/

namespace Bytes

/-- A greater number is not shorter. -/
theorem length_decimal_mono {m n : Nat} (h : m ≤ n) :
    (decimal m).length ≤ (decimal n).length := by
  have hpower : n < 10 ^ (Nat.toDigits 10 n).length :=
    (Nat.length_toDigits_le_iff (by decide) Nat.length_toDigits_pos).mp le_rfl
  rw [decimal, decimal, List.length_map, List.length_map]
  exact (Nat.length_toDigits_le_iff (by decide) Nat.length_toDigits_pos).mpr (h.trans_lt hpower)

theorem newline_not_mem_decimal (n : Nat) : '\n'.toUInt8 ∉ decimal n := by
  intro h
  obtain ⟨digit, hdigit, heq⟩ := List.mem_map.mp h
  have hbetween := Nat.isDigit_of_mem_toDigits (by decide) (by decide) hdigit
  simp only [Char.isDigit, Bool.and_eq_true, decide_eq_true_eq] at hbetween
  have hlower : 48 ≤ digit.toNat := hbetween.1
  have hupper : digit.toNat ≤ 57 := hbetween.2
  have hsame := congrArg UInt8.toNat heq
  rw [Char.toUInt8, UInt32.toNat_toUInt8] at hsame
  change digit.toNat % 256 = 10 at hsame
  omega

end Bytes

theorem withoutReturns_subset (row : Bytes) : withoutReturns row ⊆ row :=
  List.IsPrefix.subset <| List.rdropWhile_prefix (· == '\r'.toUInt8) row

theorem withoutReturns_trimmed (row : Bytes) : Trimmed row (withoutReturns row) := by
  constructor
  · have hcut : row = withoutReturns row ++ row.rtakeWhile (· == '\r'.toUInt8) :=
      (List.rdropWhile_append_rtakeWhile).symm
    have hreturns : row.rtakeWhile (· == '\r'.toUInt8) =
        List.replicate (row.rtakeWhile (· == '\r'.toUInt8)).length '\r'.toUInt8 :=
      List.eq_replicate_iff.mpr ⟨rfl, fun b hb => by simpa using List.mem_rtakeWhile_imp hb⟩
    exact ⟨_, hcut.trans (congrArg _ hreturns)⟩
  · intro hlast
    have hne : withoutReturns row ≠ [] := by
      rintro hnil
      rw [hnil] at hlast
      cases hlast
    have hnot := List.rdropWhile_last_not (· == '\r'.toUInt8) row hne
    rw [List.getLast?_eq_some_getLast hne, Option.some.injEq] at hlast
    exact hnot (by rw [beq_iff_eq]; exact hlast)

/-! ### The lines of an excerpt -/

section
variable {source : Bytes} {line column number width : Nat}

/-- A line of an excerpt without its newline. -/
def excerptRow (width : Nat) (mark : Bytes) (number : Nat) (row : Bytes) : Bytes :=
  mark ++ Bytes.padLeft width ' '.toUInt8 (Bytes.decimal number) ++ " | " ++ withoutReturns row

/-- The line with the caret, without its newline. -/
def caretRow (offset column : Nat) : Bytes :=
  List.replicate (offset + column - 1) ' '.toUInt8 ++ ['^'.toUInt8]

/-- What an excerpt that marks line `line` shows for a line. -/
def shownRows (width line column : Nat) (shown : Bytes × Nat) : List Bytes :=
  if shown.2 = line then
    [excerptRow width "> " shown.2 shown.1, caretRow (2 + width + 3) column]
  else [excerptRow width "  " shown.2 shown.1]

theorem caretLine_eq (h : 1 ≤ column) :
    caretLine width column = caretRow (2 + width + 3) column ++ ['\n'.toUInt8] := by
  have hindent : 2 + width + 3 + ((column : Int) - 1).toNat = 2 + width + 3 + column - 1 := by
    omega
  rw [caretLine, caretRow, hindent, List.append_assoc]
  rfl

theorem shownAs_eq (h : 1 ≤ column) (shown : Bytes × Nat) :
    shownAs width line column shown = textOf (shownRows width line column shown) := by
  unfold shownAs shownRows
  split_ifs
  · rw [caretLine_eq h, textOf, List.flatMap_cons, List.flatMap_singleton]
    rfl
  · rw [textOf, List.flatMap_singleton]
    rfl

theorem newline_not_mem_excerptRow {mark row : Bytes} (hmark : '\n'.toUInt8 ∉ mark)
    (hrow : '\n'.toUInt8 ∉ row) : '\n'.toUInt8 ∉ excerptRow width mark number row := by
  have htext : '\n'.toUInt8 ∉ withoutReturns row :=
    fun hmem => hrow (withoutReturns_subset row hmem)
  have hnumber := Bytes.newline_not_mem_decimal number
  simp only [excerptRow, Bytes.padLeft, List.mem_append, List.mem_replicate, not_or, not_and]
  exact ⟨⟨⟨hmark, fun _ => by decide, hnumber⟩, by decide⟩, htext⟩

theorem newline_not_mem_shownRows {shown : Bytes × Nat} (h : '\n'.toUInt8 ∉ shown.1) :
    ∀ row ∈ shownRows width line column shown, '\n'.toUInt8 ∉ row := by
  have hcaret : '\n'.toUInt8 ∉ caretRow (2 + width + 3) column := by
    simp only [caretRow, List.mem_append, List.mem_replicate, not_or, not_and]
    exact ⟨fun _ => by decide, by decide⟩
  intro row hrow
  unfold shownRows at hrow
  split_ifs at hrow
  · rcases List.mem_pair.mp hrow with rfl | rfl
    · exact newline_not_mem_excerptRow (by decide) h
    · exact hcaret
  · rw [List.mem_singleton.mp hrow]
    exact newline_not_mem_excerptRow (by decide) h

/-- The number of a line stands right before the bar, and the line begins behind the number of
greatest width. -/
theorem excerptRow_shows (mark row : Bytes) (h : (Bytes.decimal number).length ≤ width) :
    Shows (mark.length + width + 3) mark number row (excerptRow width mark number row) := by
  refine ⟨width - (Bytes.decimal number).length, withoutReturns row, withoutReturns_trimmed row,
    ?_, by omega⟩
  rw [excerptRow, Bytes.padLeft, ← List.append_assoc]

/-- The number of the last line shown. -/
def lastShown (source : Bytes) (line : Nat) : Nat := min (rowsOf source).length (line + 2)

/-- **The lines around a line**, from two before it to two behind it. -/
theorem shownLines_eq (source : Bytes) (h : 1 ≤ line) :
    shownLines source line = (List.Ico (max 1 (line - 2)) (lastShown source line + 1)).map
      fun number => ((rowsOf source).getD (number - 1) [], number) := by
  have hfirst : max 1 (line - 2) = line - 1 - excerptReach + 1 := by
    rw [excerptReach]
    omega
  have hlast : lastShown source line = min (line + excerptReach) (rowsOf source).length :=
    Nat.min_comm _ _
  have hin : lastShown source line ≤ (rowsOf source).length := Nat.min_le_left _ _
  refine List.ext_getElem? fun i => ?_
  rw [shownLines, ← hlast, hfirst, List.getElem?_drop, List.getElem?_take, List.getElem?_zipIdx,
    List.getElem?_map, List.Ico]
  generalize line - 1 - excerptReach = first
  by_cases hi : first + i < lastShown source line
  · have hrow := List.getElem?_eq_getElem (hi.trans_le hin)
    rw [if_pos hi, hrow, List.getElem?_range' (by omega), Option.map_some, Option.map_some,
      Option.some.injEq, Prod.mk.injEq]
    have hindex : first + 1 + 1 * i - 1 = first + i := by omega
    rw [hindex, List.getD_eq_getElem?_getD, hrow]
    exact ⟨rfl, by omega⟩
  · rw [if_neg hi, List.getElem?_eq_none (by rw [List.length_range']; omega), Option.map_none]

/-- **An excerpt line by line.** -/
theorem excerpt_rows (h : hasLine source line = true) (hcolumn : 1 ≤ column) :
    rowsOf (excerpt source line column) = (shownLines source line).flatMap
      (shownRows (Bytes.decimal (lastShown source line)).length line column) ++ [[]] := by
  set width := (Bytes.decimal (lastShown source line)).length with hwidth
  have htext : excerpt source line column =
      textOf ((shownLines source line).flatMap (shownRows width line column)) := by
    rw [excerpt_eq h, textOf, List.flatMap_assoc, hwidth, lastShown, Nat.min_comm]
    exact List.flatMap_congr fun shown _ => shownAs_eq hcolumn shown
  rw [htext]
  refine rowsOf_textOf fun row hrow => ?_
  obtain ⟨shown, hshown, hrow⟩ := List.mem_flatMap.mp hrow
  have hmem := List.mem_of_getElem? (List.mem_zipIdx_iff_le_and_getElem?_sub.mp
    ((shownLines_sublist source line).subset hshown)).2
  exact newline_not_mem_shownRows (Bytes.mem_splitOn hmem) row hrow

/-- **The layout of an excerpt**, of a text that is not empty, around one of its lines. It shows
the lines from two before that line to two behind it, each once and in order, trimmed and with its
number, and they all begin at one offset. Only the line itself is marked, and behind it comes a
line of blanks with a caret at the offset of the column. -/
theorem excerpt_layout (hsource : source ≠ []) (hfirst : 1 ≤ line)
    (hlast : line ≤ (rowsOf source).length) (hcolumn : 1 ≤ column) :
    ∃ (offset : Nat) (shown : Nat → Bytes),
      rowsOf (excerpt source line column) =
        ((List.Ico (max 1 (line - 2)) (min (rowsOf source).length (line + 2) + 1)).flatMap
          fun number =>
            if number = line then
              [shown number, List.replicate (offset + column - 1) ' '.toUInt8 ++ ['^'.toUInt8]]
            else [shown number]) ++ [[]] ∧
      (∀ number ∈ List.Ico (max 1 (line - 2)) (min (rowsOf source).length (line + 2) + 1),
        ∃ row, (rowsOf source)[number - 1]? = some row ∧
          Shows offset (if number = line then "> " else "  ") number row (shown number)) ∧
      (column ≤ maxCaret + 1 →
        excerpt? source line column = some (excerpt source line column)) := by
  have hline : hasLine source line = true := by
    rw [Bytes.length_rowsOf] at hlast
    exact hasLine_iff.mpr ⟨hsource, hfirst, hlast⟩
  set width := (Bytes.decimal (lastShown source line)).length with hwidth
  refine ⟨2 + width + 3, fun number => excerptRow width (if number = line then "> " else "  ")
    number ((rowsOf source).getD (number - 1) []), ?_, fun number hnumber => ?_, fun hdrawn => ?_⟩
  · rw [excerpt_rows hline hcolumn, shownLines_eq source hfirst, List.flatMap_map]
    congr 1
    refine List.flatMap_congr fun number _ => ?_
    unfold shownRows caretRow
    dsimp only
    split_ifs <;> rfl
  · rw [List.Ico.mem] at hnumber
    have hrow := List.getElem?_eq_getElem (l := rowsOf source) (i := number - 1) (by omega)
    refine ⟨_, hrow, ?_⟩
    have hfits : (Bytes.decimal number).length ≤ width :=
      Bytes.length_decimal_mono (by rw [lastShown]; omega)
    have hmark : (if number = line then "> " else "  " : Bytes).length = 2 := by
      split_ifs <;> rfl
    have hshows := excerptRow_shows (if number = line then "> " else "  ")
      ((rowsOf source).getD (number - 1) []) hfits
    dsimp only
    rw [List.getD_eq_getElem?_getD, hrow, Option.getD_some] at hshows ⊢
    rwa [hmark] at hshows
  · have hnear : ¬ maxCaret < (column : Int) - 1 := by omega
    rw [excerpt?, decide_eq_false hnear, Bool.and_false]
    rfl

/-- A text whose last two lines have a number of two digits. -/
def elevenLines : Bytes := "a\nb\nc\nd\ne\nf\ng\nh\ni\r\nj = k\nl"

/-- The lines on both sides of a power of ten begin at one offset, and the caret stands under the
third byte. -/
theorem elevenLines_layout :
    (elevenLines ≠ [] ∧ 1 ≤ 10 ∧ 10 ≤ (rowsOf elevenLines).length ∧ 1 ≤ 3) ∧
    ∃ (offset : Nat) (eight nine ten eleven : Bytes),
      rowsOf (excerpt elevenLines 10 3) = [eight, nine, ten,
        List.replicate (offset + 3 - 1) ' '.toUInt8 ++ ['^'.toUInt8], eleven, []] ∧
      Shows offset "  " 9 "i\r" nine ∧ Shows offset "> " 10 "j = k" ten := by
  have hsource : elevenLines ≠ [] := by decide
  have hlength : (rowsOf elevenLines).length = 11 := by decide +kernel
  obtain ⟨offset, shown, hrows, hshown, -⟩ := @excerpt_layout elevenLines 10 3 hsource
    (by decide) (by rw [hlength]; decide) (by decide)
  have hrange : List.Ico (max 1 (10 - 2)) (min (rowsOf elevenLines).length (10 + 2) + 1) =
      [8, 9, 10, 11] := by
    rw [hlength]
    rfl
  rw [hrange] at hrows hshown
  obtain ⟨nine, hnine, hshows⟩ := hshown 9 (by decide)
  obtain ⟨ten, hten, hshows'⟩ := hshown 10 (by decide)
  have hnine' : (rowsOf elevenLines)[9 - 1]? = some (Bytes.ofString "i\r") := by decide +kernel
  have hten' : (rowsOf elevenLines)[10 - 1]? = some (Bytes.ofString "j = k") := by decide +kernel
  obtain rfl := Option.some.inj (hnine.symm.trans hnine')
  obtain rfl := Option.some.inj (hten.symm.trans hten')
  exact ⟨⟨hsource, by decide, by rw [hlength]; decide, by decide⟩, offset, shown 8, shown 9,
    shown 10, shown 11, hrows, hshows, hshows'⟩

example : excerpt elevenLines 10 3 = Bytes.ofString
    "   8 | h\n   9 | i\n> 10 | j = k\n         ^\n  11 | l\n" := by
  decide +kernel

end

end Terrace
