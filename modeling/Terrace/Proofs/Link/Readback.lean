/-
# A linked source carries its program

The assembler source of a linked program can be read again: the numbers of its `.byte` lines on
either side of the label of the start, and the routines that its two tables name. Read from the
text, they are the renumbered code, cut at the start, and for each instruction of the image the
number in the code picks its routine from both tables. Behind the program stand the routines, and
each one that a table names is among them.

Key definitions: `Linked.between`, `Linked.numbers`, `Linked.routineName`, `Linked.Carries`.
Key theorems: `Linked.numbers_byteRows`, `Linked.routineName_entry`, `link_carries`.
-/
import Terrace.Link.Linked
import Terrace.Proofs.Code.Renumbering
import Terrace.Proofs.Files.Names
import Terrace.Proofs.Source.Hexadecimal

namespace Terrace

/-! ### Reading a source -/

namespace Linked

/-- The text of lines. -/
def text (lines : List Bytes) : Bytes := lines.flatMap (· ++ "\n")

/-- The lines of a text, and what stands behind its last newline. -/
def lines (text : Bytes) : List Bytes := Bytes.splitOn '\n'.toUInt8 text

/-- The lines behind the first line that is `label`, up to the next one that is `stop`. -/
def between (label stop : Bytes) (lines : List Bytes) : List Bytes :=
  ((lines.dropWhile (· != label)).drop 1).takeWhile (· != stop)

/-- A decimal number up to 255, behind spaces. -/
def number? (piece : Bytes) : Option Nat :=
  (Text.Numeral.readDigits 10 255 (piece.dropWhile (· == ' '.toUInt8))).toOption

/-- The decimal numbers of a `.byte` line. -/
def numbers (line : Bytes) : List Nat :=
  if line.startsWith ".byte " then
    (Bytes.splitOn ','.toUInt8 (line.drop 6)).filterMap number?
  else []

/-- What stands in an entry of a table before the name of the routine. -/
def entryFront (part : Bytes) : Bytes := ".byte " ++ part ++ "["

/-- The routine that an entry of a table names. -/
def routineName (part line : Bytes) : Option Bytes :=
  if line.startsWith (entryFront part) && line.endsWith " - 1]" then
    some ((line.drop (entryFront part).length).take
      (line.length - (entryFront part).length - 5))
  else none

/-- The routines that a table names. -/
def table (label part source : Bytes) : List (Option Bytes) :=
  (between label [] (lines source)).map (routineName part)

/-! ### Lines -/

/-- Lines without newlines are the lines of their text. -/
theorem lines_text_append : ∀ {before : List Bytes} (rest : Bytes),
    (∀ line ∈ before, '\n'.toUInt8 ∉ line) → lines (text before ++ rest) = before ++ lines rest
  | [], _, _ => rfl
  | line :: before, rest, h => by
    rw [List.forall_mem_cons] at h
    have hsplit : text (line :: before) ++ rest =
        line ++ '\n'.toUInt8 :: (text before ++ rest) := by
      rw [text, List.flatMap_cons, List.append_assoc, List.append_assoc]
      rfl
    rw [hsplit, lines, Bytes.splitOn_append h.1]
    exact congrArg (line :: ·) (lines_text_append rest h.2)

theorem between_eq {label stop : Bytes} {front middle behind : List Bytes}
    (hfront : label ∉ front) (hmiddle : stop ∉ middle) :
    between label stop (front ++ label :: (middle ++ stop :: behind)) = middle := by
  have hdrop : (front ++ label :: (middle ++ stop :: behind)).dropWhile (· != label) =
      label :: (middle ++ stop :: behind) := by
    rw [List.dropWhile_append_of_pos, List.dropWhile_cons_of_neg (by simp)]
    intro line hline
    simpa using fun heq : line = label => hfront (heq ▸ hline)
  rw [between, hdrop, List.drop_one, List.tail_cons, List.takeWhile_append_of_pos,
    List.takeWhile_cons_of_neg (by simp), List.append_nil]
  intro line hline
  simpa using fun heq : line = stop => hmiddle (heq ▸ hline)

/-! ### Numbers -/

/-- A byte in decimal is read back, and has no byte but digits. -/
theorem readDigits_decimal : ∀ n < 256, Text.Numeral.readDigits 10 255 (Bytes.decimal n) = .ok n ∧
    (Bytes.decimal n).all isDigit = true ∧
    (Bytes.decimal n).dropWhile (· == ' '.toUInt8) = Bytes.decimal n := by
  decide +kernel

theorem isDigit_decimal (b : UInt8) : ∀ d ∈ Bytes.decimal b.toNat, isDigit d = true :=
  List.all_eq_true.mp (readDigits_decimal b.toNat b.toNat_lt).2.1

theorem not_mem_decimal {separator : UInt8} (h : isDigit separator = false) (b : UInt8) :
    separator ∉ Bytes.decimal b.toNat := by
  intro hmem
  rw [isDigit_decimal b _ hmem] at h
  cases h

theorem number?_decimal (b : UInt8) : number? (Bytes.decimal b.toNat) = some b.toNat := by
  have hread := readDigits_decimal b.toNat b.toNat_lt
  rw [number?, hread.2.2, hread.1]
  rfl

/-- A list with commas and spaces is cut at the commas. -/
theorem splitOn_listing : ∀ (first : Bytes) (others : List Bytes),
    (∀ piece ∈ first :: others, ','.toUInt8 ∉ piece) →
    Bytes.splitOn ','.toUInt8 (List.intercalate ", " (first :: others)) =
      first :: others.map (' '.toUInt8 :: ·)
  | first, [], h => by
    rw [List.forall_mem_singleton] at h
    rw [show List.intercalate (", " : Bytes) [first] = first by simp [List.intercalate],
      Bytes.splitOn_piece h]
    rfl
  | first, second :: others, h => by
    rw [List.forall_mem_cons] at h
    have ih := splitOn_listing (' '.toUInt8 :: second) others (by
      rw [List.forall_mem_cons] at h ⊢
      refine ⟨?_, h.2.2⟩
      rw [List.mem_cons, not_or]
      exact ⟨by decide, h.2.1⟩)
    have hspace : List.intercalate (", " : Bytes) (first :: second :: others) =
        first ++ ','.toUInt8 :: List.intercalate ", " ((' '.toUInt8 :: second) :: others) := by
      cases others with
      | nil => simp [List.intercalate]; rfl
      | cons third others => simp [List.intercalate]; rfl
    rw [hspace, Bytes.splitOn_append h.1, ih, List.map_cons]

/-- **The numbers of a row of program bytes** are these bytes. -/
theorem numbers_byteRow (bytes : Bytes) : numbers (byteRow bytes) = bytes.map UInt8.toNat := by
  have hstart : (byteRow bytes).startsWith ".byte " = true := by
    rw [Bytes.startsWith, byteRow, List.isPrefixOf_iff_prefix]
    exact List.prefix_append _ _
  have hdrop : (byteRow bytes).drop 6 =
      List.intercalate ", " (bytes.map fun b => Bytes.decimal b.toNat) := by
    rw [byteRow]
    exact List.drop_left' (by decide)
  rw [numbers, if_pos hstart, hdrop]
  cases bytes with
  | nil => decide
  | cons b bytes =>
    have hspaced : ∀ c : UInt8, number? (' '.toUInt8 :: Bytes.decimal c.toNat) = some c.toNat :=
      fun c => number?_decimal c
    rw [List.map_cons, splitOn_listing]
    · rw [List.filterMap_cons_some (number?_decimal b), List.map_map, List.filterMap_map,
        List.map_cons, ← List.filterMap_eq_map]
      congr 2
      funext c
      exact hspaced c
    · rw [List.forall_mem_cons, List.forall_mem_map]
      exact ⟨not_mem_decimal (by decide) b, fun c _ => not_mem_decimal (by decide) c⟩

/-- **The rows of a code have its bytes**, however long it is. -/
theorem numbers_byteRowsWithin : ∀ {fuel : Nat} {code : Bytes}, code.length ≤ fuel →
    (byteRowsWithin fuel code).flatMap numbers = code.map UInt8.toNat
  | 0, code, h => by
    rw [List.eq_nil_of_length_eq_zero (Nat.le_zero.mp h)]
    rfl
  | fuel + 1, code, h => by
    unfold byteRowsWithin
    cases hempty : code.isEmpty with
    | true =>
      rw [List.isEmpty_iff.mp hempty]
      rfl
    | false =>
      have hpos : 0 < code.length := List.length_pos_iff.mpr (List.isEmpty_eq_false_iff.mp hempty)
      have hrest : (code.drop bytesPerRow).length ≤ fuel := by
        rw [List.length_drop, bytesPerRow]
        omega
      rw [if_neg (by simp), List.flatMap_cons, numbers_byteRow, numbers_byteRowsWithin hrest,
        ← List.map_append, List.take_append_drop]

theorem numbers_byteRows (code : Bytes) :
    (byteRows code).flatMap numbers = code.map UInt8.toNat :=
  numbers_byteRowsWithin (Nat.le_refl _)

theorem mem_byteRowsWithin {line : Bytes} : ∀ {fuel : Nat} {code : Bytes},
    line ∈ byteRowsWithin fuel code → ∃ bytes, line = byteRow bytes
  | 0, _, h => by simp [byteRowsWithin] at h
  | fuel + 1, code, h => by
    unfold byteRowsWithin at h
    split_ifs at h
    · simp at h
    · rcases List.mem_cons.mp h with rfl | h
      · exact ⟨_, rfl⟩
      · exact mem_byteRowsWithin h

/-- A line that begins like one of bytes is neither blank nor a label. -/
theorem byte_ne (rest : Bytes) : (".byte " ++ rest : Bytes) ≠ [] ∧
    (".byte " ++ rest : Bytes) ≠ Bytes.ofString "program_start:" ∧
    (".byte " ++ rest : Bytes) ≠ Bytes.ofString "lookup_high:" := by
  have hhead : (".byte " ++ rest : Bytes).head? = some '.'.toUInt8 := by
    rw [List.head?_append, show (Bytes.ofString ".byte ").head? = some '.'.toUInt8 by decide,
      Option.some_or]
  refine ⟨fun h => ?_, fun h => ?_, fun h => ?_⟩
  all_goals
    rw [h] at hhead
    exact absurd hhead (by decide)

/-- Pieces on one line, with commas between them, are one line. -/
theorem not_mem_listing : ∀ {pieces : List Bytes}, (∀ piece ∈ pieces, '\n'.toUInt8 ∉ piece) →
    '\n'.toUInt8 ∉ List.intercalate (", " : Bytes) pieces
  | [], _ => by simp [List.intercalate]
  | [piece], h => by simpa [List.intercalate] using h
  | piece :: second :: pieces, h => by
    rw [List.forall_mem_cons] at h
    have hrest := not_mem_listing h.2
    have hcut : List.intercalate (", " : Bytes) (piece :: second :: pieces) =
        piece ++ (", " ++ List.intercalate ", " (second :: pieces)) := by
      simp [List.intercalate]
    rw [hcut, List.mem_append, List.mem_append, not_or, not_or]
    exact ⟨h.1, by decide, hrest⟩

/-- A row of program bytes is one line. -/
theorem byteRow_plain (bytes : Bytes) : '\n'.toUInt8 ∉ byteRow bytes := by
  rw [byteRow, List.mem_append, not_or]
  refine ⟨by decide, not_mem_listing ?_⟩
  rw [List.forall_mem_map]
  exact fun b _ => not_mem_decimal (by decide) b

/-! ### Entries -/

/-- **An entry of a table names its routine.** -/
theorem routineName_entry (part name : Bytes) :
    routineName part (".byte " ++ part ++ "[" ++ name ++ " - 1]") = some name := by
  have hentry : (".byte " ++ part ++ "[" ++ name ++ " - 1]" : Bytes) =
      entryFront part ++ (name ++ " - 1]") := by
    rw [entryFront, List.append_assoc _ name]
  have hstart : (entryFront part ++ (name ++ (" - 1]" : Bytes))).startsWith (entryFront part) =
      true := by
    rw [Bytes.startsWith, List.isPrefixOf_iff_prefix]
    exact List.prefix_append _ _
  have hend : (entryFront part ++ (name ++ (" - 1]" : Bytes))).endsWith " - 1]" = true := by
    rw [Bytes.endsWith, List.isSuffixOf_iff_suffix, ← List.append_assoc]
    exact List.suffix_append _ _
  have hlength : (entryFront part ++ (name ++ (" - 1]" : Bytes))).length -
      (entryFront part).length - 5 = name.length := by
    have hmark : (" - 1]" : Bytes).length = 5 := by decide
    simp only [List.length_append, hmark]
    omega
  rw [hentry, routineName, hstart, hend, hlength, List.drop_left, List.take_left]
  rfl

theorem name_plain : ∀ op ∈ Opcode.all, '\n'.toUInt8 ∉ op.name := by decide

/-- An entry is one line. -/
theorem entry_plain {part name : Bytes} (hpart : '\n'.toUInt8 ∉ part)
    (hname : '\n'.toUInt8 ∉ name) :
    '\n'.toUInt8 ∉ (".byte " ++ part ++ "[" ++ name ++ " - 1]" : Bytes) := by
  simp only [List.mem_append, not_or]
  exact ⟨⟨⟨⟨by decide, hpart⟩, by decide⟩, hname⟩, by decide⟩

/-! ### Addresses -/

/-- A number in base sixteen is one line. -/
theorem dollarHex_plain (width n : Nat) : '\n'.toUInt8 ∉ dollarHex width n := by
  simp only [dollarHex, Bytes.hexPadded, Bytes.padLeft, List.mem_append, List.mem_replicate,
    not_or, not_and]
  refine ⟨by decide, fun _ => by decide, fun hmem => ?_⟩
  exact absurd (Bytes.mem_hex hmem) (by decide)

/-! ### What a linked source carries -/

/-- The lines of a source behind the header of the library. -/
def behindHeader (library : RoutineLibrary) (source : Bytes) : List Bytes :=
  lines (source.drop (text library.header).length)

/-- The program bytes in front of the start. -/
def bytesBefore (library : RoutineLibrary) (source : Bytes) : List Nat :=
  (between "program:" "program_start:" (behindHeader library source)).flatMap numbers

/-- The program bytes from the start on. -/
def bytesAfter (library : RoutineLibrary) (source : Bytes) : List Nat :=
  (between "program_start:" [] (behindHeader library source)).flatMap numbers

/-- The internal routines of a library and those named after opcodes in use. -/
def written (library : RoutineLibrary) (used : List Opcode) : List Routine :=
  library.routines.filter fun r => r.name.startsWith "_" || used.any (r.name == ·.name)

/-- **The source of a program with these opcodes**, whose bytes are numbers of routines. -/
structure Carries (library : RoutineLibrary) (used : List Opcode) (program : Image)
    (source : Bytes) : Prop where
  bytes : bytesBefore library source ++ bytesAfter library source = program.code.map UInt8.toNat
  start : program.base.toNat + (bytesBefore library source).length = program.start.toNat
  /-- Behind the header, and the program with the blank line at its end, stand the routines and
  then the tables. -/
  parts : ∃ tables, source = text library.header ++
      text ((behindHeader library source).takeWhile (· != []) ++ [[]]) ++
      text ((written library used).flatMap (·.lines)) ++ tables ∧
    table "lookup_low:" "<" tables = used.map (some ·.name) ∧
    table "lookup_high:" ">" tables = used.map (some ·.name)
  /-- A routine that a table names is written. -/
  defined : ∀ op ∈ used, ∃ r ∈ written library used, r.name = op.name

/-- The lines of the program are read as its bytes. -/
theorem between_programLines {program : Image} {split : Nat} (behind : List Bytes) :
    (between "program:" "program_start:" (programLines program split ++ behind)).flatMap numbers =
        (program.code.take split).map UInt8.toNat ∧
      (between "program_start:" [] (programLines program split ++ behind)).flatMap numbers =
        (program.code.drop split).map UInt8.toNat := by
  have hrow : ∀ code : Bytes, Bytes.ofString "program_start:" ∉ byteRows code ∧
      [] ∉ byteRows code := by
    refine fun code => ⟨fun hmem => ?_, fun hmem => ?_⟩
    · obtain ⟨bytes, heq⟩ := mem_byteRowsWithin hmem
      exact (byte_ne _).2.1 heq.symm
    · obtain ⟨bytes, heq⟩ := mem_byteRowsWithin hmem
      exact (byte_ne _).1 heq.symm
  have hcomment : ∀ rest : Bytes, ("; address = " ++ rest : Bytes) ≠
      Bytes.ofString "program_start:" := by
    intro rest h
    have hhead := congrArg List.head? h
    rw [List.head?_append, show (Bytes.ofString "; address = ").head? = some ';'.toUInt8 by decide,
      Option.some_or] at hhead
    exact absurd hhead (by decide)
  have hpart : programLines program split ++ behind = [] ++ (Bytes.ofString "program:") ::
      ((byteRows (program.code.take split) ++
        ["; address = " ++ dollarHex 1 program.start.toNat]) ++
      (Bytes.ofString "program_start:") ::
        (byteRows (program.code.drop split) ++ [] :: behind)) := by
    simp [programLines]
  have hfirst : Bytes.ofString "program_start:" ∉ byteRows (program.code.take split) ++
      ["; address = " ++ dollarHex 1 program.start.toNat] := by
    rw [List.mem_append, List.mem_singleton, not_or]
    exact ⟨(hrow _).1, (hcomment _).symm⟩
  have hsecond : Bytes.ofString "program_start:" ∉ Bytes.ofString "program:" ::
      (byteRows (program.code.take split) ++
        ["; address = " ++ dollarHex 1 program.start.toNat]) := by
    rw [List.mem_cons, not_or]
    exact ⟨by decide, hfirst⟩
  constructor
  · rw [hpart, between_eq List.not_mem_nil hfirst, List.flatMap_append, numbers_byteRows,
      List.flatMap_singleton]
    have hnone : numbers ("; address = " ++ dollarHex 1 program.start.toNat) = [] := by
      have hother : ∀ rest : Bytes,
          Bytes.startsWith ("; address = " ++ rest) ".byte " = false := fun _ => rfl
      rw [numbers, hother, if_neg (by simp)]
    rw [hnone, List.append_nil]
  · rw [hpart, List.nil_append, ← List.cons_append,
      between_eq hsecond (hrow (program.code.drop split)).2, numbers_byteRows]

/-- The program ends with the first blank line. -/
theorem takeWhile_programLines {program : Image} {split : Nat} (behind : List Bytes) :
    (programLines program split ++ behind).takeWhile (· != []) ++ [[]] =
      programLines program split := by
  have hcomment : ∀ rest : Bytes, ("; address = " ++ rest : Bytes) ≠ [] := by
    intro rest h
    exact absurd (List.append_eq_nil_iff.mp h).1 (by decide)
  have hrow : ∀ code : Bytes, ∀ line ∈ byteRows code, line ≠ [] := by
    intro code line hline
    obtain ⟨bytes, rfl⟩ := mem_byteRowsWithin hline
    exact (byte_ne _).1
  have hlabel : Bytes.ofString "program:" ≠ [] ∧ Bytes.ofString "program_start:" ≠ [] := by decide
  have hpart : programLines program split ++ behind =
      (Bytes.ofString "program:" :: (byteRows (program.code.take split) ++
        ["; address = " ++ dollarHex 1 program.start.toNat, "program_start:"] ++
        byteRows (program.code.drop split))) ++ [] :: behind := by
    simp [programLines]
  rw [hpart, List.takeWhile_append_of_pos, List.takeWhile_cons_of_neg (by simp)]
  · simp [programLines]
  · simp only [List.mem_cons, List.mem_append, List.not_mem_nil, or_false, bne_iff_ne]
    rintro line (rfl | (hline | rfl | rfl) | hline)
    · exact hlabel.1
    · exact hrow _ _ hline
    · exact hcomment _
    · exact hlabel.2
    · exact hrow _ _ hline

/-- Each line of the program is one line. -/
theorem programLines_plain {program : Image} {split : Nat} :
    ∀ line ∈ programLines program split, '\n'.toUInt8 ∉ line := by
  have hrow : ∀ code : Bytes, ∀ line ∈ byteRows code, '\n'.toUInt8 ∉ line := by
    intro code line hline
    obtain ⟨bytes, rfl⟩ := mem_byteRowsWithin hline
    exact byteRow_plain bytes
  simp only [programLines, List.flatten_cons, List.flatten_nil, List.mem_append, List.mem_cons,
    List.not_mem_nil, or_false]
  rintro line (rfl | hline | (rfl | rfl) | hline | rfl)
  · decide
  · exact hrow _ _ hline
  · rw [List.mem_append, not_or]
    exact ⟨by decide, dollarHex_plain _ _⟩
  · decide
  · exact hrow _ _ hline
  · simp

/-- The tables name the routines of the opcodes. -/
theorem table_tableLines {used : List Opcode} (hused : ∀ op ∈ used, op ∈ Opcode.all)
    (behind : Bytes) :
    table "lookup_low:" "<" (text (tableLines used) ++ behind) = used.map (some ·.name) ∧
      table "lookup_high:" ">" (text (tableLines used) ++ behind) = used.map (some ·.name) := by
  let entries (part : Bytes) : List Bytes :=
    used.map fun op => ".byte " ++ part ++ "[" ++ op.name ++ " - 1]"
  have hnames : ∀ part, (entries part).map (routineName part) = used.map (some ·.name) := by
    intro part
    rw [List.map_map]
    exact List.map_congr_left fun op _ => routineName_entry part op.name
  have hother : ∀ part, [] ∉ entries part ∧ Bytes.ofString "lookup_high:" ∉ entries part := by
    refine fun part => ⟨fun hmem => ?_, fun hmem => ?_⟩
    · obtain ⟨op, -, heq⟩ := List.mem_map.mp hmem
      simp only [List.append_assoc] at heq
      exact (byte_ne _).1 heq
    · obtain ⟨op, -, heq⟩ := List.mem_map.mp hmem
      simp only [List.append_assoc] at heq
      exact (byte_ne _).2.2 heq
  have hplain : ∀ line ∈ tableLines used, '\n'.toUInt8 ∉ line := by
    have hentry : ∀ part : Bytes, '\n'.toUInt8 ∉ part → ∀ line ∈ entries part,
        '\n'.toUInt8 ∉ line := by
      intro part hpart line hline
      obtain ⟨op, hop, rfl⟩ := List.mem_map.mp hline
      exact entry_plain hpart (name_plain op (hused op hop))
    have hlow := hentry "<" (by decide)
    have hhigh := hentry ">" (by decide)
    simp only [tableLines, List.flatten_cons, List.flatten_nil, List.mem_append, List.mem_cons,
      List.not_mem_nil, or_false]
    rintro line ((rfl | rfl) | hline | (rfl | rfl) | hline | rfl | rfl)
    · simp
    · decide
    · exact hlow _ hline
    · simp
    · decide
    · exact hhigh _ hline
    · simp
    · decide
  have hlines : lines (text (tableLines used) ++ behind) = [[]] ++ Bytes.ofString "lookup_low:" ::
      (entries "<" ++ [] :: (Bytes.ofString "lookup_high:" ::
        (entries ">" ++ [] :: ("_stack:" :: lines behind)))) := by
    rw [lines_text_append behind hplain]
    simp [tableLines, entries]
  have hskip : Bytes.ofString "lookup_high:" ∉
      [[]] ++ Bytes.ofString "lookup_low:" :: (entries "<" ++ [[]]) := by
    simp only [List.mem_append, List.mem_cons, List.not_mem_nil, or_false, not_or]
    exact ⟨by decide, by decide, (hother "<").2, by decide⟩
  constructor
  · rw [table, hlines, between_eq (by decide) (hother "<").1, hnames]
  · have hregroup : [[]] ++ Bytes.ofString "lookup_low:" ::
        (entries "<" ++ [] :: (Bytes.ofString "lookup_high:" ::
          (entries ">" ++ [] :: ("_stack:" :: lines behind)))) =
        ([[]] ++ Bytes.ofString "lookup_low:" :: (entries "<" ++ [[]])) ++
          Bytes.ofString "lookup_high:" :: (entries ">" ++ [] :: ("_stack:" :: lines behind)) := by
      simp
    rw [table, hlines, hregroup, between_eq hskip (hother ">").1, hnames]

end Linked

/-! ### Linking -/

open Linked

/-- What a program that can be linked is linked from. -/
theorem link_eq {library : RoutineLibrary} {image : Image} {files : List ManifestEntry}
    {source : Bytes} (h : link library image files = .ok source) :
    ∃ used program split, image.usedOpcodes = .ok used ∧
      (∀ op ∈ used, (library.find? op.name).isSome) ∧
      image.renumber (used.map (·.byte)) = .ok program ∧ program.split? = some split ∧
      source = text library.header ++ (text (programLines program split) ++
        (text ((written library used).flatMap (·.lines)) ++
          (text (tableLines used) ++ text (fileLines image files)))) := by
  unfold link linkedLines at h
  cases hused : image.usedOpcodes with
  | error cause => simp [hused, Except.mapError, bind, Except.bind] at h
  | ok used =>
    simp only [hused, Except.mapError, bind, Except.bind, pure, Except.pure] at h
    cases hmissing : used.find? fun op => (library.find? op.name).isNone with
    | some op => simp [hmissing, throw, throwThe, MonadExceptOf.throw] at h
    | none =>
      simp only [hmissing] at h
      cases hprogram : image.renumber (used.map (·.byte)) with
      | error cause => simp [hprogram] at h
      | ok program =>
        simp only [hprogram] at h
        cases hsplit : program.split? with
        | none => simp [hsplit, throw, throwThe, MonadExceptOf.throw] at h
        | some split =>
          simp only [hsplit, Except.ok.injEq] at h
          refine ⟨used, program, split, rfl, fun op hop => ?_, hprogram, hsplit, ?_⟩
          · have hfound := List.find?_eq_none.mp hmissing op hop
            simpa [Option.isNone_iff_eq_none, Option.isSome_iff_ne_none] using hfound
          · have hneeded : neededRoutines library used = written library used := by
              simp only [neededRoutines, written, Routine.isInternal, BEq.comm]
            rw [← h, ← hneeded]
            simp only [text, List.flatMap_append, List.append_assoc]

/-- **A linked source carries the program.** Where linking succeeds, the numbers in the source are
the bytes of the image renumbered by its opcodes, cut at the start. The routines written are the
internal ones and those of the opcodes, and the tables name, number by number, the routines of the
opcodes; every routine named is written. -/
theorem link_carries {library : RoutineLibrary} {image : Image} {files : List ManifestEntry}
    {source : Bytes} (h : link library image files = .ok source) :
    ∃ used program, image.usedOpcodes = .ok used ∧
      image.renumber (used.map (·.byte)) = .ok program ∧ image.Renumbered used program ∧
      Linked.Carries library used program source := by
  obtain ⟨used, program, split, hused, hfound, hprogram, hsplit, hsource⟩ := link_eq h
  obtain ⟨found, hread⟩ : ∃ found, Instruction.readAll image.code = (found, none) := by
    cases hread : Instruction.readAll image.code with
    | mk found failure =>
      cases failure with
      | none => exact ⟨found, rfl⟩
      | some cause =>
        simp [Image.usedOpcodes, Image.usage, Image.instructions, hread, bind, Except.bind] at hused
  have heq := hused
  rw [Image.usedOpcodes_eq hread, Except.ok.injEq] at heq
  subst heq
  have hrenumbered := Image.renumbered_opcodesOf hread
  have hresult := Image.renumber_eq hread (fun _ => Image.byte_mem_opcodesOf)
    (Image.length_opcodesOf_le found)
  rw [show (fun op : Opcode => op.byte) = Opcode.byte from rfl, hresult, Except.ok.injEq]
    at hprogram
  rw [hprogram] at hrenumbered hresult
  have hbehind : behindHeader library source = programLines program split ++
      lines (text ((written library (Image.opcodesOf found)).flatMap (·.lines)) ++
        (text (tableLines (Image.opcodesOf found)) ++ text (fileLines image files))) := by
    rw [behindHeader, hsource, List.drop_left, lines_text_append _ programLines_plain]
  obtain ⟨hstart, hstop⟩ : program.base ≤ program.start ∧ program.start.toNat ≤ program.stop ∧
      program.start.toNat - program.base.toNat = split := by
    rw [Image.split?] at hsplit
    split_ifs at hsplit with hcond
    rw [Bool.and_eq_true, decide_eq_true_eq, decide_eq_true_eq] at hcond
    exact ⟨hcond.1, hcond.2, Option.some.inj hsplit⟩
  obtain ⟨hbefore, hafter⟩ := @between_programLines program split
    (lines (text ((written library (Image.opcodesOf found)).flatMap (·.lines)) ++
      (text (tableLines (Image.opcodesOf found)) ++ text (fileLines image files))))
  rw [← hbehind] at hbefore hafter
  refine ⟨_, program, hused, hresult, hrenumbered, ⟨?_, ?_, ?_, ?_⟩⟩
  · rw [bytesBefore, bytesAfter, hbefore, hafter, ← List.map_append, List.take_append_drop]
  · have hle := UInt16.le_iff_toNat_le.mp hstart
    rw [Image.stop] at hstop
    rw [bytesBefore, hbefore, List.length_map, List.length_take]
    omega
  · have hused : ∀ op ∈ Image.opcodesOf found, op ∈ Opcode.all := fun op hop =>
      (List.mem_filter.mp hop).1
    refine ⟨_, ?_, table_tableLines hused (text (fileLines image files))⟩
    rw [hbehind, takeWhile_programLines, hsource]
    simp only [List.append_assoc]
  · intro op hop
    obtain ⟨r, hr⟩ := Option.isSome_iff_exists.mp (hfound op hop)
    have hname : r.name = op.name := by
      simpa using List.find?_some hr
    refine ⟨r, List.mem_filter.mpr ⟨List.mem_of_find?_eq_some hr, ?_⟩, hname⟩
    rw [Bool.or_eq_true, List.any_eq_true]
    exact Or.inr ⟨op, hop, by simpa using hname⟩

/-- A library with four routines, of which one is internal and one not needed. -/
def smallLibrary : RoutineLibrary where
  header := ["; runtime"]
  routines := [⟨"end", ["end:", " rts"]⟩, ⟨"multiply", ["multiply:", " rts"]⟩,
    ⟨"load_byte", ["load_byte:", "", " rts"]⟩, ⟨"add_byte", ["add_byte:"]⟩,
    ⟨"_fetch", ["_fetch:"]⟩]

/-- A program that starts behind its first instruction. -/
def lateStart : Image := ⟨[2, 0, 2, 7, 15, 0], 0x1900, 0x1902⟩

theorem lateStart_carried : ∃ source used program,
    link smallLibrary lateStart [] = .ok source ∧ lateStart.usedOpcodes = .ok used ∧
      Linked.Carries smallLibrary used program source ∧
      bytesBefore smallLibrary source = [1, 0] ∧ bytesAfter smallLibrary source = [1, 7, 2, 0] := by
  have hread : (link smallLibrary lateStart []).toOption.map (fun source =>
      (bytesBefore smallLibrary source, bytesAfter smallLibrary source)) =
        some ([1, 0], [1, 7, 2, 0]) := rfl
  cases hsource : link smallLibrary lateStart [] with
  | error cause =>
    rw [hsource] at hread
    cases hread
  | ok source =>
    rw [hsource] at hread
    obtain ⟨hbefore, hafter⟩ := Prod.mk.inj (Option.some.inj hread)
    obtain ⟨used, program, hused, -, -, hcarries⟩ := link_carries hsource
    exact ⟨source, used, program, rfl, hused, hcarries, hbefore, hafter⟩

end Terrace
