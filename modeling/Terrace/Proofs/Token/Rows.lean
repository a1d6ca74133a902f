/-
# The words of a line

A source text is read line by line, so what its lines hold can be told for each line alone: how
far it is indented, whether it holds anything, and which tokens it gives. What is behind a line,
or blanks and a comment at its end, is not seen by it, unless it leaves a string open.

Key definitions: `Lexeme`, `Row.width`, `Row.isBlank`, `Row.wordPiece`, `Row.Piece`,
`Row.wordsFrom`.
Key theorems: `Row.wordPiece_piece`, `Row.wordPiece_suffix`, `Row.wordsFrom_append`,
`Row.bare_wordsFrom`.
-/
import Mathlib.Data.List.TakeWhile
import Terrace.Proofs.Token.Strings
import Terrace.Proofs.Token.Supply

namespace Terrace

/-- What a text gives: a token, or an error that ends it. -/
abbrev Lexeme := Except Slip Token

/-- A token at another place. -/
def Token.placed (token : Token) (line column : Nat) : Token := { token with line, column }

/-- Whether a kind of token is one of the words of a line. -/
def TokenKind.isWord : TokenKind → Bool
  | .finish | .newline | .indent | .dedent => false
  | _ => true

namespace Row

/-- The columns that a line is indented. -/
def width (row : Bytes) : Nat :=
  (row.takeWhile isSpace).foldr (fun b width => blankWidth b + width) 0

/-- Whether a text holds nothing up to the end of its line but blanks and a comment. -/
def isBlank (row : Bytes) : Bool :=
  match row.dropWhile isSpace with
  | [] => true
  | b :: _ => b == '\n'.toUInt8 || b == '#'.toUInt8

/-- The next word of a line, with the rest of the line, or what is wrong with it. The places of
tokens are left out. -/
def wordPiece (row : Bytes) : Option (Lexeme × Bytes) :=
  match row.dropWhile isSpace with
  | [] => none
  | b :: rest =>
    if b = '\n'.toUInt8 then none
    else if b = '#'.toUInt8 then none
    else if b = '"'.toUInt8 then
      match slipped (stringBody 0 0 0 rest) with
      | .error slip => some (.error slip, [])
      | .ok (value, rest') =>
        let literal := (b :: rest).take ((b :: rest).length - rest'.length)
        some (.ok { kind := .string, literal, value, line := 0, column := 0 }, rest')
    else match Scanner.punctuation b with
      | some kind => some (.ok { kind, literal := [b], line := 0, column := 0 }, rest)
      | none =>
        let word := (b :: rest).takeWhile (!isDelimiter ·)
        some (.ok { kind := .ofWord word, literal := word, line := 0, column := 0 },
          (b :: rest).drop word.length)

theorem head_dropWhile {row rest : Bytes} {b : UInt8} (h : row.dropWhile isSpace = b :: rest) :
    isSpace b = false := by
  have hhead := List.head?_dropWhile_not isSpace row
  rw [h] at hhead
  simpa using hhead

variable {row rest tail : Bytes} {token : Token}

/-- A word, told from its bytes, and what is behind it in its line. -/
inductive Piece : Token → Bytes → Prop
  | string {inside rest value : Bytes}
    (hbody : slipped (stringBody 0 0 0 (inside ++ rest)) = .ok (value, rest)) :
    Piece { kind := .string, literal := '"'.toUInt8 :: inside, value, line := 0, column := 0 } rest
  | mark {b : UInt8} {kind : TokenKind} {rest : Bytes} (hkind : Scanner.punctuation b = some kind) :
    Piece { kind, literal := [b], line := 0, column := 0 } rest
  | run {word rest : Bytes} (hne : word ≠ []) (hquote : '"'.toUInt8 ∉ word.head?)
    (hinside : ∀ b ∈ word, isDelimiter b = false) (hend : ∀ b ∈ rest.head?, isDelimiter b = true) :
    Piece { kind := .ofWord word, literal := word, line := 0, column := 0 } rest

theorem Piece.literal_ne_nil (h : Piece token rest) : token.literal ≠ [] := by
  cases h with
  | run hne => exact hne
  | string | mark => exact List.cons_ne_nil _ _

/-- **A word stands behind the blanks of its line**: a string, a punctuation mark, or bytes up to
the next delimiter. -/
theorem wordPiece_piece (h : wordPiece row = some (.ok token, rest)) :
    row.dropWhile isSpace = token.literal ++ rest ∧ Piece token rest := by
  unfold wordPiece at h
  cases hrow : row.dropWhile isSpace with
  | nil =>
    rw [hrow] at h
    cases h
  | cons b source =>
    rw [hrow] at h
    dsimp only at h
    split_ifs at h with hnewline hcomment hquote
    · split at h
      · cases h
      next value rest' hbody =>
        cases h
        obtain ⟨inside, rfl⟩ := stringBody_suffix hbody
        have hcount : (b :: (inside ++ rest)).length - rest.length = (b :: inside).length := by
          simp only [List.length_cons, List.length_append]
          omega
        have hliteral : (b :: (inside ++ rest)).take (b :: inside).length = b :: inside :=
          List.take_left
        rw [hcount, hliteral, hquote]
        exact ⟨rfl, .string hbody⟩
    · split at h
      next kind hkind =>
        cases h
        exact ⟨rfl, .mark hkind⟩
      next hpunctuation =>
        cases h
        have hword := Scanner.isDelimiter_of hnewline hcomment (head_dropWhile hrow) hpunctuation
        rw [Scanner.drop_takeWhile (!isDelimiter ·) (b :: source)]
        have hcons : (b :: source).takeWhile (!isDelimiter ·) =
            b :: source.takeWhile (!isDelimiter ·) := List.takeWhile_cons_of_pos (by simp [hword])
        refine ⟨(@List.takeWhile_append_dropWhile _ (!isDelimiter ·) _).symm, .run ?_ ?_ ?_ ?_⟩
        · rw [hcons]
          exact List.cons_ne_nil _ _
        · rw [hcons]
          rintro ⟨⟩
          exact hquote rfl
        · intro c hc
          simpa using List.mem_takeWhile_imp hc
        · intro c hc
          have hhead := List.head?_dropWhile_not (!isDelimiter ·) (b :: source)
          rw [hc] at hhead
          simpa using hhead

/-- What stands behind the blanks of a line as a word is read of it. -/
theorem wordPiece_of_piece (hrow : row.dropWhile isSpace = token.literal ++ rest)
    (h : Piece token rest) : wordPiece row = some (.ok token, rest) := by
  rw [wordPiece, hrow]
  cases h with
  | @string inside rest value hbody =>
    have hcount : ('"'.toUInt8 :: (inside ++ rest)).length - rest.length =
        ('"'.toUInt8 :: inside).length := by
      simp only [List.length_cons, List.length_append]
      omega
    have hliteral : ('"'.toUInt8 :: (inside ++ rest)).take ('"'.toUInt8 :: inside).length =
        '"'.toUInt8 :: inside := List.take_left
    dsimp only [List.cons_append]
    rw [if_neg (by decide), if_neg (by decide), if_pos rfl, hbody]
    dsimp only
    rw [hcount, hliteral]
  | @mark b kind rest hkind =>
    obtain ⟨hnewline, hcomment, hquote⟩ := Scanner.ne_of_punctuation hkind
    dsimp only [List.cons_append, List.nil_append]
    rw [if_neg hnewline, if_neg hcomment, if_neg hquote, hkind]
  | @run word rest hne hquote hinside hend =>
    obtain ⟨b, inside, rfl⟩ := List.exists_cons_of_ne_nil hne
    obtain ⟨hnewline, hcomment, hnone⟩ :=
      Scanner.ne_of_isDelimiter (hinside b List.mem_cons_self)
    have hstart : ¬ b = '"'.toUInt8 := fun hb => hquote (congrArg some hb)
    have hword : (b :: inside ++ rest).takeWhile (!isDelimiter ·) = b :: inside :=
      Scanner.takeWhile_run hinside hend
    rw [List.cons_append] at hword
    dsimp only [List.cons_append]
    rw [if_neg hnewline, if_neg hcomment, if_neg hstart, hnone]
    dsimp only
    rw [hword, ← List.cons_append, List.drop_left]

/-- A word takes a part of the line. -/
theorem wordPiece_suffix (h : wordPiece row = some (.ok token, rest)) :
    rest <:+ row ∧ rest.length < row.length := by
  obtain ⟨hrow, hpiece⟩ := wordPiece_piece h
  have hpos := List.length_pos_of_ne_nil hpiece.literal_ne_nil
  have hblanks : row.dropWhile isSpace <:+ row := List.dropWhile_suffix _
  rw [hrow] at hblanks
  have hle := hblanks.length_le
  rw [List.length_append] at hle
  exact ⟨(List.suffix_append _ _).trans hblanks, by omega⟩

/-- A word is neither the end of a line nor that of a block or a text. -/
theorem wordPiece_isWord (h : wordPiece row = some (.ok token, rest)) :
    token.kind.isWord = true := by
  cases (wordPiece_piece h).2 with
  | string => rfl
  | mark hkind =>
    unfold Scanner.punctuation at hkind
    split_ifs at hkind <;> cases hkind <;> rfl
  | run =>
    unfold TokenKind.ofWord
    dsimp only
    split_ifs <;> rfl

/-- The words of a line from a column on, up to what is wrong with it. -/
def wordsFrom (line column : Nat) (row : Bytes) : List Lexeme :=
  match _h : wordPiece row with
  | none => []
  | some (.error slip, _) => [.error slip]
  | some (.ok token, rest) =>
    .ok (token.placed line (column + (row.takeWhile isSpace).length)) ::
      wordsFrom line (column + (row.length - rest.length)) rest
termination_by row.length
decreasing_by exact (wordPiece_suffix _h).2

variable {line column : Nat}

theorem wordsFrom_none (h : wordPiece row = none) : wordsFrom line column row = [] := by
  rw [wordsFrom]
  split <;> simp_all

theorem wordsFrom_error {slip : Slip} (h : wordPiece row = some (.error slip, rest)) :
    wordsFrom line column row = [.error slip] := by
  rw [wordsFrom]
  split <;> simp_all

theorem wordsFrom_ok (h : wordPiece row = some (.ok token, rest)) :
    wordsFrom line column row =
      .ok (token.placed line (column + (row.takeWhile isSpace).length)) ::
        wordsFrom line (column + (row.length - rest.length)) rest := by
  rw [wordsFrom]
  split <;> simp_all

/-- What stands among the words of a line was read at some place in it. -/
theorem exists_wordPiece_of_mem {item : Lexeme} {column : Nat} {row : Bytes}
    (h : item ∈ wordsFrom line column row) : ∃ (piece : Lexeme) (behind rest : Bytes) (place : Nat),
      wordPiece behind = some (piece, rest) ∧ item = piece.map (·.placed line place) := by
  cases hpiece : wordPiece row with
  | none =>
    rw [wordsFrom_none hpiece] at h
    cases h
  | some found =>
    obtain ⟨slip | first, rest⟩ := found
    · rw [wordsFrom_error hpiece] at h
      cases List.mem_singleton.mp h
      exact ⟨_, row, rest, 0, hpiece, rfl⟩
    · have hshorter := (wordPiece_suffix hpiece).2
      rw [wordsFrom_ok hpiece] at h
      rcases List.mem_cons.mp h with rfl | h
      · exact ⟨_, row, rest, _, hpiece, rfl⟩
      · exact exists_wordPiece_of_mem h
termination_by row.length

theorem dropWhile_dropWhile (row : Bytes) :
    (row.dropWhile isSpace).dropWhile isSpace = row.dropWhile isSpace ∧
      (row.dropWhile isSpace).takeWhile isSpace = [] := by
  cases hrow : row.dropWhile isSpace with
  | nil => exact ⟨rfl, rfl⟩
  | cons b rest =>
    have hb := head_dropWhile hrow
    exact ⟨List.dropWhile_cons_of_neg (by simp [hb]), List.takeWhile_cons_of_neg (by simp [hb])⟩

/-- The blanks in front of the first word move it. -/
theorem wordsFrom_skip (line column : Nat) (row : Bytes) :
    wordsFrom line column row =
      wordsFrom line (column + (row.takeWhile isSpace).length) (row.dropWhile isSpace) := by
  obtain ⟨hskip, hnone⟩ := dropWhile_dropWhile row
  have hsame : wordPiece (row.dropWhile isSpace) = wordPiece row := by
    rw [wordPiece, wordPiece, hskip]
  have hlength := congrArg List.length (List.takeWhile_append_dropWhile (p := isSpace) (l := row))
  rw [List.length_append] at hlength
  cases hpiece : wordPiece row with
  | none => rw [wordsFrom_none hpiece, wordsFrom_none (hsame.trans hpiece)]
  | some found =>
    obtain ⟨slip | token, rest⟩ := found
    · rw [wordsFrom_error hpiece, wordsFrom_error (hsame.trans hpiece)]
    · have hle := (wordPiece_suffix (hsame.trans hpiece)).1.length_le
      rw [wordsFrom_ok hpiece, wordsFrom_ok (hsame.trans hpiece), hnone, List.length_nil,
        Nat.add_zero]
      congr 2
      omega

/-! ### What follows a line -/

/-- Nothing but blanks and a comment follows, up to the end of the line. -/
theorem trailing_of_isBlank (h : isBlank tail = true) : Trailing tail := by
  intro b hb
  cases tail with
  | nil => cases hb
  | cons c tail =>
    cases hb
    by_cases hspace : isSpace b = true
    · exact Or.inl hspace
    · rw [isBlank, List.dropWhile_cons_of_neg hspace] at h
      simp only [Bool.or_eq_true, beq_iff_eq] at h
      exact Or.inr h.symm

theorem isBlank_of_lineEnd (h : LineEnd tail) : isBlank tail = true := by
  cases tail with
  | nil => rfl
  | cons b tail =>
    obtain rfl := h b rfl
    rfl

/-- Nothing more is read of a line that holds nothing more. -/
theorem wordPiece_eq_none : wordPiece row = none ↔ isBlank row = true := by
  unfold wordPiece isBlank
  split
  · simp
  · split_ifs with hnewline hcomment
    · simp [hnewline]
    · simp [hcomment]
    · split <;> simp [hnewline, hcomment]
    · split <;> simp [hnewline, hcomment]

theorem dropWhile_append (h : row.dropWhile isSpace ≠ []) (tail : Bytes) :
    (row ++ tail).dropWhile isSpace = row.dropWhile isSpace ++ tail := by
  rw [List.dropWhile_append]
  simp [h]

theorem takeWhile_append (h : row.dropWhile isSpace ≠ []) (tail : Bytes) :
    (row ++ tail).takeWhile isSpace = row.takeWhile isSpace := by
  have hsplit : row.takeWhile isSpace ++ row.dropWhile isSpace = row :=
    List.takeWhile_append_dropWhile
  rw [List.takeWhile_append, if_neg]
  intro hall
  apply h
  have hlength := congrArg List.length hsplit
  rw [List.length_append, hall] at hlength
  exact List.eq_nil_of_length_eq_zero (by omega)

theorem isBlank_append (hrow : isBlank row = true) (htail : isBlank tail = true) :
    isBlank (row ++ tail) = true := by
  by_cases hempty : row.dropWhile isSpace = []
  · have hskip : (row ++ tail).dropWhile isSpace = tail.dropWhile isSpace := by
      rw [List.dropWhile_append, hempty]
      rfl
    rw [isBlank, hskip]
    exact htail
  · rw [isBlank, dropWhile_append hempty]
    rw [isBlank] at hrow
    cases hbody : row.dropWhile isSpace with
    | nil => exact absurd hbody hempty
    | cons b rest =>
      rw [hbody] at hrow
      exact hrow

/-- A word that ends with its line ends there also where blanks or a comment follow. -/
theorem Piece.append (h : Piece token rest) (hline : '\n'.toUInt8 ∉ token.literal ++ rest)
    (htail : Trailing tail) : Piece token (rest ++ tail) := by
  cases h with
  | @string inside rest value hbody =>
    refine .string ?_
    have hsource : '\n'.toUInt8 ∉ inside ++ rest := List.not_mem_of_not_mem_cons hline
    rw [← List.append_assoc, @slip_stringBody_append tail 0 0 0 0 0 0 _ hsource htail
      (by rw [hbody]; simp), hbody]
    rfl
  | mark hkind => exact .mark hkind
  | @run word rest hne hquote hinside hend =>
    refine .run hne hquote hinside fun b hb => ?_
    cases rest with
    | nil =>
      rcases htail b hb with hspace | rfl | rfl
      · simp [isDelimiter, hspace]
      · decide
      · decide
    | cons c rest => exact hend b hb

theorem wordPiece_append_ok (h : wordPiece row = some (.ok token, rest))
    (hline : '\n'.toUInt8 ∉ row) (htail : isBlank tail = true) :
    wordPiece (row ++ tail) = some (.ok token, rest ++ tail) := by
  obtain ⟨hrow, hpiece⟩ := wordPiece_piece h
  have hsuffix : row.dropWhile isSpace <:+ row := List.dropWhile_suffix _
  refine wordPiece_of_piece ?_ (hpiece.append ?_ (trailing_of_isBlank htail))
  · rw [dropWhile_append (by simp [hrow, hpiece.literal_ne_nil]), hrow, List.append_assoc]
  · exact fun hmem => hline (hsuffix.subset (hrow ▸ hmem))

/-- What is wrong with a line stays so, unless it is an open string. -/
theorem wordPiece_append_error {slip : Slip} (h : wordPiece row = some (.error slip, rest))
    (hline : '\n'.toUInt8 ∉ row) (htail : isBlank tail = true)
    (hopen : slip = .unterminated → LineEnd tail) :
    wordPiece (row ++ tail) = some (.error slip, []) := by
  have hsuffix : row.dropWhile isSpace <:+ row := List.dropWhile_suffix _
  unfold wordPiece at h ⊢
  cases hrow : row.dropWhile isSpace with
  | nil =>
    rw [hrow] at h
    cases h
  | cons b source =>
    rw [dropWhile_append (by simp [hrow]), hrow]
    rw [hrow] at h hsuffix
    have hsource : '\n'.toUInt8 ∉ source :=
      fun hmem => hline (hsuffix.subset (List.mem_cons_of_mem _ hmem))
    dsimp only [List.cons_append] at h ⊢
    split_ifs at h ⊢ with hnewline hcomment hquote
    · cases hbody : slipped (stringBody 0 0 0 source) with
      | error slip' =>
        rw [hbody] at h
        cases h
        rw [slip_stringBody_append hsource (trailing_of_isBlank htail)
          (fun hunterminated => hopen (Except.error.inj (hbody.symm.trans hunterminated))), hbody]
        rfl
      | ok found =>
        rw [hbody] at h
        cases h
    · split at h <;> cases h

/-- **What follows a line does not change its words**, unless a string is open at its end. -/
theorem wordsFrom_append {line column : Nat} {row : Bytes} (hline : '\n'.toUInt8 ∉ row)
    (htail : isBlank tail = true)
    (hopen : .error .unterminated ∈ wordsFrom line column row → LineEnd tail) :
    wordsFrom line column (row ++ tail) = wordsFrom line column row := by
  cases hpiece : wordPiece row with
  | none =>
    have hblank := isBlank_append (wordPiece_eq_none.mp hpiece) htail
    rw [wordsFrom_none hpiece, wordsFrom_none (wordPiece_eq_none.mpr hblank)]
  | some found =>
    have hbody : row.dropWhile isSpace ≠ [] := by
      intro hempty
      rw [wordPiece, hempty] at hpiece
      cases hpiece
    obtain ⟨slip | token, rest⟩ := found
    · rw [wordsFrom_error hpiece] at hopen ⊢
      exact wordsFrom_error (wordPiece_append_error hpiece hline htail
        fun hslip => hopen (by rw [hslip]; exact List.mem_singleton_self _))
    · obtain ⟨hsuffix, hshorter⟩ := wordPiece_suffix hpiece
      rw [wordsFrom_ok hpiece] at hopen ⊢
      have hrest := @wordsFrom_append line (column + (row.length - rest.length)) rest
        (fun hmem => hline (hsuffix.subset hmem)) htail
        fun hunterminated => hopen (List.mem_cons_of_mem _ hunterminated)
      have hcount : (row ++ tail).length - (rest ++ tail).length = row.length - rest.length := by
        simp only [List.length_append]
        omega
      rw [wordsFrom_ok (wordPiece_append_ok hpiece hline htail), takeWhile_append hbody, hcount,
        hrest]
termination_by row.length

/-! ### Words without their places -/

/-- What a text gives, without its place. -/
def bare (item : Lexeme) : Lexeme := item.map (·.placed 0 0)

/-- The places of words do not show otherwise. -/
theorem bare_wordsFrom (line column line' column' : Nat) (row : Bytes) :
    (wordsFrom line column row).map bare = (wordsFrom line' column' row).map bare := by
  cases hpiece : wordPiece row with
  | none => rw [wordsFrom_none hpiece, wordsFrom_none hpiece]
  | some found =>
    obtain ⟨slip | token, rest⟩ := found
    · rw [wordsFrom_error hpiece, wordsFrom_error hpiece]
    · have hshorter := (wordPiece_suffix hpiece).2
      rw [wordsFrom_ok hpiece, wordsFrom_ok hpiece, List.map_cons, List.map_cons,
        bare_wordsFrom line _ line' (column' + (row.length - rest.length)) rest]
      rfl
termination_by row.length

end Row

end Terrace
