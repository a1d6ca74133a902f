/-
# The tokens of a text cover it

A scanner loses nothing of its text. The words it hands out stand in the text where they say, one
behind the other, and what is between them is blanks, line ends and comments. A word that is no
string and no single byte goes on up to a byte that ends words. It also begins behind such a byte,
unless a string ends right before it: what is behind a string may be in the middle of a run of
bytes that end no word.

`Cuts` follows the outline of a text from the bytes that are left of it, word by word. The offsets
of the words come out of it by induction from the left, with what is known of the last word.

Key definitions: `Bytes.offset`, `Bytes.Passes`, `Spelled`, `Cuts`, `Classified`,
`Token.StandsIn`, `CutInto`.
Key theorems: `Bytes.At.drop_offset`, `Row.wordPiece_spelled`, `cuts_outline`, `Cuts.standsIn`,
`words_cover`.
-/
import Terrace.Proofs.Token.Blocks
import Terrace.Proofs.Token.Places

namespace Terrace

/-! ### Offsets -/

namespace Bytes

/-- The number of bytes in front of this line and column: those of the lines before, with their
ends, and those of the line before the column. -/
def offset (text : Bytes) (line column : Nat) : Nat :=
  (textOf ((rowsOf text).take (line - 1))).length + (column - 1)

/-- The lines of a text make up the text, with an end also behind the last. -/
theorem textOf_rowsOf (text : Bytes) : textOf (rowsOf text) = text ++ ['\n'.toUInt8] := by
  induction text with
  | nil => rfl
  | cons b rest ih =>
    obtain ⟨row, rows, hrows⟩ := List.exists_cons_of_ne_nil (rowsOf_ne_nil rest)
    rw [hrows] at ih
    rw [rowsOf, Bytes.splitOn, ← rowsOf, hrows]
    by_cases hb : b = '\n'.toUInt8
    · rw [if_pos hb, hb]
      exact congrArg ('\n'.toUInt8 :: ·) ih
    · rw [if_neg hb]
      exact congrArg (b :: ·) ih

variable {text rest : Bytes} {line column : Nat}

/-- The end of a text, by its length. -/
theorem drop_of_suffix {start : Nat} (h : rest <:+ text)
    (hstart : start + rest.length = text.length) : text.drop start = rest := by
  calc text.drop start
      = text.drop (text.length - rest.length) := by congr 1; omega
    _ = rest := (List.suffix_iff_eq_drop.mp h).symm

theorem At.suffix (h : text.At line column rest) : rest <:+ text := by
  induction h with
  | start => exact List.suffix_refl _
  | byte _ _ ih | newline _ ih => exact (List.suffix_cons _ _).trans ih

/-- What is ahead of a place is as far from the end as the place is from the start. -/
theorem At.offset_add (h : text.At line column rest) :
    text.offset line column + rest.length = text.length := by
  obtain ⟨before, seen, ahead, after, htext, hrest, rfl, rfl⟩ := h.split
  have hall := congrArg List.length (textOf_rowsOf text)
  have hahead := congrArg List.length (textOf_rowsOf rest)
  rw [htext] at hall
  rw [hrest] at hahead
  rw [offset, htext, Nat.add_sub_cancel, Nat.add_sub_cancel, List.take_left]
  simp only [textOf, List.flatMap_append, List.flatMap_cons, List.length_append,
    List.length_singleton] at hall hahead ⊢
  omega

/-- **Behind the offset of a place is what can be read from it.** -/
theorem At.drop_offset (h : text.At line column rest) :
    text.drop (text.offset line column) = rest := drop_of_suffix h.suffix h.offset_add

end Bytes

/-- The offset of the first byte of a token. -/
def Token.start (token : Token) (source : Bytes) : Nat := source.offset token.line token.column

/-- The offset behind the last byte of a token. -/
def Token.stop (token : Token) (source : Bytes) : Nat := token.start source + token.literal.length

/-! ### What is between words -/

/-- Blanks, line ends and comments of a text can be passed over up to `rest`. -/
inductive Bytes.Passes : Bytes → Bytes → Prop
  | refl (rest : Bytes) : Passes rest rest
  | blank {b : UInt8} {text rest : Bytes} (hb : isSpace b = true) (h : Passes text rest) :
    Passes (b :: text) rest
  | newline {text rest : Bytes} (h : Passes text rest) : Passes ('\n'.toUInt8 :: text) rest
  | comment {comment text rest : Bytes} (hline : '\n'.toUInt8 ∉ comment) (hend : LineEnd text)
    (h : Passes text rest) : Passes ('#'.toUInt8 :: comment ++ text) rest

namespace Bytes.Passes

variable {text rest : Bytes}

theorem trans {behind : Bytes} (h : Passes text rest) (h' : Passes rest behind) :
    Passes text behind := by
  induction h with
  | refl => exact h'
  | blank hb _ ih => exact .blank hb (ih h')
  | newline _ ih => exact .newline (ih h')
  | comment hline hend _ ih => exact .comment hline hend (ih h')

theorem suffix (h : Passes text rest) : rest <:+ text := by
  induction h with
  | refl => exact List.suffix_refl _
  | blank _ _ ih | newline _ ih => exact ih.trans (List.suffix_cons _ _)
  | comment _ _ _ ih => exact ih.trans (List.suffix_append _ _)

theorem blanks : ∀ {blanks : Bytes}, (∀ b ∈ blanks, isSpace b = true) → ∀ rest,
    Passes (blanks ++ rest) rest
  | [], _, rest => .refl rest
  | _ :: _, h, rest => .blank (h _ List.mem_cons_self)
    (Passes.blanks (fun b hb => h b (List.mem_cons_of_mem _ hb)) rest)

/-- If something is passed over before a byte that does not end words, the last of it does: a
comment cannot be the last, as its line goes on up to the next. -/
theorem edge (h : Passes text rest) {b : UInt8} (hhead : rest.head? = some b)
    (hb : isDelimiter b = false) :
    text = rest ∨ ∃ front c, text = front ++ c :: rest ∧ isDelimiter c = true := by
  induction h with
  | refl => exact Or.inl rfl
  | @blank c _ _ hspace _ ih =>
    have hc : isDelimiter c = true := by simp [isDelimiter, hspace]
    rcases ih hhead with rfl | ⟨front, d, rfl, hd⟩
    · exact Or.inr ⟨[], c, rfl, hc⟩
    · exact Or.inr ⟨c :: front, d, rfl, hd⟩
  | newline _ ih =>
    rcases ih hhead with rfl | ⟨front, d, rfl, hd⟩
    · exact Or.inr ⟨[], '\n'.toUInt8, rfl, by decide⟩
    · exact Or.inr ⟨'\n'.toUInt8 :: front, d, rfl, hd⟩
  | @comment comment _ _ _ hend _ ih =>
    rcases ih hhead with rfl | ⟨front, d, rfl, hd⟩
    · rw [hend b hhead] at hb
      cases hb
    · exact Or.inr ⟨'#'.toUInt8 :: comment ++ front, d, by simp, hd⟩

end Bytes.Passes

/-- A line that holds nothing is passed over. -/
theorem Row.passes_of_isBlank {row tail : Bytes} (hblank : isBlank row = true)
    (hline : '\n'.toUInt8 ∉ row) (htail : LineEnd tail) : Bytes.Passes (row ++ tail) tail := by
  have hsplit := List.takeWhile_append_dropWhile (p := isSpace) (l := row)
  have hsuffix : row.dropWhile isSpace <:+ row := List.dropWhile_suffix _
  have hblanks : Bytes.Passes (row ++ tail) (row.dropWhile isSpace ++ tail) := by
    have hpasses := @Bytes.Passes.blanks (row.takeWhile isSpace)
      (fun b hb => List.mem_takeWhile_imp hb) (row.dropWhile isSpace ++ tail)
    rwa [← List.append_assoc, hsplit] at hpasses
  refine hblanks.trans ?_
  rw [isBlank] at hblank
  cases hrow : row.dropWhile isSpace with
  | nil => exact .refl tail
  | cons b comment =>
    rw [hrow] at hblank hsuffix
    have hrest : '\n'.toUInt8 ∉ b :: comment := fun hmem => hline (hsuffix.subset hmem)
    rw [List.mem_cons, not_or] at hrest
    simp only [Bool.or_eq_true, beq_iff_eq] at hblank
    rcases hblank with rfl | rfl
    · exact absurd rfl hrest.1
    · exact .comment hrest.2 htail (.refl tail)

/-! ### Words -/

/-- A word that is no string and no single byte. -/
def TokenKind.isRun : TokenKind → Bool
  | .identifier | .number | .operator => true
  | _ => false

/-- The bytes of a word of some kind, and how they end at what is behind it. -/
inductive Spelled : TokenKind → Bytes → Bytes → Prop
  | run {word behind : Bytes} (hne : word ≠ []) (hinside : ∀ b ∈ word, isDelimiter b = false)
    (hend : ∀ b ∈ behind.head?, isDelimiter b = true) : Spelled (.ofWord word) word behind
  | single {b : UInt8} {kind : TokenKind} {behind : Bytes}
    (hkind : Scanner.punctuation b = some kind) : Spelled kind [b] behind
  | string {inside behind : Bytes} : Spelled .string ('"'.toUInt8 :: inside) behind

theorem Scanner.punctuation_isDelimiter {b : UInt8} {kind : TokenKind}
    (h : punctuation b = some kind) : isDelimiter b = true ∧ kind.isRun = false := by
  unfold punctuation at h
  split_ifs at h with hleft hright hcomma hopen hclose <;> cases h <;>
    simp [isDelimiter, TokenKind.isRun, *]

namespace Spelled

variable {kind : TokenKind} {word behind tail : Bytes}

theorem ne_nil (h : Spelled kind word behind) : word ≠ [] := by
  cases h with
  | run hne => exact hne
  | single | string => exact List.cons_ne_nil _ _

theorem of_isRun (h : Spelled kind word behind) (hrun : kind.isRun = true) :
    kind = .ofWord word ∧ (∀ b ∈ word, isDelimiter b = false) ∧
      ∀ b ∈ behind.head?, isDelimiter b = true := by
  cases h with
  | run _ hinside hend => exact ⟨rfl, hinside, hend⟩
  | single hkind =>
    rw [(Scanner.punctuation_isDelimiter hkind).2] at hrun
    cases hrun
  | string => cases hrun

/-- A word that ends with its line ends there also in the text. -/
theorem append (h : Spelled kind word behind) (htail : LineEnd tail) :
    Spelled kind word (behind ++ tail) := by
  cases h with
  | run hne hinside hend =>
    refine .run hne hinside fun b hb => ?_
    cases behind with
    | nil =>
      rw [htail b hb]
      decide
    | cons c behind => exact hend b hb
  | single hkind => exact .single hkind
  | string => exact .string

/-- Behind a byte that ends no word there can be no word but a string. -/
theorem string_of_edge (h : Spelled kind word behind) {b : UInt8} (hhead : behind.head? = some b)
    (hb : isDelimiter b = false) :
    kind = .string ∨ ∃ front c, word = front ++ [c] ∧ isDelimiter c = true := by
  cases h with
  | run hne hinside hend =>
    rw [hend b hhead] at hb
    cases hb
  | @single c _ _ hkind => exact Or.inr ⟨[], c, rfl, (Scanner.punctuation_isDelimiter hkind).1⟩
  | string => exact Or.inl rfl

end Spelled

/-- **A word of a line is spelled out in it**, behind blanks. -/
theorem Row.wordPiece_spelled {row rest : Bytes} {token : Token}
    (h : wordPiece row = some (.ok token, rest)) :
    row = row.takeWhile isSpace ++ (token.literal ++ rest) ∧
      Spelled token.kind token.literal rest := by
  have hsplit := List.takeWhile_append_dropWhile (p := isSpace) (l := row)
  obtain ⟨hrow, hpiece⟩ := wordPiece_piece h
  refine ⟨by rw [← hrow, hsplit], ?_⟩
  cases hpiece with
  | string => exact .string
  | mark hkind => exact .single hkind
  | run hne _ hinside hend => exact .run hne hinside hend

/-! ### Following the outline -/

/-- What a text gives, told from the bytes that are left of it: words one behind the other, with
nothing between them that tells, up to the end of the text or an error. -/
inductive Cuts (source : Bytes) : Bytes → List Lexeme → Prop
  | done {rest : Bytes} (hgap : rest.Passes []) : Cuts source rest []
  | error {rest : Bytes} (slip : Slip) : Cuts source rest [.error slip]
  | mark {rest : Bytes} {token : Token} {items : List Lexeme} (hkind : token.kind.isWord = false)
    (h : Cuts source rest items) : Cuts source rest (.ok token :: items)
  | word {rest behind : Bytes} {token : Token} {items : List Lexeme}
    (hkind : token.kind.isWord = true) (hgap : rest.Passes (token.literal ++ behind))
    (hplace : source.At token.line token.column (token.literal ++ behind))
    (hspelled : Spelled token.kind token.literal behind) (h : Cuts source behind items) :
    Cuts source rest (.ok token :: items)

section
variable {source rest tail : Bytes} {items after : List Lexeme} {line column : Nat}

/-- What can be passed over makes no difference. -/
theorem Cuts.pass {behind : Bytes} (hgap : rest.Passes behind) (h : Cuts source behind items) :
    Cuts source rest items := by
  induction h with
  | done hend => exact .done (hgap.trans hend)
  | error slip => exact .error slip
  | mark hkind _ ih => exact .mark hkind (ih hgap)
  | word hkind hword hplace hspelled h _ => exact .word hkind (hgap.trans hword) hplace hspelled h

theorem cuts_marks : ∀ {tokens : List Token}, (∀ token ∈ tokens, token.kind.isWord = false) →
    Cuts source rest after → Cuts source rest (tokens.map .ok ++ after)
  | [], _, h => h
  | _ :: _, hkinds, h => .mark (hkinds _ List.mem_cons_self)
    (cuts_marks (fun token htoken => hkinds token (List.mem_cons_of_mem _ htoken)) h)

theorem cuts_closing (levels : List Nat) (hgap : rest.Passes []) :
    Cuts source rest (closing line column levels) := by
  rw [closing_eq, ← List.append_nil (List.map _ _)]
  refine cuts_marks (fun token htoken => ?_) (.done hgap)
  rcases List.mem_append.mp htoken with htoken | htoken
  · rw [List.eq_of_mem_replicate htoken]
    rfl
  · rw [List.mem_singleton.mp htoken]
    rfl

/-- The words of a line, and what follows behind it. -/
theorem cuts_words {column : Nat} {row : Bytes} (hplace : source.At line column (row ++ tail))
    (hline : '\n'.toUInt8 ∉ row) (htail : LineEnd tail) (hafter : Cuts source tail after) :
    Cuts source (row ++ tail) (andThen (Row.wordsFrom line column row) after) := by
  cases hpiece : Row.wordPiece row with
  | none =>
    rw [Row.wordsFrom_none hpiece]
    exact hafter.pass (Row.passes_of_isBlank (Row.wordPiece_eq_none.mp hpiece) hline htail)
  | some found =>
    obtain ⟨slip | token, rest⟩ := found
    · rw [Row.wordsFrom_error hpiece]
      exact .error slip
    · obtain ⟨hsuffix, hshorter⟩ := Row.wordPiece_suffix hpiece
      obtain ⟨hrow, hspelled⟩ := Row.wordPiece_spelled hpiece
      have hblanks : '\n'.toUInt8 ∉ row.takeWhile isSpace := fun hmem =>
        hline ((List.takeWhile_prefix _).subset hmem)
      have hliteral : '\n'.toUInt8 ∉ token.literal := fun hmem => hline (by
        rw [hrow]
        exact List.mem_append_right _ (List.mem_append_left _ hmem))
      have hcolumn : column + (row.takeWhile isSpace).length + token.literal.length =
          column + (row.length - rest.length) := by
        have hlength := congrArg List.length hrow
        simp only [List.length_append] at hlength
        omega
      have htext : row ++ tail = row.takeWhile isSpace ++ (token.literal ++ (rest ++ tail)) := by
        conv_lhs => rw [hrow]
        simp only [List.append_assoc]
      rw [htext] at hplace
      have hword := hplace.forward hblanks
      have hbehind := hword.forward hliteral
      rw [hcolumn] at hbehind
      have hgap : Bytes.Passes (row ++ tail) (token.literal ++ (rest ++ tail)) := by
        rw [htext]
        exact .blanks (fun b hb => List.mem_takeWhile_imp hb) _
      rw [Row.wordsFrom_ok hpiece]
      exact .word (@Row.wordPiece_isWord _ _ token hpiece) hgap hword (hspelled.append htail)
        (cuts_words hbehind (fun hmem => hline (hsuffix.subset hmem)) htail hafter)
termination_by row.length

theorem marks_isWord {levels levels' : List Nat} :
    ∀ token ∈ marks line column levels levels', token.kind.isWord = false := by
  intro token htoken
  rcases (marks_kind htoken).2 with hkind | hkind
  · rw [hkind]
    rfl
  · rw [hkind]
    rfl

/-- A line that holds something. -/
theorem cuts_row {levels : List Nat} {row : Bytes} (hplace : source.At line 1 (row ++ tail))
    (hline : '\n'.toUInt8 ∉ row) (htail : LineEnd tail) (hafter : Cuts source tail after) :
    Cuts source (row ++ tail)
      (if (enterLevel (Row.width row) levels).headD 0 = Row.width row then
        (marks line (1 + (row.takeWhile isSpace).length) levels
          (enterLevel (Row.width row) levels)).map .ok ++
          andThen (Row.wordsFrom line 1 row) after
      else [.error .misplaced]) := by
  split_ifs
  · exact cuts_marks marks_isWord (cuts_words hplace hline htail hafter)
  · exact .error _

/-- **The outline of a text cuts it into words**, line by line. -/
theorem cuts_outline {rows : List Bytes} (levels : List Nat) (hrows : rowsOf rest = rows)
    (hplace : source.At line 1 rest) : Cuts source rest (outline line levels rows) := by
  induction rows generalizing rest line levels with
  | nil => exact absurd hrows (rowsOf_ne_nil _)
  | cons row rows ih =>
    have hline : '\n'.toUInt8 ∉ row := Bytes.mem_splitOn (hrows ▸ List.mem_cons_self)
    rcases rowsOf_cases hrows with ⟨rfl, hrest⟩ | ⟨rest', rfl, hothers⟩
    · obtain rfl : rest = row ++ [] := by rw [hrest, List.append_nil]
      have hend : LineEnd [] := by simp [LineEnd]
      rw [outline]
      dsimp only
      by_cases hblank : Row.isBlank row = true
      · rw [if_pos hblank]
        exact cuts_closing levels (Row.passes_of_isBlank hblank hline hend)
      · rw [if_neg hblank]
        exact cuts_row hplace hline hend (.mark rfl (cuts_closing _ (.refl [])))
    · obtain ⟨next, others, rfl⟩ := List.exists_cons_of_ne_nil (hothers ▸ rowsOf_ne_nil rest')
      have hend : LineEnd ('\n'.toUInt8 :: rest') := by simp [LineEnd]
      have hbehind : ∀ levels', Cuts source ('\n'.toUInt8 :: rest')
          (outline (line + 1) levels' (next :: others)) := fun levels' =>
        (ih levels' hothers (hplace.forward hline).newline).pass (.newline (.refl rest'))
      rw [outline]
      dsimp only
      by_cases hblank : Row.isBlank row = true
      · rw [if_pos hblank]
        exact .mark rfl ((hbehind levels).pass (Row.passes_of_isBlank hblank hline hend))
      · rw [if_neg hblank]
        exact cuts_row hplace hline hend (.mark rfl (hbehind _))

end

/-! ### The kinds of words -/

/-- Decimal digits, or `0x` and hexadecimal digits. -/
def IsMagnitude (digits : Bytes) : Prop :=
  (digits ≠ [] ∧ ∀ b ∈ digits, isDigit b = true) ∨
    ∃ x hex, digits = '0'.toUInt8 :: x :: hex ∧ (x = 'x'.toUInt8 ∨ x = 'X'.toUInt8) ∧
      hex ≠ [] ∧ ∀ b ∈ hex, isHexDigit b = true

/-- The words `-?[0-9]+` and `-?0[xX][0-9a-fA-F]+`. -/
def IsNumber (word : Bytes) : Prop :=
  ∃ digits, (word = digits ∨ word = '-'.toUInt8 :: digits) ∧ IsMagnitude digits

/-- The words `[A-Za-z0-9_]+`. -/
def IsName (word : Bytes) : Prop :=
  word ≠ [] ∧ ∀ b ∈ word, b = '_'.toUInt8 ∨ isDigit b = true ∨ isLetter b = true

/-- The kind of a word that is no string and no single byte, told by its bytes. -/
structure Classified (kind : TokenKind) (word : Bytes) : Prop where
  number : kind = .number ↔ IsNumber word
  identifier : kind = .identifier ↔ ¬ IsNumber word ∧ IsName word
  operator : kind = .operator ↔ ¬ IsNumber word ∧ ¬ IsName word

theorem not_isMagnitude_minus (digits : Bytes) : ¬ IsMagnitude ('-'.toUInt8 :: digits) := by
  rintro (⟨_, hdigits⟩ | ⟨x, hex, heq, _⟩)
  · have hminus := hdigits _ List.mem_cons_self
    revert hminus
    decide
  · have hminus := (List.cons.inj heq).1
    revert hminus
    decide

/-- Three or more bytes are a magnitude by the base that the first two tell. -/
theorem isMagnitude_cons {zero x first : UInt8} {rest : Bytes} :
    IsMagnitude (zero :: x :: first :: rest) ↔
      if zero = '0'.toUInt8 ∧ (x = 'x'.toUInt8 ∨ x = 'X'.toUInt8) then
        ∀ b ∈ first :: rest, isHexDigit b = true
      else ∀ b ∈ zero :: x :: first :: rest, isDigit b = true := by
  constructor
  · rintro (⟨_, hdigits⟩ | ⟨x', hex, heq, hx, _, hhex⟩)
    · rw [if_neg]
      · exact hdigits
      · rintro ⟨_, rfl | rfl⟩
        · have hx := hdigits 'x'.toUInt8 (by simp)
          revert hx
          decide
        · have hx := hdigits 'X'.toUInt8 (by simp)
          revert hx
          decide
    · cases heq
      rw [if_pos ⟨rfl, hx⟩]
      exact hhex
  · intro h
    split_ifs at h with hbase
    · obtain ⟨rfl, hx⟩ := hbase
      exact Or.inr ⟨x, first :: rest, rfl, hx, List.cons_ne_nil _ _, h⟩
    · exact Or.inl ⟨List.cons_ne_nil _ _, h⟩

/-- Fewer than three bytes are a magnitude if they are digits. -/
theorem isMagnitude_short {digits : Bytes} (hlength : digits.length < 3) :
    IsMagnitude digits ↔ digits ≠ [] ∧ ∀ b ∈ digits, isDigit b = true := by
  refine or_iff_left ?_
  rintro ⟨x, hex, rfl, _, hne, _⟩
  have hpositive := List.length_pos_of_ne_nil hne
  simp only [List.length_cons] at hlength
  omega

theorem isNumberWord_iff {word : Bytes} : isNumberWord word = true ↔ IsNumber word := by
  have hdigits : isNumberWord word = true ↔
      IsMagnitude (if word.head? = some '-'.toUInt8 then word.drop 1 else word) := by
    unfold isNumberWord
    dsimp only
    generalize (if word.head? = some '-'.toUInt8 then word.drop 1 else word) = digits
    match digits with
    | [] => simp [isMagnitude_short]
    | [b] => simp [isMagnitude_short]
    | [b, c] => simp [isMagnitude_short]
    | zero :: x :: first :: rest =>
      rw [isMagnitude_cons]
      split_ifs <;> simp_all
  rw [hdigits, IsNumber]
  cases word with
  | nil =>
    constructor
    · exact fun h => ⟨[], Or.inl rfl, h⟩
    · rintro ⟨digits, rfl | hminus, h⟩
      · exact h
      · cases hminus
  | cons b rest =>
    by_cases hb : b = '-'.toUInt8
    · subst hb
      rw [if_pos (by rfl), List.drop_succ_cons, List.drop_zero]
      constructor
      · exact fun h => ⟨rest, Or.inr rfl, h⟩
      · rintro ⟨digits, rfl | hminus, h⟩
        · exact absurd h (not_isMagnitude_minus rest)
        · cases hminus
          exact h
    · rw [if_neg (by simpa using hb)]
      constructor
      · exact fun h => ⟨b :: rest, Or.inl rfl, h⟩
      · rintro ⟨digits, rfl | hminus, h⟩
        · exact h
        · exact absurd (List.cons.inj hminus).1 hb

theorem isIdentifierWord_iff {word : Bytes} : isIdentifierWord word = true ↔ IsName word := by
  simp [isIdentifierWord, IsName, or_assoc]

/-- **The kind of a word goes by its bytes.** -/
theorem classified_ofWord (word : Bytes) : Classified (.ofWord word) word := by
  rw [TokenKind.ofWord]
  by_cases hnumber : IsNumber word
  · rw [if_pos (isNumberWord_iff.mpr hnumber)]
    exact ⟨by simp [hnumber], by simp [hnumber], by simp [hnumber]⟩
  rw [if_neg (mt isNumberWord_iff.mp hnumber)]
  by_cases hname : IsName word
  · rw [if_pos (isIdentifierWord_iff.mpr hname)]
    exact ⟨by simp [hnumber], by simp [hnumber, hname], by simp [hname]⟩
  · rw [if_neg (mt isIdentifierWord_iff.mp hname)]
    exact ⟨by simp [hnumber], by simp [hname], by simp [hnumber, hname]⟩

/-! ### Words in their text -/

namespace Bytes

/-- The bytes from `start` to `stop` end no word, and go on up to one that does. -/
structure Run (text : Bytes) (start stop : Nat) : Prop where
  inside : ∀ b ∈ (text.drop start).take (stop - start), isDelimiter b = false
  closed : ∀ b ∈ (text.drop stop).head?, isDelimiter b = true

/-- The byte before an offset, if there is one, ends words. -/
def Opens (text : Bytes) (start : Nat) : Prop :=
  ∀ b ∈ (text.take start).getLast?, isDelimiter b = true

/-- A run that cannot be made longer on either side. -/
structure LongestRun (text : Bytes) (start stop : Nat) : Prop extends Run text start stop where
  opened : text.Opens start

theorem opens_of_suffix {text rest : Bytes} {b : UInt8} {start : Nat} (h : b :: rest <:+ text)
    (hb : isDelimiter b = true) (hstart : start + rest.length = text.length) :
    text.Opens start := by
  obtain ⟨front, htext⟩ := h
  rw [List.append_cons] at htext
  subst htext
  have hlength : start = (front ++ [b]).length := by
    rw [List.length_append] at hstart
    omega
  intro c hc
  rw [hlength, List.take_left, List.getLast?_concat] at hc
  cases hc
  exact hb

end Bytes

/-- The offset up to which words take up their text. -/
def reached (source : Bytes) (words : List Token) : Nat :=
  (words.getLast?.map (·.stop source)).getD 0

/-- A word stands in its text behind the words before it. -/
structure Token.StandsIn (word : Token) (source : Bytes) (before : List Token) : Prop where
  place : source.HasPlace word.line word.column
  /-- The bytes at the place of the word are its own. -/
  literal : word.literal ≠ [] ∧
    (source.drop (word.start source)).take word.literal.length = word.literal
  ordered : ∀ other ∈ before, other.stop source ≤ word.start source
  /-- Only blanks, line ends and comments are between the word and the one before. -/
  gap : Bytes.Passes (source.drop (reached source before)) (source.drop (word.start source))
  /-- The word goes on up to a byte that ends words, and begins behind one or behind a string. -/
  run : word.kind.isRun = true → source.Run (word.start source) (word.stop source) ∧
    (source.Opens (word.start source) ∨
      ∃ string, before.getLast? = some string ∧ string.kind = .string ∧
        string.stop source = word.start source)
  kind : word.kind.isRun = true → Classified word.kind word.literal

/-- A text is cut into words: each of them stands in it behind the ones before. -/
def CutInto (source : Bytes) (words : List Token) : Prop :=
  ∀ before word after, words = before ++ word :: after → word.StandsIn source before

/-- The words that are cut off a text, of which `rest` is left. -/
structure CutOff (source : Bytes) (before : List Token) (rest : Bytes) : Prop where
  left : rest <:+ source
  reach : reached source before + rest.length = source.length
  bound : ∀ word ∈ before, word.stop source ≤ reached source before
  last : ∀ word ∈ before.getLast?, word.literal ++ rest <:+ source ∧
    Spelled word.kind word.literal rest

namespace CutOff

variable {source rest behind : Bytes} {before : List Token} {token : Token}

theorem nil (source : Bytes) : CutOff source [] source :=
  ⟨List.suffix_refl _, Nat.zero_add _, nofun, nofun⟩

theorem drop (h : CutOff source before rest) : source.drop (reached source before) = rest :=
  Bytes.drop_of_suffix h.left h.reach

theorem reached_concat : reached source (before ++ [token]) = token.stop source := by
  rw [reached, List.getLast?_concat]
  rfl

/-- The next word begins behind the ones before it. -/
theorem reached_le (h : CutOff source before rest)
    (hgap : rest.Passes (token.literal ++ behind))
    (hplace : source.At token.line token.column (token.literal ++ behind)) :
    reached source before ≤ token.start source := by
  have hreach := h.reach
  have hoffset := hplace.offset_add
  have hle := hgap.suffix.length_le
  rw [Token.start]
  omega

/-- The next word is cut off. -/
theorem concat (h : CutOff source before rest) (hgap : rest.Passes (token.literal ++ behind))
    (hplace : source.At token.line token.column (token.literal ++ behind))
    (hspelled : Spelled token.kind token.literal behind) :
    CutOff source (before ++ [token]) behind where
  left := (List.suffix_append _ _).trans hplace.suffix
  reach := by
    have hoffset := hplace.offset_add
    rw [List.length_append] at hoffset
    rw [reached_concat, Token.stop, Token.start]
    omega
  bound := by
    have hle := h.reached_le hgap hplace
    intro word hword
    rw [reached_concat]
    rcases List.mem_append.mp hword with hword | hword
    · calc word.stop source
          ≤ reached source before := h.bound word hword
        _ ≤ token.start source := hle
        _ ≤ token.stop source := Nat.le_add_right _ _
    · rw [List.mem_singleton.mp hword]
  last := by
    intro word hword
    rw [List.getLast?_concat] at hword
    cases hword
    exact ⟨hplace.suffix, hspelled⟩

/-- A byte that ends no word is behind one that does, or a string ends right before it. -/
theorem opens (h : CutOff source before rest) {start : Nat} {word : Bytes} {b : UInt8}
    (hgap : rest.Passes word) (hhead : word.head? = some b) (hb : isDelimiter b = false)
    (hstart : start + word.length = source.length) :
    source.Opens start ∨ ∃ string, before.getLast? = some string ∧ string.kind = .string ∧
      string.stop source = start := by
  rcases hgap.edge hhead hb with rfl | ⟨front, c, rfl, hc⟩
  · have hreach : reached source before = start := by
      have hlength := h.reach
      omega
    cases hlast : before.getLast? with
    | none =>
      rw [reached, hlast] at hreach
      obtain rfl : 0 = start := hreach
      exact Or.inl nofun
    | some last =>
      obtain ⟨hsuffix, hspelled⟩ := h.last last hlast
      rcases hspelled.string_of_edge hhead hb with hkind | ⟨front, c, hliteral, hc⟩
      · rw [reached, hlast] at hreach
        exact Or.inr ⟨last, rfl, hkind, hreach⟩
      · rw [hliteral, List.append_assoc] at hsuffix
        exact Or.inl (Bytes.opens_of_suffix ((List.suffix_append _ _).trans hsuffix) hc hstart)
  · exact Or.inl (Bytes.opens_of_suffix ((List.suffix_append _ _).trans h.left) hc hstart)

/-- **The next word stands in the text behind the ones before it.** -/
theorem standsIn (h : CutOff source before rest) (hgap : rest.Passes (token.literal ++ behind))
    (hplace : source.At token.line token.column (token.literal ++ behind))
    (hspelled : Spelled token.kind token.literal behind) : token.StandsIn source before where
  place := hplace.place
  literal := by
    refine ⟨hspelled.ne_nil, ?_⟩
    rw [Token.start, hplace.drop_offset, List.take_left]
  ordered word hword := Nat.le_trans (h.bound word hword) (h.reached_le hgap hplace)
  gap := by
    rw [h.drop, Token.start, hplace.drop_offset]
    exact hgap
  run := by
    intro hrun
    have hstart : source.drop (token.start source) = token.literal ++ behind := hplace.drop_offset
    have hstop : source.drop (token.stop source) = behind := by
      rw [Token.stop, ← List.drop_drop, hstart, List.drop_left]
    have hlength : token.stop source - token.start source = token.literal.length :=
      Nat.add_sub_cancel_left _ _
    obtain ⟨_, hinside, hend⟩ := hspelled.of_isRun hrun
    obtain ⟨b, word, hword⟩ := List.exists_cons_of_ne_nil hspelled.ne_nil
    refine ⟨⟨?_, ?_⟩, ?_⟩
    · rw [hstart, hlength, List.take_left]
      exact hinside
    · rw [hstop]
      exact hend
    · have hhead : (token.literal ++ behind).head? = some b := by rw [hword]; rfl
      have hb : b ∈ token.literal := by rw [hword]; exact List.mem_cons_self
      exact h.opens hgap hhead (hinside b hb) hplace.offset_add
  kind hrun := by
    rw [(hspelled.of_isRun hrun).1]
    exact classified_ofWord _

end CutOff

/-! ### The whole text -/

/-- The words among some tokens. -/
def wordsOf (tokens : List Token) : List Token := tokens.filter (·.kind.isWord)

theorem wordsOf_mark {token : Token} (h : token.kind.isWord = false) (tokens : List Token) :
    wordsOf (token :: tokens) = wordsOf tokens := List.filter_cons_of_neg (by simp [h])

theorem wordsOf_word {token : Token} (h : token.kind.isWord = true) (tokens : List Token) :
    wordsOf (token :: tokens) = token :: wordsOf tokens := List.filter_cons_of_pos h

theorem tokensOf_ok (token : Token) (items : List Lexeme) :
    tokensOf (.ok token :: items) = token :: tokensOf items := rfl

section
variable {source rest : Bytes} {items : List Lexeme} {before : List Token}

/-- **The words that a text gives stand in it**, by induction from the left: each is cut off behind
the ones before it. -/
theorem Cuts.standsIn (h : Cuts source rest items) (hbefore : CutOff source before rest)
    {others : List Token} {word : Token} {after : List Token}
    (hwords : wordsOf (tokensOf items) = others ++ word :: after) :
    word.StandsIn source (before ++ others) := by
  induction h generalizing before others with
  | done | error =>
    have hnone : [] = others ++ word :: after := hwords
    simp at hnone
  | mark hkind _ ih =>
    rw [tokensOf_ok, wordsOf_mark hkind] at hwords
    exact ih hbefore hwords
  | @word _ _ token _ hkind hgap hplace hspelled _ ih =>
    rw [tokensOf_ok, wordsOf_word hkind] at hwords
    cases others with
    | nil =>
      cases hwords
      rw [List.append_nil]
      exact hbefore.standsIn hgap hplace hspelled
    | cons first others =>
      obtain ⟨rfl, hothers⟩ := List.cons.inj hwords
      rw [List.append_cons]
      exact ih (hbefore.concat hgap hplace hspelled) hothers

/-- Behind the last word nothing is left if there is no error. -/
theorem Cuts.passes_end (h : Cuts source rest items) (hbefore : CutOff source before rest)
    (hok : ∀ slip, .error slip ∉ items) :
    Bytes.Passes (source.drop (reached source (before ++ wordsOf (tokensOf items)))) [] := by
  induction h generalizing before with
  | done hgap =>
    have hnone : wordsOf (tokensOf []) = [] := rfl
    rw [hnone, List.append_nil, hbefore.drop]
    exact hgap
  | error slip => exact absurd (List.mem_singleton_self _) (hok slip)
  | mark hkind _ ih =>
    rw [tokensOf_ok, wordsOf_mark hkind]
    exact ih hbefore fun slip hslip => hok slip (List.mem_cons_of_mem _ hslip)
  | word hkind hgap hplace hspelled _ ih =>
    rw [tokensOf_ok, wordsOf_word hkind, List.append_cons]
    exact ih (hbefore.concat hgap hplace hspelled)
      fun slip hslip => hok slip (List.mem_cons_of_mem _ hslip)

end

/-- A scanner gives tokens up to the end of the text, or up to an error. -/
theorem Scanner.Gives.tokens {s : Scanner} {items : List Lexeme} (h : s.Gives items) :
    ∃ tokens : List Token,
      (items = tokens.map .ok ∧ ∃ before last, tokens = before ++ [last] ∧ last.kind = .finish ∧
        ∀ token ∈ before, token.kind ≠ .finish) ∨
      ∃ slip, items = tokens.map .ok ++ [.error slip] ∧ ∀ token ∈ tokens, token.kind ≠ .finish := by
  induction h with
  | @finish _ _ token _ hfinish _ _ =>
    exact ⟨[token], Or.inl ⟨rfl, [], token, rfl, hfinish, nofun⟩⟩
  | error => exact ⟨[], Or.inr ⟨_, rfl, nofun⟩⟩
  | @token _ _ token _ _ hfinish _ ih =>
    obtain ⟨tokens, ⟨rfl, before, last, rfl, hlast, hbefore⟩ | ⟨slip, rfl, hgoing⟩⟩ := ih
    · exact ⟨token :: (before ++ [last]), Or.inl ⟨rfl, token :: before, last, rfl, hlast,
        List.forall_mem_cons.mpr ⟨hfinish, hbefore⟩⟩⟩
    · exact ⟨token :: tokens, Or.inr ⟨slip, rfl, List.forall_mem_cons.mpr ⟨hfinish, hgoing⟩⟩⟩

theorem tokensOf_map (tokens : List Token) : tokensOf (tokens.map .ok) = tokens := by
  induction tokens with
  | nil => rfl
  | cons token tokens ih => rw [List.map_cons, tokensOf_ok, ih]

theorem tokensOf_stopped (tokens : List Token) (slip : Slip) :
    tokensOf (tokens.map .ok ++ [.error slip]) = tokens := by
  induction tokens with
  | nil => rfl
  | cons token tokens ih => rw [List.map_cons, List.cons_append, tokensOf_ok, ih]

/-- **The tokens of a text are an ordered, lossless cover of it.** The words among the tokens that a
scanner hands out before the first error stand in the text at their places, one behind the other,
with only blanks, line ends and comments between them, and behind the last of them if there is no
error. A word that is no string and no single byte goes on up to a byte that ends words, begins
behind such a byte or right behind a string, and has the kind that its bytes tell. -/
theorem words_cover (source : Bytes) : ∃ tokens, CutInto source (wordsOf tokens) ∧
    ((ReadThrough source tokens ∧
        Bytes.Passes (source.drop (reached source (wordsOf tokens))) []) ∨
      ∃ e, Stops source tokens e) := by
  have hgives := Scanner.gives_ofSource source
  have hcuts : Cuts source source (outline 1 [] (rowsOf source)) := cuts_outline [] rfl .start
  have hcut : CutInto source (wordsOf (tokensOf (outline 1 [] (rowsOf source)))) :=
    fun _ _ _ hwords => hcuts.standsIn (.nil source) hwords
  obtain ⟨tokens, ⟨hitems, hfinish⟩ | ⟨slip, hitems, hgoing⟩⟩ := hgives.tokens
  · have hend := hcuts.passes_end (.nil source) (by simp [hitems])
    rw [hitems] at hgives
    rw [hitems, tokensOf_map] at hcut hend
    obtain ⟨hanswers, hforever⟩ := Scanner.calls_ok hgives
    exact ⟨tokens, hcut, Or.inl ⟨⟨hanswers, hfinish, hforever⟩, hend⟩⟩
  · rw [hitems] at hgives
    rw [hitems, tokensOf_stopped] at hcut
    obtain ⟨hanswers, e, herror, _⟩ := Scanner.calls_error hgives hgoing
    exact ⟨tokens, hcut, Or.inr ⟨e, hanswers, hgoing, herror⟩⟩

/-- Behind a string a word may begin in the middle of a run of bytes that end no word. -/
theorem word_behind_string : ∃ word, (Scanner.ofSource "\"a\"b").call 1 = .ok word ∧
    word.kind.isRun = true ∧
      ¬ Bytes.LongestRun "\"a\"b" (word.start "\"a\"b") (word.stop "\"a\"b") := by
  refine ⟨{ kind := .identifier, literal := "b", line := 1, column := 4 }, rfl, rfl, fun h => ?_⟩
  have hquote := h.opened '"'.toUInt8 (by decide)
  revert hquote
  decide

end Terrace
