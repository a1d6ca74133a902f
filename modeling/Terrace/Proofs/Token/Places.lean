/-
# Places in a text

A scanner counts lines and columns while it reads. Its count is right: the tokens it hands out
and the errors it stops with are at places of the text, each in one of its lines or at the end of
one, also those in the middle of an escape. So are the tokens that a buffer keeps and the error it
remembers.

Key definitions: `Bytes.At`, `Bytes.HasPlace`, `Scanner.Reads`, `TokenBuffer.Reads`.
Key theorems: `Bytes.HasPlace.row`, `stringBody_placed`, `Scanner.Reads.scan`,
`TokenBuffer.Reads.peek`, `TokenBuffer.Reads.next`.
-/
import Terrace.Proofs.Token.Outline

namespace Terrace

/-! ### Places -/

namespace Bytes

/-- Reading a text from its start up to this line and column leaves `rest`. -/
inductive At (text : Bytes) : Nat → Nat → Bytes → Prop
  | start : At text 1 1 text
  | byte {line column : Nat} {b : UInt8} {rest : Bytes} (h : At text line column (b :: rest))
    (hb : b ≠ '\n'.toUInt8) : At text line (column + 1) rest
  | newline {line column : Nat} {rest : Bytes} (h : At text line column ('\n'.toUInt8 :: rest)) :
    At text (line + 1) 1 rest

/-- The text has this line, and this column in it or at its end. -/
def HasPlace (text : Bytes) (line column : Nat) : Prop := ∃ rest, text.At line column rest

variable {text : Bytes} {line column : Nat}

theorem At.place {rest : Bytes} (h : text.At line column rest) : text.HasPlace line column :=
  ⟨rest, h⟩

/-- Moving on inside a line. -/
theorem At.forward : ∀ {skipped rest : Bytes} {column : Nat},
    text.At line column (skipped ++ rest) → '\n'.toUInt8 ∉ skipped →
    text.At line (column + skipped.length) rest
  | [], _, _, h, _ => h
  | b :: skipped, rest, column, h, hskipped => by
    rw [List.mem_cons, not_or] at hskipped
    rw [List.cons_append] at h
    have hnext := At.forward (h.byte (Ne.symm hskipped.1)) hskipped.2
    rwa [Nat.add_right_comm] at hnext

/-- The part of the line that is read, and what is ahead in it. -/
theorem At.split {rest : Bytes} (h : text.At line column rest) :
    ∃ before seen ahead after, rowsOf text = before ++ (seen ++ ahead) :: after ∧
      rowsOf rest = ahead :: after ∧ line = before.length + 1 ∧ column = seen.length + 1 := by
  induction h with
  | start =>
    obtain ⟨row, rows, hrows⟩ := List.exists_cons_of_ne_nil (rowsOf_ne_nil text)
    exact ⟨[], [], row, rows, hrows, hrows, rfl, rfl⟩
  | @byte line column b rest h hb ih =>
    obtain ⟨before, seen, ahead, after, htext, hrest, rfl, rfl⟩ := ih
    obtain ⟨row, rows, hrows⟩ := List.exists_cons_of_ne_nil (rowsOf_ne_nil rest)
    rw [rowsOf, Bytes.splitOn, if_neg hb, ← rowsOf, hrows] at hrest
    obtain ⟨rfl, rfl⟩ := List.cons.inj hrest
    refine ⟨before, seen ++ [b], row, rows, ?_, hrows, rfl, ?_⟩
    · rw [htext, List.append_assoc, List.singleton_append]
    · rw [List.length_append, List.length_singleton]
  | @newline line column rest h ih =>
    obtain ⟨before, seen, ahead, after, htext, hrest, rfl, rfl⟩ := ih
    obtain ⟨row, rows, hrows⟩ := List.exists_cons_of_ne_nil (rowsOf_ne_nil rest)
    rw [rowsOf, Bytes.splitOn, if_pos rfl, ← rowsOf, hrows] at hrest
    obtain ⟨rfl, rfl⟩ := List.cons.inj hrest
    refine ⟨before ++ [seen], [], row, rows, ?_, hrows, ?_, rfl⟩
    · rw [htext, List.append_nil, List.append_assoc, List.nil_append, List.singleton_append]
    · rw [List.length_append, List.length_singleton]

/-- A text has one line more than newlines. -/
theorem length_rowsOf : ∀ text : Bytes,
    (rowsOf text).length = text.count '\n'.toUInt8 + 1
  | [] => rfl
  | b :: rest => by
    have ih := length_rowsOf rest
    obtain ⟨row, rows, hrows⟩ := List.exists_cons_of_ne_nil (rowsOf_ne_nil rest)
    rw [hrows] at ih
    rw [rowsOf, Bytes.splitOn, ← rowsOf, hrows]
    by_cases hb : b = '\n'.toUInt8
    · rw [if_pos hb, List.length_cons, ih, hb, List.count_cons_self]
    · rw [if_neg hb, List.count_cons_of_ne hb, ← ih]
      rfl

/-- **A place is in a line of the text, or at the end of one.** -/
theorem HasPlace.row (h : text.HasPlace line column) :
    1 ≤ line ∧ line ≤ text.count '\n'.toUInt8 + 1 ∧ 1 ≤ column ∧
      ∃ row, (rowsOf text)[line - 1]? = some row ∧ column ≤ row.length + 1 := by
  obtain ⟨rest, h⟩ := h
  obtain ⟨before, seen, ahead, after, htext, -, rfl, rfl⟩ := h.split
  have hlength := length_rowsOf text
  rw [htext, List.length_append, List.length_cons] at hlength
  refine ⟨by omega, by omega, by omega, seen ++ ahead, ?_, ?_⟩
  · rw [htext, Nat.add_sub_cancel, List.getElem?_append_right (Nat.le_refl _), Nat.sub_self]
    rfl
  · rw [List.length_append]
    omega

end Bytes

/-- A reader of a text gives what it should, or stops at a place of the text. -/
def Placed {α : Type} (text : Bytes) (P : α → Prop) : Except LexicalError α → Prop
  | .ok a => P a
  | .error e => text.HasPlace e.line e.column

/-! ### Strings -/

section
variable {text : Bytes} {line start column : Nat}

/-- What is left of a string literal is further on in its line. -/
def Onwards (text : Bytes) (line column : Nat) (source : Bytes) (found : Bytes × Bytes) : Prop :=
  found.2.length ≤ source.length ∧
    text.At line (column + (source.length - found.2.length)) found.2

theorem placed_prepend {source source' : Bytes} {count : Nat} (v : UInt8)
    {x : Except LexicalError (Bytes × Bytes)} (hlength : source.length = source'.length + count)
    (h : Placed text (Onwards text line (column + count) source') x) :
    Placed text (Onwards text line column source) (do
      let (value, rest) ← x
      return (v :: value, rest)) := by
  cases x with
  | error e => exact h
  | ok found =>
    obtain ⟨hle, hat⟩ := h
    have hcolumn : column + count + (source'.length - found.2.length) =
        column + (source.length - found.2.length) := by omega
    rw [hcolumn] at hat
    exact ⟨by simp only []; omega, hat⟩

theorem isHexDigit_ne_newline {b : UInt8} (h : isHexDigit b = true) : b ≠ '\n'.toUInt8 := by
  rintro rfl
  revert h
  decide

/-- A newline is not the rest of a character. -/
theorem decode_ne_newline {lead b : UInt8} {rest : Bytes} {found : Nat × Nat}
    (hlead : ¬ lead < 0x80) (h : Text.Utf8.decode lead (b :: rest) = some found) :
    b ≠ '\n'.toUInt8 := by
  rintro rfl
  have hline : Trailing ('\n'.toUInt8 :: rest) := by simp [Trailing]
  have hnone := Text.Utf8.decode_append_none (Text.Utf8.decode_nil hlead) hline
  rw [List.nil_append, h] at hnone
  cases hnone

/-- **Strings are read in their line, and what is wrong in one is in the text.** -/
theorem stringBody_placed (hstart : text.HasPlace line start) {source : Bytes}
    (h : text.At line column source) :
    Placed text (Onwards text line column source) (stringBody line start column source) := by
  fun_induction stringBody line start column source with
  | case1 | case2 => exact hstart
  | case3 column rest hquote =>
    have hone : ('"'.toUInt8 :: rest).length - rest.length = 1 := by simp
    refine ⟨by simp, ?_⟩
    rw [hone]
    exact h.byte hquote
  | case4 | case5 =>
    exact (h.byte (by decide)).place
  | case6 column high low rest hhex _ _ hx ih =>
    rw [Bool.and_eq_true] at hhex
    have hescape := (h.byte (by decide)).byte hx
    have hhigh := hescape.byte (isHexDigit_ne_newline hhex.1)
    exact placed_prepend _ (by simp) (ih (hhigh.byte (isHexDigit_ne_newline hhex.2)))
  | case7 column high low rest _ _ _ hx | case8 column rest _ _ _ hx =>
    exact ((h.byte (by decide)).byte hx).place
  | case9 column letter rest hletter _ v _ _ _ ih =>
    exact placed_prepend v (by simp) (ih ((h.byte (by decide)).byte hletter))
  | case10 column letter rest hletter =>
    exact ((h.byte (by decide)).byte hletter).place
  | case11 column b rest hb _ _ _ ih =>
    exact placed_prepend b (by simp) (ih (h.byte hb))
  | case12 column b hb _ _ hwide code c rest hcode hdecode ih =>
    simp only [hdecode, if_pos hcode]
    have hnext := (h.byte hb).byte (decode_ne_newline hwide hdecode)
    exact placed_prepend _ (by simp) (ih hnext)
  | case13 column b hb _ _ hwide code c rest hcode hdecode =>
    simp only [hdecode, if_neg hcode]
    exact h.place
  | case14 column b rest _ _ _ _ code taken hdecode hone =>
    rw [hdecode]
    split
    next hfound =>
      cases hfound
      exact (hone _ _ rfl rfl).elim
    · exact h.place
    · exact h.place
  | case15 column b rest _ _ _ _ hdecode =>
    rw [hdecode]
    exact h.place

end

/-! ### Scanners -/

/-- A token stands at a place of the text. -/
def Token.In (token : Token) (text : Bytes) : Prop := text.HasPlace token.line token.column

namespace Scanner

/-- The scanner reads this text, and counts its lines and columns. -/
structure Reads (s : Scanner) (text : Bytes) : Prop where
  here : text.At s.line s.column s.rest
  pending : ∀ token ∈ s.pending, token.In text

namespace Reads

variable {s s' : Scanner} {text : Bytes}

theorem ofSource (text : Bytes) : (Scanner.ofSource text).Reads text :=
  ⟨.start, by simp [Scanner.ofSource]⟩

/-- A token that is queued stands where the scanner is. -/
theorem queue (h : s.Reads text) (token : Token) (hline : token.line = s.line)
    (hcolumn : token.column = s.column) :
    Reads { s with pending := s.pending ++ [token] } text := by
  refine ⟨h.here, List.forall_mem_append.mpr ⟨h.pending, ?_⟩⟩
  rw [List.forall_mem_singleton, Token.In, hline, hcolumn]
  exact h.here.place

theorem emit (h : s.Reads text) (kind : TokenKind) (literal : Bytes) :
    (s.emit kind literal).Reads text := h.queue _ rfl rfl

/-- The scanner moves on inside its line. -/
theorem advance (h : s.Reads text) {skipped rest : Bytes} (hrest : s.rest = skipped ++ rest)
    (hskipped : '\n'.toUInt8 ∉ skipped) : (s.advance skipped.length).Reads text := by
  have hhere := h.here
  rw [hrest] at hhere
  refine ⟨?_, h.pending⟩
  show text.At s.line (s.column + skipped.length) (s.rest.drop skipped.length)
  rw [hrest, List.drop_left]
  exact hhere.forward hskipped

/-- The scanner moves on over bytes that are no newlines. -/
theorem advance_takeWhile (h : s.Reads text) {p : UInt8 → Bool} (hp : p '\n'.toUInt8 = false) :
    (s.advance (s.rest.takeWhile p).length).Reads text := by
  refine h.advance List.takeWhile_append_dropWhile.symm fun hmem => ?_
  rw [List.mem_takeWhile_imp hmem] at hp
  cases hp

theorem nextLine (h : s.Reads text) {rest : Bytes} (hrest : s.rest = '\n'.toUInt8 :: rest) :
    s.nextLine.Reads text := by
  have hhere := h.here
  rw [hrest] at hhere
  refine ⟨?_, h.pending⟩
  show text.At (s.line + 1) 1 (s.rest.drop 1)
  rw [hrest]
  exact hhere.newline

theorem closeDeeper (width : Nat) : ∀ (levels : List Nat) {s : Scanner}, s.Reads text →
    (closeDeeper width s levels).Reads text
  | [], s, h => ⟨h.here, h.pending⟩
  | level :: outer, s, h => by
    rw [Scanner.closeDeeper]
    split_ifs
    · exact closeDeeper width outer (h.emit .dedent [])
    · exact ⟨h.here, h.pending⟩

theorem finish (h : s.Reads text) : s.finish.Reads text := by
  have hclosed : ∀ {s₁ : Scanner}, s₁.Reads text →
      Reads { (Scanner.closeDeeper 0 s₁ s₁.indents).emit .finish with done := true } text := by
    intro s₁ h₁
    have hemit := (h₁.closeDeeper 0 s₁.indents).emit .finish []
    exact ⟨hemit.here, hemit.pending⟩
  unfold Scanner.finish
  dsimp only
  split_ifs
  · exact hclosed h
  · have hemit := h.emit .newline []
    exact hclosed ⟨hemit.here, hemit.pending⟩

theorem indentTo (h : s.Reads text) (width : Nat) :
    Placed text (·.Reads text) (s.indentTo width) := by
  have hstart : Reads { s with atLineStart := false } text := ⟨h.here, h.pending⟩
  unfold Scanner.indentTo
  dsimp only
  split_ifs
  · have hemit := hstart.emit .indent []
    exact ⟨hemit.here, hemit.pending⟩
  · exact hstart.closeDeeper width s.indents
  · exact h.here.place
  · exact hstart

theorem skipComment (h : s.Reads text) : s.skipComment.Reads text :=
  h.advance_takeWhile (by decide)

/-- A comment goes up to the end of its line. -/
theorem nextLine_skipComment (h : s.Reads text) (hrest : s.skipComment.rest ≠ []) :
    (s.skipComment.emit .newline).nextLine.Reads text := by
  obtain ⟨b, rest, hcons⟩ := List.exists_cons_of_ne_nil hrest
  have hhead := List.head?_dropWhile_not (· != '\n'.toUInt8) s.rest
  rw [← rest_skipComment, hcons] at hhead
  have hb : b = '\n'.toUInt8 := by simpa using hhead
  rw [hb] at hcons
  exact (h.skipComment.emit .newline []).nextLine hcons

theorem scanIndentation (h : s.Reads text) : Placed text (·.Reads text) s.scanIndentation := by
  unfold Scanner.scanIndentation
  dsimp only
  have hskip : (s.advance (s.rest.takeWhile isSpace).length).Reads text :=
    h.advance_takeWhile (by decide)
  generalize s.advance (s.rest.takeWhile isSpace).length = s₁ at *
  split
  · exact hskip.finish
  next b rest hrest =>
    split_ifs with hnewline hcomment hempty
    · rw [hnewline] at hrest
      exact (hskip.emit .newline []).nextLine hrest
    · exact hskip.skipComment
    · exact hskip.nextLine_skipComment (by simpa using hempty)
    · exact hskip.indentTo _

theorem scanString (h : s.Reads text) {rest : Bytes} (hrest : s.rest = '"'.toUInt8 :: rest) :
    Placed text (·.Reads text) s.scanString := by
  have hquote : text.At s.line (s.column + 1) rest := by
    have hhere := h.here
    rw [hrest] at hhere
    exact hhere.byte (by decide)
  have hbody := stringBody_placed h.here.place hquote
  have hdrop : s.rest.drop 1 = rest := by rw [hrest, List.drop_succ_cons, List.drop_zero]
  unfold Scanner.scanString
  rw [hdrop]
  cases hstring : stringBody s.line s.column (s.column + 1) rest with
  | error e =>
    rw [hstring] at hbody
    exact hbody
  | ok found =>
    obtain ⟨value, behind⟩ := found
    rw [hstring] at hbody
    obtain ⟨hle, hat⟩ := hbody
    dsimp only at hle hat
    have hsuffix : behind <:+ s.rest := by
      rw [hrest]
      exact (stringBody_suffix (by rw [hstring, slipped_ok])).trans (List.suffix_cons _ _)
    have hliteral : (s.rest.take (s.rest.length - behind.length)).length =
        s.rest.length - behind.length := by
      rw [List.length_take]
      omega
    have hcolumn : s.column + 1 + (rest.length - behind.length) =
        s.column + (s.rest.length - behind.length) := by
      rw [hrest, List.length_cons]
      omega
    rw [hcolumn] at hat
    show Reads { s.advance (s.rest.take (s.rest.length - behind.length)).length with
      pending := s.pending ++ [_] } text
    rw [hliteral, advance_suffix hsuffix]
    exact ⟨hat, (h.queue _ rfl rfl).pending⟩

theorem scanWord (h : s.Reads text) : s.scanWord.Reads text := by
  have hemit := h.emit (TokenKind.ofWord (s.rest.takeWhile (!isDelimiter ·)))
    (s.rest.takeWhile (!isDelimiter ·))
  exact hemit.advance_takeWhile (by decide)

theorem scanInLine (h : s.Reads text) : Placed text (·.Reads text) s.scanInLine := by
  unfold Scanner.scanInLine
  dsimp only
  have hskip : (s.advance (s.rest.takeWhile isSpace).length).Reads text :=
    h.advance_takeWhile (by decide)
  generalize s.advance (s.rest.takeWhile isSpace).length = s₁ at *
  split
  · exact hskip.finish
  next b rest hrest =>
    split_ifs with hnewline hcomment hquote
    · rw [hnewline] at hrest
      exact (hskip.emit .newline []).nextLine hrest
    · exact hskip.skipComment
    · rw [hquote] at hrest
      exact hskip.scanString hrest
    · split
      next kind hkind =>
        have hone : '\n'.toUInt8 ∉ [b] := by simpa using Ne.symm hnewline
        have hsplit : (s₁.emit kind [b]).rest = [b] ++ rest := hrest
        exact (hskip.emit kind [b]).advance hsplit hone
      · exact hskip.scanWord

/-- **Reading on, a scanner counts its lines and columns right**, and stops at a place of the
text. -/
theorem scan (h : s.Reads text) : Placed text (·.Reads text) s.scan := by
  unfold Scanner.scan
  split_ifs
  · exact h.scanIndentation
  · exact h.scanInLine

theorem nextWithin : ∀ (fuel : Nat) {s : Scanner}, s.Reads text →
    Placed text (fun found => found.1.In text ∧ found.2.Reads text) (nextWithin fuel s) := by
  intro fuel
  induction fuel with
  | zero =>
    intro s h
    unfold Scanner.nextWithin
    split
    next token rest hpending =>
      have hqueue := h.pending
      rw [hpending, List.forall_mem_cons] at hqueue
      exact ⟨hqueue.1, h.here, hqueue.2⟩
    · split_ifs <;> exact ⟨h.here.place, h⟩
  | succ fuel ih =>
    intro s h
    unfold Scanner.nextWithin
    split
    next token rest hpending =>
      have hqueue := h.pending
      rw [hpending, List.forall_mem_cons] at hqueue
      exact ⟨hqueue.1, h.here, hqueue.2⟩
    · split_ifs
      · exact ⟨h.here.place, h⟩
      · have hscan := h.scan
        cases hrun : s.scan with
        | error e =>
          rw [hrun] at hscan
          exact hscan
        | ok s₁ =>
          rw [hrun] at hscan
          exact ih hscan

/-- **A token stands at a place of the text.** -/
theorem next (h : s.Reads text) :
    Placed text (fun found => found.1.In text ∧ found.2.Reads text) s.next := nextWithin 2 h

end Reads

end Scanner

/-! ### Buffers -/

namespace TokenBuffer

/-- The buffer keeps tokens of this text, and its scanner reads it. -/
structure Reads (b : TokenBuffer) (text : Bytes) : Prop where
  scanner : b.scanner.Reads text
  tokens : ∀ token ∈ b.tokens, token.In text
  failure : ∀ e, b.failure = some e → text.HasPlace e.line e.column

namespace Reads

variable {b : TokenBuffer} {text : Bytes}

theorem ofSource (text : Bytes) : (TokenBuffer.ofSource text).Reads text :=
  ⟨.ofSource text, by simp [TokenBuffer.ofSource], by simp [TokenBuffer.ofSource]⟩

theorem rewind (h : b.Reads text) (mark : Nat) : (b.rewind mark).Reads text :=
  ⟨h.scanner, h.tokens, h.failure⟩

theorem commit (h : b.Reads text) : b.commit.Reads text := by
  refine ⟨h.scanner, fun token htoken => h.tokens token ?_, h.failure⟩
  obtain ⟨i, hi, htoken⟩ := Array.mem_extract_iff_getElem.mp htoken
  exact htoken ▸ Array.getElem_mem _

/-- **What a buffer answers is at a place of the text.** -/
theorem peek (h : b.Reads text) :
    b.peek.2.Reads text ∧ Placed text (Token.In · text) b.peek.1 := by
  unfold TokenBuffer.peek
  split
  next token htoken => exact ⟨h, h.tokens token (Array.mem_of_getElem? htoken)⟩
  · split
    next e hfailure => exact ⟨h, h.failure e hfailure⟩
    · have hnext := h.scanner.next
      split
      next e hrun =>
        rw [hrun] at hnext
        refine ⟨⟨h.scanner, h.tokens, ?_⟩, hnext⟩
        rintro _ ⟨⟩
        exact hnext
      next token scanner hrun =>
        rw [hrun] at hnext
        refine ⟨⟨hnext.2, ?_, h.failure⟩, hnext.1⟩
        simpa [or_imp, forall_and] using ⟨h.tokens, hnext.1⟩

theorem next (h : b.Reads text) :
    b.next.2.Reads text ∧ Placed text (Token.In · text) b.next.1 := by
  have hpeek := h.peek
  unfold TokenBuffer.next
  split
  next e b' hrun =>
    rw [hrun] at hpeek
    exact hpeek
  next token b' hrun =>
    rw [hrun] at hpeek
    split_ifs
    · exact hpeek
    · exact ⟨⟨hpeek.1.scanner, hpeek.1.tokens, hpeek.1.failure⟩, hpeek.2⟩

end Reads

end TokenBuffer

end Terrace
