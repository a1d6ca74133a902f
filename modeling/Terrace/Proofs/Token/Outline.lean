/-
# The tokens of a text, line by line

Each line of a text gives its own tokens, apart from the ends of blocks: these depend on how far
the lines before it are indented. `outline` tells the tokens of a text from its lines and from the
levels of the open blocks, and `Scanner.Gives` what a scanner hands out, call by call, up to the
end of the text or the first error. Both are the same.

Key definitions: `enterLevel`, `outline`, `Scanner.Gives`.
Key theorems: `Scanner.next_scan`, `Scanner.gives_row`, `Scanner.gives_outline`.
-/
import Mathlib.Data.List.TakeWhile
import Terrace.Proofs.Files.Names
import Terrace.Proofs.Token.Rows

namespace Terrace

/-! ### The lines of a text -/

/-- The lines of a text; the last one is not ended by a newline. -/
def rowsOf (source : Bytes) : List Bytes := Bytes.splitOn '\n'.toUInt8 source

theorem rowsOf_ne_nil : ∀ source : Bytes, rowsOf source ≠ []
  | [] => by simp [rowsOf, Bytes.splitOn]
  | b :: source => by
    rw [rowsOf, Bytes.splitOn]
    split_ifs
    · simp
    · split <;> simp

/-- A text is its first line, alone or with the lines behind it. -/
theorem rowsOf_cases : ∀ {source row : Bytes} {rows : List Bytes}, rowsOf source = row :: rows →
    rows = [] ∧ source = row ∨
      ∃ rest, source = row ++ '\n'.toUInt8 :: rest ∧ rowsOf rest = rows
  | [], row, rows, h => by
    cases h
    exact Or.inl ⟨rfl, rfl⟩
  | b :: source, row, rows, h => by
    rw [rowsOf, Bytes.splitOn] at h
    split_ifs at h with hb
    · cases h
      exact Or.inr ⟨source, by rw [hb]; rfl, rfl⟩
    · cases hsource : Bytes.splitOn '\n'.toUInt8 source with
      | nil => exact absurd hsource (rowsOf_ne_nil source)
      | cons piece pieces =>
        rw [hsource] at h
        cases h
        rcases rowsOf_cases hsource with ⟨hrows, hrest⟩ | ⟨rest, hrest, hrows⟩
        · exact Or.inl ⟨hrows, congrArg (b :: ·) hrest⟩
        · exact Or.inr ⟨rest, congrArg (b :: ·) hrest, hrows⟩

/-! ### The outline of a text -/

/-- The levels of the open blocks after a line of a width, if it is on one of them. -/
def enterLevel (width : Nat) (levels : List Nat) : List Nat :=
  if levels.headD 0 < width then width :: levels else levels.dropWhile (width < ·)

/-- The levels of blocks inside each other, the innermost first. -/
structure Nested (levels : List Nat) : Prop where
  falling : levels.Pairwise (· > ·)
  positive : ∀ level ∈ levels, 0 < level

theorem Nested.nil : Nested [] := ⟨.nil, nofun⟩

theorem Nested.enter {levels : List Nat} (h : Nested levels) (width : Nat) :
    Nested (enterLevel width levels) := by
  unfold enterLevel
  split_ifs with hdeeper
  · refine ⟨List.pairwise_cons.mpr ⟨fun level hlevel => ?_, h.falling⟩, fun level hlevel => ?_⟩
    · cases levels with
      | nil => cases hlevel
      | cons first levels =>
        have hfirst : first < width := hdeeper
        rcases List.mem_cons.mp hlevel with rfl | hlevel
        · exact hfirst
        · exact Nat.lt_trans ((List.pairwise_cons.mp h.falling).1 level hlevel) hfirst
    · rcases List.mem_cons.mp hlevel with rfl | hlevel
      · exact Nat.zero_lt_of_lt hdeeper
      · exact h.positive level hlevel
  · have hsuffix : levels.dropWhile (width < ·) <:+ levels := List.dropWhile_suffix _
    exact ⟨h.falling.sublist hsuffix.sublist,
      fun level hlevel => h.positive level (hsuffix.subset hlevel)⟩

/-- A token without a text. -/
def mark (kind : TokenKind) (line column : Nat) : Token := { kind, literal := [], line, column }

/-- The tokens for a change of the open blocks. -/
def marks (line column : Nat) (levels levels' : List Nat) : List Token :=
  List.replicate (levels'.length - levels.length) (mark .indent line column) ++
    List.replicate (levels.length - levels'.length) (mark .dedent line column)

/-- The tokens at the end of a text. -/
def closing (line column : Nat) (levels : List Nat) : List Lexeme :=
  List.replicate levels.length (.ok (mark .dedent line column)) ++ [.ok (mark .finish line column)]

theorem mark_ne_finish {line column : Nat} {levels levels' : List Nat} {token : Token}
    (h : token ∈ marks line column levels levels') : token.kind ≠ .finish := by
  rcases List.mem_append.mp h with h | h
  · rw [List.eq_of_mem_replicate h]
    simp [mark]
  · rw [List.eq_of_mem_replicate h]
    simp [mark]

/-- What a text gives, and what it gives behind that, if there was no error. -/
def andThen : List Lexeme → List Lexeme → List Lexeme
  | [], after => after
  | .error slip :: _, _ => [.error slip]
  | .ok token :: items, after => .ok token :: andThen items after

/-- What the lines of a text give from a line on, inside open blocks. The last line has no end. -/
def outline (line : Nat) (levels : List Nat) : List Bytes → List Lexeme
  | [] => closing line 1 levels
  | row :: rows =>
    let column := row.length + 1
    if Row.isBlank row then
      match rows with
      | [] => closing line column levels
      | _ :: _ => .ok (mark .newline line column) :: outline (line + 1) levels rows
    else
      let levels' := enterLevel (Row.width row) levels
      if levels'.headD 0 = Row.width row then
        (marks line (1 + (row.takeWhile isSpace).length) levels levels').map .ok ++
          andThen (Row.wordsFrom line 1 row) (.ok (mark .newline line column) ::
            match rows with
            | [] => closing line column levels'
            | _ :: _ => outline (line + 1) levels' rows)
      else [.error .misplaced]

/-! ### What a scanner hands out -/

namespace Scanner

/-- What a scanner hands out call by call, up to the end of the text or an error. Then it is
done, and has nothing left. -/
inductive Gives : Scanner → List Lexeme → Prop
  | finish {s s' : Scanner} {token : Token} (hnext : s.next = .ok (token, s'))
      (hfinish : token.kind = .finish) (hdone : s'.done = true) (hpending : s'.pending = []) :
      Gives s [.ok token]
  | error {s : Scanner} {e : LexicalError} (hnext : s.next = .error e) :
      Gives s [.error e.cause.slip]
  | token {s s' : Scanner} {token : Token} {items : List Lexeme}
      (hnext : s.next = .ok (token, s')) (hfinish : token.kind ≠ .finish) (hrest : Gives s' items) :
      Gives s (.ok token :: items)

variable {s s' : Scanner} {token : Token} {items : List Lexeme}

theorem next_pending {rest : List Token} (h : s.pending = token :: rest) :
    s.next = .ok (token, { s with pending := rest }) := by
  rw [next, nextWithin, h]

theorem gives_pending {rest : List Token} (h : s.pending = token :: rest)
    (hfinish : token.kind ≠ .finish) (hrest : Gives { s with pending := rest } items) :
    Gives s (.ok token :: items) := .token (next_pending h) hfinish hrest

/-- Tokens that are queued are handed out first. -/
theorem gives_queue {later : List Token} : ∀ {queue : List Token} {s : Scanner},
    s.pending = queue ++ later → (∀ token ∈ queue, token.kind ≠ .finish) →
    Gives { s with pending := later } items → Gives s (queue.map .ok ++ items)
  | [], s, h, _, hrest => by
    have hs : ({ s with pending := later } : Scanner) = s := by rw [← List.nil_append later, ← h]
    rwa [hs] at hrest
  | token :: queue, s, h, hfinish, hrest =>
    gives_pending h (hfinish token List.mem_cons_self)
      (gives_queue (s := { s with pending := queue ++ later }) rfl
        (fun token htoken => hfinish token (List.mem_cons_of_mem _ htoken)) hrest)

/-! ### Pieces that queue nothing -/

theorem emit_pending (s : Scanner) (kind : TokenKind) (literal : Bytes) :
    (s.emit kind literal).pending ≠ [] := by
  simp [emit]

theorem finish_pending (s : Scanner) : s.finish.pending ≠ [] := emit_pending _ _ _

theorem scanString_pending (h : s.scanString = .ok s') : s'.pending ≠ [] := by
  unfold scanString at h
  cases hbody : stringBody s.line s.column (s.column + 1) (s.rest.drop 1) with
  | error e =>
    rw [hbody] at h
    cases h
  | ok found =>
    rw [hbody] at h
    cases h
    simp

/-- A scanner whose next piece queues a token. -/
def Queues (s : Scanner) : Prop := ∀ s', s.scan = .ok s' → s'.pending ≠ []

theorem rest_skipComment (s : Scanner) :
    s.skipComment.rest = s.rest.dropWhile (· != '\n'.toUInt8) := drop_takeWhile _ _

/-- Inside a line every piece but a comment queues a token. -/
theorem queues_inLine (hstart : s.atLineStart = false)
    (hcomment : (s.rest.dropWhile isSpace).head? ≠ some '#'.toUInt8) : s.Queues := by
  intro s' h
  rw [← rest_skip] at hcomment
  rw [scan, hstart, if_neg Bool.false_ne_true] at h
  unfold scanInLine at h
  dsimp only at h
  generalize s.advance (s.rest.takeWhile isSpace).length = s₁ at *
  split at h
  · cases h
    exact finish_pending _
  next b rest hrest =>
    have hb : ¬ b = '#'.toUInt8 := fun hb => hcomment (by rw [hrest, hb]; rfl)
    split_ifs at h
    · cases h
      exact emit_pending _ _ _
    · exact scanString_pending h
    · split at h
      · cases h
        exact emit_pending _ _ _
      · cases h
        exact emit_pending _ _ _

/-- At the end of the text the closing tokens are queued. -/
theorem queues_end (hrest : s.rest = []) : s.Queues := by
  intro s' h
  have hskip : (s.advance (s.rest.takeWhile isSpace).length).rest = [] := by
    rw [rest_skip, hrest, List.dropWhile_nil]
  unfold scan scanIndentation scanInLine at h
  dsimp only at h
  rw [hskip] at h
  split at h
  · cases h
    exact finish_pending _
  · cases h
    exact finish_pending _

/-- What follows a comment is the end of its line. -/
theorem head_skipComment (s : Scanner) :
    (s.skipComment.rest.dropWhile isSpace).head? ≠ some '#'.toUInt8 := by
  rw [rest_skipComment]
  have hhead := List.head?_dropWhile_not (· != '\n'.toUInt8) s.rest
  cases hrest : s.rest.dropWhile (· != '\n'.toUInt8) with
  | nil => simp
  | cons b rest =>
    rw [hrest] at hhead
    have hb : b = '\n'.toUInt8 := by simpa using hhead
    rw [hb, List.dropWhile_cons_of_neg (by decide), List.head?_cons]
    decide

theorem closeDeeper_pending (width : Nat) : ∀ (levels : List Nat) (s : Scanner),
    closeDeeper width s levels = { s with
      indents := levels.dropWhile (width < ·)
      pending := s.pending ++ List.replicate
        (levels.length - (levels.dropWhile (width < ·)).length) (mark .dedent s.line s.column) }
  | [], s => by simp [closeDeeper]
  | level :: outer, s => by
    have hle : (outer.dropWhile (width < ·)).length ≤ outer.length :=
      (List.dropWhile_suffix _).length_le
    rw [closeDeeper]
    split_ifs with hdeeper
    · have hcount : (level :: outer).length - (outer.dropWhile (width < ·)).length =
          (outer.length - (outer.dropWhile (width < ·)).length) + 1 := by
        rw [List.length_cons]
        omega
      rw [closeDeeper_pending width outer, List.dropWhile_cons_of_pos (by simpa using hdeeper),
        hcount, List.replicate_succ]
      simp [emit, tokenHere, mark]
    · rw [List.dropWhile_cons_of_neg (by simpa using hdeeper), Nat.sub_self]
      simp

/-- **A line that holds tokens opens and closes blocks** as its width asks for. -/
theorem indentTo_eq (s : Scanner) (width : Nat) :
    s.indentTo width =
      if (enterLevel width s.indents).headD 0 = width then
        .ok { s with
          atLineStart := false
          indents := enterLevel width s.indents
          pending := s.pending ++ marks s.line s.column s.indents (enterLevel width s.indents) }
      else .error ⟨.inconsistentIndentation, s.line, s.column⟩ := by
  unfold indentTo enterLevel
  dsimp only
  by_cases hdeeper : s.indents.headD 0 < width
  · rw [if_pos hdeeper, if_pos hdeeper, if_pos (show (width :: s.indents).headD 0 = width from rfl)]
    simp [emit, tokenHere, marks, mark]
  rw [if_neg hdeeper, if_neg hdeeper]
  by_cases hshallower : width < s.indents.headD 0
  · rw [if_pos hshallower, closeDeeper_pending]
    have hle : (s.indents.dropWhile (width < ·)).length ≤ s.indents.length :=
      (List.dropWhile_suffix _).length_le
    rw [marks, Nat.sub_eq_zero_of_le hle, List.replicate_zero, List.nil_append]
  · have hsame : s.indents.dropWhile (width < ·) = s.indents := by
      cases hindents : s.indents with
      | nil => rfl
      | cons level outer =>
        rw [hindents] at hshallower
        exact List.dropWhile_cons_of_neg (by simpa using hshallower)
    rw [if_neg hshallower, hsame, if_pos (by omega), marks, Nat.sub_self]
    simp

/-- **After a piece that queues no token comes one that does.** -/
theorem scan_queues (h : s.scan = .ok s') (hpending : s'.pending = []) : s'.Queues := by
  unfold scan at h
  split_ifs at h with hstart
  · unfold scanIndentation at h
    dsimp only at h
    have hhead := List.head?_dropWhile_not isSpace s.rest
    rw [← rest_skip] at hhead
    have hstart₁ : (s.advance (s.rest.takeWhile isSpace).length).atLineStart = true := hstart
    generalize s.advance (s.rest.takeWhile isSpace).length = s₁ at *
    split at h
    · cases h
      exact absurd hpending (finish_pending _)
    next b rest hrest =>
      rw [hrest] at hhead
      split_ifs at h with hnewline hcomment hempty
      · cases h
        exact absurd hpending (emit_pending _ _ _)
      · cases h
        exact queues_end (by simpa using hempty)
      · cases h
        exact absurd hpending (emit_pending _ _ _)
      · rw [indentTo_eq] at h
        split_ifs at h
        cases h
        refine queues_inLine rfl ?_
        have hspace : isSpace b = false := by simpa using hhead
        simp [hrest, hspace, hcomment]
  · unfold scanInLine at h
    dsimp only at h
    have hstart₁ : (s.advance (s.rest.takeWhile isSpace).length).atLineStart = false :=
      Bool.eq_false_iff.mpr hstart
    generalize s.advance (s.rest.takeWhile isSpace).length = s₁ at *
    split at h
    · cases h
      exact absurd hpending (finish_pending _)
    · split_ifs at h
      · cases h
        exact absurd hpending (emit_pending _ _ _)
      · cases h
        exact queues_inLine hstart₁ (head_skipComment s₁)
      · exact absurd hpending (scanString_pending h)
      · split at h
        · cases h
          exact absurd hpending (emit_pending _ _ _)
        · cases h
          exact absurd hpending (emit_pending _ _ _)

theorem nextWithin_succ (fuel : Nat) (hpending : s.pending = []) (hdone : s.done = false) :
    nextWithin (fuel + 1) s = match s.scan with
      | .ok s' => nextWithin fuel s'
      | .error e => .error e := by
  rw [nextWithin, hpending]
  dsimp only
  rw [hdone, if_neg Bool.false_ne_true]
  cases s.scan <;> rfl

/-- **A scanner that has nothing queued hands out what it does after its next piece.** -/
theorem next_scan (hpending : s.pending = []) (hdone : s.done = false) (h : s.scan = .ok s') :
    s.next = s'.next := by
  rw [next, nextWithin_succ 1 hpending hdone, h]
  dsimp only
  cases hpending' : s'.pending with
  | cons token rest => rw [next_pending hpending', nextWithin, hpending']
  | nil =>
    by_cases hdone' : s'.done = true
    · rw [next, nextWithin, nextWithin, hpending']
      dsimp only
      rw [if_pos hdone', if_pos hdone']
    · have hqueues := scan_queues h hpending'
      rw [next, nextWithin_succ 0 hpending' (by simpa using hdone'),
        nextWithin_succ 1 hpending' (by simpa using hdone')]
      cases hscan : s'.scan with
      | error e => rfl
      | ok s'' =>
        obtain ⟨token, rest, hqueue⟩ := List.exists_cons_of_ne_nil (hqueues s'' hscan)
        dsimp only
        rw [nextWithin, nextWithin, hqueue]

/-- What a scanner hands out depends on its next answer only. -/
theorem Gives.congr (hnext : s.next = s'.next) (h : Gives s' items) : Gives s items := by
  cases h with
  | finish hanswer hfinish hdone hpending =>
    exact .finish (hnext.trans hanswer) hfinish hdone hpending
  | error hanswer => exact .error (hnext.trans hanswer)
  | token hanswer hfinish hrest => exact .token (hnext.trans hanswer) hfinish hrest

theorem gives_scan (hpending : s.pending = []) (hdone : s.done = false) (h : s.scan = .ok s')
    (hrest : Gives s' items) : Gives s items := hrest.congr (next_scan hpending hdone h)

theorem gives_error {e : LexicalError} (hpending : s.pending = []) (hdone : s.done = false)
    (h : s.scan = .error e) : Gives s [.error e.cause.slip] := by
  refine .error ?_
  rw [next, nextWithin_succ 1 hpending hdone, h]

/-! ### Words -/

/-- Moving over a part of the line. -/
theorem advance_suffix {rest : Bytes} (h : rest <:+ s.rest) :
    s.advance (s.rest.length - rest.length) =
      { s with rest, column := s.column + (s.rest.length - rest.length) } := by
  rw [advance, ← List.suffix_iff_eq_drop.mp h]

/-- The blanks before a word and the word. -/
theorem advance_word {rest : Bytes} (h : rest <:+ s.rest.dropWhile isSpace) :
    (s.advance (s.rest.takeWhile isSpace).length).advance
        ((s.rest.dropWhile isSpace).length - rest.length) =
      { s with rest, column := s.column + (s.rest.length - rest.length) } := by
  have hlength := congrArg List.length
    (List.takeWhile_append_dropWhile (p := isSpace) (l := s.rest))
  rw [List.length_append] at hlength
  have hle := h.length_le
  rw [← rest_skip] at h
  have hword := advance_suffix h
  rw [rest_skip] at hword
  rw [hword]
  simp only [advance]
  congr 1
  omega

theorem advance_emit (s : Scanner) (kind : TokenKind) (literal : Bytes) (count : Nat) :
    (s.emit kind literal).advance count =
      { s.advance count with pending := s.pending ++ [s.tokenHere kind literal] } := rfl

/-- **Inside a line the next word is read**, wherever it stands. -/
theorem scanInLine_word {rest : Bytes} (h : Row.wordPiece s.rest = some (.ok token, rest)) :
    s.scanInLine = .ok { s with
      rest
      column := s.column + (s.rest.length - rest.length)
      pending := s.pending ++
        [token.placed s.line (s.column + (s.rest.takeWhile isSpace).length)] } := by
  obtain ⟨hrow, hpiece⟩ := Row.wordPiece_piece h
  have hskip := rest_skip s
  have hadvance := advance_word (hrow ▸ List.suffix_append token.literal rest)
  rw [hrow, List.length_append, Nat.add_sub_cancel] at hadvance
  rw [hrow] at hskip
  unfold scanInLine
  dsimp only
  rw [hskip]
  cases hpiece with
  | @string inside rest value hbody =>
    have hplaced := slipped_eq_ok ((slip_stringBody_place
      (s.advance (s.rest.takeWhile isSpace).length).line
      (s.advance (s.rest.takeWhile isSpace).length).column
      ((s.advance (s.rest.takeWhile isSpace).length).column + 1) 0 0 0 (inside ++ rest)).trans hbody)
    have hliteral : ('"'.toUInt8 :: inside ++ rest).take
        (('"'.toUInt8 :: inside ++ rest).length - rest.length) = '"'.toUInt8 :: inside := by
      rw [List.length_append, Nat.add_sub_cancel, List.take_left]
    dsimp only [List.cons_append] at hliteral ⊢
    rw [if_neg (by decide), if_neg (by decide), if_pos rfl, scanString, hskip]
    dsimp only [List.cons_append]
    rw [List.drop_succ_cons, List.drop_zero, hplaced]
    dsimp only [bind, Except.bind, pure, Except.pure]
    rw [hliteral, hadvance]
    rfl
  | @mark b kind rest hkind =>
    obtain ⟨hnewline, hcomment, hquote⟩ := ne_of_punctuation hkind
    dsimp only [List.cons_append]
    rw [if_neg hnewline, if_neg hcomment, if_neg hquote, hkind]
    replace hadvance : (s.advance (s.rest.takeWhile isSpace).length).advance 1 = _ := hadvance
    dsimp only
    rw [advance_emit, hadvance]
    rfl
  | @run word rest hne hquote hinside hend =>
    obtain ⟨b, inside, rfl⟩ := List.exists_cons_of_ne_nil hne
    obtain ⟨hnewline, hcomment, hnone⟩ := ne_of_isDelimiter (hinside b List.mem_cons_self)
    have hstart : ¬ b = '"'.toUInt8 := fun hb => hquote (congrArg some hb)
    dsimp only [List.cons_append]
    rw [if_neg hnewline, if_neg hcomment, if_neg hstart, hnone]
    dsimp only
    rw [scanWord, hskip, takeWhile_run hinside hend, advance_emit, hadvance]
    rfl

/-- What is wrong with a word is reported. -/
theorem scanInLine_slip {slip : Slip} {rest : Bytes}
    (h : Row.wordPiece s.rest = some (.error slip, rest)) :
    ∃ e, s.scanInLine = .error e ∧ e.cause.slip = slip := by
  unfold Row.wordPiece at h
  cases hrow : s.rest.dropWhile isSpace with
  | nil =>
    rw [hrow] at h
    cases h
  | cons b source =>
    have hskip := rest_skip s
    rw [hrow] at h hskip
    unfold scanInLine
    dsimp only at h ⊢
    rw [hskip]
    dsimp only
    split_ifs at h ⊢ with hnewline hcomment hquote
    · cases hbody : slipped (stringBody 0 0 0 source) with
      | ok found =>
        rw [hbody] at h
        cases h
      | error slip' =>
        rw [hbody] at h
        cases h
        obtain ⟨e, he, hslip⟩ := slipped_eq_error ((slip_stringBody_place
          (s.advance (s.rest.takeWhile isSpace).length).line
          (s.advance (s.rest.takeWhile isSpace).length).column
          ((s.advance (s.rest.takeWhile isSpace).length).column + 1) 0 0 0 source).trans hbody)
        refine ⟨e, ?_, hslip⟩
        unfold scanString
        rw [hskip, List.drop_succ_cons, List.drop_zero, he]
        rfl
    · split at h <;> cases h

/-! ### Lines -/

section
variable {row tail : Bytes}

/-- A comment reaches to the end of its line. -/
theorem skipComment_eq (hrest : s.rest = row ++ tail) (hline : '\n'.toUInt8 ∉ row)
    (htail : LineEnd tail) : s.skipComment = s.advance row.length := by
  have hall : row.takeWhile (· != '\n'.toUInt8) = row :=
    List.takeWhile_eq_self_iff.mpr fun b hb => by
      have hne : b ≠ '\n'.toUInt8 := fun h => hline (h ▸ hb)
      simpa using hne
  have hnone : tail.takeWhile (· != '\n'.toUInt8) = [] := by
    cases tail with
    | nil => rfl
    | cons b tail => exact List.takeWhile_cons_of_neg (by simp [htail b rfl])
  rw [skipComment, hrest, List.takeWhile_append, hall, if_pos rfl, hnone, List.append_nil]

theorem advance_row (hrest : s.rest = row ++ tail) :
    s.advance row.length = { s with rest := tail, column := s.column + row.length } := by
  rw [advance, hrest, List.drop_left]

theorem takeWhile_lineEnd (htail : LineEnd tail) : tail.takeWhile isSpace = [] := by
  cases tail with
  | nil => rfl
  | cons b tail =>
    rw [htail b rfl]
    exact List.takeWhile_cons_of_neg (by decide)

/-- What is left of a line behind its blanks. -/
theorem dropWhile_row (hrest : s.rest = row ++ tail) (hblank : Row.isBlank row = true)
    (hline : '\n'.toUInt8 ∉ row) (htail : LineEnd tail) :
    (row.dropWhile isSpace = [] ∧
      s.advance (s.rest.takeWhile isSpace).length = s.advance row.length) ∨
    ∃ comment, row.dropWhile isSpace = '#'.toUInt8 :: comment ∧
      (s.advance (s.rest.takeWhile isSpace).length).rest = '#'.toUInt8 :: comment ++ tail ∧
      (s.advance (s.rest.takeWhile isSpace).length).skipComment = s.advance row.length := by
  have hlength := congrArg List.length (List.takeWhile_append_dropWhile (p := isSpace) (l := row))
  rw [List.length_append] at hlength
  cases hrow : row.dropWhile isSpace with
  | nil =>
    refine Or.inl ⟨rfl, ?_⟩
    rw [hrow, List.length_nil, Nat.add_zero] at hlength
    rw [hrest, List.takeWhile_append, if_pos hlength, takeWhile_lineEnd htail, List.append_nil]
  | cons b comment =>
    have hsuffix : row.dropWhile isSpace <:+ row := List.dropWhile_suffix _
    rw [hrow] at hsuffix hlength
    have hb : b = '#'.toUInt8 := by
      rw [Row.isBlank, hrow] at hblank
      have hnewline : ¬ b = '\n'.toUInt8 :=
        fun hb => hline (hsuffix.subset (hb ▸ List.mem_cons_self))
      simpa [hnewline] using hblank
    subst hb
    have hbody : (s.advance (s.rest.takeWhile isSpace).length).rest =
        '#'.toUInt8 :: comment ++ tail := by
      rw [rest_skip, hrest, Row.dropWhile_append (by simp [hrow]), hrow]
    refine Or.inr ⟨comment, rfl, hbody, ?_⟩
    rw [skipComment_eq hbody (fun hmem => hline (hsuffix.subset hmem)) htail, hrest,
      Row.takeWhile_append (by simp [hrow])]
    simp only [advance, List.drop_drop]
    rw [Nat.add_assoc, hlength]

theorem next_congr (hpending : s.pending = []) (hdone : s.done = false)
    (hpending' : s'.pending = []) (hdone' : s'.done = false) (h : s.scan = s'.scan) : s.next = s'.next := by
  rw [next, next, nextWithin_succ 1 hpending hdone, nextWithin_succ 1 hpending' hdone', h]

/-- Inside a line that holds nothing more, its end comes next. -/
theorem gives_lineEnd (hrest : s.rest = row ++ tail) (hblank : Row.isBlank row = true)
    (hline : '\n'.toUInt8 ∉ row) (htail : LineEnd tail) (hstart : s.atLineStart = false)
    (hpending : s.pending = []) (hdone : s.done = false)
    (hafter : Gives (s.advance row.length) items) : Gives s items := by
  rcases dropWhile_row hrest hblank hline htail with ⟨_, hskip⟩ | ⟨comment, _, hbody, hskip⟩
  · refine hafter.congr (@next_congr s (s.advance row.length) hpending hdone hpending hdone ?_)
    have hnone : (s.advance row.length).advance
        ((s.advance row.length).rest.takeWhile isSpace).length = s.advance row.length := by
      rw [show (s.advance row.length).rest = tail by rw [advance_row hrest],
        takeWhile_lineEnd htail]
      simp [advance]
    rw [scan, scan, show (s.advance row.length).atLineStart = s.atLineStart from rfl, hstart,
      if_neg Bool.false_ne_true, if_neg Bool.false_ne_true]
    unfold scanInLine
    dsimp only
    rw [hskip, hnone]
  · refine gives_scan hpending hdone ?_ hafter
    rw [scan, hstart, if_neg Bool.false_ne_true]
    unfold scanInLine
    dsimp only
    rw [hbody]
    exact congrArg Except.ok hskip

/-- **The words of a line are handed out**, and then what follows it. -/
theorem gives_words {s : Scanner} {row : Bytes} (hrest : s.rest = row ++ tail)
    (hline : '\n'.toUInt8 ∉ row) (htail : LineEnd tail) (hstart : s.atLineStart = false)
    (hpending : s.pending = []) (hdone : s.done = false)
    (hafter : Gives (s.advance row.length) items) :
    Gives s (andThen (Row.wordsFrom s.line s.column row) items) := by
  have hend := Row.isBlank_of_lineEnd htail
  cases hpiece : Row.wordPiece row with
  | none =>
    rw [Row.wordsFrom_none hpiece]
    exact gives_lineEnd hrest (Row.wordPiece_eq_none.mp hpiece) hline htail hstart hpending hdone
      hafter
  | some found =>
    have hbody : row.dropWhile isSpace ≠ [] := by
      intro hempty
      rw [Row.wordPiece, hempty] at hpiece
      cases hpiece
    have hscan : s.scan = s.scanInLine := by rw [scan, hstart, if_neg Bool.false_ne_true]
    obtain ⟨slip | token, rest⟩ := found
    · rw [Row.wordsFrom_error hpiece]
      have hlong := Row.wordPiece_append_error hpiece hline hend fun _ => htail
      rw [← hrest] at hlong
      obtain ⟨e, he, rfl⟩ := scanInLine_slip hlong
      exact gives_error hpending hdone (hscan.trans he)
    · obtain ⟨hsuffix, hshorter⟩ := Row.wordPiece_suffix hpiece
      have hlong := Row.wordPiece_append_ok hpiece hline hend
      rw [← hrest] at hlong
      have hword := scanInLine_word hlong
      have hcount : s.rest.length - (rest ++ tail).length = row.length - rest.length := by
        rw [hrest, List.length_append, List.length_append]
        omega
      have hkind := Row.wordPiece_isWord hpiece
      rw [hcount, hpending, List.nil_append, hrest, Row.takeWhile_append hbody] at hword
      rw [Row.wordsFrom_ok hpiece]
      refine gives_scan hpending hdone (hscan.trans hword) (gives_pending rfl ?_ ?_)
      · intro hfinish
        rw [show token.kind = .finish from hfinish] at hkind
        cases hkind
      · refine gives_words (s := { s with
          rest := rest ++ tail, column := s.column + (row.length - rest.length), pending := [] })
          rfl (fun hmem => hline (hsuffix.subset hmem)) htail hstart rfl hdone ?_
        have hsame : (Scanner.advance { s with
            rest := rest ++ tail, column := s.column + (row.length - rest.length), pending := [] }
            rest.length) = s.advance row.length := by
          rw [advance_row hrest, @advance_row _ rest tail rfl, ← hpending]
          dsimp only
          congr 1
          omega
        rw [hsame]
        exact hafter
termination_by row.length

end

/-! ### Texts -/

/-- The end of the text closes the last line and every block. -/
theorem finish_eq (hlevels : Nested s.indents) (hpending : s.pending = []) :
    s.finish = { s with
      atLineStart := true, indents := [], done := true
      pending := (if s.atLineStart then [] else [mark .newline s.line s.column]) ++
        (List.replicate s.indents.length (mark .dedent s.line s.column) ++
          [mark .finish s.line s.column]) } := by
  have hnone : s.indents.dropWhile (0 < ·) = [] :=
    List.dropWhile_eq_nil_iff.mpr fun level hlevel => by simpa using hlevels.positive level hlevel
  unfold finish
  dsimp only
  by_cases hstart : s.atLineStart = true
  · rw [if_pos hstart, if_pos hstart, closeDeeper_pending, hnone]
    simp [emit, tokenHere, mark, hstart, hpending]
  · rw [if_neg hstart, if_neg hstart, closeDeeper_pending]
    simp only [emit, hnone]
    simp [tokenHere, mark, hpending]

theorem gives_finish (hlevels : Nested s.indents) (hpending : s.pending = []) :
    Gives s.finish ((if s.atLineStart then [] else [.ok (mark .newline s.line s.column)]) ++
      closing s.line s.column s.indents) := by
  have hqueue : s.finish.pending = ((if s.atLineStart then [] else
      [mark .newline s.line s.column]) ++
        List.replicate s.indents.length (mark .dedent s.line s.column)) ++
      [mark .finish s.line s.column] := by
    rw [finish_eq hlevels hpending, List.append_assoc]
  have hlast : Gives { s.finish with pending := [mark .finish s.line s.column] }
      [.ok (mark .finish s.line s.column)] := .finish (next_pending rfl) rfl rfl rfl
  have hgives := gives_queue hqueue (fun token htoken => by
    rcases List.mem_append.mp htoken with htoken | htoken
    · split_ifs at htoken
      · cases htoken
      · rw [List.mem_singleton.mp htoken]
        simp [mark]
    · rw [List.eq_of_mem_replicate htoken]
      simp [mark]) hlast
  have hitems : (if s.atLineStart then [] else [(.ok (mark .newline s.line s.column) : Lexeme)]) =
      (if s.atLineStart then [] else [mark .newline s.line s.column]).map .ok := by
    split_ifs <;> rfl
  rw [List.map_append, List.append_assoc, List.map_replicate] at hgives
  rw [hitems, closing]
  exact hgives

/-- A scanner at the start of a line. -/
structure AtLine (s : Scanner) : Prop where
  atLineStart : s.atLineStart = true
  column : s.column = 1
  pending : s.pending = []
  done : s.done = false
  levels : Nested s.indents

theorem scan_end (hrest : s.rest = []) : s.scan = .ok s.finish := by
  have hskip : s.advance (s.rest.takeWhile isSpace).length = s := by
    rw [hrest, List.takeWhile_nil, List.length_nil, advance, List.drop_zero, Nat.add_zero]
  unfold scan scanIndentation scanInLine
  dsimp only
  rw [hskip, hrest]
  split_ifs <;> rfl

section
variable {row tail : Bytes}

/-- A line that holds nothing is passed over. -/
theorem scan_blank (hs : s.AtLine) (hrest : s.rest = row ++ tail)
    (hblank : Row.isBlank row = true) (hline : '\n'.toUInt8 ∉ row) (htail : LineEnd tail) :
    s.scan = .ok (s.advance row.length).finish ∧ tail = [] ∨
    s.scan = .ok (s.advance row.length) ∧ tail = [] ∨
    s.scan = .ok ((s.advance row.length).emit .newline).nextLine ∧ tail ≠ [] := by
  have hscan : s.scan = s.scanIndentation := by rw [scan, hs.atLineStart, if_pos rfl]
  have hafter : (s.advance row.length).rest = tail := by rw [advance_row hrest]
  unfold scanIndentation at hscan
  dsimp only at hscan
  rcases dropWhile_row hrest hblank hline htail with ⟨_, hskip⟩ | ⟨comment, _, hbody, hskip⟩
  · rw [hskip, hafter] at hscan
    cases tail with
    | nil => exact Or.inl ⟨hscan, rfl⟩
    | cons b tail =>
      dsimp only at hscan
      rw [if_pos (htail b rfl)] at hscan
      exact Or.inr (Or.inr ⟨hscan, by simp⟩)
  · rw [hbody] at hscan
    dsimp only [List.cons_append] at hscan
    rw [if_neg (by decide), if_pos rfl, hskip, hafter] at hscan
    cases tail with
    | nil => exact Or.inr (Or.inl ⟨hscan, rfl⟩)
    | cons b tail => exact Or.inr (Or.inr ⟨hscan, by simp⟩)

/-- The last line gives nothing if it holds nothing. -/
theorem gives_blank_last (hs : s.AtLine) (hrest : s.rest = row)
    (hblank : Row.isBlank row = true) (hline : '\n'.toUInt8 ∉ row) :
    Gives s (closing s.line (row.length + 1) s.indents) := by
  have hrow : s.rest = row ++ [] := by rw [hrest, List.append_nil]
  have hadvance := advance_row hrow
  rw [hs.column, Nat.add_comm] at hadvance
  have hend : Gives (s.advance row.length).finish
      (closing s.line (row.length + 1) s.indents) := by
    have hfinish := gives_finish (s := s.advance row.length) hs.levels hs.pending
    rw [show (s.advance row.length).atLineStart = true from hs.atLineStart, if_pos rfl,
      List.nil_append, hadvance] at hfinish
    rwa [hadvance]
  rcases scan_blank hs hrow hblank hline nofun with ⟨hscan, _⟩ | ⟨hscan, _⟩ | ⟨_, hne⟩
  · exact gives_scan hs.pending hs.done hscan hend
  · exact gives_scan hs.pending hs.done hscan
      (gives_scan hs.pending hs.done (scan_end (by rw [hadvance])) hend)
  · exact absurd rfl hne

/-- The scanner behind a newline. -/
theorem nextLine_eq (hrest : s.rest = row ++ '\n'.toUInt8 :: tail) (hcolumn : s.column = 1) :
    ((s.advance row.length).emit .newline).nextLine = { s with
      rest := tail, line := s.line + 1, column := 1, atLineStart := true
      pending := s.pending ++ [mark .newline s.line (row.length + 1)] } := by
  rw [advance_row hrest, hcolumn, Nat.add_comm]
  rfl

/-- A line that holds nothing gives a newline. -/
theorem gives_blank (hs : s.AtLine) (hrest : s.rest = row ++ '\n'.toUInt8 :: tail)
    (hblank : Row.isBlank row = true) (hline : '\n'.toUInt8 ∉ row)
    (hafter : Gives { s with rest := tail, line := s.line + 1 } items) :
    Gives s (.ok (mark .newline s.line (row.length + 1)) :: items) := by
  rcases scan_blank hs hrest hblank hline (by simp [LineEnd]) with
    ⟨_, hempty⟩ | ⟨_, hempty⟩ | ⟨hscan, _⟩
  · cases hempty
  · cases hempty
  · rw [nextLine_eq hrest hs.column, hs.pending, List.nil_append] at hscan
    refine gives_scan hs.pending hs.done hscan (gives_pending rfl (by simp [mark]) ?_)
    have hsame : ({ s with rest := tail, line := s.line + 1 } : Scanner) = { s with
        rest := tail, line := s.line + 1, column := 1, atLineStart := true, pending := [] } := by
      rw [← hs.column, ← hs.pending, ← hs.atLineStart]
    rwa [hsame] at hafter

/-- At the end of a line comes the next one. -/
theorem gives_newline {rest : Bytes} (hrest : s.rest = '\n'.toUInt8 :: rest)
    (hstart : s.atLineStart = false) (hpending : s.pending = []) (hdone : s.done = false)
    (hafter : Gives { s with
      rest, line := s.line + 1, column := 1, atLineStart := true } items) :
    Gives s (.ok (mark .newline s.line s.column) :: items) := by
  have hscan : s.scan = .ok (s.emit .newline).nextLine := by
    have hskip : s.advance (s.rest.takeWhile isSpace).length = s := by
      rw [hrest, List.takeWhile_cons_of_neg (by decide), List.length_nil, advance, List.drop_zero,
        Nat.add_zero]
    rw [scan, hstart, if_neg Bool.false_ne_true]
    unfold scanInLine
    dsimp only
    rw [hskip, hrest]
    rfl
  have hnext : (s.emit .newline).nextLine = { s with
      rest, line := s.line + 1, column := 1, atLineStart := true
      pending := [mark .newline s.line s.column] } := by
    simp [nextLine, emit, tokenHere, mark, hrest, hpending]
  rw [hnext] at hscan
  refine gives_scan hpending hdone hscan (gives_pending rfl (by simp [mark]) ?_)
  rw [← hpending]
  exact hafter

/-- At the start of a line that holds something, its width is compared with the open blocks. -/
theorem scan_row (hs : s.AtLine) (hrest : s.rest = row ++ tail)
    (hblank : Row.isBlank row = false) :
    s.scan = (s.advance (row.takeWhile isSpace).length).indentTo (Row.width row) := by
  have hbody : row.dropWhile isSpace ≠ [] := by
    intro hempty
    rw [Row.isBlank, hempty] at hblank
    cases hblank
  have hskip := rest_skip s
  rw [hrest, Row.dropWhile_append hbody, Row.takeWhile_append hbody] at hskip
  rw [scan, hs.atLineStart, if_pos rfl]
  unfold scanIndentation
  dsimp only
  rw [hrest, Row.takeWhile_append hbody, hskip]
  cases hrow : row.dropWhile isSpace with
  | nil => exact absurd hrow hbody
  | cons b rest =>
    rw [Row.isBlank, hrow] at hblank
    have hb : ¬ b = '\n'.toUInt8 ∧ ¬ b = '#'.toUInt8 := by simpa using hblank
    dsimp only [List.cons_append]
    rw [if_neg hb.1, if_neg hb.2]
    rfl

/-- **A line that holds something** opens or closes blocks, gives its words, and then what
follows it. -/
theorem gives_row (hs : s.AtLine) (hrest : s.rest = row ++ tail)
    (hblank : Row.isBlank row = false) (hline : '\n'.toUInt8 ∉ row) (htail : LineEnd tail)
    (hafter : Gives { s with
      rest := tail, column := row.length + 1, atLineStart := false
      indents := enterLevel (Row.width row) s.indents } items) :
    Gives s (if (enterLevel (Row.width row) s.indents).headD 0 = Row.width row then
        (marks s.line (1 + (row.takeWhile isSpace).length) s.indents
          (enterLevel (Row.width row) s.indents)).map .ok ++
          andThen (Row.wordsFrom s.line 1 row) items
      else [.error .misplaced]) := by
  have hscan := scan_row hs hrest hblank
  rw [indentTo_eq] at hscan
  change s.scan = (if (enterLevel (Row.width row) s.indents).headD 0 = Row.width row then
    .ok _ else .error _) at hscan
  split_ifs at hscan ⊢ with hfits
  · have hbody : row.dropWhile isSpace ≠ [] := by
      intro hempty
      rw [Row.isBlank, hempty] at hblank
      cases hblank
    have hsuffix : row.dropWhile isSpace <:+ row := List.dropWhile_suffix _
    have hlength := congrArg List.length (List.takeWhile_append_dropWhile (p := isSpace) (l := row))
    rw [List.length_append] at hlength
    have hqueue : s.pending ++ marks s.line (s.advance (row.takeWhile isSpace).length).column
        s.indents (enterLevel (Row.width row) s.indents) =
        marks s.line (1 + (row.takeWhile isSpace).length) s.indents
          (enterLevel (Row.width row) s.indents) ++ [] := by
      rw [hs.pending, List.nil_append, List.append_nil, ← hs.column]
      rfl
    refine gives_scan hs.pending hs.done hscan
      (gives_queue hqueue (fun token htoken => mark_ne_finish htoken) ?_)
    rw [Row.wordsFrom_skip, ← hs.column]
    refine @gives_words _ tail _ _ ?_ (fun hmem => hline (hsuffix.subset hmem)) htail rfl rfl
      hs.done ?_
    · have hskip := rest_skip s
      rw [hrest, Row.dropWhile_append hbody, Row.takeWhile_append hbody] at hskip
      exact hskip
    · have hrow :
          (s.advance (row.takeWhile isSpace).length).advance (row.dropWhile isSpace).length =
          { s with rest := tail, column := row.length + 1 } := by
        have hadvance := advance_row hrest
        rw [hs.column, Nat.add_comm 1] at hadvance
        rw [← hadvance]
        simp only [advance, List.drop_drop]
        rw [hlength, Nat.add_assoc, hlength]
      have hsame : (Scanner.advance { s.advance (row.takeWhile isSpace).length with
            atLineStart := false, indents := enterLevel (Row.width row) s.indents, pending := [] }
            (row.dropWhile isSpace).length) = { s with
          rest := tail, column := row.length + 1, atLineStart := false
          indents := enterLevel (Row.width row) s.indents } := by
        calc _ = { (s.advance (row.takeWhile isSpace).length).advance
              (row.dropWhile isSpace).length with
            atLineStart := false, indents := enterLevel (Row.width row) s.indents
            pending := [] } := rfl
          _ = _ := by rw [hrow, ← hs.pending]
      rw [← hsame] at hafter
      exact hafter
  · exact gives_error hs.pending hs.done hscan

end

/-- **A scanner hands out the outline of its text.** -/
theorem gives_outline : ∀ {rows : List Bytes} {s : Scanner}, s.AtLine →
    rowsOf s.rest = rows → Gives s (outline s.line s.indents rows)
  | [], s, _, hrows => absurd hrows (rowsOf_ne_nil _)
  | [row], s, hs, hrows => by
    have hline : '\n'.toUInt8 ∉ row := Bytes.mem_splitOn (hrows ▸ List.mem_cons_self)
    rcases rowsOf_cases hrows with ⟨_, hrest⟩ | ⟨rest, _, hnone⟩
    · cases hblank : Row.isBlank row with
      | true =>
        rw [outline, if_pos hblank]
        exact gives_blank_last hs hrest hblank hline
      | false =>
        rw [outline, if_neg (by simp [hblank])]
        have hrow : s.rest = row ++ [] := by rw [hrest, List.append_nil]
        refine gives_row hs hrow hblank hline nofun ?_
        have hfinish := gives_finish (s := { s with
          rest := [], column := row.length + 1, atLineStart := false
          indents := enterLevel (Row.width row) s.indents }) (hs.levels.enter _) hs.pending
        exact gives_scan hs.pending hs.done (scan_end rfl) hfinish
    · exact absurd hnone (rowsOf_ne_nil rest)
  | row :: next :: others, s, hs, hrows => by
    have hline : '\n'.toUInt8 ∉ row := Bytes.mem_splitOn (hrows ▸ List.mem_cons_self)
    rcases rowsOf_cases hrows with ⟨hnone, _⟩ | ⟨rest, hrest, hrows⟩
    · cases hnone
    · cases hblank : Row.isBlank row with
      | true =>
        rw [outline, if_pos hblank]
        have hs' : AtLine { s with rest, line := s.line + 1 } :=
          ⟨hs.atLineStart, hs.column, hs.pending, hs.done, hs.levels⟩
        exact gives_blank hs hrest hblank hline (gives_outline hs' hrows)
      | false =>
        rw [outline, if_neg (by simp [hblank])]
        refine gives_row hs hrest hblank hline (by simp [LineEnd]) ?_
        have hs' : AtLine { s with
            rest, line := s.line + 1, column := 1, atLineStart := true
            indents := enterLevel (Row.width row) s.indents } :=
          ⟨rfl, rfl, hs.pending, hs.done, hs.levels.enter _⟩
        exact gives_newline rfl rfl hs.pending hs.done (gives_outline hs' hrows)

end Scanner

/-- **What a text gives is told by its lines.** -/
theorem Scanner.gives_ofSource (source : Bytes) :
    (Scanner.ofSource source).Gives (outline 1 [] (rowsOf source)) :=
  gives_outline ⟨rfl, rfl, rfl, rfl, .nil⟩ rfl

end Terrace
