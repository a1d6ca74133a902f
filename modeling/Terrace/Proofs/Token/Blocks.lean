/-
# The block structure of the token stream

Reading a text token by token comes to an end: the end of the text, which is handed out forever
after, or an error. If the text is read to its end, the tokens are those of its lines, one after
another. A line that holds something gives the ends and beginnings of blocks, its words and one
newline; a line that holds nothing gives a newline only. The blocks that are open at a line are
those of the widths that lead to its own, so blocks are balanced and never closed before they are
opened. The only error that the indentation can cause is a line on the level of no open block.

Key definitions: `Scanner.call`, `levelsOf`, `depth`, `TellsLine`, `ReadThrough`, `Blocks`.
Key theorems: `outline_clean`, `outline_faulty`, `source_blocks`.
-/
import Mathlib.Data.List.Chain
import Terrace.Proofs.Token.Outline

namespace Terrace

/-! ### Lines without an error -/

/-- The levels of the open blocks after a line. -/
def levelsAfter (levels : List Nat) (row : Bytes) : List Nat :=
  if Row.isBlank row then levels else enterLevel (Row.width row) levels

/-- The levels of the open blocks after some lines. -/
def levelsOf (levels : List Nat) (rows : List Bytes) : List Nat := rows.foldl levelsAfter levels

theorem Nested.after {levels : List Nat} (h : Nested levels) (row : Bytes) :
    Nested (levelsAfter levels row) := by
  unfold levelsAfter
  split_ifs
  · exact h
  · exact h.enter _

theorem Nested.of {levels : List Nat} (h : Nested levels) (rows : List Bytes) :
    Nested (levelsOf levels rows) := by
  induction rows generalizing levels with
  | nil => exact h
  | cons row rows ih => exact ih (h.after row)

/-- A line without an error: it holds nothing, or it is on one of the levels and its words can be
read. -/
def Faultless (levels : List Nat) (row : Bytes) : Prop :=
  Row.isBlank row = false →
    (enterLevel (Row.width row) levels).headD 0 = Row.width row ∧
      ∀ slip, .error slip ∉ Row.wordsFrom 0 0 row

/-- Lines without an error, inside open blocks. -/
def Clean : List Nat → List Bytes → Prop
  | _, [] => True
  | levels, row :: rows => Faultless levels row ∧ Clean (levelsAfter levels row) rows

/-- After lines without an error comes one that is on none of the levels. -/
def Misplaced (levels : List Nat) (rows : List Bytes) : Prop :=
  ∃ before row after, rows = before ++ row :: after ∧ Clean levels before ∧
    Row.isBlank row = false ∧
      (enterLevel (Row.width row) (levelsOf levels before)).headD 0 ≠ Row.width row

theorem misplaced_cons {levels : List Nat} {row : Bytes} {rows : List Bytes} :
    Misplaced levels (row :: rows) ↔
      (Row.isBlank row = false ∧ (enterLevel (Row.width row) levels).headD 0 ≠ Row.width row) ∨
      (Faultless levels row ∧ Misplaced (levelsAfter levels row) rows) := by
  constructor
  · rintro ⟨_ | ⟨first, before⟩, misfit, after, hrows, hclean, hblank, hwidth⟩
    · cases hrows
      exact Or.inl ⟨hblank, hwidth⟩
    · cases hrows
      exact Or.inr ⟨hclean.1, before, misfit, after, rfl, hclean.2, hblank, hwidth⟩
  · rintro (⟨hblank, hwidth⟩ | ⟨hfaultless, before, misfit, after, rfl, hclean, hblank, hwidth⟩)
    · exact ⟨[], row, rows, rfl, trivial, hblank, hwidth⟩
    · exact ⟨row :: before, misfit, after, rfl, ⟨hfaultless, hclean⟩, hblank, hwidth⟩

/-! ### Words -/

namespace Row

variable {line column : Nat} {row : Bytes}

theorem wordsFrom_word {token : Token} (h : .ok token ∈ wordsFrom line column row) :
    token.line = line ∧ token.kind.isWord = true := by
  obtain ⟨slip | first, _, _, place, hpiece, hitem⟩ := exists_wordPiece_of_mem h
  · cases hitem
  · cases hitem
    exact ⟨rfl, @wordPiece_isWord _ _ first hpiece⟩

theorem wordPiece_slip {slip : Slip} {rest : Bytes}
    (h : wordPiece row = some (.error slip, rest)) : slip ≠ .misplaced := by
  unfold wordPiece at h
  split at h
  · cases h
  · split_ifs at h
    · split at h
      next hbody =>
        cases h
        exact stringBody_slip hbody
      · cases h
    · split at h <;> cases h

theorem wordsFrom_slip {slip : Slip} (h : .error slip ∈ wordsFrom line column row) :
    slip ≠ .misplaced := by
  obtain ⟨slip' | first, _, _, _, hpiece, hitem⟩ := exists_wordPiece_of_mem h
  · cases hitem
    exact wordPiece_slip hpiece
  · cases hitem

/-- A line that holds something begins with a word or an error. -/
theorem wordsFrom_ne_nil (h : isBlank row = false) : wordsFrom line column row ≠ [] := by
  cases hpiece : wordPiece row with
  | none =>
    rw [wordPiece_eq_none.mp hpiece] at h
    cases h
  | some found =>
    obtain ⟨slip | first, rest⟩ := found
    · rw [wordsFrom_error hpiece]
      simp
    · rw [wordsFrom_ok hpiece]
      simp

theorem mem_wordsFrom_error {slip : Slip} (line column line' column' : Nat)
    (h : .error slip ∈ wordsFrom line column row) : .error slip ∈ wordsFrom line' column' row := by
  have hmem : bare (.error slip) ∈ (wordsFrom line column row).map bare := List.mem_map_of_mem h
  rw [bare_wordsFrom line column line' column'] at hmem
  obtain ⟨item, hitem, hbare⟩ := List.mem_map.mp hmem
  cases item with
  | error slip' =>
    cases hbare
    exact hitem
  | ok token => cases hbare

end Row

/-- The tokens among what a text gives. -/
def tokensOf (items : List Lexeme) : List Token := items.filterMap Except.toOption

theorem andThen_ok : ∀ {items : List Lexeme}, (∀ slip, .error slip ∉ items) → ∀ after,
    andThen items after = (tokensOf items).map .ok ++ after
  | [], _, _ => rfl
  | .error slip :: _, h, _ => absurd List.mem_cons_self (h slip)
  | .ok token :: items, h, after => by
    rw [andThen, andThen_ok (fun slip hslip => h slip (List.mem_cons_of_mem _ hslip)) after]
    rfl

theorem mem_tokensOf {items : List Lexeme} {token : Token} (h : token ∈ tokensOf items) :
    .ok token ∈ items := by
  obtain ⟨item, hitem, htoken⟩ := List.mem_filterMap.mp h
  cases item with
  | error slip => cases htoken
  | ok found =>
    cases htoken
    exact hitem

theorem andThen_error : ∀ {items : List Lexeme} {slip : Slip}, .error slip ∈ items →
    ∃ (tokens : List Token) (first : Slip),
      (∀ after, andThen items after = tokens.map .ok ++ [.error first]) ∧
      (∀ token ∈ tokens, .ok token ∈ items) ∧ .error first ∈ items
  | .error first :: _, _, _ => ⟨[], first, fun _ => rfl, nofun, List.mem_cons_self⟩
  | .ok token :: items, slip, h => by
    have hrest : .error slip ∈ items := by simpa using h
    obtain ⟨tokens, first, heq, htokens, hfirst⟩ := andThen_error hrest
    refine ⟨token :: tokens, first, fun after => by rw [andThen, heq]; rfl, ?_,
      List.mem_cons_of_mem _ hfirst⟩
    intro found hfound
    rcases List.mem_cons.mp hfound with rfl | hfound
    · exact List.mem_cons_self
    · exact List.mem_cons_of_mem _ (htokens found hfound)

/-! ### The tokens of the lines -/

/-- The tokens of a line; the last line has no end, and gives a newline only behind words. -/
def lineTokens (line : Nat) (levels : List Nat) (row : Bytes) (last : Bool) : List Token :=
  if Row.isBlank row then
    if last then [] else [mark .newline line (row.length + 1)]
  else marks line (1 + (row.takeWhile isSpace).length) levels (levelsAfter levels row) ++
    tokensOf (Row.wordsFrom line 1 row) ++ [mark .newline line (row.length + 1)]

/-- The tokens of lines, line by line. -/
def linesTokens (line : Nat) (levels : List Nat) : List Bytes → List (List Token)
  | [] => []
  | row :: rows => lineTokens line levels row rows.isEmpty ::
    linesTokens (line + 1) (levelsAfter levels row) rows

/-- The tokens at the end of a text. -/
def closers (line column : Nat) (levels : List Nat) : List Token :=
  List.replicate levels.length (mark .dedent line column) ++ [mark .finish line column]

theorem closing_eq (line column : Nat) (levels : List Nat) :
    closing line column levels = (closers line column levels).map .ok := by
  simp [closing, closers]

/-- What a line without an error gives before what follows it. -/
theorem outline_row {line : Nat} {levels : List Nat} {row : Bytes}
    (hblank : Row.isBlank row = false) (h : Faultless levels row) (after : List Lexeme) :
    (if (enterLevel (Row.width row) levels).headD 0 = Row.width row then
        (marks line (1 + (row.takeWhile isSpace).length) levels
          (enterLevel (Row.width row) levels)).map .ok ++
          andThen (Row.wordsFrom line 1 row) (.ok (mark .newline line (row.length + 1)) :: after)
      else [.error .misplaced]) =
      (lineTokens line levels row false).map .ok ++ after := by
  obtain ⟨hwidth, hwords⟩ := h hblank
  rw [if_pos hwidth,
    andThen_ok fun slip hslip => hwords slip (Row.mem_wordsFrom_error _ _ _ _ hslip),
    lineTokens, levelsAfter, if_neg (by simp [hblank]), if_neg (by simp [hblank])]
  simp

/-- **Without an error a text gives the tokens of its lines** and the ends of what is open. -/
theorem outline_clean : ∀ {rows : List Bytes} {line : Nat} {levels : List Nat}, rows ≠ [] →
    Clean levels rows → ∃ last column, outline line levels rows =
      ((linesTokens line levels rows).flatten ++ closers last column (levelsOf levels rows)).map .ok
  | [], _, _, hne, _ => absurd rfl hne
  | [row], line, levels, _, hclean => by
    refine ⟨line, row.length + 1, ?_⟩
    rw [outline, levelsOf, List.foldl_cons, List.foldl_nil]
    cases hblank : Row.isBlank row with
    | true => simp [linesTokens, lineTokens, levelsAfter, hblank, closing_eq]
    | false =>
      have hrow := @outline_row line levels row hblank hclean.1
        (closing line (row.length + 1) (enterLevel (Row.width row) levels))
      rw [if_neg (by simp)]
      refine hrow.trans ?_
      simp [linesTokens, lineTokens, levelsAfter, hblank, closing_eq]
  | row :: next :: others, line, levels, _, hclean => by
    obtain ⟨last, column, houtline⟩ := @outline_clean (next :: others) (line + 1)
      (levelsAfter levels row) (by simp) hclean.2
    refine ⟨last, column, ?_⟩
    rw [outline]
    cases hblank : Row.isBlank row with
    | true =>
      rw [levelsAfter, if_pos hblank] at houtline
      rw [if_pos rfl, houtline]
      simp [linesTokens, lineTokens, levelsAfter, hblank, levelsOf]
    | false =>
      have hrow := @outline_row line levels row hblank hclean.1
        (outline (line + 1) (enterLevel (Row.width row) levels) (next :: others))
      rw [if_neg (by simp)]
      refine hrow.trans ?_
      rw [levelsAfter, hblank, if_neg (by simp)] at houtline
      rw [houtline]
      simp [linesTokens, lineTokens, levelsAfter, hblank, levelsOf]

/-- A text with an error gives tokens up to it. That the indentation is to blame shows in the
lines. -/
structure Fails (levels : List Nat) (rows : List Bytes) (items : List Lexeme) (tokens : List Token)
    (slip : Slip) : Prop where
  items : items = tokens.map .ok ++ [.error slip]
  going : ∀ token ∈ tokens, token.kind ≠ .finish
  misplaced : slip = .misplaced ↔ Misplaced levels rows

theorem marks_kind {line column : Nat} {levels levels' : List Nat} {token : Token}
    (h : token ∈ marks line column levels levels') :
    token.line = line ∧ (token.kind = .indent ∨ token.kind = .dedent) := by
  rcases List.mem_append.mp h with h | h
  · rw [List.eq_of_mem_replicate h]
    exact ⟨rfl, Or.inl rfl⟩
  · rw [List.eq_of_mem_replicate h]
    exact ⟨rfl, Or.inr rfl⟩

theorem TokenKind.isWord_ne_finish {kind : TokenKind} (h : kind.isWord = true) :
    kind ≠ .finish := by
  rintro rfl
  cases h

theorem lineTokens_ne_finish {line : Nat} {levels : List Nat} {row : Bytes} {last : Bool}
    {token : Token} (h : token ∈ lineTokens line levels row last) : token.kind ≠ .finish := by
  unfold lineTokens at h
  split_ifs at h
  · cases h
  · rw [List.mem_singleton.mp h]
    simp [mark]
  · rcases List.mem_append.mp h with h | h
    · rcases List.mem_append.mp h with h | h
      · exact mark_ne_finish h
      · exact TokenKind.isWord_ne_finish (Row.wordsFrom_word (mem_tokensOf h)).2
    · rw [List.mem_singleton.mp h]
      simp [mark]

/-- A line with an error of its own. -/
theorem outline_row_faulty {line : Nat} {levels : List Nat} {row : Bytes} {rows : List Bytes}
    (h : ¬ Faultless levels row) :
    ∃ tokens slip, Fails levels (row :: rows) (outline line levels (row :: rows)) tokens slip := by
  rw [Faultless, Classical.not_imp] at h
  obtain ⟨hblank, hfault⟩ := h
  rw [outline.eq_def]
  dsimp only
  rw [if_neg (by simp [hblank])]
  by_cases hwidth : (enterLevel (Row.width row) levels).headD 0 = Row.width row
  · have hwords : ∃ slip, .error slip ∈ Row.wordsFrom 0 0 row := by
      by_contra hnone
      exact hfault ⟨hwidth, fun slip hslip => hnone ⟨slip, hslip⟩⟩
    obtain ⟨slip, hslip⟩ := hwords
    rw [if_pos hwidth]
    obtain ⟨tokens, first, heq, htokens, hfirst⟩ := andThen_error
      (Row.mem_wordsFrom_error 0 0 line 1 hslip)
    refine ⟨marks line (1 + (row.takeWhile isSpace).length) levels
      (enterLevel (Row.width row) levels) ++ tokens, first, ?_, ?_, ?_⟩
    · rw [heq, List.map_append, List.append_assoc]
    · intro token htoken
      rcases List.mem_append.mp htoken with htoken | htoken
      · exact mark_ne_finish htoken
      · exact TokenKind.isWord_ne_finish (Row.wordsFrom_word (htokens token htoken)).2
    · rw [misplaced_cons]
      constructor
      · intro hmisplaced
        exact absurd hmisplaced (Row.wordsFrom_slip hfirst)
      · rintro (⟨_, hmisfit⟩ | ⟨hfaultless, _⟩)
        · exact absurd hwidth hmisfit
        · exact absurd hslip ((hfaultless hblank).2 slip)
  · rw [if_neg hwidth]
    refine ⟨[], .misplaced, rfl, List.forall_mem_nil _, ?_⟩
    rw [misplaced_cons]
    exact ⟨fun _ => Or.inl ⟨hblank, hwidth⟩, fun _ => rfl⟩

theorem Fails.after {line : Nat} {levels : List Nat} {row : Bytes} {rows : List Bytes}
    {items items' : List Lexeme} {tokens : List Token} {slip : Slip}
    (hfaultless : Faultless levels row) (h : Fails (levelsAfter levels row) rows items' tokens slip)
    (hitems : items = (lineTokens line levels row false).map .ok ++ items') :
    Fails levels (row :: rows) items (lineTokens line levels row false ++ tokens) slip where
  items := by rw [hitems, h.items, List.map_append, List.append_assoc]
  going token htoken := by
    rcases List.mem_append.mp htoken with htoken | htoken
    · exact lineTokens_ne_finish htoken
    · exact h.going token htoken
  misplaced := by
    rw [misplaced_cons, h.misplaced]
    constructor
    · exact fun hmisplaced => Or.inr ⟨hfaultless, hmisplaced⟩
    · rintro (⟨hblank, hmisfit⟩ | ⟨_, hmisplaced⟩)
      · exact absurd (hfaultless hblank).1 hmisfit
      · exact hmisplaced

/-- **With an error a text gives the tokens up to it.** -/
theorem outline_faulty : ∀ {rows : List Bytes} {line : Nat} {levels : List Nat},
    ¬ Clean levels rows → ∃ tokens slip, Fails levels rows (outline line levels rows) tokens slip
  | [], _, _, h => absurd trivial h
  | [row], line, levels, h => outline_row_faulty fun hfaultless => h ⟨hfaultless, trivial⟩
  | row :: next :: others, line, levels, h => by
    by_cases hfaultless : Faultless levels row
    · obtain ⟨tokens, slip, hfails⟩ := @outline_faulty (next :: others) (line + 1)
        (levelsAfter levels row) fun hclean => h ⟨hfaultless, hclean⟩
      refine ⟨lineTokens line levels row false ++ tokens, slip, hfails.after hfaultless ?_⟩
      rw [outline]
      cases hblank : Row.isBlank row with
      | true => simp [lineTokens, levelsAfter, hblank]
      | false =>
        have hrow := @outline_row line levels row hblank hfaultless
          (outline (line + 1) (enterLevel (Row.width row) levels) (next :: others))
        rw [if_neg (by simp)]
        refine hrow.trans ?_
        rw [levelsAfter, hblank, if_neg (by simp)]
    · exact outline_row_faulty hfaultless

/-! ### Call by call -/

namespace Scanner

/-- The answer to call number `n`, from 0. -/
def call : Nat → Scanner → Except LexicalError Token
  | 0, s => s.next.map (·.1)
  | n + 1, s =>
    match s.next with
    | .error e => .error e
    | .ok (_, s) => call n s

variable {s : Scanner} {items : List Lexeme}

/-- Once it is done, a scanner hands out the end of the text. -/
theorem call_done (hdone : s.done = true) (hpending : s.pending = []) (n : Nat) :
    ∃ token, s.call n = .ok token ∧ token.kind = .finish := by
  have hnext : s.next = .ok (s.tokenHere .finish [], s) := by
    rw [next, nextWithin, hpending]
    dsimp only
    rw [if_pos hdone]
  induction n with
  | zero => exact ⟨_, by rw [call, hnext]; rfl, rfl⟩
  | succ n ih =>
    rw [call, hnext]
    exact ih

theorem call_zero {first : Token} {s' : Scanner} (h : s.next = .ok (first, s')) :
    s.call 0 = .ok first := by
  rw [call, h]
  rfl

theorem call_succ {first : Token} {s' : Scanner} (h : s.next = .ok (first, s')) (n : Nat) :
    s.call (n + 1) = s'.call n := by
  rw [call, h]

theorem calls_cons {first : Token} {others : List Token} {s' : Scanner}
    (hnext : s.next = .ok (first, s'))
    (h : ∀ n token, others[n]? = some token → s'.call n = .ok token) :
    ∀ n token, (first :: others)[n]? = some token → s.call n = .ok token
  | 0, _, hn => by
    cases hn
    exact call_zero hnext
  | n + 1, found, hn => (call_succ hnext n).trans (h n found hn)

/-- Calls give tokens up to the end of the text, and the end from then on. -/
theorem calls_ok : ∀ {tokens : List Token} {s : Scanner}, Gives s (tokens.map .ok) →
    (∀ n token, tokens[n]? = some token → s.call n = .ok token) ∧
      ∀ n, tokens.length ≤ n → ∃ token, s.call n = .ok token ∧ token.kind = .finish
  | [], _, h => nomatch h
  | first :: others, s, h => by
    generalize hitems : (first :: others).map Except.ok = items at h
    cases h with
    | @finish s s' last hnext hfinish hdone hpending =>
      obtain ⟨hfirst, hothers⟩ : first = last ∧ others = [] := by simpa using hitems
      subst hfirst hothers
      refine ⟨calls_cons hnext nofun, fun n hn => ?_⟩
      obtain ⟨n, rfl⟩ := Nat.exists_eq_succ_of_ne_zero (Nat.pos_iff_ne_zero.mp hn)
      rw [call_succ hnext]
      exact call_done hdone hpending n
    | error hnext => simp at hitems
    | @token s s' found rest hnext hfinish hrest =>
      obtain ⟨hfirst, hothers⟩ : first = found ∧ others.map Except.ok = rest := by
        simpa using hitems
      subst hfirst hothers
      obtain ⟨hcalls, hend⟩ := calls_ok hrest
      refine ⟨calls_cons hnext hcalls, fun n hn => ?_⟩
      obtain ⟨n, rfl⟩ := Nat.exists_eq_succ_of_ne_zero (Nat.pos_iff_ne_zero.mp
        (Nat.lt_of_lt_of_le (Nat.succ_pos _) hn))
      rw [call_succ hnext]
      exact hend n (Nat.le_of_succ_le_succ hn)

/-- Calls give tokens up to an error. -/
theorem calls_error {slip : Slip} : ∀ {tokens : List Token} {s : Scanner},
    Gives s (tokens.map .ok ++ [.error slip]) → (∀ token ∈ tokens, token.kind ≠ .finish) →
    (∀ n token, tokens[n]? = some token → s.call n = .ok token) ∧
      ∃ e, s.call tokens.length = .error e ∧ e.cause.slip = slip
  | [], s, h, _ => by
    generalize hitems : ([] : List Token).map Except.ok ++ [.error slip] = items at h
    cases h with
    | finish hnext => simp at hitems
    | @error s e hnext =>
      have hslip : slip = e.cause.slip := by simpa using hitems
      refine ⟨nofun, e, ?_, hslip.symm⟩
      rw [List.length_nil, call, hnext]
      rfl
    | token hnext => simp at hitems
  | first :: others, s, h, hgoing => by
    generalize hitems : (first :: others).map Except.ok ++ [.error slip] = items at h
    cases h with
    | @finish s s' last hnext hfinish => simp at hitems
    | error hnext => simp at hitems
    | @token s s' found rest hnext hfinish hrest =>
      obtain ⟨hfirst, hothers⟩ : first = found ∧ others.map Except.ok ++ [.error slip] = rest := by
        simpa using hitems
      subst hfirst hothers
      obtain ⟨hcalls, e, hend, hslip⟩ := calls_error hrest fun token htoken =>
        hgoing token (List.mem_cons_of_mem _ htoken)
      refine ⟨calls_cons hnext hcalls, e, ?_, hslip⟩
      rw [List.length_cons, call_succ hnext, hend]

end Scanner

/-! ### Depth -/

/-- The blocks that some tokens open, less those that they close. -/
def depth (tokens : List Token) : Int :=
  tokens.countP (·.kind == .indent) - tokens.countP (·.kind == .dedent)

@[simp] theorem depth_nil : depth [] = 0 := rfl

theorem depth_append (tokens tokens' : List Token) :
    depth (tokens ++ tokens') = depth tokens + depth tokens' := by
  simp only [depth, List.countP_append]
  push_cast
  omega

/-- Tokens that open and close nothing. -/
theorem depth_flat {tokens : List Token}
    (h : ∀ token ∈ tokens, token.kind ≠ .indent ∧ token.kind ≠ .dedent) : depth tokens = 0 := by
  have hindent : tokens.countP (·.kind == .indent) = 0 :=
    List.countP_eq_zero.mpr fun token htoken => by simpa using (h token htoken).1
  have hdedent : tokens.countP (·.kind == .dedent) = 0 :=
    List.countP_eq_zero.mpr fun token htoken => by simpa using (h token htoken).2
  rw [depth, hindent, hdedent]
  rfl

theorem depth_indents (count line column : Nat) :
    depth (List.replicate count (mark .indent line column)) = count := by
  simp [depth, List.countP_replicate, mark]

theorem depth_dedents (count line column : Nat) :
    depth (List.replicate count (mark .dedent line column)) = -count := by
  simp [depth, List.countP_replicate, mark]

theorem depth_marks (line column : Nat) (levels levels' : List Nat) :
    depth (marks line column levels levels') = levels'.length - levels.length := by
  rw [marks, depth_append, depth_indents, depth_dedents]
  omega

/-- No block is closed that is not open, if so many are open before. -/
def Covers (start : Nat) (tokens : List Token) : Prop := ∀ n, 0 ≤ start + depth (tokens.take n)

theorem Covers.append {start start' : Nat} {tokens tokens' : List Token} (h : Covers start tokens)
    (h' : Covers start' tokens') (hstart : (start' : Int) = start + depth tokens) :
    Covers start (tokens ++ tokens') := by
  intro n
  rw [List.take_append, depth_append]
  rcases Nat.le_total n tokens.length with hle | hle
  · rw [Nat.sub_eq_zero_of_le hle, List.take_zero, depth_nil, Int.add_zero]
    exact h n
  · rw [List.take_of_length_le hle, ← Int.add_assoc, ← hstart]
    exact h' _

theorem covers_flat {start : Nat} {tokens : List Token}
    (h : ∀ token ∈ tokens, token.kind ≠ .indent ∧ token.kind ≠ .dedent) : Covers start tokens := by
  intro n
  rw [depth_flat fun token htoken => h token (List.take_subset _ _ htoken)]
  omega

theorem covers_dedents {start count : Nat} (h : count ≤ start) (line column : Nat) :
    Covers start (List.replicate count (mark .dedent line column)) := by
  intro n
  rw [List.take_replicate, depth_dedents]
  omega

theorem covers_marks (line column : Nat) (levels levels' : List Nat) :
    Covers levels.length (marks line column levels levels') := by
  have hindents : Covers levels.length
      (List.replicate (levels'.length - levels.length) (mark .indent line column)) := by
    intro n
    rw [List.take_replicate, depth_indents]
    omega
  refine hindents.append (@covers_dedents (levels.length + (levels'.length - levels.length)) _
    (by omega) _ _) ?_
  rw [depth_indents]
  push_cast
  rfl

/-! ### Lines -/

/-- The start and the end of a block stand at the start of a text, or behind the end of a line or
of another block. -/
def MayFollow (first second : Token) : Prop :=
  second.kind = .indent ∨ second.kind = .dedent → first.kind = .newline ∨ first.kind = .dedent

section
variable {line : Nat} {levels : List Nat} {row : Bytes} {last : Bool}

theorem words_flat {token : Token} (h : token ∈ tokensOf (Row.wordsFrom line 1 row)) :
    token.line = line ∧ token.kind.isWord = true := Row.wordsFrom_word (mem_tokensOf h)

theorem TokenKind.isWord_flat {kind : TokenKind} (h : kind.isWord = true) :
    kind ≠ .indent ∧ kind ≠ .dedent := by
  constructor <;> rintro rfl <;> cases h

theorem newline_flat {token : Token} {column : Nat} (h : token ∈ [mark .newline line column]) :
    token.kind ≠ .indent ∧ token.kind ≠ .dedent := by
  rw [List.mem_singleton.mp h]
  simp [mark]

theorem depth_lineTokens (line : Nat) (levels : List Nat) (row : Bytes) (last : Bool) :
    depth (lineTokens line levels row last) = (levelsAfter levels row).length - levels.length := by
  unfold lineTokens
  split_ifs with hblank hlast
  · simp [levelsAfter, hblank]
  · rw [depth_flat fun _ => newline_flat, levelsAfter, if_pos hblank, Int.sub_self]
  · rw [depth_append, depth_append, depth_marks,
      depth_flat fun _ htoken => TokenKind.isWord_flat (words_flat htoken).2,
      depth_flat fun _ => newline_flat, Int.add_zero, Int.add_zero]

theorem covers_lineTokens (line : Nat) (levels : List Nat) (row : Bytes) (last : Bool) :
    Covers levels.length (lineTokens line levels row last) := by
  unfold lineTokens
  split_ifs
  · exact covers_flat nofun
  · exact covers_flat fun _ => newline_flat
  · rw [List.append_assoc]
    refine @Covers.append _ (levelsAfter levels row).length _ _ (covers_marks _ _ _ _)
      (covers_flat fun token htoken => ?_) ?_
    · rcases List.mem_append.mp htoken with htoken | htoken
      · exact TokenKind.isWord_flat (words_flat htoken).2
      · exact newline_flat htoken
    · rw [depth_marks]
      omega

theorem length_enterLevel_le (width : Nat) (levels : List Nat) :
    (enterLevel width levels).length ≤ levels.length + 1 := by
  unfold enterLevel
  split_ifs
  · exact Nat.le_refl _
  · exact Nat.le_succ_of_le (List.dropWhile_suffix _).length_le

theorem length_levelsAfter_le (levels : List Nat) (row : Bytes) :
    (levelsAfter levels row).length ≤ levels.length + 1 := by
  unfold levelsAfter
  split_ifs
  · exact Nat.le_succ _
  · exact length_enterLevel_le _ _

/-- Behind anything there may be tokens that open and close nothing. -/
theorem chain_append_flat {tokens tokens' : List Token} (hchain : tokens.IsChain MayFollow)
    (h : ∀ token ∈ tokens', token.kind ≠ .indent ∧ token.kind ≠ .dedent) :
    (tokens ++ tokens').IsChain MayFollow := by
  have hfollow : ∀ first, ∀ second ∈ tokens', MayFollow first second := by
    rintro first second hsecond (hkind | hkind)
    · exact absurd hkind (h second hsecond).1
    · exact absurd hkind (h second hsecond).2
  refine List.isChain_append.mpr ⟨hchain, ?_, fun first _ second hsecond =>
    hfollow first second (List.mem_of_mem_head? hsecond)⟩
  induction tokens' with
  | nil => exact .nil
  | cons token tokens' ih =>
    refine List.isChain_cons.mpr ⟨fun second hsecond => hfollow token second
      (List.mem_cons_of_mem _ (List.mem_of_mem_head? hsecond)), ih ?_ ?_⟩
    · exact fun second hsecond => h second (List.mem_cons_of_mem _ hsecond)
    · exact fun first second hsecond => hfollow first second (List.mem_cons_of_mem _ hsecond)

theorem chain_dedents (count line column : Nat) :
    (List.replicate count (mark .dedent line column)).IsChain MayFollow := by
  induction count with
  | zero => exact .nil
  | succ count ih =>
    refine List.isChain_cons.mpr ⟨fun second _ _ => Or.inr rfl, ih⟩

theorem chain_marks (line column : Nat) {levels levels' : List Nat}
    (h : levels'.length ≤ levels.length + 1) :
    (marks line column levels levels').IsChain MayFollow := by
  rcases Nat.lt_or_ge levels.length levels'.length with hdeeper | hshallower
  · have hone : levels'.length - levels.length = 1 := by omega
    rw [marks, hone, Nat.sub_eq_zero_of_le (Nat.le_of_lt hdeeper)]
    exact .singleton _
  · rw [marks, Nat.sub_eq_zero_of_le hshallower]
    exact chain_dedents _ _ _

theorem chain_lineTokens (line : Nat) (levels : List Nat) (row : Bytes) (last : Bool) :
    (lineTokens line levels row last).IsChain MayFollow := by
  unfold lineTokens
  split_ifs
  · exact .nil
  · exact .singleton _
  · rw [List.append_assoc]
    refine chain_append_flat (chain_marks _ _ (length_levelsAfter_le _ _)) fun token htoken => ?_
    rcases List.mem_append.mp htoken with htoken | htoken
    · exact TokenKind.isWord_flat (words_flat htoken).2
    · exact newline_flat htoken

/-- A line that gives tokens ends with a newline. -/
theorem getLast_lineTokens {token : Token}
    (h : token ∈ (lineTokens line levels row last).getLast?) : token.kind = .newline := by
  unfold lineTokens at h
  split_ifs at h
  · cases h
  · cases h
    rfl
  · rw [List.getLast?_concat] at h
    cases h
    rfl

theorem line_lineTokens {token : Token} (h : token ∈ lineTokens line levels row last) :
    token.line = line := by
  unfold lineTokens at h
  split_ifs at h
  · cases h
  · rw [List.mem_singleton.mp h]
    rfl
  · rcases List.mem_append.mp h with h | h
    · rcases List.mem_append.mp h with h | h
      · exact (marks_kind h).1
      · exact (words_flat h).1
    · rw [List.mem_singleton.mp h]
      rfl

theorem words_ne_nil (hblank : Row.isBlank row = false)
    (h : ∀ slip, .error slip ∉ Row.wordsFrom line 1 row) :
    tokensOf (Row.wordsFrom line 1 row) ≠ [] := by
  intro hnil
  cases hwords : Row.wordsFrom line 1 row with
  | nil => exact Row.wordsFrom_ne_nil hblank hwords
  | cons item items =>
    rw [hwords] at hnil h
    cases item with
    | error slip => exact h slip List.mem_cons_self
    | ok token => cases hnil

/-- How the tokens of a line tell what it holds, with `levels` open and the tokens `before` it:
a line that holds nothing gives a newline only, if it has an end; any other begins with the starts
and ends of blocks, which lead to the depth of its width, and ends with its only newline. -/
structure TellsLine (row : Bytes) (line : Nat) (last : Bool) (levels : List Nat)
    (before tokens : List Token) : Prop where
  placed : ∀ token ∈ tokens, token.line = line
  blank : Row.isBlank row = true →
    tokens = if last then [] else [mark .newline line (row.length + 1)]
  held : Row.isBlank row = false → ∃ ends words,
    tokens = ends ++ words ++ [mark .newline line (row.length + 1)] ∧
      (∀ token ∈ ends, token.kind = .indent ∨ token.kind = .dedent) ∧
      words ≠ [] ∧ (∀ token ∈ words, token.kind.isWord = true) ∧
      levels.headD 0 = Row.width row ∧ depth (before ++ ends) = levels.length

theorem tellsLine (hfaultless : Faultless levels row) {before : List Token}
    (hbefore : depth before = levels.length) :
    TellsLine row line last (levelsAfter levels row) before (lineTokens line levels row last) where
  placed _ := line_lineTokens
  blank hblank := by rw [lineTokens, if_pos hblank]
  held hblank := by
    obtain ⟨hwidth, hwords⟩ := hfaultless hblank
    refine ⟨marks line (1 + (row.takeWhile isSpace).length) levels (levelsAfter levels row),
      tokensOf (Row.wordsFrom line 1 row), by rw [lineTokens, if_neg (by simp [hblank])],
      fun _ htoken => (marks_kind htoken).2,
      words_ne_nil hblank fun slip hslip => hwords slip (Row.mem_wordsFrom_error _ _ _ _ hslip),
      fun _ htoken => (words_flat htoken).2, ?_, ?_⟩
    · rw [levelsAfter, if_neg (by simp [hblank])]
      exact hwidth
    · rw [depth_append, depth_marks, hbefore]
      omega

end

/-! ### Texts -/

section
variable {rows : List Bytes} {line : Nat} {levels : List Nat}

theorem length_linesTokens : ∀ (rows : List Bytes) (line : Nat) (levels : List Nat),
    (linesTokens line levels rows).length = rows.length
  | [], _, _ => rfl
  | _ :: rows, _, _ => congrArg (· + 1) (length_linesTokens rows _ _)

theorem depth_linesTokens : ∀ (rows : List Bytes) (line : Nat) (levels : List Nat),
    depth (linesTokens line levels rows).flatten = (levelsOf levels rows).length - levels.length
  | [], _, _ => by simp [linesTokens, levelsOf]
  | row :: rows, line, levels => by
    rw [linesTokens, List.flatten_cons, depth_append, depth_lineTokens,
      depth_linesTokens rows (line + 1) (levelsAfter levels row), levelsOf, levelsOf,
      List.foldl_cons]
    omega

theorem depth_closers (line column : Nat) (levels : List Nat) :
    depth (closers line column levels) = -levels.length := by
  rw [closers, depth_append, depth_dedents, depth_flat (by simp [mark]), Int.add_zero]

theorem covers_closers (line column : Nat) (levels : List Nat) :
    Covers levels.length (closers line column levels) :=
  @Covers.append _ 0 _ _ (covers_dedents (Nat.le_refl _) _ _) (covers_flat (by simp [mark]))
    (by rw [depth_dedents]; omega)

theorem covers_linesTokens (last column : Nat) : ∀ (rows : List Bytes) (line : Nat)
    (levels : List Nat), Covers levels.length
      ((linesTokens line levels rows).flatten ++ closers last column (levelsOf levels rows))
  | [], _, levels => covers_closers last column levels
  | row :: rows, line, levels => by
    rw [linesTokens, List.flatten_cons, List.append_assoc]
    refine (covers_lineTokens _ _ _ _).append
      (covers_linesTokens last column rows (line + 1) (levelsAfter levels row)) ?_
    rw [depth_lineTokens]
    omega

theorem chain_linesTokens (last column : Nat) : ∀ (rows : List Bytes) (line : Nat)
    (levels : List Nat), ((linesTokens line levels rows).flatten ++
      closers last column (levelsOf levels rows)).IsChain MayFollow
  | [], _, levels => by
    rw [linesTokens, List.flatten_nil, List.nil_append, closers]
    exact chain_append_flat (chain_dedents _ _ _) (by simp [mark])
  | row :: rows, line, levels => by
    rw [linesTokens, List.flatten_cons, List.append_assoc]
    exact List.isChain_append.mpr ⟨chain_lineTokens _ _ _ _,
      chain_linesTokens last column rows (line + 1) (levelsAfter levels row),
      fun first hfirst _ _ _ => Or.inl (getLast_lineTokens hfirst)⟩

theorem linesTokens_ne_finish {token : Token} : ∀ {rows : List Bytes} {line : Nat}
    {levels : List Nat}, token ∈ (linesTokens line levels rows).flatten → token.kind ≠ .finish
  | [], _, _, h => by cases h
  | row :: rows, line, levels, h => by
    rw [linesTokens, List.flatten_cons] at h
    rcases List.mem_append.mp h with h | h
    · exact lineTokens_ne_finish h
    · exact linesTokens_ne_finish h

/-- Each line gives its own tokens. -/
theorem tells_linesTokens : ∀ {rows : List Bytes} {line : Nat} {levels : List Nat} {i : Nat}
    {row : Bytes} {before : List Token}, Clean levels rows → rows[i]? = some row →
    depth before = levels.length → ∃ group, (linesTokens line levels rows)[i]? = some group ∧
      TellsLine row (line + i) (i + 1 == rows.length) (levelsOf levels (rows.take (i + 1)))
        (before ++ ((linesTokens line levels rows).take i).flatten) group
  | [], _, _, _, _, _, _, hrow, _ => by cases hrow
  | first :: rows, line, levels, 0, row, before, hclean, hrow, hbefore => by
    cases hrow
    refine ⟨_, rfl, ?_⟩
    rw [List.take_zero, List.flatten_nil, List.append_nil]
    have hlast : (0 + 1 == (first :: rows).length) = rows.isEmpty := by
      cases rows <;> simp
    rw [hlast]
    exact tellsLine hclean.1 hbefore
  | first :: rows, line, levels, i + 1, row, before, hclean, hrow, hbefore => by
    have hdepth : depth (before ++ lineTokens line levels first rows.isEmpty) =
        (levelsAfter levels first).length := by
      rw [depth_append, depth_lineTokens, hbefore]
      omega
    obtain ⟨group, hgroup, htells⟩ := @tells_linesTokens rows (line + 1)
      (levelsAfter levels first) i row _ hclean.2 hrow hdepth
    refine ⟨group, hgroup, ?_⟩
    rw [linesTokens, List.take_succ_cons, List.take_succ_cons, List.flatten_cons,
      ← List.append_assoc]
    have hline : line + (i + 1) = line + 1 + i := by omega
    have hlast : (i + 1 + 1 == (first :: rows).length) = (i + 1 == rows.length) := by simp
    rw [hline, hlast]
    exact htells

end

/-- The tokens of a text that is read to its end. -/
structure Blocks (rows : List Bytes) (tokens : List Token) : Prop where
  /-- As many blocks are closed as are opened. -/
  balanced : depth tokens = 0
  /-- No block is closed before it is opened. -/
  covered : ∀ n, 0 ≤ depth (tokens.take n)
  placed : tokens.IsChain MayFollow
  /-- The tokens are those of the lines, and the ends of what is open. -/
  lines : ∃ (groups : List (List Token)) (closing : List Token),
    tokens = groups.flatten ++ closing ∧ groups.length = rows.length ∧
    closing.map (·.kind) = List.replicate (levelsOf [] rows).length .dedent ++ [.finish] ∧
    ∀ i row, rows[i]? = some row → Nested (levelsOf [] (rows.take (i + 1))) ∧
      ∃ group, groups[i]? = some group ∧ TellsLine row (i + 1) (i + 1 == rows.length)
        (levelsOf [] (rows.take (i + 1))) (groups.take i).flatten group

theorem blocks_clean {rows : List Bytes} (h : Clean [] rows) (last column : Nat) :
    Blocks rows ((linesTokens 1 [] rows).flatten ++ closers last column (levelsOf [] rows)) where
  balanced := by
    rw [depth_append, depth_linesTokens, depth_closers]
    simp
  covered n := by
    have hcovers := covers_linesTokens last column rows 1 [] n
    rwa [List.length_nil, Int.natCast_zero, Int.zero_add] at hcovers
  placed := chain_linesTokens last column rows 1 []
  lines := by
    refine ⟨_, _, rfl, length_linesTokens _ _ _, by simp [closers, mark], fun i row hrow =>
      ⟨Nested.nil.of _, ?_⟩⟩
    obtain ⟨group, hgroup, htells⟩ := @tells_linesTokens _ 1 _ _ _ _ h hrow depth_nil
    rw [Nat.add_comm 1 i] at htells
    exact ⟨group, hgroup, htells⟩

/-- A scanner hands out these tokens of a text, of which only the last is the end of the text,
and then the end forever. -/
structure ReadThrough (source : Bytes) (tokens : List Token) : Prop where
  answers : ∀ n token, tokens[n]? = some token → (Scanner.ofSource source).call n = .ok token
  finish : ∃ before last, tokens = before ++ [last] ∧ last.kind = .finish ∧
    ∀ token ∈ before, token.kind ≠ .finish
  forever : ∀ n, tokens.length ≤ n →
    ∃ token, (Scanner.ofSource source).call n = .ok token ∧ token.kind = .finish

/-- A scanner hands out these tokens of a text, none of which is the end of the text, and then an
error. -/
structure Stops (source : Bytes) (tokens : List Token) (e : LexicalError) : Prop where
  answers : ∀ n token, tokens[n]? = some token → (Scanner.ofSource source).call n = .ok token
  going : ∀ token ∈ tokens, token.kind ≠ .finish
  error : (Scanner.ofSource source).call tokens.length = .error e

theorem reads_clean {source : Bytes} (h : Clean [] (rowsOf source)) :
    ∃ tokens, ReadThrough source tokens ∧ Blocks (rowsOf source) tokens := by
  obtain ⟨last, column, houtline⟩ := @outline_clean _ 1 _ (rowsOf_ne_nil source) h
  have hgives := Scanner.gives_ofSource source
  rw [houtline] at hgives
  obtain ⟨hanswers, hforever⟩ := Scanner.calls_ok hgives
  refine ⟨_, ⟨hanswers, ?_, hforever⟩, blocks_clean h last column⟩
  refine ⟨(linesTokens 1 [] (rowsOf source)).flatten ++
    List.replicate (levelsOf [] (rowsOf source)).length (mark .dedent last column),
    mark .finish last column, by rw [closers, List.append_assoc], rfl, fun token htoken => ?_⟩
  rcases List.mem_append.mp htoken with htoken | htoken
  · exact linesTokens_ne_finish htoken
  · rw [List.eq_of_mem_replicate htoken]
    simp [mark]

theorem stops_faulty {source : Bytes} (h : ¬ Clean [] (rowsOf source)) :
    ∃ tokens e, Stops source tokens e ∧
      (e.cause = .inconsistentIndentation ↔ Misplaced [] (rowsOf source)) := by
  obtain ⟨tokens, slip, hfails⟩ := @outline_faulty _ 1 _ h
  have hgives := Scanner.gives_ofSource source
  rw [hfails.items] at hgives
  obtain ⟨hanswers, e, herror, hslip⟩ := Scanner.calls_error hgives hfails.going
  refine ⟨tokens, e, ⟨hanswers, hfails.going, herror⟩, ?_⟩
  rw [← hfails.misplaced, ← hslip]
  cases e.cause <;> simp [LexicalCause.slip]

/-- After an error there is no other answer. -/
theorem Scanner.call_error {e : LexicalError} : ∀ {n : Nat} {s : Scanner}, s.call n = .error e →
    ∀ {m : Nat}, n ≤ m → s.call m = .error e
  | 0, s, h, m, _ => by
    cases hnext : s.next with
    | ok found =>
      rw [call, hnext] at h
      cases h
    | error e' =>
      rw [call, hnext] at h
      cases h
      cases m with
      | zero =>
        rw [call, hnext]
        rfl
      | succ m => rw [call, hnext]
  | n + 1, s, h, 0, hle => absurd hle (Nat.not_succ_le_zero n)
  | n + 1, s, h, m + 1, hle => by
    cases hnext : s.next with
    | error e' =>
      rw [call, hnext] at h
      cases h
      rw [call, hnext]
    | ok found =>
      rw [call, hnext] at h
      rw [call, hnext]
      exact call_error h (Nat.le_of_succ_le_succ hle)

theorem ReadThrough.no_error {source : Bytes} {tokens : List Token}
    (h : ReadThrough source tokens) (n : Nat) (e : LexicalError) : (Scanner.ofSource source).call n ≠ .error e := by
  intro herror
  obtain ⟨token, htoken, _⟩ := h.forever _ (Nat.le_max_right n _)
  rw [Scanner.call_error herror (Nat.le_max_left n _)] at htoken
  cases htoken

/-- A text whose end is handed out gives no error. -/
theorem no_error_of_finish {source : Bytes} {n : Nat} {token : Token}
    (hcall : (Scanner.ofSource source).call n = .ok token) (hfinish : token.kind = .finish)
    (m : Nat) (e : LexicalError) : (Scanner.ofSource source).call m ≠ .error e := by
  by_cases hclean : Clean [] (rowsOf source)
  · obtain ⟨tokens, hreads, _⟩ := reads_clean hclean
    exact hreads.no_error m e
  · obtain ⟨tokens, e', hstops, _⟩ := stops_faulty hclean
    refine absurd hfinish ?_
    rcases Nat.lt_or_ge n tokens.length with hlt | hge
    · have hanswer := hstops.answers n tokens[n] (List.getElem?_eq_getElem hlt)
      cases hanswer.symm.trans hcall
      exact hstops.going _ (List.getElem_mem hlt)
    · cases (Scanner.call_error hstops.error hge).symm.trans hcall

/-- A text that is read to its end has no error in its lines. -/
theorem ReadThrough.clean {source : Bytes} {tokens : List Token} (h : ReadThrough source tokens) :
    Clean [] (rowsOf source) := by
  by_contra hfaulty
  obtain ⟨tokens', e, hstops, _⟩ := stops_faulty hfaulty
  exact h.no_error _ _ hstops.error

/-- The text of some lines, each with its end. -/
def textOf (rows : List Bytes) : Bytes := rows.flatMap (· ++ ['\n'.toUInt8])

theorem rowsOf_textOf : ∀ {rows : List Bytes}, (∀ row ∈ rows, '\n'.toUInt8 ∉ row) →
    rowsOf (textOf rows) = rows ++ [[]]
  | [], _ => rfl
  | row :: rows, h => by
    have hrest := rowsOf_textOf fun row hrow => h row (List.mem_cons_of_mem _ hrow)
    rw [textOf, List.flatMap_cons, List.append_assoc, List.singleton_append, rowsOf,
      Bytes.splitOn_append (h row List.mem_cons_self), List.cons_append, ← hrest]
    rfl

end Terrace
