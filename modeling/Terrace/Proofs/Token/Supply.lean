/-
# How many tokens a text can give

Each token costs a byte of the text, except the ends of blocks and of the text; the newline
that closes the last line is one more. So what a scanner can still hand out is bounded by what
it has not read, and reading on never makes it more. A buffer can hand out the tokens that it
keeps from its position on and what its scanner still has.

Key definitions: `TokenKind.cost`, `Scanner.supply`, `TokenBuffer.supplyFrom`,
`TokenBuffer.Shows`.
Key theorems: `Scanner.scan_supply`, `Scanner.next_supply`, `TokenBuffer.peek_supplyFrom`,
`TokenBuffer.next_supply`.
-/
import Mathlib.Algebra.BigOperators.Group.List.Basic
import Terrace.Token.Buffer

namespace Terrace

/-- The bytes a token of a kind takes at least. -/
def TokenKind.cost : TokenKind → Nat
  | .finish | .dedent => 0
  | _ => 1

/-- The bytes that tokens take at least. -/
def tokensCost : List Token → Nat
  | [] => 0
  | token :: tokens => token.kind.cost + tokensCost tokens

@[simp] theorem tokensCost_nil : tokensCost [] = 0 := rfl

@[simp] theorem tokensCost_cons (token : Token) (tokens : List Token) :
    tokensCost (token :: tokens) = token.kind.cost + tokensCost tokens := rfl

@[simp] theorem tokensCost_append : ∀ first second : List Token,
    tokensCost (first ++ second) = tokensCost first + tokensCost second
  | [], second => by rw [List.nil_append, tokensCost_nil, Nat.zero_add]
  | token :: first, second => by
    rw [List.cons_append, tokensCost_cons, tokensCost_cons, tokensCost_append first second,
      Nat.add_assoc]

theorem TokenKind.cost_le_one (kind : TokenKind) : kind.cost ≤ 1 := by
  cases kind <;> decide

/-! ### Scanners -/

theorem prepend_ok {x : Except LexicalError (Bytes × Bytes)} {b : UInt8} {value rest : Bytes}
    (h : (do
      let (value, rest) ← x
      return (b :: value, rest)) = .ok (value, rest)) : ∃ tail, x = .ok (tail, rest) := by
  cases x with
  | error e => cases h
  | ok found =>
    cases h
    exact ⟨_, rfl⟩

/-- What is left of the source after a string literal is shorter than it. -/
theorem stringBody_shorter {line start : Nat} : ∀ {column : Nat} {source value rest : Bytes},
    stringBody line start column source = .ok (value, rest) → rest.length < source.length
  | _, [], _, _, h => by cases h
  | column, b :: source, value, rest, h => by
    have hstep : ∀ {column : Nat} {c : UInt8} {source' : Bytes}, source'.length ≤ source.length →
        (do
          let (value, rest) ← stringBody line start column source'
          return (c :: value, rest)) = Except.ok (value, rest) →
        rest.length < (b :: source).length := by
      intro column c source' hle hbody
      obtain ⟨tail, htail⟩ := prepend_ok hbody
      have hshorter := stringBody_shorter htail
      rw [List.length_cons]
      omega
    unfold stringBody at h
    split_ifs at h
    · cases h
      simp
    · split at h
      · cases h
      · split_ifs at h
        · split at h
          · split_ifs at h
            exact hstep (by simp only [List.length_cons]; omega) h
          · cases h
        · split at h
          · exact hstep (by simp) h
          · cases h
    · exact hstep (Nat.le_refl _) h
    · split at h
      · split_ifs at h
        exact hstep (by simp) h
      · cases h
      · cases h
termination_by _ source => source.length

namespace Scanner

/-- The cost of the tokens a scanner can still hand out is at most this. -/
def supply (s : Scanner) : Nat :=
  tokensCost s.pending + if s.done then 0 else s.rest.length + 1

variable {s s' : Scanner}

theorem supply_emit (s : Scanner) (kind : TokenKind) (literal : Bytes) :
    (s.emit kind literal).supply = s.supply + kind.cost := by
  show tokensCost (s.pending ++ [s.tokenHere kind literal]) +
    (if s.done then 0 else s.rest.length + 1) = _
  rw [tokensCost_append, Nat.add_right_comm]
  rfl

theorem supply_advance (hdone : s.done = false) {count : Nat} (h : count ≤ s.rest.length) :
    (s.advance count).supply + count = s.supply := by
  simp only [supply, advance, hdone, List.length_drop, Bool.false_eq_true, if_false]
  omega

/-- A newline is paid for by its byte. -/
theorem supply_line_le (hdone : s.done = false) (h : s.rest ≠ []) :
    (s.emit .newline).nextLine.supply ≤ s.supply := by
  have hpos := List.length_pos_iff.mpr h
  simp only [supply, emit, tokenHere, nextLine, tokensCost_append, tokensCost_cons,
    tokensCost_nil, TokenKind.cost, hdone, List.length_drop, Bool.false_eq_true, if_false]
  omega

theorem length_takeWhile_le (p : UInt8 → Bool) (bytes : Bytes) :
    (bytes.takeWhile p).length ≤ bytes.length :=
  (List.takeWhile_prefix p).length_le

theorem supply_skipComment_le (hdone : s.done = false) : s.skipComment.supply ≤ s.supply := by
  have hadvance := supply_advance hdone (length_takeWhile_le (· != '\n'.toUInt8) s.rest)
  rw [skipComment]
  omega

/-- The ends of blocks cost nothing. -/
theorem closeDeeper_spares (width : Nat) : ∀ (levels : List Nat) (s : Scanner),
    (closeDeeper width s levels).supply = s.supply ∧ (closeDeeper width s levels).done = s.done ∧
      (closeDeeper width s levels).rest = s.rest
  | [], s => ⟨rfl, rfl, rfl⟩
  | level :: outer, s => by
    rw [closeDeeper]
    split_ifs
    · obtain ⟨hsupply, hdone, hrest⟩ := closeDeeper_spares width outer (s.emit .dedent)
      refine ⟨?_, hdone, hrest⟩
      rw [hsupply, supply_emit]
      rfl
    · exact ⟨rfl, rfl, rfl⟩

/-- The end of the text pays for the newline that closes the last line. -/
theorem supply_finish_le (hdone : s.done = false) : s.finish.supply ≤ s.supply := by
  have hclosed : ∀ s₁ : Scanner, s₁.done = false →
      ({ (closeDeeper 0 s₁ s₁.indents).emit .finish with done := true } : Scanner).supply + 1 ≤
        s₁.supply := by
    intro s₁ hdone₁
    obtain ⟨hsupply, hdone', _⟩ := closeDeeper_spares 0 s₁.indents s₁
    rw [← hsupply]
    simp only [supply, emit, tokenHere, tokensCost_append, tokensCost_cons, tokensCost_nil,
      TokenKind.cost, hdone', hdone₁, Bool.false_eq_true, if_false, if_true]
    omega
  unfold finish
  dsimp only
  split_ifs
  · exact Nat.le_of_succ_le (hclosed s hdone)
  · have hle := hclosed { s.emit .newline with atLineStart := true } hdone
    have hsame : ({ s.emit .newline with atLineStart := true } : Scanner).supply =
        s.supply + 1 := supply_emit s .newline []
    rw [hsame] at hle
    exact Nat.le_of_succ_le_succ hle

/-- A deeper line pays for its token with a blank. -/
theorem indentTo_supply {width : Nat} (h : s.indentTo width = .ok s') :
    s'.supply ≤ s.supply + min width 1 := by
  unfold indentTo at h
  dsimp only at h
  split_ifs at h with hdeeper hshallower
  · cases h
    have hemit := supply_emit { s with atLineStart := false } .indent []
    have hpos : min width 1 = 1 := by omega
    rw [hpos]
    exact Nat.le_of_eq hemit
  · cases h
    obtain ⟨hsupply, _, _⟩ :=
      closeDeeper_spares width s.indents { s with atLineStart := false }
    rw [hsupply]
    exact Nat.le_add_right _ _
  · cases h
    exact Nat.le_add_right _ _

theorem scanIndentation_supply (hdone : s.done = false) (h : s.scanIndentation = .ok s') :
    s'.supply ≤ s.supply := by
  unfold scanIndentation at h
  dsimp only at h
  have hadvance := supply_advance hdone (length_takeWhile_le isSpace s.rest)
  have hdone₁ : (s.advance (s.rest.takeWhile isSpace).length).done = false := hdone
  generalize hblanks : s.rest.takeWhile isSpace = blanks at *
  generalize s.advance blanks.length = s₁ at *
  split at h
  · cases h
    have hfinish := supply_finish_le hdone₁
    omega
  next b rest hrest =>
    split_ifs at h with hnewline hcomment hempty
    · cases h
      have hle := supply_line_le hdone₁ (by simp [hrest])
      omega
    · cases h
      have hskip := supply_skipComment_le hdone₁
      omega
    · cases h
      have hskip := supply_skipComment_le hdone₁
      have hle := @supply_line_le s₁.skipComment hdone₁ (by simpa using hempty)
      omega
    · have hindent := indentTo_supply h
      -- without blanks there is no indentation
      have hwidth :
          min (blanks.foldr (fun b width => blankWidth b + width) 0) 1 ≤ blanks.length := by
        cases blanks with
        | nil => simp
        | cons b blanks =>
          rw [List.length_cons]
          omega
      omega

theorem scanString_supply (hdone : s.done = false) (h : s.scanString = .ok s') :
    s'.supply ≤ s.supply := by
  unfold scanString at h
  cases hbody : stringBody s.line s.column (s.column + 1) (s.rest.drop 1) with
  | error e =>
    rw [hbody] at h
    cases h
  | ok found =>
    obtain ⟨value, rest⟩ := found
    rw [hbody] at h
    cases h
    have hshorter := stringBody_shorter hbody
    rw [List.length_drop] at hshorter
    simp only [supply, advance, tokenHere, hdone, List.length_drop, List.length_take,
      tokensCost_append, tokensCost_cons, tokensCost_nil, TokenKind.cost, Bool.false_eq_true,
      if_false]
    omega

theorem scanWord_supply (hdone : s.done = false) {b : UInt8} {rest : Bytes}
    (hrest : s.rest = b :: rest) (hb : isDelimiter b = false) : s.scanWord.supply ≤ s.supply := by
  have hle := length_takeWhile_le (!isDelimiter ·) s.rest
  have hpos : 0 < (s.rest.takeWhile (!isDelimiter ·)).length := by
    rw [hrest, List.takeWhile_cons_of_pos (by simp [hb])]
    simp
  unfold scanWord
  dsimp only
  generalize s.rest.takeWhile (!isDelimiter ·) = word at *
  have hemit := supply_emit s (TokenKind.ofWord word) word
  have hadvance := @supply_advance (s.emit (TokenKind.ofWord word) word) hdone word.length hle
  have hcost := (TokenKind.ofWord word).cost_le_one
  omega

theorem punctuation_cost {b : UInt8} {kind : TokenKind} (h : punctuation b = some kind) :
    kind.cost = 1 := by
  unfold punctuation at h
  split_ifs at h <;> cases h <;> rfl

theorem isDelimiter_of {b : UInt8} (hnewline : ¬ b = '\n'.toUInt8) (hcomment : ¬ b = '#'.toUInt8)
    (hspace : isSpace b = false) (hpunctuation : punctuation b = none) : isDelimiter b = false := by
  unfold punctuation at hpunctuation
  split_ifs at hpunctuation with hleft hright hcomma hopen hclose
  simp [isDelimiter, hspace, hnewline, hcomment, hleft, hright, hcomma, hopen, hclose]

theorem ne_of_punctuation {b : UInt8} {kind : TokenKind} (h : punctuation b = some kind) :
    ¬ b = '\n'.toUInt8 ∧ ¬ b = '#'.toUInt8 ∧ ¬ b = '"'.toUInt8 := by
  unfold punctuation at h
  split_ifs at h with hleft hright hcomma hopen hclose <;> subst b <;> decide

theorem ne_of_isDelimiter {b : UInt8} (h : isDelimiter b = false) :
    ¬ b = '\n'.toUInt8 ∧ ¬ b = '#'.toUInt8 ∧ punctuation b = none := by
  simp only [isDelimiter, Bool.or_eq_false_iff, beq_eq_false_iff_ne] at h
  simp [punctuation, h]

/-- Bytes that are no delimiters are taken up to the next one. -/
theorem takeWhile_run {word rest : Bytes} (hinside : ∀ b ∈ word, isDelimiter b = false)
    (hend : ∀ b ∈ rest.head?, isDelimiter b = true) :
    (word ++ rest).takeWhile (!isDelimiter ·) = word := by
  have hall : ∀ b ∈ word, (!isDelimiter b) = true := fun b hb => by rw [hinside b hb]; rfl
  have hnone : rest.takeWhile (!isDelimiter ·) = [] := by
    cases rest with
    | nil => rfl
    | cons b rest => exact List.takeWhile_cons_of_neg (by simp [hend b rfl])
  rw [List.takeWhile_append_of_pos hall, hnone, List.append_nil]

theorem drop_takeWhile (p : UInt8 → Bool) (bytes : Bytes) :
    bytes.drop (bytes.takeWhile p).length = bytes.dropWhile p := by
  have hleft : (bytes.takeWhile p ++ bytes.dropWhile p).drop (bytes.takeWhile p).length =
      bytes.dropWhile p := List.drop_left
  rwa [List.takeWhile_append_dropWhile] at hleft

/-- The blanks of a line are skipped. -/
theorem rest_skip (s : Scanner) :
    (s.advance (s.rest.takeWhile isSpace).length).rest = s.rest.dropWhile isSpace :=
  drop_takeWhile _ _

theorem isSpace_head_skip {b : UInt8} {rest : Bytes}
    (h : (s.advance (s.rest.takeWhile isSpace).length).rest = b :: rest) : isSpace b = false := by
  have hhead := List.head?_dropWhile_not isSpace s.rest
  rw [← rest_skip, h] at hhead
  simpa using hhead

theorem scanInLine_supply (hdone : s.done = false) (h : s.scanInLine = .ok s') :
    s'.supply ≤ s.supply := by
  unfold scanInLine at h
  dsimp only at h
  have hadvance := supply_advance hdone (length_takeWhile_le isSpace s.rest)
  have hdone₁ : (s.advance (s.rest.takeWhile isSpace).length).done = false := hdone
  have hblank : ∀ {b : UInt8} {rest : Bytes},
      (s.advance (s.rest.takeWhile isSpace).length).rest = b :: rest → isSpace b = false :=
    isSpace_head_skip
  generalize s.advance (s.rest.takeWhile isSpace).length = s₁ at *
  split at h
  · cases h
    have hfinish := supply_finish_le hdone₁
    omega
  next b rest hrest =>
    split_ifs at h with hnewline hcomment hquote
    · cases h
      have hle := supply_line_le hdone₁ (by simp [hrest])
      omega
    · cases h
      have hskip := supply_skipComment_le hdone₁
      omega
    · have hstring := scanString_supply hdone₁ h
      omega
    · split at h
      next kind hkind =>
        cases h
        have hemit := supply_emit s₁ kind [b]
        have hadvance₁ := @supply_advance (s₁.emit kind [b]) hdone₁ 1 (by simp [emit, hrest])
        have hcost := punctuation_cost hkind
        omega
      next hkind =>
        cases h
        have hword := scanWord_supply hdone₁ hrest
          (isDelimiter_of hnewline hcomment (hblank hrest) hkind)
        omega

/-- **Reading on does not make more tokens.** -/
theorem scan_supply (hdone : s.done = false) (h : s.scan = .ok s') : s'.supply ≤ s.supply := by
  unfold scan at h
  split_ifs at h
  · exact scanIndentation_supply hdone h
  · exact scanInLine_supply hdone h

theorem nextWithin_supply {token : Token} : ∀ {fuel : Nat} {s s' : Scanner},
    nextWithin fuel s = .ok (token, s') → token.kind.cost + s'.supply ≤ s.supply := by
  intro fuel
  induction fuel with
  | zero =>
    intro s s' h
    unfold nextWithin at h
    split at h
    next first rest hpending =>
      cases h
      simp only [supply, hpending, tokensCost_cons]
      omega
    next hpending =>
      split_ifs at h <;> cases h <;> exact Nat.le_of_eq (Nat.zero_add _)
  | succ fuel ih =>
    intro s s' h
    unfold nextWithin at h
    split at h
    next first rest hpending =>
      cases h
      simp only [supply, hpending, tokensCost_cons]
      omega
    next hpending =>
      split_ifs at h with hdone
      · cases h
        exact Nat.le_of_eq (Nat.zero_add _)
      · cases hscan : s.scan with
        | error e =>
          rw [hscan] at h
          cases h
        | ok s₁ =>
          rw [hscan] at h
          have hle := scan_supply (by simpa using hdone) hscan
          have hnext := ih h
          omega

/-- **A token is paid for by what the scanner has.** -/
theorem next_supply {token : Token} (h : s.next = .ok (token, s')) :
    token.kind.cost + s'.supply ≤ s.supply := nextWithin_supply h

theorem supply_ofSource (source : Bytes) : (ofSource source).supply = source.length + 1 :=
  Nat.zero_add _

end Scanner

/-! ### Buffers -/

namespace TokenBuffer

variable {b : TokenBuffer} {token : Token}

/-- The cost of the tokens a buffer can hand out from a place on is at most this. -/
def supplyFrom (b : TokenBuffer) (mark : Nat) : Nat :=
  tokensCost (b.tokens.toList.drop mark) + b.scanner.supply

/-- The cost of the tokens a buffer can still hand out is at most this. -/
def supply (b : TokenBuffer) : Nat := b.supplyFrom b.position

/-- The next token is kept already. -/
def Shows (b : TokenBuffer) (token : Token) : Prop := b.tokens[b.position]? = some token

/-- What `peek` does to a buffer: it keeps what it has, and perhaps one token more. -/
theorem peek_cases (b : TokenBuffer) :
    (b.peek.2.tokens = b.tokens ∧ b.peek.2.scanner = b.scanner ∧
      ∀ token, b.peek.1 = .ok token → b.Shows token) ∨
    ∃ token scanner, b.scanner.next = .ok (token, scanner) ∧ b.peek.1 = .ok token ∧
      b.tokens.size ≤ b.position ∧
      b.peek.2 = { b with scanner, tokens := b.tokens.push token } := by
  unfold peek
  split
  next token hshown => exact Or.inl ⟨rfl, rfl, fun _ h => by cases h; exact hshown⟩
  next hnone =>
    split
    next e hfailure => exact Or.inl ⟨rfl, rfl, fun _ h => by cases h⟩
    · split
      next e hnext => exact Or.inl ⟨rfl, rfl, fun _ h => by cases h⟩
      next token scanner hnext =>
        exact Or.inr ⟨token, scanner, hnext, rfl, Array.getElem?_eq_none_iff.mp hnone, rfl⟩

theorem peek_position (b : TokenBuffer) : b.peek.2.position = b.position := by
  unfold peek
  split
  · rfl
  · split
    · rfl
    · split <;> rfl

theorem peek_size (b : TokenBuffer) : b.tokens.size ≤ b.peek.2.tokens.size := by
  rcases b.peek_cases with ⟨htokens, _, _⟩ | ⟨token, scanner, _, _, _, hbuffer⟩
  · exact Nat.le_of_eq (congrArg Array.size htokens.symm)
  · rw [hbuffer, Array.size_push]
    exact Nat.le_succ _

theorem tokensCost_drop_push (tokens : Array Token) (token : Token) (mark : Nat) :
    tokensCost ((tokens.push token).toList.drop mark) ≤
      tokensCost (tokens.toList.drop mark) + token.kind.cost := by
  rw [Array.toList_push, List.drop_append, tokensCost_append]
  refine Nat.add_le_add_left ?_ _
  rcases Nat.eq_zero_or_pos (mark - tokens.toList.length) with hzero | hpos
  · rw [hzero]
    simp
  · rw [List.drop_of_length_le hpos]
    exact Nat.zero_le _

/-- **Looking ahead does not make more tokens**, from any place. -/
theorem peek_supplyFrom (b : TokenBuffer) (mark : Nat) :
    b.peek.2.supplyFrom mark ≤ b.supplyFrom mark := by
  rcases b.peek_cases with ⟨htokens, hscanner, _⟩ | ⟨token, scanner, hnext, _, _, hbuffer⟩
  · simp only [supplyFrom, htokens, hscanner]
    omega
  · have hsupply := Scanner.next_supply hnext
    have hpush := tokensCost_drop_push b.tokens token mark
    rw [hbuffer]
    simp only [supplyFrom]
    omega

/-- After a look ahead the token is kept. -/
theorem peek_shows (hvalid : b.position ≤ b.tokens.size) (h : b.peek.1 = .ok token) :
    b.peek.2.Shows token := by
  rcases b.peek_cases with ⟨htokens, _, hshows⟩ | ⟨found, scanner, _, hpeek, hsize, hbuffer⟩
  · rw [Shows, htokens, peek_position]
    exact hshows token h
  · have hposition : b.position = b.tokens.size := by omega
    obtain rfl : found = token := Except.ok.inj (hpeek.symm.trans h)
    rw [hbuffer, Shows]
    dsimp only
    rw [hposition, Array.getElem?_push_size]

theorem peek_eq (h : b.Shows token) : b.peek = (.ok token, b) := by
  unfold peek
  rw [show b.tokens[b.position]? = some token from h]

/-- A token that is kept costs a part of the supply. -/
theorem Shows.supply (h : b.Shows token) :
    b.supply = token.kind.cost + b.supplyFrom (b.position + 1) := by
  have hget : b.tokens.toList[b.position]? = some token := by
    rw [Array.getElem?_toList]
    exact h
  obtain ⟨hlt, heq⟩ := List.getElem?_eq_some_iff.mp hget
  have hdrop : b.tokens.toList.drop b.position =
      token :: b.tokens.toList.drop (b.position + 1) := by
    rw [List.drop_eq_getElem_cons hlt, heq]
  rw [TokenBuffer.supply, supplyFrom, supplyFrom, hdrop, tokensCost_cons, Nat.add_assoc]

theorem Shows.lt_size (h : b.Shows token) : b.position < b.tokens.size := by
  obtain ⟨hlt, _⟩ := Array.getElem?_eq_some_iff.mp h
  exact hlt

/-- From one buffer to the other at least `cost` was consumed. Places that were marked are
still there, and no more lies behind them than before. -/
structure Consumes (cost : Nat) (b b' : TokenBuffer) : Prop where
  valid : b'.position ≤ b'.tokens.size
  size_le : b.tokens.size ≤ b'.tokens.size
  marks : ∀ mark, b'.supplyFrom mark ≤ b.supplyFrom mark
  supply : b'.supply + cost ≤ b.supply

theorem Consumes.refl (hvalid : b.position ≤ b.tokens.size) : Consumes 0 b b :=
  ⟨hvalid, Nat.le_refl _, fun _ => Nat.le_refl _, Nat.le_refl _⟩

theorem Consumes.trans {b' b'' : TokenBuffer} {first second : Nat} (h : Consumes first b b')
    (h' : Consumes second b' b'') : Consumes (first + second) b b'' where
  valid := h'.valid
  size_le := Nat.le_trans h.size_le h'.size_le
  marks mark := Nat.le_trans (h'.marks mark) (h.marks mark)
  supply := by
    have hfirst := h.supply
    have hsecond := h'.supply
    omega

theorem peek_consumes (hvalid : b.position ≤ b.tokens.size) : Consumes 0 b b.peek.2 where
  valid := by
    rw [peek_position]
    exact Nat.le_trans hvalid b.peek_size
  size_le := b.peek_size
  marks := b.peek_supplyFrom
  supply := by
    rw [TokenBuffer.supply, peek_position]
    exact b.peek_supplyFrom _

/-- Going back to a place where the buffer was. -/
theorem Consumes.rewind {b' : TokenBuffer} {cost : Nat} (h : Consumes cost b b')
    (hvalid : b.position ≤ b.tokens.size) : Consumes 0 b (b'.rewind b.mark) where
  valid := Nat.le_trans hvalid h.size_le
  size_le := h.size_le
  marks := h.marks
  supply := h.marks b.position

theorem supply_commit (b : TokenBuffer) : b.commit.supply = b.supply := by
  have htokens : (b.tokens.extract b.position).toList = b.tokens.toList.drop b.position := by
    simp
  simp only [supply, supplyFrom, commit, htokens, List.drop_zero]

/-- What `next` does to a buffer, as far as tokens are concerned. -/
theorem next_cases (b : TokenBuffer) :
    (∃ e, b.next = (.error e, b.peek.2)) ∨
    ∃ token, b.peek.1 = .ok token ∧
      (b.next = (.ok token, b.peek.2) ∧ token.kind = .finish ∨
        b.next = (.ok token, { b.peek.2 with position := b.position + 1 })) := by
  unfold next
  cases hpeek : b.peek with
  | mk answer b' =>
    have hposition := b.peek_position
    rw [hpeek] at hposition
    cases answer with
    | error e => exact Or.inl ⟨e, rfl⟩
    | ok token =>
      refine Or.inr ⟨token, rfl, ?_⟩
      dsimp only
      split_ifs with hfinish
      · exact Or.inl ⟨rfl, hfinish⟩
      · dsimp only at hposition
        rw [hposition]
        exact Or.inr rfl

/-- **A token that is consumed is paid for.** -/
theorem next_consumes (hvalid : b.position ≤ b.tokens.size) (h : b.next.1 = .ok token) :
    Consumes token.kind.cost b b.next.2 := by
  have hpeek := peek_consumes hvalid
  rcases b.next_cases with ⟨e, hnext⟩ | ⟨found, hfound, ⟨hnext, hfinish⟩ | hnext⟩
  · rw [hnext] at h
    cases h
  · rw [hnext] at h ⊢
    cases h
    rw [hfinish]
    exact hpeek
  · rw [hnext] at h ⊢
    cases h
    have hshows := peek_shows hvalid hfound
    have hsupply := hshows.supply
    have hlt := hshows.lt_size
    rw [peek_position] at hsupply hlt
    refine ⟨hlt, hpeek.size_le, hpeek.marks, ?_⟩
    have hle := hpeek.supply
    show b.peek.2.supplyFrom (b.position + 1) + token.kind.cost ≤ b.supply
    omega

/-- A token that is kept is the one consumed next. -/
theorem Shows.next (h : b.Shows token) : b.next.1 = .ok token := by
  unfold TokenBuffer.next
  rw [peek_eq h]
  dsimp only
  split_ifs <;> rfl

theorem supply_ofSource (source : Bytes) : (ofSource source).supply = source.length + 1 :=
  (Nat.zero_add _).trans (Scanner.supply_ofSource source)

end TokenBuffer

end Terrace
