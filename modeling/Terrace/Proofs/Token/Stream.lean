/-
# What a token buffer hands out

A buffer hands out the tokens it keeps and then those of its scanner, up to the end of the text or
an error. `TokenBuffer.Holds` tells what comes from a place on. Looking ahead does not change it
for any place, so what is read again after going back is the same.

Key definitions: `upToFinish`, `TokenBuffer.Supplies`, `TokenBuffer.Holds`.
Key theorems: `TokenBuffer.Holds.peek`, `TokenBuffer.Holds.shown`, `TokenBuffer.Holds.commit`,
`TokenBuffer.holds_ofSource`.
-/
import Terrace.Proofs.Token.Shape

namespace Terrace

/-- Kept tokens and what comes behind them, up to the end of the text. -/
def upToFinish : List Token → List Lexeme → List Lexeme
  | [], rest => rest
  | token :: kept, rest =>
    if token.kind = .finish then [.ok token] else .ok token :: upToFinish kept rest

theorem upToFinish_push (token : Token) (rest : List Lexeme) : ∀ kept : List Token,
    upToFinish (kept ++ [token]) rest =
      upToFinish kept (if token.kind = .finish then [.ok token] else .ok token :: rest)
  | [] => rfl
  | first :: kept => by
    rw [List.cons_append, upToFinish, upToFinish, upToFinish_push token rest kept]

namespace Scanner

variable {s s' : Scanner} {token : Token} {items : List Lexeme}

/-- A scanner that is done hands out the end of the text. -/
theorem gives_done (hdone : s.done = true) (hpending : s.pending = []) :
    s.Gives [.ok (s.tokenHere .finish [])] := by
  refine @Gives.finish s s _ ?_ rfl hdone hpending
  rw [next, nextWithin, hpending]
  dsimp only
  rw [hdone, if_pos rfl]

theorem Gives.of_error {e : LexicalError} (h : s.Gives items) (hnext : s.next = .error e) :
    items = [.error e.cause.slip] := by
  cases h with
  | finish hnext' => cases hnext'.symm.trans hnext
  | error hnext' =>
    cases hnext'.symm.trans hnext
    rfl
  | token hnext' => cases hnext'.symm.trans hnext

/-- What a scanner hands out is its next token, and then what it hands out after it. -/
theorem Gives.of_ok (h : s.Gives items) (hnext : s.next = .ok (token, s')) :
    ∃ rest, s'.Gives rest ∧
      items = if token.kind = .finish then [.ok token] else .ok token :: rest := by
  cases h with
  | finish hnext' hfinish hdone hpending =>
    cases hnext'.symm.trans hnext
    exact ⟨_, gives_done hdone hpending, (if_pos hfinish).symm⟩
  | error hnext' => cases hnext'.symm.trans hnext
  | token hnext' hfinish hrest =>
    cases hnext'.symm.trans hnext
    exact ⟨_, hrest, (if_neg hfinish).symm⟩

end Scanner

namespace TokenBuffer

variable {b : TokenBuffer} {token : Token} {items : List Lexeme} {place : Nat}

/-- What a buffer still gets from its scanner; an error it got stays. -/
structure Supplies (b : TokenBuffer) (rest : List Lexeme) : Prop where
  gives : b.scanner.Gives rest
  failure : ∀ e, b.failure = some e → b.scanner.next = .error e

/-- What a buffer hands out from a place on. -/
def Holds (b : TokenBuffer) (place : Nat) (items : List Lexeme) : Prop :=
  ∃ rest, b.Supplies rest ∧ items = upToFinish (b.tokens.toList.drop place) rest

/-- **Looking ahead changes nothing** that is handed out from a place on. -/
theorem Holds.peek (hplace : place ≤ b.tokens.size) (h : b.Holds place items) :
    b.peek.2.Holds place items := by
  obtain ⟨rest, ⟨hgives, hfailure⟩, hitems⟩ := h
  unfold TokenBuffer.peek
  split
  · exact ⟨rest, ⟨hgives, hfailure⟩, hitems⟩
  · split
    · exact ⟨rest, ⟨hgives, hfailure⟩, hitems⟩
    next hnone =>
      split
      next e hnext => exact ⟨rest, ⟨hgives, fun _ heq => by cases heq; exact hnext⟩, hitems⟩
      next token scanner hnext =>
        obtain ⟨rest', hgives', hrest⟩ := hgives.of_ok hnext
        refine ⟨rest', ⟨hgives', fun e he => ?_⟩, ?_⟩
        · rw [hnone] at he
          cases he
        · dsimp only
          rw [Array.toList_push, List.drop_append_of_le_length hplace, upToFinish_push, ← hrest]
          exact hitems

/-- A look ahead tells what is handed out first. -/
theorem Holds.of_ok (hvalid : b.position ≤ b.tokens.size) (h : b.Holds b.position items)
    (hpeek : b.peek.1 = .ok token) : items.head? = some (.ok token) := by
  have hshows := peek_shows hvalid hpeek
  obtain ⟨rest, _, rfl⟩ := h.peek hvalid
  have hlt := hshows.lt_size
  rw [peek_position] at hlt
  have hget : b.peek.2.tokens.toList[b.position]? = some token := by
    rw [Array.getElem?_toList, ← peek_position b]
    exact hshows
  obtain ⟨hlt, heq⟩ := List.getElem?_eq_some_iff.mp hget
  rw [List.drop_eq_getElem_cons hlt, heq, upToFinish]
  split_ifs <;> rfl

theorem Holds.of_error {e : LexicalError} (h : b.Holds b.position items)
    (hpeek : b.peek.1 = .error e) : items = [.error e.cause.slip] := by
  obtain ⟨rest, ⟨hgives, hfailure⟩, rfl⟩ := h
  unfold TokenBuffer.peek at hpeek
  split at hpeek
  · cases hpeek
  next hnone =>
    have hdrop : b.tokens.toList.drop b.position = [] :=
      List.drop_of_length_le (Array.getElem?_eq_none_iff.mp hnone)
    rw [hdrop, upToFinish]
    split at hpeek
    next e' hfailed =>
      cases hpeek
      exact hgives.of_error (hfailure _ hfailed)
    · split at hpeek
      next e' hnext =>
        cases hpeek
        exact hgives.of_error hnext
      · cases hpeek

/-- A token that is kept is handed out before what comes behind it. -/
theorem Holds.shown (hshows : b.Shows token) (h : b.Holds b.position items) :
    token.kind = .finish ∧ items = [.ok token] ∨
      token.kind ≠ .finish ∧
        ∃ rest, items = .ok token :: rest ∧ b.Holds (b.position + 1) rest := by
  obtain ⟨rest, hsupplies, rfl⟩ := h
  have hget : b.tokens.toList[b.position]? = some token := by
    rw [Array.getElem?_toList]
    exact hshows
  obtain ⟨hlt, heq⟩ := List.getElem?_eq_some_iff.mp hget
  rw [List.drop_eq_getElem_cons hlt, heq, upToFinish]
  split_ifs with hfinish
  · exact Or.inl ⟨hfinish, rfl⟩
  · exact Or.inr ⟨hfinish, _, rfl, rest, hsupplies, rfl⟩

/-- Going back changes nothing that is handed out from a place on. -/
theorem Holds.rewind (h : b.Holds place items) (mark : Nat) :
    (b.rewind mark).Holds place items := by
  obtain ⟨rest, ⟨hgives, hfailure⟩, hitems⟩ := h
  exact ⟨rest, ⟨hgives, hfailure⟩, hitems⟩

/-- Forgetting consumed tokens changes nothing that comes. -/
theorem Holds.commit (h : b.Holds b.position items) : b.commit.Holds 0 items := by
  obtain ⟨rest, ⟨hgives, hfailure⟩, rfl⟩ := h
  refine ⟨rest, ⟨hgives, hfailure⟩, ?_⟩
  have htokens : b.commit.tokens.toList = b.tokens.toList.drop b.position := by
    simp [TokenBuffer.commit]
  rw [htokens, List.drop_zero]

/-- A buffer at the start of a text hands out its outline. -/
theorem holds_ofSource (source : Bytes) :
    (ofSource source).Holds 0 (outline 1 [] (rowsOf source)) :=
  ⟨_, ⟨Scanner.gives_ofSource source, nofun⟩, rfl⟩

end TokenBuffer

end Terrace
