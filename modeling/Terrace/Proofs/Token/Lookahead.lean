/-
# Going back in a token buffer

A buffer keeps the tokens that it got from its scanner, so going back to a place where it was gives
the same tokens again, and then those that come behind them. All that reading does to a buffer is to
ask the scanner for more tokens and to move on; what is handed out from a place on does not depend
on how many tokens were asked for.

Key definitions: `TokenBuffer.upcoming`, `TokenBuffer.fetch`, `TokenBuffer.Ahead`.
Key theorems: `TokenBuffer.next_fetch`, `TokenBuffer.Ahead.next`, `TokenBuffer.Ahead.upcoming`.
-/
import Mathlib.Logic.Function.Iterate
import Terrace.Proofs.Token.Supply

namespace Terrace.TokenBuffer

/-- The answer to reading number `n` from here on, from 0. -/
def upcoming : Nat → TokenBuffer → Except LexicalError Token
  | 0, b => b.next.1
  | n + 1, b => upcoming n b.next.2

/-- A buffer whose scanner was asked for one more token. -/
def fetch (b : TokenBuffer) : TokenBuffer :=
  match b.failure with
  | some _ => b
  | none =>
    match b.scanner.next with
    | .error e => { b with failure := some e }
    | .ok (token, scanner) => { b with scanner, tokens := b.tokens.push token }

variable {b b' b'' : TokenBuffer}

theorem fetch_position (b : TokenBuffer) : b.fetch.position = b.position := by
  unfold fetch
  split
  · rfl
  · split <;> rfl

/-- Where a buffer stands makes no difference to what its scanner is asked. -/
theorem fetch_at (b : TokenBuffer) (place : Nat) :
    fetch { b with position := place } = { b.fetch with position := place } := by
  unfold fetch
  dsimp only
  split
  · rfl
  · split <;> rfl

theorem iterate_fetch_at (n : Nat) (b : TokenBuffer) (place : Nat) :
    fetch^[n] { b with position := place } = { fetch^[n] b with position := place } := by
  induction n generalizing b with
  | zero => rfl
  | succ n ih => rw [Function.iterate_succ_apply, fetch_at, ih, ← Function.iterate_succ_apply]

theorem size_fetch (b : TokenBuffer) : b.tokens.size ≤ b.fetch.tokens.size := by
  unfold fetch
  split
  · exact Nat.le_refl _
  · split
    · exact Nat.le_refl _
    · dsimp only
      rw [Array.size_push]
      exact Nat.le_succ _

/-- Fetched tokens come behind those that are kept. -/
theorem fetch_getElem? {place : Nat} {token : Token} (h : b.tokens[place]? = some token) :
    b.fetch.tokens[place]? = some token := by
  obtain ⟨hlt, _⟩ := Array.getElem?_eq_some_iff.mp h
  unfold fetch
  split
  · exact h
  · split
    · exact h
    · dsimp only
      rw [Array.getElem?_push_lt hlt, ← h, Array.getElem?_eq_getElem hlt]

/-- A look ahead finds a token that is kept, or asks for one. -/
theorem peek_kept_or_fetch (b : TokenBuffer) :
    (∃ token, b.tokens[b.position]? = some token ∧ b.peek = (.ok token, b)) ∨
      b.tokens[b.position]? = none ∧ b.peek.2 = b.fetch := by
  unfold peek fetch
  cases hkept : b.tokens[b.position]? with
  | some token => exact .inl ⟨token, rfl, rfl⟩
  | none =>
    right
    cases hfailure : b.failure with
    | some e => exact ⟨rfl, rfl⟩
    | none => cases b.scanner.next <;> exact ⟨rfl, rfl⟩

/-- A token that was asked for is there at the next look. -/
theorem peek_fetch_end (hend : b.position = b.tokens.size) : b.fetch.peek = (b.peek.1, b.fetch) := by
  have hnone : b.tokens[b.position]? = none := Array.getElem?_eq_none_iff.mpr (by omega)
  unfold peek fetch
  rw [hnone]
  cases hfailure : b.failure with
  | some e =>
    dsimp only
    rw [hnone, hfailure]
  | none =>
    cases hnext : b.scanner.next with
    | error e =>
      dsimp only
      rw [hnone]
    | ok found =>
      dsimp only
      rw [hend, Array.getElem?_push_size]

/-- **What comes next does not depend on whether more was asked for.** -/
theorem peek_fetch (hvalid : b.position ≤ b.tokens.size) : b.fetch.peek.1 = b.peek.1 ∧
    (b.fetch.peek.2 = b.peek.2 ∨ b.fetch.peek.2 = b.peek.2.fetch) := by
  rcases b.peek_kept_or_fetch with ⟨token, hkept, hpeek⟩ | ⟨hnone, hpeek⟩
  · have hshows : b.fetch.Shows token := by
      rw [Shows, fetch_position]
      exact fetch_getElem? hkept
    rw [peek_eq hshows, hpeek]
    exact ⟨rfl, .inr rfl⟩
  · have hend : b.position = b.tokens.size := by
      have hle := Array.getElem?_eq_none_iff.mp hnone
      omega
    rw [peek_fetch_end hend, hpeek]
    exact ⟨rfl, .inl rfl⟩

theorem next_eq (b : TokenBuffer) : b.next = match b.peek.1 with
    | .error e => (.error e, b.peek.2)
    | .ok token => (.ok token,
        { b.peek.2 with
          position := if token.kind = .finish then b.position else b.position + 1 }) := by
  have hplace := b.peek_position
  unfold next
  generalize b.peek = answer at hplace
  obtain ⟨_ | token, buffer⟩ := answer
  · rfl
  · dsimp only at hplace ⊢
    rw [← hplace]
    split_ifs <;> rfl

theorem next_fetch (hvalid : b.position ≤ b.tokens.size) : b.fetch.next.1 = b.next.1 ∧
    (b.fetch.next.2 = b.next.2 ∨ b.fetch.next.2 = b.next.2.fetch) := by
  obtain ⟨hanswer, hbuffer⟩ := peek_fetch hvalid
  rw [next_eq, next_eq, hanswer, fetch_position]
  cases b.peek.1 with
  | error e => exact ⟨rfl, hbuffer⟩
  | ok token =>
    refine ⟨rfl, ?_⟩
    dsimp only
    rcases hbuffer with hsame | hmore
    · rw [hsame]
      exact .inl rfl
    · rw [hmore]
      exact .inr (fetch_at _ _).symm

/-! ### Reading on -/

/-- The second buffer is the first one after asking for tokens and moving to some place. -/
structure Ahead (b b' : TokenBuffer) : Prop where
  fetched : ∃ n place, b' = { fetch^[n] b with position := place }
  valid : b'.position ≤ b'.tokens.size

namespace Ahead

theorem refl (hvalid : b.position ≤ b.tokens.size) : Ahead b b := ⟨⟨0, b.position, rfl⟩, hvalid⟩

theorem trans (h : Ahead b b') (h' : Ahead b' b'') : Ahead b b'' := by
  obtain ⟨n, place, rfl⟩ := h.fetched
  obtain ⟨m, place', hsecond⟩ := h'.fetched
  refine ⟨⟨m + n, place', ?_⟩, h'.valid⟩
  rw [hsecond, iterate_fetch_at, Function.iterate_add_apply]

theorem peek (hvalid : b.position ≤ b.tokens.size) : Ahead b b.peek.2 := by
  refine ⟨?_, (peek_consumes hvalid).valid⟩
  rcases b.peek_kept_or_fetch with ⟨token, _, hpeek⟩ | ⟨_, hpeek⟩
  · exact ⟨0, b.position, by rw [hpeek]; rfl⟩
  · exact ⟨1, b.position, by rw [hpeek, ← b.fetch_position]; rfl⟩

theorem next (hvalid : b.position ≤ b.tokens.size) : Ahead b b.next.2 := by
  have hpeek := Ahead.peek hvalid
  have hplace := b.peek_position
  rw [next_eq]
  cases hanswer : b.peek.1 with
  | error e => exact hpeek
  | ok token =>
    dsimp only
    split_ifs with hfinish
    · rw [← hplace]
      exact hpeek
    · refine hpeek.trans ⟨⟨0, b.position + 1, rfl⟩, ?_⟩
      have hlt := (peek_shows hvalid hanswer).lt_size
      rw [hplace] at hlt
      exact hlt

theorem size_le (h : Ahead b b') : b.tokens.size ≤ b'.tokens.size := by
  have hfetched : ∀ n, b.tokens.size ≤ (fetch^[n] b).tokens.size := by
    intro n
    induction n with
    | zero => exact Nat.le_refl _
    | succ n ih =>
      rw [Function.iterate_succ_apply']
      exact Nat.le_trans ih (size_fetch _)
  obtain ⟨n, place, rfl⟩ := h.fetched
  exact hfetched n

/-- A place where the buffer was can be gone back to. -/
theorem rewind (h : Ahead b b') (hvalid : b.position ≤ b.tokens.size) :
    Ahead b (b'.rewind b.mark) := by
  obtain ⟨n, place, hfetched⟩ := h.fetched
  exact ⟨⟨n, b.position, by rw [hfetched]; rfl⟩, Nat.le_trans hvalid h.size_le⟩

end Ahead

theorem upcoming_fetch (n : Nat) (hvalid : b.position ≤ b.tokens.size) :
    upcoming n b.fetch = upcoming n b := by
  induction n generalizing b with
  | zero => exact (next_fetch hvalid).1
  | succ n ih =>
    rw [upcoming, upcoming]
    rcases (next_fetch hvalid).2 with hsame | hmore
    · rw [hsame]
    · rw [hmore]
      exact ih (Ahead.next hvalid).valid

theorem upcoming_iterate_fetch (n m : Nat) (hvalid : b.position ≤ b.tokens.size) :
    upcoming n (fetch^[m] b) = upcoming n b := by
  induction m generalizing b with
  | zero => rfl
  | succ m ih =>
    have hnext : b.fetch.position ≤ b.fetch.tokens.size := by
      rw [fetch_position]
      exact Nat.le_trans hvalid b.size_fetch
    rw [Function.iterate_succ_apply, ih hnext, upcoming_fetch n hvalid]

/-- **Going back gives the same tokens again**, and the same ones behind them. -/
theorem Ahead.upcoming (h : Ahead b b') (hvalid : b.position ≤ b.tokens.size) (n : Nat) :
    (b'.rewind b.mark).upcoming n = b.upcoming n := by
  have hplace : ∀ m, (fetch^[m] b).position = b.position := by
    intro m
    induction m with
    | zero => rfl
    | succ m ih => rw [Function.iterate_succ_apply', fetch_position, ih]
  obtain ⟨m, place, hfetched⟩ := h.fetched
  have hsame : b'.rewind b.mark = fetch^[m] b := by
    rw [hfetched, TokenBuffer.rewind, mark, ← hplace m]
  rw [hsame, upcoming_iterate_fetch n m hvalid]

end Terrace.TokenBuffer
