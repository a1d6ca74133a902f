/-
# A token buffer reads like a cursor

Whoever looks ahead, reads, marks places, goes back and forgets what was read by means of a buffer
(`Reader`) gets what a plain cursor on the answers of the scanner gives (`Cursor`): it does not pass
the end of the text nor an error, and forgetting does nothing to it. The scanner is asked for the
answers that were looked at, for each of them once and in their order. What carries this through any
commands is that a buffer is a window on the answers, which commits move on.

Key definitions: `TokenBuffer.asked`, `Command`, `Reader.obey`, `Cursor.obey`, `Command.run`,
`TokenBuffer.Window`, `Reader.Follows`.
Key theorems: `TokenBuffer.peek_asked`, `TokenBuffer.Window.peek`, `TokenBuffer.Window.commit`,
`Reader.Follows.obey`, `buffer_transparent`.
-/
import Terrace.Proofs.Token.Blocks
import Terrace.Proofs.Token.Lookahead

namespace Terrace

/-- What a scanner hands out when it is asked. -/
abbrev Answer := Except LexicalError Token

/-! ### Asking the scanner -/

namespace TokenBuffer

variable {b : TokenBuffer}

/-- What the scanner answers at a look ahead, where it is asked. Elsewhere a look ahead finds what is
kept (`peek_asked`). -/
def asked (b : TokenBuffer) : Option Answer :=
  match b.tokens[b.position]?, b.failure with
  | none, none => some (b.scanner.next.map (·.1))
  | _, _ => none

/-- A look ahead finds a token that is kept, or the error that stays, or asks the scanner. -/
theorem peek_asked (b : TokenBuffer) :
    (∃ token, b.tokens[b.position]? = some token ∧ b.asked = none ∧ b.peek = (.ok token, b)) ∨
    b.tokens.size ≤ b.position ∧
      ((∃ e, b.failure = some e ∧ b.asked = none ∧ b.peek = (.error e, b)) ∨
        b.failure = none ∧ b.asked = some (b.scanner.next.map (·.1)) ∧
          b.peek = (b.scanner.next.map (·.1), b.fetch)) := by
  unfold asked peek fetch
  cases hkept : b.tokens[b.position]? with
  | some token => exact .inl ⟨token, rfl, rfl, rfl⟩
  | none =>
    refine .inr ⟨Array.getElem?_eq_none_iff.mp hkept, ?_⟩
    cases hfailure : b.failure with
    | some e => exact .inl ⟨e, rfl, rfl, rfl⟩
    | none => cases b.scanner.next <;> exact .inr ⟨rfl, rfl, rfl⟩

/-- The answers that a buffer has. -/
def got (b : TokenBuffer) : Nat := b.tokens.size + b.failure.toList.length

theorem got_fetch (h : b.failure = none) : b.fetch.got = b.got + 1 := by
  unfold got fetch
  rw [h]
  cases b.scanner.next with
  | error e => rfl
  | ok found => simp

end TokenBuffer

/-- The answers of the scanner of a source text, request by request. -/
def sourceAnswers (source : Bytes) (n : Nat) : Answer := (Scanner.ofSource source).call n

/-! ### Commands -/

/-- What a reader can do. A mark is named by its number among those since the last commit. -/
inductive Command where
  | peek
  | next
  | mark
  | rewind (number : Nat)
  | commit

/-- Obeys commands one after the other, and collects what they give. -/
def Command.run {σ : Type} (obey : σ → Command → Option Answer × σ) :
    List Command → σ → List (Option Answer) × σ
  | [], s => ([], s)
  | command :: rest, s =>
    ((obey s command).1 :: (run obey rest (obey s command).2).1,
      (run obey rest (obey s command).2).2)

/-- A buffer in use. -/
structure Reader where
  buffer : TokenBuffer
  /-- The marks since the last commit, oldest first. -/
  marks : List Nat := []
  /-- What the scanner was asked so far, by its answers. -/
  asked : List Answer := []

/-- Obeys a command by means of the buffer. Going back to a mark that was not set does nothing. -/
def Reader.obey (r : Reader) : Command → Option Answer × Reader
  | .peek => (some r.buffer.peek.1,
      { r with buffer := r.buffer.peek.2, asked := r.asked ++ r.buffer.asked.toList })
  | .next => (some r.buffer.next.1,
      { r with buffer := r.buffer.next.2, asked := r.asked ++ r.buffer.asked.toList })
  | .mark => (none, { r with marks := r.marks ++ [r.buffer.mark] })
  | .rewind number =>
    match r.marks[number]? with
    | some mark => (none, { r with buffer := r.buffer.rewind mark })
    | none => (none, r)
  | .commit => (none, { r with buffer := r.buffer.commit, marks := [] })

/-- A place in a sequence of answers. -/
structure Cursor where
  place : Nat := 0
  /-- The marks since the last commit, oldest first. -/
  marks : List Nat := []
  /-- The answers that were looked at so far. -/
  seen : Nat := 0

namespace Cursor

/-- Looks at the answer at its place. -/
def look (c : Cursor) : Cursor := { c with seen := max c.seen (c.place + 1) }

/-- Passes a token; the end of the text and an error stay. -/
def pass (c : Cursor) : Answer → Cursor
  | .ok token => { c with place := if token.kind = .finish then c.place else c.place + 1 }
  | .error _ => c

/-- Obeys a command on these answers. -/
def obey (answers : Nat → Answer) (c : Cursor) : Command → Option Answer × Cursor
  | .peek => (some (answers c.place), c.look)
  | .next => (some (answers c.place), c.look.pass (answers c.place))
  | .mark => (none, { c with marks := c.marks ++ [c.place] })
  | .rewind number =>
    match c.marks[number]? with
    | some mark => (none, { c with place := mark })
    | none => (none, c)
  | .commit => (none, { c with marks := [] })

end Cursor

/-- What one command keeps, with equal answers, any commands keep. -/
theorem Command.run_agree {σ τ : Type} {obey : σ → Command → Option Answer × σ}
    {obey' : τ → Command → Option Answer × τ} {R : σ → τ → Prop}
    (hstep : ∀ {s t}, R s t → ∀ command, (obey s command).1 = (obey' t command).1 ∧
      R (obey s command).2 (obey' t command).2) :
    ∀ (commands : List Command) {s : σ} {t : τ}, R s t →
      (run obey commands s).1 = (run obey' commands t).1 ∧
        R (run obey commands s).2 (run obey' commands t).2
  | [], _, _, h => ⟨rfl, h⟩
  | command :: rest, _, _, h => by
    obtain ⟨hanswer, hnext⟩ := hstep h command
    obtain ⟨hanswers, hlast⟩ := run_agree hstep rest hnext
    exact ⟨congrArg₂ List.cons hanswer hanswers, hlast⟩

/-! ### A window on the answers -/

namespace TokenBuffer

/-- A buffer keeps the answers behind the first `dropped`, and its scanner has those that follow. -/
structure Window (answers : Nat → Answer) (dropped : Nat) (b : TokenBuffer) : Prop where
  kept : ∀ i token, b.tokens[i]? = some token → answers (dropped + i) = .ok token
  coming : ∀ n, b.scanner.call n = answers (dropped + b.tokens.size + n)
  failed : ∀ e, b.failure = some e → b.scanner.next = .error e

namespace Window

variable {answers : Nat → Answer} {dropped : Nat} {b : TokenBuffer}

theorem ofSource (source : Bytes) :
    Window (sourceAnswers source) 0 (TokenBuffer.ofSource source) where
  kept i token h := by cases h
  coming n := by
    show sourceAnswers source n = sourceAnswers source (0 + n)
    rw [Nat.zero_add]
  failed e h := by cases h

theorem next_answer (h : Window answers dropped b) :
    b.scanner.next.map (·.1) = answers (dropped + b.tokens.size) := h.coming 0

/-- An answer that the scanner is asked for is put behind the others. -/
theorem fetch (h : Window answers dropped b) : Window answers dropped b.fetch := by
  unfold TokenBuffer.fetch
  cases hfailure : b.failure with
  | some e => exact h
  | none =>
    cases hnext : b.scanner.next with
    | error e => exact ⟨h.kept, h.coming, fun e' he' => Option.some.inj he' ▸ hnext⟩
    | ok found =>
      obtain ⟨token, scanner⟩ := found
      refine ⟨fun i other hi => ?_, fun n => ?_, fun e he => ?_⟩
      · dsimp only at hi
        rw [Array.getElem?_push] at hi
        split_ifs at hi with hlast
        · obtain rfl : token = other := Option.some.inj hi
          rw [hlast, ← h.next_answer, hnext]
          rfl
        · exact h.kept i other hi
      · have hcall := h.coming (n + 1)
        rw [Scanner.call_succ hnext] at hcall
        dsimp only
        rw [hcall, Array.size_push]
        congr 1
        omega
      · cases he

/-- Forgetting the consumed tokens moves the window on. -/
theorem commit (h : Window answers dropped b) (hinside : b.position ≤ b.tokens.size) :
    Window answers (dropped + b.position) b.commit where
  kept i token hi := by
    have hextract : (b.tokens.extract b.position)[i]? = some token := hi
    rw [Array.getElem?_extract] at hextract
    split_ifs at hextract
    rw [Nat.add_assoc]
    exact h.kept _ token hextract
  coming n := by
    show b.scanner.call n = answers (dropped + b.position + (b.tokens.extract b.position).size + n)
    rw [h.coming, Array.size_extract]
    congr 1
    omega
  failed := h.failed

/-- **A look ahead gives the answer at its place**. Only where the buffer has not got that one is
the scanner asked, and then it is the next that the scanner has. -/
theorem peek (h : Window answers dropped b) (hinside : b.position ≤ b.tokens.size) :
    b.peek.1 = answers (dropped + b.position) ∧ Window answers dropped b.peek.2 ∧
      b.peek.2.got = max b.got (b.position + 1) ∧
      (List.range (dropped + b.got)).map answers ++ b.asked.toList =
        (List.range (dropped + b.peek.2.got)).map answers := by
  rcases b.peek_asked with ⟨token, hkept, hasked, hpeek⟩ | ⟨hend, hcases⟩
  · obtain ⟨hlt, -⟩ := Array.getElem?_eq_some_iff.mp hkept
    rw [hpeek, hasked]
    refine ⟨(h.kept _ token hkept).symm, h, ?_, List.append_nil _⟩
    dsimp only [got]
    omega
  · have hplace : b.position = b.tokens.size := Nat.le_antisymm hinside hend
    rcases hcases with ⟨e, hfailure, hasked, hpeek⟩ | ⟨hfailure, hasked, hpeek⟩
    · rw [hpeek, hasked]
      refine ⟨?_, h, ?_, List.append_nil _⟩
      · rw [hplace, ← h.next_answer, h.failed e hfailure]
        rfl
      · simp [got, hfailure, hplace]
    · have hgot : b.got = b.tokens.size := by rw [got, hfailure]; rfl
      rw [hpeek, hasked]
      dsimp only
      rw [got_fetch hfailure, h.next_answer, hplace, hgot, ← Nat.add_assoc, List.range_succ,
        List.map_append]
      exact ⟨rfl, h.fetch, (Nat.max_eq_right (Nat.le_succ _)).symm, rfl⟩

end Window

end TokenBuffer

/-! ### Readers and cursors -/

namespace Reader

variable {answers : Nat → Answer} {r : Reader} {c : Cursor} {dropped : Nat}

/-- A reader follows a cursor: its buffer is a window on the answers, the places are the same apart
from the answers that were dropped, and the scanner was asked once for each answer looked at. -/
structure Follows (answers : Nat → Answer) (r : Reader) (c : Cursor) (dropped : Nat) : Prop where
  window : r.buffer.Window answers dropped
  inside : r.buffer.position ≤ r.buffer.tokens.size
  place : c.place = dropped + r.buffer.position
  marked : ∀ mark ∈ r.marks, mark ≤ r.buffer.tokens.size
  marks : c.marks = r.marks.map (dropped + ·)
  seen : c.seen = dropped + r.buffer.got
  asked : r.asked = (List.range c.seen).map answers

namespace Follows

theorem look (h : Follows answers r c dropped) : r.buffer.peek.1 = answers c.place ∧
    Follows answers
      { r with buffer := r.buffer.peek.2, asked := r.asked ++ r.buffer.asked.toList }
      c.look dropped := by
  obtain ⟨hanswer, hwindow, hgot, hasked⟩ := h.window.peek h.inside
  have hposition := r.buffer.peek_position
  have hsize := r.buffer.peek_size
  have hplace := h.place
  have hseen : c.look.seen = dropped + r.buffer.peek.2.got := by
    rw [hgot, Cursor.look, h.seen, hplace]
    dsimp only
    omega
  refine ⟨hanswer.trans (congrArg answers hplace.symm), hwindow, ?_, ?_, ?_, h.marks, hseen, ?_⟩
  · exact hposition ▸ h.inside.trans hsize
  · exact hposition ▸ hplace
  · exact fun mark hmark => (h.marked mark hmark).trans hsize
  · rw [hseen, ← hasked, h.asked, h.seen]

/-- Both move to another place. -/
theorem move (h : Follows answers r c dropped) {position : Nat}
    (hinside : position ≤ r.buffer.tokens.size) :
    Follows answers { r with buffer := { r.buffer with position } }
      { c with place := dropped + position } dropped :=
  ⟨⟨h.window.kept, h.window.coming, h.window.failed⟩, hinside, rfl, h.marked, h.marks, h.seen,
    h.asked⟩

theorem next (h : Follows answers r c dropped) : r.buffer.next.1 = answers c.place ∧
    Follows answers
      { r with buffer := r.buffer.next.2, asked := r.asked ++ r.buffer.asked.toList }
      (c.look.pass (answers c.place)) dropped := by
  obtain ⟨hanswer, hlook⟩ := h.look
  rw [r.buffer.next_eq, ← hanswer]
  cases hpeek : r.buffer.peek.1 with
  | error e => exact ⟨rfl, hlook⟩
  | ok token =>
    have hshown := (r.buffer.peek_shows h.inside hpeek).lt_size
    rw [r.buffer.peek_position] at hshown
    refine ⟨rfl, ?_⟩
    have hplace : (c.look.pass (.ok token)).place =
        dropped + if token.kind = .finish then r.buffer.position else r.buffer.position + 1 := by
      simp only [Cursor.pass, Cursor.look, h.place]
      split_ifs <;> rfl
    have hinside : (if token.kind = .finish then r.buffer.position else r.buffer.position + 1) ≤
        r.buffer.peek.2.tokens.size := by
      split_ifs
      · exact Nat.le_of_lt hshown
      · exact hshown
    have hmove := hlook.move hinside
    rw [← hplace] at hmove
    exact hmove

theorem rewind (h : Follows answers r c dropped) (number : Nat) :
    (r.obey (.rewind number)).1 = (c.obey answers (.rewind number)).1 ∧
      Follows answers (r.obey (.rewind number)).2 (c.obey answers (.rewind number)).2 dropped := by
  have hmarks : c.marks[number]? = r.marks[number]?.map (dropped + ·) := by
    rw [h.marks, List.getElem?_map]
  unfold Reader.obey Cursor.obey
  dsimp only
  rw [hmarks]
  cases hmark : r.marks[number]? with
  | none => exact ⟨rfl, h⟩
  | some mark => exact ⟨rfl, h.move (h.marked mark (List.mem_of_getElem? hmark))⟩

theorem mark (h : Follows answers r c dropped) :
    Follows answers { r with marks := r.marks ++ [r.buffer.mark] }
      { c with marks := c.marks ++ [c.place] } dropped := by
  refine ⟨h.window, h.inside, h.place, fun mark hmark => ?_, ?_, h.seen, h.asked⟩
  · rcases List.mem_append.mp hmark with hold | hnew
    · exact h.marked mark hold
    · rw [List.mem_singleton.mp hnew]
      exact h.inside
  · rw [h.marks, h.place, List.map_append]
    rfl

theorem commit (h : Follows answers r c dropped) :
    Follows answers { r with buffer := r.buffer.commit, marks := [] } { c with marks := [] }
      (dropped + r.buffer.position) := by
  have hinside := h.inside
  have hgot : dropped + r.buffer.position + r.buffer.commit.got = dropped + r.buffer.got := by
    have hsize : r.buffer.commit.tokens.size = r.buffer.tokens.size - r.buffer.position := by
      rw [TokenBuffer.commit, Array.size_extract, Nat.min_self]
    have hfailure : r.buffer.commit.failure = r.buffer.failure := rfl
    rw [TokenBuffer.got, TokenBuffer.got, hsize, hfailure]
    omega
  exact ⟨h.window.commit hinside, Nat.zero_le _, h.place,
    fun _ hmark => absurd hmark List.not_mem_nil, rfl, h.seen.trans hgot.symm, h.asked⟩

/-- **A command gives the same to both, and one goes on following the other.** -/
theorem obey (h : Follows answers r c dropped) (command : Command) :
    (r.obey command).1 = (c.obey answers command).1 ∧
      ∃ dropped', Follows answers (r.obey command).2 (c.obey answers command).2 dropped' := by
  cases command with
  | peek => exact ⟨congrArg some h.look.1, _, h.look.2⟩
  | next => exact ⟨congrArg some h.next.1, _, h.next.2⟩
  | mark => exact ⟨rfl, _, h.mark⟩
  | rewind number => exact ⟨(h.rewind number).1, _, (h.rewind number).2⟩
  | commit => exact ⟨rfl, _, h.commit⟩

end Follows

end Reader

/-- **The token buffer is transparent**: whatever the commands, what is looked at and read is what a
cursor on the answers of the scanner gives, and the scanner was asked once, in order, for each of
the answers looked at. -/
theorem buffer_transparent (source : Bytes) (commands : List Command) :
    (Command.run Reader.obey commands { buffer := .ofSource source }).1 =
        (Command.run (Cursor.obey (sourceAnswers source)) commands {}).1 ∧
      (Command.run Reader.obey commands { buffer := .ofSource source }).2.asked =
        (List.range (Command.run (Cursor.obey (sourceAnswers source)) commands {}).2.seen).map
          (sourceAnswers source) := by
  have hstart : Reader.Follows (sourceAnswers source) { buffer := .ofSource source } {} 0 :=
    ⟨.ofSource source, Nat.le_refl 0, rfl, fun _ hmark => absurd hmark List.not_mem_nil, rfl, rfl,
      rfl⟩
  obtain ⟨hanswers, _, hlast⟩ := Command.run_agree
    (R := fun r c => ∃ dropped, Reader.Follows (sourceAnswers source) r c dropped)
    (fun ⟨_, h⟩ command => h.obey command) commands ⟨0, hstart⟩
  exact ⟨hanswers, hlast.asked⟩

end Terrace
