/-
# Parsers side by side

The same parser is run on two texts. `Tracks x y a b Q` says that if the first run gives a result,
so does the second one, unless it gives up at a bound, and how results and states compare. Two
states are abreast if the same is declared in both and what they read agrees so far: up to the end
of both texts, up to the end of the block that a line opens, or up to an include line. Inside the
part that agrees both see the same token next, whatever its place, and consume it together.

Key definitions: `Tracks`, `Keeps`, `Sees`, `Reach`, `Turn`, `Agree`, `Beside`, `Abreast`.
Key theorems: `Tracks.bind`, `tracks_peek`, `tracks_next`, `tracks_skipNewlinesWithin`,
`tracks_expectSeparator`.
-/
import Terrace.Proofs.Source.Contracts
import Terrace.Proofs.Source.Parsing
import Terrace.Proofs.Source.Progress
import Terrace.Proofs.Token.Stream

namespace Terrace

namespace Token

variable (token : Token) (line column : Nat)

@[simp] theorem placed_kind : (token.placed line column).kind = token.kind := rfl

theorem placed_eq {token token' : Token} (h : token'.placed 0 0 = token.placed 0 0) :
    ∃ line column, token' = token.placed line column := by
  refine ⟨token'.line, token'.column, ?_⟩
  calc token' = (token'.placed 0 0).placed token'.line token'.column := rfl
    _ = token.placed token'.line token'.column := by
      rw [h]
      rfl

theorem kind_of_isWord {token : Token} {word : Bytes} (h : token.isWord word) :
    token.kind = .identifier := by
  simp only [isWord, Bool.and_eq_true, beq_iff_eq] at h
  exact h.1

theorem kind_of_isOperator {token : Token} {sign : Bytes} (h : token.isOperator sign) :
    token.kind = .operator := by
  simp only [isOperator, Bool.and_eq_true, beq_iff_eq] at h
  exact h.1

end Token

theorem TokenKind.isWord_of {kind : TokenKind} (hfinish : kind ≠ .finish)
    (hnewline : kind ≠ .newline) (hindent : kind ≠ .indent) (hdedent : kind ≠ .dedent) :
    kind.isWord = true := by
  cases kind <;> first | rfl | contradiction

namespace Parse

/-! ### Rules -/

/-- A parser gives a result as in `Q`, or there is an error as in `E`, or it gives up at a bound. -/
def Answers {α : Type} (x : Parse α) (s : ParserState) (Q : α → ParserState → Prop) (E : Prop) :
    Prop :=
  match x s with
  | .ok r s' => Q r s'
  | .error e _ => e.cause = .exhausted ∨ E

namespace Answers

variable {α β : Type} {x : Parse α} {f : α → Parse β} {s s' : ParserState}
  {Q Q' : α → ParserState → Prop} {R : β → ParserState → Prop} {E E' : Prop}

theorem of_ok {r : α} (h : Answers x s Q E) (hrun : x s = .ok r s') : Q r s' := by
  rw [Answers, hrun] at h
  exact h

theorem of_error {e : ParseError} (h : Answers x s Q E) (hrun : x s = .error e s') :
    e.cause = .exhausted ∨ E := by
  rw [Answers, hrun] at h
  exact h

theorem mono (h : Answers x s Q E) (hok : ∀ r s', Q r s' → Q' r s') (herror : E → E') :
    Answers x s Q' E' := by
  unfold Answers
  cases hrun : x s with
  | ok r s' => exact hok r s' (h.of_ok hrun)
  | error e s' => exact (h.of_error hrun).imp_right herror

/-- **A parser behind another one.** -/
theorem bind (hx : Answers x s Q E) (hf : ∀ r s', Q r s' → Answers (f r) s' R E) :
    Answers (x >>= f) s R E := by
  change (match EStateM.bind x f s with
    | .ok r s' => R r s'
    | .error e _ => e.cause = .exhausted ∨ E)
  unfold EStateM.bind
  cases hrun : x s with
  | ok r s' => exact hf r s' (hx.of_ok hrun)
  | error e s' => exact hx.of_error hrun

theorem get_bind {g : ParserState → Parse β} (h : Answers (g s) s R E) :
    Answers (get >>= g) s R E := h

theorem modify_bind {m : ParserState → ParserState} {g : Unit → Parse β}
    (h : Answers (g ⟨⟩) (m s) R E) : Answers (modify m >>= g) s R E := h

end Answers

/-- If the first parser gives a result, so does the second one, unless it gives up at a bound. -/
def Tracks {α : Type} (x y : Parse α) (a b : ParserState)
    (Q : α → α → ParserState → ParserState → Prop) : Prop :=
  ∀ r a', x a = .ok r a' → Answers y b (fun r' b' => Q r r' a' b') False

/-- A parser that gives no result. -/
def FailsAt {α : Type} (x : Parse α) (s : ParserState) : Prop := ∀ r s', x s ≠ .ok r s'

namespace Tracks

variable {α β : Type} {x y : Parse α} {f g : α → Parse β} {a b : ParserState}
  {Q Q' : α → α → ParserState → ParserState → Prop}
  {R : β → β → ParserState → ParserState → Prop}

theorem pure {r r' : α} (h : Q r r' a b) : Tracks (Pure.pure r) (Pure.pure r') a b Q := by
  rintro _ _ ⟨⟩
  exact h

theorem of_fails (h : FailsAt x a) : Tracks x y a b Q := fun r a' hrun => absurd hrun (h r a')

theorem fails_of_error {s s' : ParserState} {e : ParseError} (h : x s = .error e s') :
    FailsAt x s := by
  intro r s'' hrun
  rw [h] at hrun
  cases hrun

theorem fail {token : Token} {cause : ParseCause} : Tracks (Parse.fail token cause) y a b Q :=
  of_fails (fails_of_error rfl)

theorem failGrammar {token : Token} {cause : GrammarCause} :
    Tracks (Parse.failGrammar token cause) y a b Q := fail

theorem failSize {token : Token} {cause : SizeCause} :
    Tracks (Parse.failSize token cause) y a b Q := fail

theorem exhausted : Tracks Parse.exhausted y a b Q := of_fails (fails_of_error rfl)

/-- The second parser may give up at a bound. -/
theorem exhausted_right : Tracks x Parse.exhausted a b Q := fun _ _ _ => Or.inl rfl

theorem mono (hx : Tracks x y a b Q) (h : ∀ r r' a' b', Q r r' a' b' → Q' r r' a' b') :
    Tracks x y a b Q' := fun r a' hrun => (hx r a' hrun).mono (fun r' b' => h r r' a' b') id

/-- **Parsers behind others.** -/
theorem bind (hx : Tracks x y a b Q)
    (hf : ∀ q q' a' b', Q q q' a' b' → Tracks (f q) (g q') a' b' R) :
    Tracks (x >>= f) (y >>= g) a b R := by
  intro r a' hrun
  obtain ⟨q, a₁, hfirst, hrest⟩ := bind_ok hrun
  exact (hx q a₁ hfirst).bind fun q' b₁ hq => hf q q' a₁ b₁ hq r a' hrest

/-- Parsers behind others, where the first one fails unless its first part gives what is asked
for. -/
theorem bind_guard {C : α → Prop} (hfails : ∀ q a', x a = .ok q a' → ¬ C q → FailsAt (f q) a')
    (hx : (∀ q a', x a = .ok q a' → C q) → Tracks x y a b Q)
    (hf : ∀ q q' a' b', Q q q' a' b' → Tracks (f q) (g q') a' b' R) :
    Tracks (x >>= f) (y >>= g) a b R := by
  by_cases hguard : ∀ q a', x a = .ok q a' → C q
  · exact (hx hguard).bind hf
  · intro r a' hrun
    obtain ⟨q, a₁, hfirst, hrest⟩ := bind_ok hrun
    refine absurd (fun q' a₂ hsecond => ?_) hguard
    cases hfirst.symm.trans hsecond
    by_contra hnone
    exact hfails q a₁ hfirst hnone r a' hrest

theorem get_bind {f g : ParserState → Parse β} (h : Tracks (f a) (g b) a b R) :
    Tracks (get >>= f) (get >>= g) a b R := h

theorem modify_bind {m n : ParserState → ParserState} {f g : Unit → Parse β}
    (h : Tracks (f ⟨⟩) (g ⟨⟩) (m a) (n b) R) :
    Tracks (modify m >>= f) (modify n >>= g) a b R := h

theorem ite {c c' : Prop} [Decidable c] [Decidable c'] {z w : Parse α} (hc : c ↔ c')
    (hx : c → Tracks x y a b Q) (hz : ¬ c → Tracks z w a b Q) :
    Tracks (if c then x else z) (if c' then y else w) a b Q := by
  by_cases h : c
  · rw [if_pos h, if_pos (hc.mp h)]
    exact hx h
  · rw [if_neg h, if_neg fun h' => h (hc.mpr h')]
    exact hz h

/-- Parsers that fail unless a check is passed. -/
theorem check {c c' : Prop} [Decidable c] [Decidable c'] {z w : Parse β} (hc : c ↔ c')
    (hx : ∀ Q, Tracks x y a b Q) (hz : ¬ c → Tracks z w a b R) :
    Tracks (if c then x >>= f else z) (if c' then y >>= g else w) a b R :=
  ite hc (fun _ => (hx fun _ _ _ _ => False).bind fun _ _ _ _ hfalse => hfalse.elim) hz

end Tracks

/-! ### What a parser sees -/

/-- On the way from `s₀` to `s`, tokens were read and perhaps consumed: what is handed out from
places in the buffer stayed the same. -/
structure Keeps (s₀ s : ParserState) : Prop where
  valid : s.buffer.position ≤ s.buffer.tokens.size
  size_le : s₀.buffer.tokens.size ≤ s.buffer.tokens.size
  holds : ∀ place items, place ≤ s₀.buffer.tokens.size → s₀.buffer.Holds place items →
    s.buffer.Holds place items
  file : s.file = s₀.file
  loader : s.loader = s₀.loader

/-- What a parser is handed out next, without the places of tokens, and without newlines if it
skips them. -/
def Sees (skipping : Bool) (s : ParserState) (items : List Lexeme) : Prop :=
  ∃ raw, s.buffer.Holds s.buffer.position raw ∧ condense skipping raw = items

variable {s₀ s s' : ParserState} {token : Token} {items raw : List Lexeme} {skipping : Bool}

namespace Keeps

theorem refl (hvalid : s.buffer.position ≤ s.buffer.tokens.size) : Keeps s s :=
  ⟨hvalid, Nat.le_refl _, fun _ _ _ h => h, rfl, rfl⟩

theorem trans (h : Keeps s₀ s) (h' : Keeps s s') : Keeps s₀ s' where
  valid := h'.valid
  size_le := Nat.le_trans h.size_le h'.size_le
  holds place items hplace hholds :=
    h'.holds place items (Nat.le_trans hplace h.size_le) (h.holds place items hplace hholds)
  file := h'.file.trans h.file
  loader := h'.loader.trans h.loader

theorem same (h : Keeps s₀ s) (hbuffer : s'.buffer = s.buffer) (hfile : s'.file = s.file)
    (hloader : s'.loader = s.loader) : Keeps s₀ s' := by
  refine ⟨?_, ?_, ?_, hfile.trans h.file, hloader.trans h.loader⟩
  · rw [hbuffer]
    exact h.valid
  · rw [hbuffer]
    exact h.size_le
  · rw [hbuffer]
    exact h.holds

/-- Going to another place in the buffer. -/
theorem rewind (h : Keeps s₀ s) (mark : Nat) (hmark : mark ≤ s.buffer.tokens.size) :
    Keeps s₀ { s with buffer := s.buffer.rewind mark } :=
  ⟨hmark, h.size_le,
    fun place items hplace hholds => (h.holds place items hplace hholds).rewind mark,
    h.file, h.loader⟩

theorem peek (hvalid : s.buffer.position ≤ s.buffer.tokens.size) :
    Keeps s { s with buffer := s.buffer.peek.2 } where
  valid := by
    dsimp only
    rw [TokenBuffer.peek_position]
    exact Nat.le_trans hvalid s.buffer.peek_size
  size_le := s.buffer.peek_size
  holds _ _ hplace h := h.peek hplace
  file := rfl
  loader := rfl

end Keeps

theorem answered_ok {answer : Except LexicalError Token × TokenBuffer}
    (h : answer.1 = .ok token) : answered answer s = .ok token { s with buffer := answer.2 } := by
  obtain ⟨result, buffer⟩ := answer
  obtain rfl : result = .ok token := h
  rfl

theorem answers_answered {answer : Except LexicalError Token × TokenBuffer}
    {Q : Token → ParserState → Prop} {E : Prop}
    (hok : ∀ token, answer.1 = .ok token → Q token { s with buffer := answer.2 })
    (herror : ∀ e, answer.1 = .error e → E) : Answers (answered answer) s Q E := by
  obtain ⟨result, buffer⟩ := answer
  cases result with
  | ok token => exact hok token rfl
  | error e => exact Or.inr (herror e rfl)

/-- What a look ahead tells: the first token of what is handed out. -/
theorem answers_peek (hvalid : s.buffer.position ≤ s.buffer.tokens.size)
    (hraw : s.buffer.Holds s.buffer.position raw) :
    Answers Parse.peek s (fun token s' => OnlyBuffer s s' ∧ Keeps s s' ∧ s'.buffer.Shows token ∧
      s'.buffer.Holds s'.buffer.position raw ∧ raw.head? = some (.ok token))
      (∃ slip, raw = [.error slip]) := by
  refine answers_answered (fun token htoken => ?_) fun e he => ⟨_, hraw.of_error he⟩
  refine ⟨rfl, .peek hvalid, TokenBuffer.peek_shows hvalid htoken, ?_, hraw.of_ok hvalid htoken⟩
  dsimp only
  rw [TokenBuffer.peek_position]
  exact hraw.peek hvalid

/-- What is consumed: the first token of what is handed out. -/
theorem answers_next (hvalid : s.buffer.position ≤ s.buffer.tokens.size)
    (hraw : s.buffer.Holds s.buffer.position raw) :
    Answers Parse.next s (fun token s' => OnlyBuffer s s' ∧ Keeps s s' ∧
      raw.head? = some (.ok token) ∧ (∀ found, s.buffer.Shows found → token = found) ∧
      (token.kind ≠ .finish → s'.buffer.Holds s'.buffer.position raw.tail))
      (∃ slip, raw = [.error slip]) := by
  have hkeeps := Keeps.peek hvalid
  refine answers_answered (fun token htoken => ?_) fun e he => ?_
  · have hshown : ∀ found, s.buffer.Shows found → token = found := fun found hfound =>
      Except.ok.inj (htoken.symm.trans hfound.next)
    rcases s.buffer.next_cases with ⟨e, hnext⟩ | ⟨found, hfound, ⟨hnext, hfinish⟩ | hnext⟩
    · rw [hnext] at htoken
      cases htoken
    · rw [hnext] at htoken ⊢
      cases htoken
      exact ⟨rfl, hkeeps, hraw.of_ok hvalid hfound, hshown, fun hne => absurd hfinish hne⟩
    · rw [hnext] at htoken ⊢
      cases htoken
      have hshows := TokenBuffer.peek_shows hvalid hfound
      have hlt := hshows.lt_size
      rw [TokenBuffer.peek_position] at hlt
      have hmoved := hkeeps.rewind (s.buffer.position + 1) hlt
      refine ⟨rfl, hmoved, hraw.of_ok hvalid hfound, hshown, fun hne => ?_⟩
      have hheld := hraw.peek hvalid
      rw [← TokenBuffer.peek_position] at hheld
      rcases hheld.shown hshows with ⟨hfinish, _⟩ | ⟨_, rest, rfl, hrest⟩
      · exact absurd hfinish hne
      · rw [TokenBuffer.peek_position] at hrest
        exact hrest.rewind _
  · rcases s.buffer.next_cases with ⟨e', hnext⟩ | ⟨found, _, ⟨hnext, _⟩ | hnext⟩
    · refine ⟨_, hraw.of_error (e := e) ?_⟩
      unfold TokenBuffer.next at he hnext
      cases hpeek : s.buffer.peek with
      | mk answer buffer =>
        rw [hpeek] at he
        cases answer with
        | error e'' => exact he
        | ok token =>
          dsimp only at he
          split_ifs at he
    · rw [hnext] at he
      cases he
    · rw [hnext] at he
      cases he

/-! ### Texts that agree -/

/-- Where a parser is in the lines it reads: inside a line, behind the end of one, or behind the
beginning or the end of a block. -/
inductive Mode where
  | inside
  | behind
  | edge
deriving DecidableEq, Repr

/-- How far two texts agree. -/
inductive Reach where
  /-- Up to the end of both. -/
  | whole
  /-- Up to the end of the block that the line at hand opens; these follow then. -/
  | chunk (as bs : List Lexeme)
  /-- Everywhere, and an include line is ahead. -/
  | toInclude

namespace Reach

/-- Where texts no longer have to agree, outside all blocks. A line that opens no block has no end
of a block to reach. -/
def Stops : Reach → Mode → List Lexeme → List Lexeme → Prop
  | whole, mode, as, bs => mode ≠ .inside ∧ as = [.ok (mark .finish 0 0)] ∧ bs = as
  | chunk as₀ bs₀, mode, as, bs => mode = .edge ∧ as = as₀ ∧ bs = bs₀ ∨
      mode = .behind ∧ ∀ token, as.head? = some (.ok token) → token.kind ≠ .indent
  | toInclude, mode, as, bs => mode ≠ .inside ∧ bs = as ∧
      ∃ token, as.head? = some (.ok token) ∧ token.isWord "include"

/-- Whether texts agree beyond a place at a depth. -/
def Continues : Reach → Nat → Mode → Prop
  | chunk _ _, level, mode => level = 0 → mode ≠ .edge
  | _, _, _ => True

/-- Whether both texts can be looked at outside of a line at a depth. -/
def Open : Reach → Nat → Prop
  | chunk _ _, level => 0 < level
  | _, _ => True

end Reach

theorem Reach.continues_of {reach : Reach} {level : Nat} {mode : Mode}
    (h : level ≠ 0 ∨ mode ≠ .edge) : reach.Continues level mode := by
  cases reach with
  | chunk as bs => exact fun hlevel => h.resolve_left (not_not.mpr hlevel)
  | whole => trivial
  | toInclude => trivial

/-- How a token moves a parser through lines and blocks. -/
inductive Turn : Nat → Mode → Token → Nat → Mode → Prop
  | word {level : Nat} {mode : Mode} {token : Token} (h : token.kind.isWord = true) :
      Turn level mode token level .inside
  | newline {level : Nat} {token : Token} (h : token.kind = .newline) :
      Turn level .inside token level .behind
  | indent {level : Nat} {token : Token} (h : token.kind = .indent) :
      Turn level .behind token (level + 1) .edge
  | dedent {level : Nat} {mode : Mode} {token : Token} (h : token.kind = .dedent)
      (hmode : mode ≠ .inside) : Turn (level + 1) mode token level .edge

/-- What two texts hand out agrees as far as it is asked for, or up to an error in the first one. -/
inductive Agree (reach : Reach) : Nat → Mode → List Lexeme → List Lexeme → Prop
  | stop {mode : Mode} {as bs : List Lexeme} (h : reach.Stops mode as bs) : Agree reach 0 mode as bs
  | error {level : Nat} {mode : Mode} {slip : Slip} {as bs : List Lexeme}
      (hreach : reach.Continues level mode) : Agree reach level mode (.error slip :: as) bs
  | step {level level' : Nat} {mode mode' : Mode} {token : Token} {as bs : List Lexeme}
      (hreach : reach.Continues level mode) (hturn : Turn level mode token level' mode')
      (hrest : Agree reach level' mode' as bs) :
      Agree reach level mode (.ok token :: as) (.ok token :: bs)

variable {reach : Reach} {level : Nat} {mode : Mode} {as bs : List Lexeme}

theorem Turn.solid {level' : Nat} {mode' : Mode} (h : Turn level mode token level' mode')
    (hmode : mode ≠ .inside) : token.kind ≠ .newline := by
  cases h with
  | word h =>
    intro hkind
    rw [hkind] at h
    cases h
  | newline h => exact absurd rfl hmode
  | indent h => simp [h]
  | dedent h => simp [h]

theorem Reach.stops_inside : ¬ reach.Stops .inside as bs := by
  intro h
  cases reach with
  | whole => exact h.1 rfl
  | chunk as₀ bs₀ => rcases h with ⟨hmode, _⟩ | ⟨hmode, _⟩ <;> cases hmode
  | toInclude => exact h.1 rfl

namespace Agree

/-- Both texts hand out the same token next. -/
theorem head (h : Agree reach level mode as bs) (hopen : mode = .inside ∨ reach.Open level)
    (hhead : as.head? = some (.ok token)) : bs.head? = some (.ok token) := by
  cases h with
  | stop hstop =>
    rcases hopen with rfl | hopen
    · exact absurd hstop Reach.stops_inside
    · cases reach with
      | whole =>
        obtain ⟨_, rfl, rfl⟩ := hstop
        exact hhead
      | chunk as₀ bs₀ => exact absurd hopen (Nat.lt_irrefl 0)
      | toInclude =>
        obtain ⟨_, rfl, _⟩ := hstop
        exact hhead
  | error => cases hhead
  | step => exact hhead

/-- A block that opens in the first text opens in the second one. -/
theorem indent (h : Agree reach level .behind as bs) (hhead : as.head? = some (.ok token))
    (hkind : token.kind = .indent) :
    bs.head? = some (.ok token) ∧ Agree reach (level + 1) .edge as.tail bs.tail := by
  cases h with
  | stop hstop =>
    cases reach with
    | whole =>
      obtain ⟨_, rfl, rfl⟩ := hstop
      cases hhead
      cases hkind
    | chunk as₀ bs₀ =>
      rcases hstop with ⟨hmode, _⟩ | ⟨_, hnone⟩
      · cases hmode
      · exact absurd hkind (hnone token hhead)
    | toInclude =>
      obtain ⟨_, _, word, hword, hinclude⟩ := hstop
      cases hword.symm.trans hhead
      rw [Token.kind_of_isWord hinclude] at hkind
      cases hkind
  | error => cases hhead
  | step hreach hturn hrest =>
    cases hhead
    cases hturn with
    | word h =>
      rw [hkind] at h
      cases h
    | indent _ => exact ⟨rfl, hrest⟩
    | dedent h =>
      rw [hkind] at h
      cases h

/-- Where a block ends inside another one, both texts go on. -/
theorem dedent (h : Agree reach (level + 1) mode as bs) (hhead : as.head? = some (.ok token))
    (hkind : token.kind = .dedent) :
    bs.head? = some (.ok token) ∧ Agree reach level .edge as.tail bs.tail := by
  cases h with
  | error => cases hhead
  | step hreach hturn hrest =>
    cases hhead
    cases hturn with
    | word h =>
      rw [hkind] at h
      cases h
    | newline h =>
      rw [hkind] at h
      cases h
    | indent h =>
      rw [hkind] at h
      cases h
    | dedent _ => exact ⟨rfl, hrest⟩

/-- A line that begins with a word is the same in both texts, unless they no longer have to agree
where it begins. -/
theorem inside (h : Agree reach level mode as bs) (hhead : as.head? = some (.ok token))
    (hword : token.kind.isWord = true) (hstop : level = 0 → ¬ reach.Stops mode as bs) :
    Agree reach level .inside as bs := by
  cases h with
  | stop h => exact absurd h (hstop rfl)
  | error => cases hhead
  | step hreach hturn hrest =>
    cases hhead
    cases hturn with
    | word _ => exact .step (Reach.continues_of (Or.inr (by simp))) (.word hword) hrest
    | newline h =>
      rw [h] at hword
      cases hword
    | indent h =>
      rw [h] at hword
      cases hword
    | dedent h =>
      rw [h] at hword
      cases hword

/-- Inside a line both texts hand out words and its end. -/
theorem next (h : Agree reach level .inside as bs) (hhead : as.head? = some (.ok token)) :
    bs.head? = some (.ok token) ∧
      (token.kind.isWord = true ∧ Agree reach level .inside as.tail bs.tail ∨
        token.kind = .newline ∧ Agree reach level .behind as.tail bs.tail) := by
  cases h with
  | stop hstop => exact absurd hstop Reach.stops_inside
  | error => cases hhead
  | step hreach hturn hrest =>
    cases hhead
    cases hturn with
    | word hword => exact ⟨rfl, Or.inl ⟨hword, hrest⟩⟩
    | newline hkind => exact ⟨rfl, Or.inr ⟨hkind, hrest⟩⟩
    | dedent _ hmode => exact absurd rfl hmode

theorem word (h : Agree reach level .inside as bs) (hhead : as.head? = some (.ok token))
    (hword : token.kind.isWord = true) :
    bs.head? = some (.ok token) ∧ Agree reach level .inside as.tail bs.tail := by
  obtain ⟨hsame, ⟨_, hrest⟩ | ⟨hkind, _⟩⟩ := h.next hhead
  · exact ⟨hsame, hrest⟩
  · rw [hkind] at hword
    cases hword

theorem newline (h : Agree reach level .inside as bs) (hhead : as.head? = some (.ok token))
    (hkind : token.kind = .newline) :
    bs.head? = some (.ok token) ∧ Agree reach level .behind as.tail bs.tail := by
  obtain ⟨hsame, ⟨hword, _⟩ | ⟨_, hrest⟩⟩ := h.next hhead
  · rw [hkind] at hword
    cases hword
  · exact ⟨hsame, hrest⟩

theorem ne_nil (h : Agree reach level mode as bs) (hopen : reach.Open level) : as ≠ [] := by
  cases h with
  | stop hstop =>
    cases reach with
    | whole =>
      obtain ⟨_, rfl, _⟩ := hstop
      simp
    | chunk as₀ bs₀ => exact absurd hopen (Nat.lt_irrefl 0)
    | toInclude =>
      obtain ⟨_, _, word, hword, _⟩ := hstop
      rintro rfl
      cases hword
  | error => simp
  | step => simp

/-- Where a block begins or ends, no newline is next. -/
theorem reopen (h : Agree reach level .edge as bs) (hopen : reach.Open level) :
    Agree reach level .behind as bs ∧
      ∀ token, as.head? = some (.ok token) → token.kind ≠ .newline := by
  cases h with
  | stop hstop =>
    cases reach with
    | whole =>
      obtain ⟨_, rfl, rfl⟩ := hstop
      refine ⟨.stop ⟨by simp, rfl, rfl⟩, ?_⟩
      rintro token ⟨⟩
      simp [mark]
    | chunk as₀ bs₀ => exact absurd hopen (Nat.lt_irrefl 0)
    | toInclude =>
      obtain ⟨_, heq, word, hword, hinclude⟩ := hstop
      refine ⟨.stop ⟨by simp, heq, word, hword, hinclude⟩, fun token htoken => ?_⟩
      cases hword.symm.trans htoken
      rw [Token.kind_of_isWord hinclude]
      simp
  | error => exact ⟨.error (Reach.continues_of (Or.inr (by simp))), fun _ htoken => by cases htoken⟩
  | step hreach hturn hrest =>
    have hcontinues : reach.Continues level .behind := Reach.continues_of (Or.inr (by simp))
    refine ⟨?_, ?_⟩
    · cases hturn with
      | word h => exact .step hcontinues (.word h) hrest
      | dedent h _ => exact .step hcontinues (.dedent h (by simp)) hrest
    · rintro token ⟨⟩
      exact hturn.solid (by simp)

end Agree

/-- Two parsers that started as `a₀` and `b₀` know the same. -/
structure Beside (a₀ b₀ a b : ParserState) : Prop where
  left : Keeps a₀ a
  right : Keeps b₀ b
  globals : b.globals = a.globals
  definitions : b.definitions = a.definitions
  current : b.current = a.current

/-- Two parsers that know the same, where what their texts hand out agrees. -/
structure Abreast (reach : Reach) (level : Nat) (mode : Mode) (skipping : Bool)
    (a₀ b₀ a b : ParserState) : Prop extends Beside a₀ b₀ a b where
  stream : ∃ as bs, Sees skipping a as ∧ Sees skipping b bs ∧ Agree reach level mode as bs

variable {a₀ b₀ a b a' b' : ParserState}

namespace Beside

theorem functions (h : Beside a₀ b₀ a b) : b.functions = a.functions := by
  rw [ParserState.functions, ParserState.functions, h.definitions, h.current]

theorem callee? (h : Beside a₀ b₀ a b) (name : Bytes) : b.callee? name = a.callee? name := by
  rw [ParserState.callee?, ParserState.callee?, h.functions]

theorem globalPlace? (h : Beside a₀ b₀ a b) (name : Bytes) :
    b.globalPlace? name = a.globalPlace? name := by
  rw [ParserState.globalPlace?, ParserState.globalPlace?, h.globals]

theorem place? (h : Beside a₀ b₀ a b) (name : Bytes) : b.place? name = a.place? name := by
  rw [ParserState.place?, ParserState.place?, h.globalPlace?, ParserState.localPlace?,
    ParserState.localPlace?, h.current]

theorem tokenPlace? (h : Beside a₀ b₀ a b) (token : Token) (line column : Nat) :
    b.tokenPlace? (token.placed line column) = a.tokenPlace? token := by
  rw [ParserState.tokenPlace?, ParserState.tokenPlace?, h.place?]
  rfl

theorem assignedPlace? (h : Beside a₀ b₀ a b) (global : Bool) (name : Bytes) :
    b.assignedPlace? global name = a.assignedPlace? global name := by
  rw [ParserState.assignedPlace?, ParserState.assignedPlace?, h.globalPlace?, h.place?]

theorem read (h : Beside a₀ b₀ a b) (ha : OnlyBuffer a a') (hb : OnlyBuffer b b')
    (hleft : Keeps a a') (hright : Keeps b b') : Beside a₀ b₀ a' b' := by
  refine ⟨h.left.trans hleft, h.right.trans hright, ?_, ?_, ?_⟩
  all_goals
    rw [ha, hb]
  · exact h.globals
  · exact h.definitions
  · exact h.current

end Beside

namespace Abreast

theorem rebase (h : Abreast reach level mode skipping a₀ b₀ a b) :
    Abreast reach level mode skipping a b a b :=
  ⟨⟨.refl h.left.valid, .refl h.right.valid, h.globals, h.definitions, h.current⟩, h.stream⟩

theorem trans (h : Beside a₀ b₀ a b) (h' : Abreast reach level mode skipping a b a' b') :
    Abreast reach level mode skipping a₀ b₀ a' b' :=
  ⟨⟨h.left.trans h'.left, h.right.trans h'.right, h'.globals, h'.definitions, h'.current⟩,
    h'.stream⟩

/-- The same is declared in both. -/
theorem same {a₁ b₁ : ParserState} (h : Abreast reach level mode skipping a₁ b₁ a b)
    (ha : a'.buffer = a.buffer)
    (hb : b'.buffer = b.buffer) (hleft : Keeps a₀ a') (hright : Keeps b₀ b')
    (hglobals : b'.globals = a'.globals) (hdefinitions : b'.definitions = a'.definitions)
    (hcurrent : b'.current = a'.current) : Abreast reach level mode skipping a₀ b₀ a' b' := by
  refine ⟨⟨hleft, hright, hglobals, hdefinitions, hcurrent⟩, ?_⟩
  obtain ⟨as, bs, has, hbs, hagree⟩ := h.stream
  refine ⟨as, bs, ?_, ?_, hagree⟩
  · rw [Sees, ha]
    exact has
  · rw [Sees, hb]
    exact hbs

end Abreast

/-! ### Tokens side by side -/

/-- Two parsers that answer, where the second one sees no error if the first one gives a token. -/
theorem Tracks.of_answers {α : Type} {x y : Parse α} {P P' : α → ParserState → Prop} {E E' : Prop}
    {Q : α → α → ParserState → ParserState → Prop} (hx : Answers x a P E)
    (hy : Answers y b P' E') (h : ∀ r a', x a = .ok r a' → P r a' →
      ¬ E' ∧ ∀ r' b', P' r' b' → Q r r' a' b') : Tracks x y a b Q := by
  intro r a' hrun
  obtain ⟨hnone, hboth⟩ := h r a' hrun (hx.of_ok hrun)
  exact hy.mono hboth fun herror => absurd herror hnone

theorem no_error (h : items.head? = some (.ok token)) :
    ¬ ∃ slip, items.head? = some (.error slip) := by
  rintro ⟨slip, hslip⟩
  cases hslip.symm.trans h

theorem head_condense (h : raw.head? = some (.ok token)) :
    (condense false raw).head? = some (.ok (token.placed 0 0)) ∧
      (condense false raw).tail = condense (token.kind == .newline) raw.tail := by
  cases raw with
  | nil => cases h
  | cons item raw =>
    cases h
    by_cases hkind : token.kind = .newline
    · rw [condense_first hkind, hkind]
      exact ⟨rfl, rfl⟩
    · rw [condense_other hkind]
      refine ⟨rfl, ?_⟩
      rw [List.tail_cons, List.tail_cons, beq_false_of_ne hkind]

theorem finds_peek (hvalid : s.buffer.position ≤ s.buffer.tokens.size) (h : Sees false s items) :
    Answers peek s (fun token s' => OnlyBuffer s s' ∧ Keeps s s' ∧ s'.buffer.Shows token ∧
      Sees false s' items ∧ items.head? = some (.ok (token.placed 0 0)))
      (∃ slip, items.head? = some (.error slip)) := by
  obtain ⟨raw, hraw, rfl⟩ := h
  refine (answers_peek hvalid hraw).mono ?_ ?_
  · rintro token s' ⟨honly, hkeeps, hshows, hholds, hhead⟩
    exact ⟨honly, hkeeps, hshows, ⟨raw, hholds, rfl⟩, (head_condense hhead).1⟩
  · rintro ⟨slip, rfl⟩
    exact ⟨slip, rfl⟩

theorem finds_next (hvalid : s.buffer.position ≤ s.buffer.tokens.size) (h : Sees false s items) :
    Answers next s (fun token s' => OnlyBuffer s s' ∧ Keeps s s' ∧
      items.head? = some (.ok (token.placed 0 0)) ∧
      (∀ found, s.buffer.Shows found → token = found) ∧
      (token.kind ≠ .finish → Sees (token.kind == .newline) s' items.tail))
      (∃ slip, items.head? = some (.error slip)) := by
  obtain ⟨raw, hraw, rfl⟩ := h
  refine (answers_next hvalid hraw).mono ?_ ?_
  · rintro token s' ⟨honly, hkeeps, hhead, hshown, hrest⟩
    obtain ⟨hhead', htail⟩ := head_condense hhead
    exact ⟨honly, hkeeps, hhead', hshown, fun hne => ⟨raw.tail, hrest hne, htail.symm⟩⟩
  · rintro ⟨slip, rfl⟩
    exact ⟨slip, rfl⟩

/-- **Newlines are skipped** up to what is seen behind them. -/
theorem finds_skipNewlinesWithin : ∀ {fuel : Nat} {s : ParserState},
    s.buffer.position ≤ s.buffer.tokens.size → Sees true s items →
    Answers (skipNewlinesWithin fuel) s (fun token s' => OnlyBuffer s s' ∧ Keeps s s' ∧
      s'.buffer.Shows token ∧ Sees false s' items ∧ items.head? = some (.ok (token.placed 0 0)) ∧
      token.kind ≠ .newline) (∃ slip, items.head? = some (.error slip))
  | 0, _, _, _ => Or.inl rfl
  | fuel + 1, s, hvalid, ⟨raw, hraw, hitems⟩ => by
    unfold skipNewlinesWithin
    refine ((answers_peek hvalid hraw).mono (fun _ _ h => h) ?_).bind ?_
    · rintro ⟨slip, rfl⟩
      exact ⟨slip, by rw [← hitems]; rfl⟩
    rintro token s₁ ⟨honly, hkeeps, hshows, hholds, hhead⟩
    obtain ⟨rest, rfl⟩ : ∃ rest, raw = .ok token :: rest := by
      cases raw with
      | nil => cases hhead
      | cons item rest =>
        cases hhead
        exact ⟨rest, rfl⟩
    split_ifs with hnewline
    · rw [condense_newline hnewline] at hitems
      refine ((answers_next hkeeps.valid hholds).mono (fun _ _ h => h) ?_).bind ?_
      · rintro ⟨slip, hslip⟩
        cases hslip
      rintro _ s₂ ⟨honly₂, hkeeps₂, _, hshown, hrest⟩
      obtain rfl := hshown token hshows
      refine (finds_skipNewlinesWithin hkeeps₂.valid
        ⟨rest, hrest (by simp [hnewline]), hitems⟩).mono ?_ fun h => h
      rintro found s₃ ⟨honly₃, hkeeps₃, h₃⟩
      exact ⟨(honly.trans honly₂).trans honly₃, (hkeeps.trans hkeeps₂).trans hkeeps₃, h₃⟩
    · rw [condense_other hnewline] at hitems
      refine ⟨honly, hkeeps, hshows, ⟨_, hholds, ?_⟩, ?_, hnewline⟩
      · rw [condense_other hnewline, hitems]
      · rw [← hitems]
        rfl

/-- Both parsers see the same token next. -/
structure Shown (token token' : Token) (a b : ParserState) : Prop where
  placed : ∃ line column, token' = token.placed line column
  left : a.buffer.Shows token
  right : b.buffer.Shows token'

theorem Sees.head (h : Sees false s items) (hshows : s.buffer.Shows token) :
    items.head? = some (.ok (token.placed 0 0)) := by
  obtain ⟨raw, hraw, rfl⟩ := h
  refine (head_condense ?_).1
  rcases hraw.shown hshows with ⟨_, rfl⟩ | ⟨_, rest, rfl, _⟩ <;> rfl

/-- **Both see the same token next**, inside a line or where texts agree. -/
theorem tracks_peek (h : Abreast reach level mode false a₀ b₀ a b)
    (hopen : mode = .inside ∨ reach.Open level) :
    Tracks peek peek a b fun token token' a' b' =>
      Shown token token' a' b' ∧ Abreast reach level mode false a₀ b₀ a' b' := by
  obtain ⟨as, bs, has, hbs, hagree⟩ := h.stream
  refine .of_answers (finds_peek h.left.valid has) (finds_peek h.right.valid hbs) ?_
  rintro token a' - ⟨honly, hkeeps, hshows, hsees, hhead⟩
  have hsame := hagree.head hopen hhead
  refine ⟨no_error hsame, ?_⟩
  rintro token' b' ⟨honly', hkeeps', hshows', hsees', hhead'⟩
  have hplaced := Except.ok.inj (Option.some.inj (hhead'.symm.trans hsame))
  exact ⟨⟨Token.placed_eq hplaced, hshows, hshows'⟩,
    h.toBeside.read honly honly' hkeeps hkeeps', as, bs, hsees, hsees', hagree⟩

/-- Both consume a token, which is any token inside a line. -/
theorem tracks_next (h : Abreast reach level .inside false a₀ b₀ a b) :
    Tracks next next a b fun token token' a' b' =>
      (∃ line column, token' = token.placed line column) ∧ Beside a₀ b₀ a' b' ∧
      (token.kind.isWord = true → Abreast reach level .inside false a₀ b₀ a' b') := by
  obtain ⟨as, bs, has, hbs, hagree⟩ := h.stream
  refine .of_answers (finds_next h.left.valid has) (finds_next h.right.valid hbs) ?_
  rintro token a' - ⟨honly, hkeeps, hhead, _, hrest⟩
  obtain ⟨hsame, hturn⟩ := hagree.next hhead
  refine ⟨no_error hsame, ?_⟩
  rintro token' b' ⟨honly', hkeeps', hhead', _, hrest'⟩
  have hplaced := Except.ok.inj (Option.some.inj (hhead'.symm.trans hsame))
  obtain ⟨line, column, rfl⟩ := Token.placed_eq hplaced
  have hbeside := h.toBeside.read honly honly' hkeeps hkeeps'
  refine ⟨⟨line, column, rfl⟩, hbeside, fun hword => ⟨hbeside, ?_⟩⟩
  have hsolid : token.kind ≠ .finish ∧ (token.kind == .newline) = false := by
    cases hkind : token.kind <;> rw [hkind] at hword <;> cases hword <;> exact ⟨by simp, rfl⟩
  rcases hturn with ⟨_, hagree'⟩ | ⟨hkind, _⟩
  · refine ⟨_, _, ?_, ?_, hagree'⟩
    · rw [← hsolid.2]
      exact hrest hsolid.1
    · rw [← hsolid.2]
      exact hrest' hsolid.1
  · rw [show token.kind = .newline from hkind] at hword
    cases hword

/-- Both consume the token that they see. -/
theorem tracks_shown {level' : Nat} {mode' : Mode} (h : Abreast reach level mode false a₀ b₀ a b)
    (hshows : a.buffer.Shows token) (hkind : token.kind ≠ .finish)
    (hturn : ∀ as bs, Agree reach level mode as bs →
      as.head? = some (.ok (token.placed 0 0)) → bs.head? = some (.ok (token.placed 0 0)) ∧
        Agree reach level' mode' as.tail bs.tail) :
    Tracks next next a b fun found found' a' b' => found = token ∧
      (∃ line column, found' = found.placed line column) ∧
      Abreast reach level' mode' (token.kind == .newline) a₀ b₀ a' b' := by
  obtain ⟨as, bs, has, hbs, hagree⟩ := h.stream
  obtain ⟨hsame, hrest⟩ := hturn as bs hagree (has.head hshows)
  refine .of_answers (finds_next h.left.valid has) (finds_next h.right.valid hbs) ?_
  rintro found a' - ⟨honly, hkeeps, _, hshown, hsees⟩
  obtain rfl := hshown token hshows
  refine ⟨no_error hsame, ?_⟩
  rintro found' b' ⟨honly', hkeeps', hhead', _, hsees'⟩
  have hplaced := Except.ok.inj (Option.some.inj (hhead'.symm.trans hsame))
  obtain ⟨line, column, rfl⟩ := Token.placed_eq hplaced
  exact ⟨rfl, ⟨line, column, rfl⟩, h.toBeside.read honly honly' hkeeps hkeeps', as.tail, bs.tail,
    hsees hkind, hsees' hkind, hrest⟩

/-- A word that both see is consumed. -/
theorem tracks_word (h : Abreast reach level .inside false a₀ b₀ a b)
    (hshows : a.buffer.Shows token) (hword : token.kind.isWord = true) :
    Tracks next next a b fun found found' a' b' => found = token ∧
      (∃ line column, found' = found.placed line column) ∧
      Abreast reach level .inside false a₀ b₀ a' b' := by
  have hsolid : (token.kind == .newline) = false := by
    cases hkind : token.kind <;> rw [hkind] at hword <;> cases hword <;> rfl
  have hnext := tracks_shown h hshows (TokenKind.isWord_ne_finish hword)
    fun _ _ hagree hhead => hagree.word hhead hword
  rw [hsolid] at hnext
  exact hnext

/-- Inside a line comes a word or its end. -/
theorem Abreast.kind (h : Abreast reach level .inside false a₀ b₀ a b)
    (hshows : a.buffer.Shows token) : token.kind.isWord = true ∨ token.kind = .newline := by
  obtain ⟨as, bs, has, _, hagree⟩ := h.stream
  obtain ⟨_, ⟨hword, _⟩ | ⟨hkind, _⟩⟩ := hagree.next (has.head hshows)
  · exact Or.inl hword
  · exact Or.inr hkind

/-- A line begins with a word that both see. -/
theorem Abreast.enter (h : Abreast reach level mode false a₀ b₀ a b)
    (hshows : a.buffer.Shows token) (hword : token.kind.isWord = true)
    (hstop : level = 0 → ∀ as bs, as.head? = some (.ok (token.placed 0 0)) →
      ¬ reach.Stops mode as bs) : Abreast reach level .inside false a₀ b₀ a b := by
  obtain ⟨as, bs, has, hbs, hagree⟩ := h.stream
  have hhead := has.head hshows
  exact ⟨h.toBeside, as, bs, has, hbs,
    hagree.inside hhead hword fun hlevel => hstop hlevel as bs hhead⟩

/-- Where no newline is next, none is skipped. -/
theorem Sees.skip (h : Sees false s items)
    (hsolid : ∀ token, items.head? = some (.ok token) → token.kind ≠ .newline) :
    Sees true s items := by
  obtain ⟨raw, hraw, rfl⟩ := h
  exact ⟨raw, hraw, condense_solid fun token htoken =>
    hsolid (token.placed 0 0) (head_condense htoken).1⟩

/-- Behind the beginning or the end of a block, newlines may be skipped. -/
theorem Abreast.reopen (h : Abreast reach level .edge false a₀ b₀ a b) (hopen : reach.Open level) :
    Abreast reach level .behind true a₀ b₀ a b := by
  obtain ⟨as, bs, has, hbs, hagree⟩ := h.stream
  obtain ⟨hagree', hsolid⟩ := hagree.reopen hopen
  match as, hagree.ne_nil hopen with
  | .error slip :: as, _ =>
    obtain ⟨raw, hraw, rfl⟩ := hbs
    exact ⟨h.toBeside, _, _, has.skip hsolid, ⟨raw, hraw, rfl⟩,
      .error (Reach.continues_of (Or.inr (by simp)))⟩
  | .ok token :: as, _ =>
    have hsame := hagree.head (Or.inr hopen) rfl
    refine ⟨h.toBeside, _, bs, has.skip hsolid, hbs.skip fun found hfound => ?_, hagree'⟩
    cases hfound.symm.trans hsame
    exact hsolid token rfl

/-- **Both skip newlines**, however many there are, and see the same token then. -/
theorem tracks_skipNewlinesWithin {m n : Nat} (h : Abreast reach level .behind true a₀ b₀ a b)
    (hopen : reach.Open level ∨ ∀ token a', skipNewlinesWithin m a = .ok token a' →
      token.kind = .indent) :
    Tracks (skipNewlinesWithin m) (skipNewlinesWithin n) a b fun token token' a' b' =>
      Shown token token' a' b' ∧ token.kind ≠ .newline ∧
        Abreast reach level .behind false a₀ b₀ a' b' := by
  obtain ⟨as, bs, has, hbs, hagree⟩ := h.stream
  refine .of_answers (finds_skipNewlinesWithin h.left.valid has)
    (finds_skipNewlinesWithin h.right.valid hbs) ?_
  rintro token a' hrun ⟨honly, hkeeps, hshows, hsees, hhead, hsolid⟩
  have hsame : bs.head? = some (.ok (token.placed 0 0)) := by
    rcases hopen with hopen | hguard
    · exact hagree.head (Or.inr hopen) hhead
    · exact (hagree.indent hhead (hguard token a' hrun)).1
  refine ⟨no_error hsame, ?_⟩
  rintro token' b' ⟨honly', hkeeps', hshows', hsees', hhead', _⟩
  have hplaced := Except.ok.inj (Option.some.inj (hhead'.symm.trans hsame))
  exact ⟨⟨Token.placed_eq hplaced, hshows, hshows'⟩, hsolid,
    h.toBeside.read honly honly' hkeeps hkeeps', as, bs, hsees, hsees', hagree⟩

/-! ### Small parsers side by side -/

/-- Both consume a word of a kind. -/
theorem tracks_expect (h : Abreast reach level .inside false a₀ b₀ a b) {kind : TokenKind}
    (hkind : kind.isWord = true) (what : Bytes) :
    Tracks (expect kind what) (expect kind what) a b fun _ _ a' b' =>
      Abreast reach level .inside false a₀ b₀ a' b' := by
  unfold expect
  refine (tracks_next h).bind ?_
  rintro token _ a₁ b₁ ⟨⟨line, column, rfl⟩, _, h₁⟩
  refine .ite Iff.rfl (fun _ => .failGrammar) fun hsame => .pure (h₁ ?_)
  rw [not_not.mp hsame]
  exact hkind

/-- Both come to the end of a line. -/
theorem tracks_expectSeparator (h : Abreast reach level .inside false a₀ b₀ a b) :
    Tracks expectSeparator expectSeparator a b fun _ _ a' b' =>
      Abreast reach level .behind true a₀ b₀ a' b' := by
  unfold expectSeparator
  refine (tracks_peek h (Or.inl rfl)).bind ?_
  rintro token _ a₁ b₁ ⟨⟨⟨line, column, rfl⟩, hshows, _⟩, h₁⟩
  rw [Token.placed_kind]
  rcases h₁.kind hshows with hword | hnewline
  · cases hkind : token.kind <;> rw [hkind] at hword <;> cases hword <;> exact .failGrammar
  · have hnext := tracks_shown h₁ hshows (by simp [hnewline])
      fun _ _ hagree hhead => hagree.newline hhead hnewline
    rw [hnewline] at hnext ⊢
    refine hnext.bind ?_
    rintro _ _ a₂ b₂ ⟨_, _, h₂⟩
    exact .pure h₂

theorem tracks_checked {α : Type} (h : Abreast reach level mode skipping a₀ b₀ a b)
    {token' : Token} (check : Except SizeCause α) :
    Tracks (checked token check) (checked token' check) a b fun r r' a' b' =>
      r = r' ∧ Abreast reach level mode skipping a₀ b₀ a' b' := by
  cases check with
  | error cause => exact .failSize
  | ok r => exact .pure ⟨rfl, h⟩

/-- The same variable is declared in both. -/
theorem tracks_declare (h : Abreast reach level mode skipping a₀ b₀ a b) {token' : Token}
    (global : Bool) (slot : Variable) :
    Tracks (declare token global slot) (declare token' global slot) a b fun r r' a' b' =>
      r = r' ∧ Abreast reach level mode skipping a₀ b₀ a' b' := by
  have hleft := h.left
  have hright := h.right
  unfold declare
  refine .get_bind ?_
  rw [h.current, h.globals]
  have hglobal (globals : VariableList) (offset : Int) (current : Option Function) : Tracks
      (do
        set { a with globals, current }
        return ({ scope := .globals, slot, offset } : Place))
      (do
        set { b with globals, current }
        return ({ scope := .globals, slot, offset } : Place)) a b fun r r' a' b' =>
        r = r' ∧ Abreast reach level mode skipping a₀ b₀ a' b' := by
    rintro _ _ ⟨⟩
    exact ⟨rfl, h.same rfl rfl (hleft.same rfl rfl rfl) (hright.same rfl rfl rfl) rfl
      h.definitions rfl⟩
  cases hcurrent : a.current with
  | none =>
    dsimp only
    cases a.globals.add slot with
    | error error => exact .failSize
    | ok added => exact hglobal added.2 added.1 none
  | some f =>
    cases global with
    | true =>
      dsimp only
      cases a.globals.add slot with
      | error error => exact .failSize
      | ok added => exact hglobal added.2 added.1 (some f)
    | false =>
      dsimp only
      cases f.locals.add slot with
      | error error => exact .failSize
      | ok added =>
        rintro _ _ ⟨⟩
        exact ⟨rfl, h.same rfl rfl (hleft.same rfl rfl rfl) (hright.same rfl rfl rfl) rfl
          h.definitions rfl⟩

end Parse

end Terrace
