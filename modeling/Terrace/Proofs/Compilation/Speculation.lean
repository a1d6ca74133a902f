/-
# Attempts at an assignment

An assignment is tried wherever a statement may be one. The attempt consumes tokens and appends
code, and may find out late that the tokens are something else. Then the parser goes back and the
code is truncated. Nothing else has changed: what an attempt reads, it can read again; what it
appends lies behind the mark, and so does an error that it notes; and it declares nothing before it
is known to be an assignment. An error that was pending before stays, as there is always an item
behind it where an assignment is tried.

So the compilation in a single pass gives the program that the parser gives, and its code.

Key definitions: `Emitter.Grown`, `Draft.Sound`, `Draft.Beyond`, `Draft.Wrote`, `Draft.Whole`,
`Program.attempts`, `Draft.Restored`.
Key theorems: `Expression.emit_grows`, `Write.follows_assignment`, `Write.goBack_beyond`,
`Write.follows_statement`, `Write.follows_definition`, `Program.draft_follows`.
-/
import Terrace.Proofs.Compilation.SinglePass
import Terrace.Proofs.Token.Lookahead

namespace Terrace

/-! ### Work that only appends -/

namespace Emitter

/-- The later emitter is the first one with items appended, and has an item behind its pending
error if the first one has. -/
structure Grown (e later : Emitter) : Prop where
  more : e.Extends later
  early : e.Early → later.Early

/-- With one more item, there is an item behind the pending error. -/
theorem early_push {e : Emitter}
    (h : ∀ error noted, e.pending = some (error, noted) → noted ≤ e.items.size) (item : Item)
    (error : Option RangeError) : Early { e with
      items := e.items.push item
      pending := e.pending <|> error.map fun error => (error, e.items.size) } := by
  intro found noted hfound
  dsimp only at hfound
  rw [Array.size_push]
  cases hpending : e.pending with
  | some pending =>
    rw [hpending] at hfound
    obtain rfl : pending = (found, noted) := Option.some.inj hfound
    have hle := h found noted hpending
    omega
  | none =>
    rw [hpending] at hfound
    obtain ⟨_, _, heq⟩ := Option.map_eq_some_iff.mp hfound
    obtain ⟨-, rfl⟩ := Prod.mk.inj heq
    omega

namespace Grown

theorem refl (e : Emitter) : Grown e e := ⟨.refl e, id⟩

theorem trans {a b c : Emitter} (hab : Grown a b) (hbc : Grown b c) : Grown a c :=
  ⟨hab.more.trans hbc.more, hbc.early ∘ hab.early⟩

theorem push (e : Emitter) (item : Item) (error : Option RangeError) :
    Grown e { e with
      items := e.items.push item
      pending := e.pending <|> error.map fun error => (error, e.items.size) } :=
  ⟨.push e item error, fun he => early_push (fun found noted h => (he found noted h).le) item error⟩

end Grown

end Emitter

namespace Emit

/-- The work only appends. -/
abbrev Grows {α : Type} (x : Emit α) : Prop := Moves Emitter.Grown x

section
variable {α β : Type} {x : Emit α} {f : α → Emit β}

theorem grows_pure (a : α) : Grows (pure a : Emit α) := moves_pure .refl a

theorem Grows.bind (hx : Grows x) (hf : ∀ a, Grows (f a)) : Grows (x >>= f) :=
  moves_bind .trans hx hf

theorem Grows.of_ok (hx : Grows x) {e e' : Emitter} {a : α} (hrun : x e = .ok a e') :
    e.Grown e' := by
  have hgrown := hx e
  unfold after EStateM.run at hgrown
  rwa [hrun] at hgrown

end

theorem grows_op (code : Opcode) (operands : List Int) : Grows (op code operands) := fun e => by
  rw [after_op]
  exact .push ..

theorem grows_append (item : Item) : Grows (append item) := fun e => by
  rw [after_append]
  exact .push e item none

theorem grows_literal (value : Bytes) : Grows (literal value) := fun e => by
  rw [after_literal]
  exact .push ..

theorem grows_loadVariable (scope : Scope) (offset size : Int) :
    Grows (loadVariable scope offset size) := moves_ite (grows_op _ _) (grows_op _ _)

theorem grows_storeVariable (scope : Scope) (offset size : Int) :
    Grows (storeVariable scope offset size) := moves_ite (grows_op _ _) (grows_op _ _)

theorem grows_unary (operator : UnaryOp) (size : Int) : Grows (unary operator size) := by
  unfold unary
  split <;> exact grows_op _ _

theorem grows_binary (operator : BinaryOp) (leftSize rightSize : Int) :
    Grows (binary operator leftSize rightSize) := by
  unfold binary
  split
  · exact moves_ite (grows_op _ _) (grows_op _ _)
  · exact moves_ite (grows_op _ _) (grows_op _ _)
  all_goals exact grows_op _ _

theorem grows_call (entry : Int) : Grows (call entry) :=
  (grows_append _).bind fun _ => grows_pure _

theorem grows_discard (size : Int) : Grows (discard size) :=
  moves_ite (grows_op _ _) (grows_pure _)

end Emit

theorem Place.emitAddress_grows (place : Place) : Emit.Grows place.emitAddress :=
  Emit.moves_ite (Emit.grows_loadVariable _ _ _) (Emit.grows_op _ _)

mutual

theorem Expression.emit_grows (entries : List Nat) : (e : Expression) → Emit.Grows (e.emit entries)
  | .literal value => Emit.grows_literal value
  | .load _ => Emit.grows_loadVariable _ _ _
  | .addressOf place => place.emitAddress_grows
  | .element place index _ => place.emitAddress_grows.bind fun _ =>
    (index.emit_grows entries).bind fun _ => Emit.grows_op _ _
  | .unary _ operand _ => (operand.emit_grows entries).bind fun _ => Emit.grows_unary _ _
  | .binary _ left right _ _ => (left.emit_grows entries).bind fun _ =>
    (right.emit_grows entries).bind fun _ => Emit.grows_binary _ _ _
  | .call _ arguments => (Emit.grows_op _ _).bind fun _ =>
    (emitAll_grows entries arguments).bind fun _ => Emit.grows_call _
  | .systemCall address a x y => (address.emit_grows entries).bind fun _ =>
    (a.emit_grows entries).bind fun _ => (x.emit_grows entries).bind fun _ =>
      (y.emit_grows entries).bind fun _ => Emit.grows_op _ _
  | .loadMemory _ address => (address.emit_grows entries).bind fun _ => Emit.grows_op _ _
  | .storeMemory value _ address => (value.emit_grows entries).bind fun _ =>
    (address.emit_grows entries).bind fun _ => Emit.grows_op _ _

theorem emitAll_grows (entries : List Nat) : (es : List Expression) → Emit.Grows (emitAll entries es)
  | [] => Emit.grows_pure _
  | e :: es => (e.emit_grows entries).bind fun _ => emitAll_grows entries es

end

/-- An expression only appends, and is never refused. -/
theorem Expression.emit_ok (e : Expression) (entries : List Nat) (emitter : Emitter) :
    ∃ later, e.emit entries emitter = .ok ⟨⟩ later ∧ emitter.Grown later := by
  obtain ⟨later, hrun, -⟩ := ((e.adds entries).appends _ _ rfl).run emitter rfl
  exact ⟨later, hrun, (e.emit_grows entries).of_ok hrun⟩

theorem Place.emitAddress_ok (place : Place) (emitter : Emitter) :
    ∃ later, place.emitAddress emitter = .ok ⟨⟩ later ∧ emitter.Grown later := by
  obtain ⟨later, hrun, -⟩ := (place.plain_emitAddress.appends _ _ rfl).run emitter rfl
  exact ⟨later, hrun, place.emitAddress_grows.of_ok hrun⟩

theorem Statement.emit_ok (s : Statement) (entries : List Nat) (emitter : Emitter) :
    ∃ later, s.emit entries emitter = .ok ⟨⟩ later := by
  obtain ⟨later, hrun, -⟩ := (s.appends entries _ _ rfl).run emitter rfl
  exact ⟨later, hrun⟩

theorem bind_of_ok {ε σ α β : Type} {x : EStateM ε σ α} {f : α → EStateM ε σ β} {a : α} {s s' : σ}
    (h : x s = .ok a s') : (x >>= f) s = f a s' := by
  change EStateM.bind x f s = _
  rw [EStateM.bind, h]

theorem ok_of_bind {ε σ α β : Type} {x : EStateM ε σ α} {f : α → EStateM ε σ β} {b : β} {s s' : σ}
    (h : (x >>= f) s = .ok b s') : ∃ a s₁, x s = .ok a s₁ := by
  cases hrun : x s with
  | ok a s₁ => exact ⟨a, s₁, rfl⟩
  | error e s₁ =>
    change EStateM.bind x f s = _ at h
    rw [EStateM.bind, hrun] at h
    cases h

/-- Pointing a branch at the next item leaves the pending error in front of an item. -/
theorem Emit.target_early {i : Int} {e later : Emitter} (hrun : target i e = .ok ⟨⟩ later)
    (he : e.Early) : later.Early := by
  unfold target at hrun
  obtain ⟨found, e', hitem⟩ := ok_of_bind hrun
  rw [bind_of_ok hitem] at hrun
  rcases itemAt_cases i e with herror | ⟨place, item, hok, -⟩
  · rw [EStateM.run, hitem] at herror
    cases herror
  · rw [EStateM.run, hitem] at hok
    cases hok
    cases item with
    | branch ifFalse target =>
      cases target with
      | none =>
        cases hrun
        exact fun error noted hpending => by simpa using he error noted hpending
      | some target => cases hrun
    | _ => cases hrun

/-! ### Drafts -/

open Parse (Contract Obeys)

/-- A property of the states, whatever the tokens and the errors are. -/
def Parse.Contract.ofState (state : ParserState → Prop) : Contract where
  state
  token _ := True
  error _ _ := True

/-- A property of the states is kept by reading if it only depends on where the buffer is. -/
theorem Parse.Contract.ofState_reading {state : ParserState → Prop}
    (hpeek : ∀ s : ParserState, state s → state { s with buffer := s.buffer.peek.2 })
    (hnext : ∀ s : ParserState, state s → state { s with buffer := s.buffer.next.2 }) :
    (Contract.ofState state).Reading := by
  have hanswered : ∀ (s : ParserState) (answer : Except LexicalError Token × TokenBuffer),
      state { s with buffer := answer.2 } → Obeys (.ofState state) (answered answer) s
        fun _ s' => state s' ∧ True := by
    intro s answer h
    obtain ⟨_ | _, buffer⟩ := answer
    · trivial
    · exact ⟨h, trivial⟩
  exact ⟨fun hs => hanswered _ _ (hpeek _ hs), fun hs => hanswered _ _ (hnext _ hs),
    fun _ _ _ => trivial, fun _ => trivial⟩

theorem declare_keeps {token : Token} {global : Bool} {slot : Variable} {place : Place}
    {s s' : ParserState} (hrun : Parse.declare token global slot s = .ok place s') :
    s'.buffer = s.buffer ∧ s'.definitions = s.definitions ∧
      s'.current.map (·.parameters) = s.current.map (·.parameters) := by
  have hkeeps : Obeys (.ofState fun _ => True) (Parse.declare token global slot) s fun _ s' =>
      s'.buffer = s.buffer ∧ s'.definitions = s.definitions ∧
        s'.current.map (·.parameters) = s.current.map (·.parameters) := by
    unfold Parse.declare
    refine .get_bind ?_
    split
    next f hcurrent =>
      split
      · trivial
      · exact ⟨rfl, rfl, by rw [hcurrent]; rfl⟩
    · split
      · trivial
      · exact ⟨rfl, rfl, rfl⟩
  exact hkeeps.of_ok hrun

/-- The parser reads on from this buffer. -/
def beyond (b : TokenBuffer) : Contract := .ofState fun s => b.Ahead s.buffer

theorem beyond_binding (b : TokenBuffer) : (beyond b).Binding where
  toReading := Contract.ofState_reading (fun _ hs => hs.trans (.peek hs.valid))
    fun _ hs => hs.trans (.next hs.valid)
  declare {s s' _ _ _ _} hs _ _ _ hrun := by
    change b.Ahead s'.buffer
    rw [(declare_keeps hrun).1]
    exact hs
  giveBack hs _ _ := hs

theorem beyond_reading (b : TokenBuffer) : (beyond b).Reading := (beyond_binding b).toReading

theorem Function.setReturn_parameters {f f' : Function} {size : Int} {array : Bool}
    (h : f.setReturn size array = .ok f') : f'.parameters = f.parameters := by
  unfold Function.setReturn at h
  split at h
  · cases h
    rfl
  · split at h
    · cases h
      rfl
    · cases h

/-- These are the definitions before and the parameters of the current function. -/
structure ParserState.Amid (definitions : List Definition) (parameters : Option VariableList)
    (s : ParserState) : Prop where
  definitions : s.definitions = definitions
  parameters : s.current.map (·.parameters) = parameters

theorem amid_declaring (definitions : List Definition) (parameters : Option VariableList) :
    (Contract.ofState (ParserState.Amid definitions parameters)).Declaring where
  toReading := Contract.ofState_reading (fun _ hs => ⟨hs.definitions, hs.parameters⟩)
    fun _ hs => ⟨hs.definitions, hs.parameters⟩
  rewind hs _ := ⟨hs.definitions, hs.parameters⟩
  declare hs _ _ _ hrun := by
    obtain ⟨-, hdefinitions, hparameters⟩ := declare_keeps hrun
    exact ⟨hdefinitions.trans hs.definitions, hparameters.trans hs.parameters⟩
  giveBack hs hcurrent hreturn := by
    refine ⟨hs.definitions, ?_⟩
    rw [← hs.parameters, hcurrent]
    exact congrArg some (Function.setReturn_parameters hreturn)

/-- An assignment can be tried, as at all moments before. -/
structure Draft.Sound (d : Draft) : Prop where
  ready : d.toMoment.Ready
  logged : d.Logged

/-- The later draft is the first one with tokens read and code appended. -/
structure Draft.Beyond (d later : Draft) : Prop where
  parser : (beyond d.parser.buffer).Along d.parser later.parser
  emitter : d.emitter.Grown later.emitter
  entries : later.entries = d.entries
  logged : later.Logged

/-- The later draft has the code of a statement more. -/
structure Draft.Wrote (d : Draft) (statement : Statement) (later : Draft) : Prop where
  sound : later.Sound
  emitted : statement.emit d.entries d.emitter = .ok ⟨⟩ later.emitter
  entries : later.entries = d.entries

/-- The later draft has the code of statements more. -/
structure Draft.WroteBlock (d : Draft) (statements : List Statement) (later : Draft) : Prop where
  sound : later.Sound
  emitted : emitBlock d.entries statements d.emitter = .ok ⟨⟩ later.emitter
  entries : later.entries = d.entries

/-- What an attempt at an assignment comes to. -/
def Draft.Attempted (d : Draft) : Option Statement → Draft → Prop
  | some statement, later => d.Wrote statement later
  | none, later => d.Beyond later

namespace Draft

variable {d d' : Draft}

namespace Sound

variable (hd : d.Sound)
include hd

theorem along : (beyond d.parser.buffer).Along d.parser d.parser := .refl (.refl hd.ready.placed)

theorem beyond : d.Beyond d := ⟨hd.along, .refl _, rfl, hd.logged⟩

theorem read {b : TokenBuffer} {s : ParserState} (hs : b.Ahead s.buffer) :
    Sound { d with parser := s } := ⟨⟨hs.valid, hd.ready.early⟩, hd.logged⟩

theorem put {emitter : Emitter} (h : d.emitter.Grown emitter) : Sound { d with emitter } :=
  ⟨⟨hd.ready.placed, h.early hd.ready.early⟩, hd.logged⟩

theorem target {i : Int} {emitter : Emitter} (h : Emit.target i d.emitter = .ok ⟨⟩ emitter) :
    Sound { d with emitter } :=
  ⟨⟨hd.ready.placed, Emit.target_early h hd.ready.early⟩, hd.logged⟩

end Sound

theorem Beyond.trans {d'' : Draft} (h : d.Beyond d') (h' : d'.Beyond d'') : d.Beyond d'' where
  parser := ⟨h.parser.state.trans h'.parser.state, h.parser.only.trans h'.parser.only⟩
  emitter := h.emitter.trans h'.emitter
  entries := h'.entries.trans h.entries
  logged := h'.logged

end Draft

namespace Follows

variable {α β : Type} {d : Draft} {R : β → Draft → Prop} {y : Parse β} {g : Unit → Write β}

theorem of_runs {α : Type} {x : Parse α} {w : Write α} {a : α} (d' : Draft)
    {Q : α → Draft → Prop} (hx : x d.parser = .ok a d'.parser) (hw : w d = .ok a d')
    (hQ : Q a d') : Follows x w d Q where
  ok hrun := by
    rw [hx] at hrun
    cases hrun
    exact ⟨d', hw, rfl, hQ⟩
  error hrun := by
    rw [hx] at hrun
    cases hrun

theorem draft_bind {y : Parse β} {g : Draft → Write β} (h : Follows y (g d) d R) :
    Follows y (get >>= g) d R := ⟨h.ok, h.error⟩

theorem evaluate_bind {e : Expression}
    (h : ∀ emitter, e.emit d.entries d.emitter = .ok ⟨⟩ emitter → d.emitter.Grown emitter →
      Follows y (g ⟨⟩) { d with emitter } R) : Follows y (Write.evaluate e >>= g) d R := by
  obtain ⟨emitter, hrun, hgrown⟩ := e.emit_ok d.entries d.emitter
  have hput := put_bind hrun (h emitter hrun hgrown)
  exact ⟨hput.ok, hput.error⟩

theorem execute_bind {s : Statement} (hs : Emit.Grows (s.emit d.entries))
    (h : ∀ emitter, s.emit d.entries d.emitter = .ok ⟨⟩ emitter → d.emitter.Grown emitter →
      Follows y (g ⟨⟩) { d with emitter } R) : Follows y (Write.execute s >>= g) d R := by
  obtain ⟨emitter, hrun⟩ := s.emit_ok d.entries d.emitter
  have hput := put_bind hrun (h emitter hrun (hs.of_ok hrun))
  exact ⟨hput.ok, hput.error⟩

/-- What only the parser does, with its result passed on. -/
theorem read_then {x : Parse β} {g : β → Write β} {C : Contract} {P : β → ParserState → Prop}
    (hd : d.Logged) (hx : Obeys C x d.parser P)
    (h : ∀ b parser, P b parser → Follows (Pure.pure b) (g b) { d with parser } R) :
    Follows x (Write.read x >>= g) d R := by
  have hbind := read_bind hd hx h
  rwa [bind_pure] at hbind

end Follows

/-! ### Assignments -/

namespace Write

open Parse (parses_index parses_expression parses_required obeys_next obeys_peek
  obeys_variableAssignment obeys_globalWord obeys_expectSeparator obeys_giveBack
  obeys_skipNewlines obeys_condition fails_failSize fails_failGrammar)

variable {d : Draft} (hd : d.Sound)
include hd

theorem follows_elementAssignment (nameToken : Token) (global : Bool) :
    Follows (Parse.elementAssignment nameToken global) (elementAssignment nameToken global) d
      d.Attempted := by
  have hC := beyond_reading d.parser.buffer
  unfold Parse.elementAssignment elementAssignment
  refine .get_bind ?_
  generalize (d.parser.assignedPlace? global nameToken.literal).filter (·.slot.isArray) = found
  cases found with
  | none => exact .pure hd.beyond
  | some place =>
    obtain ⟨e₁, hrun₁, hgrown₁⟩ := place.emitAddress_ok d.emitter
    refine .put_bind hrun₁ (.read_bind hd.logged
      (parses_index hC (parses_expression hC) hd.along) fun (i, indexShape) s₁ h₁ => ?_)
    refine .evaluate_bind fun e₂ hrun₂ hgrown₂ => ?_
    have hgrown := hgrown₁.trans hgrown₂
    refine .read_bind hd.logged (obeys_peek hC h₁) fun sign s₂ ⟨h₂, _⟩ => ?_
    refine .ite (fun _ => .pure ⟨h₂, hgrown, rfl, hd.logged⟩) fun _ => ?_
    refine .read_bind hd.logged (obeys_next hC h₂) fun _ s₃ ⟨h₃, _⟩ => ?_
    refine .read_bind hd.logged (parses_required hC (parses_expression hC) _ h₃)
      fun (value, shape) s₄ h₄ => .evaluate_bind fun e₃ hrun₃ hgrown₃ => ?_
    refine .check hd.logged fails_failSize fun _ => ?_
    obtain ⟨e₄, hrun⟩ :=
      (Statement.assignElement place i indexShape.size value).emit_ok d.entries d.emitter
    have hrun₄ := hrun
    rw [Statement.emit, bind_of_ok hrun₁, bind_of_ok hrun₂, bind_of_ok hrun₃]
      at hrun₄
    have hgrown₄ := (hgrown.trans hgrown₃).trans ((Emit.grows_op _ _).of_ok hrun₄)
    exact .put_bind hrun₄ (.pure ⟨(hd.put hgrown₄).read h₄.state, hrun, rfl⟩)

theorem follows_variableAssignment {nameToken : Token} (global : Bool)
    (hreserved : isReserved nameToken.literal = false)
    (hcallee : d.parser.callee? nameToken.literal = none) :
    Follows (Parse.variableAssignment nameToken global) (variableAssignment nameToken global) d
      d.Attempted := by
  refine .read_then hd.logged (obeys_variableAssignment (beyond_binding d.parser.buffer)
    hd.along.state trivial global hreserved hcallee) ?_
  rintro _ s ⟨hs, place, value, rfl⟩
  have hgrows : Emit.Grows ((Statement.assign place value).emit d.entries) := by
    rw [Statement.emit]
    exact (value.emit_grows _).bind fun _ => Emit.grows_storeVariable _ _ _
  exact .execute_bind hgrows fun emitter hrun hgrown =>
    .pure ⟨(hd.put hgrown).read hs, hrun, rfl⟩

/-- **An assignment is emitted as it is read**, or tokens are read and code is appended. -/
theorem follows_assignment (global : Bool) :
    Follows (Parse.assignment global) (assignment global) d d.Attempted := by
  have hC := beyond_reading d.parser.buffer
  unfold Parse.assignment assignment
  refine .read_bind hd.logged (obeys_next hC hd.along) fun nameToken s₁ ⟨h₁, _⟩ => ?_
  have hnone : ∀ {s : ParserState}, (Terrace.beyond d.parser.buffer).Along d.parser s →
      d.Beyond { d with parser := s } := fun h => ⟨h, .refl _, rfl, hd.logged⟩
  refine .ite (fun _ => .pure (hnone h₁)) fun hword => .get_bind ?_
  have hreserved : isReserved nameToken.literal = false := by
    simp only [ne_eq, Bool.or_eq_true, not_or, Bool.not_eq_true] at hword
    exact hword.2
  refine .ite (fun _ => .pure (hnone h₁)) fun hcallee => ?_
  refine .read_bind hd.logged (obeys_peek hC h₁) fun token s₂ ⟨h₂, _⟩ => ?_
  have hd₂ := hd.read h₂.state
  have hcallee₂ : s₂.callee? nameToken.literal = none := by
    rw [h₂.only.callee?, ← h₁.only.callee?]
    simpa using hcallee
  have hattempted : ∀ statement d', Draft.Attempted { d with parser := s₂ } statement d' →
      d.Attempted statement d' := by
    intro statement d' h
    cases statement with
    | some statement => exact ⟨h.sound, h.emitted, h.entries⟩
    | none => exact (hnone h₂).trans h
  exact .ite (fun _ => (follows_elementAssignment hd₂ nameToken global).mono hattempted) fun _ =>
    .ite (fun _ => (follows_variableAssignment hd₂ global hreserved hcallee₂).mono hattempted)
      fun _ => .pure (hnone h₂)

omit hd in
theorem filter_of_all {α : Type} {o : Option α} {p : α → Bool}
    (h : ∀ a, o = some a → p a = true) : o.filter p = o := by
  cases o with
  | none => rfl
  | some a => exact Option.filter_some_pos (h a rfl)

omit hd in
/-- **Going back leaves no trace** but tokens that were asked for. -/
theorem goBack_beyond {later : Draft} (hready : d.toMoment.Ready) (h : d.Beyond later) :
    goBack d.toMoment later = .ok ⟨⟩ { d with
      parser := { d.parser with buffer := later.parser.buffer.rewind d.parser.buffer.mark }
      tried := later.tried } := by
  have htruncate : Emit.truncate d.emitter.items.size later.emitter = .ok ⟨⟩ d.emitter := by
    have hrun := h.emitter.more.truncate
    rw [filter_of_all] at hrun
    · exact hrun
    · rintro ⟨error, noted⟩ hpending
      exact decide_eq_true (hready.early error noted hpending)
  have hparser : later.parser = { d.parser with buffer := later.parser.buffer } := h.parser.only
  have hrun : goBack d.toMoment later = put (Emit.truncate d.emitter.items.size) { later with
      parser := { later.parser with
        buffer := later.parser.buffer.rewind d.parser.buffer.mark } } := rfl
  rw [hrun, put]
  dsimp only
  rw [htruncate, hparser, h.entries]

/-- **An attempt gives an assignment or changes nothing.** -/
theorem follows_tryAssignment (global : Bool) :
    Follows (Parse.tryAssignment global) (tryAssignment global) d fun statement later =>
      match statement with
      | some statement => d.Wrote statement later
      | none => later.Sound ∧ later.emitter = d.emitter ∧ later.entries = d.entries := by
  let noted : Draft := { d with tried := d.tried ++ [(global, d.toMoment)] }
  have hnoted : noted.Sound := by
    refine ⟨hd.ready, fun attempt hmem => ?_⟩
    rcases List.mem_append.mp hmem with hmem | hmem
    · exact hd.logged attempt hmem
    · rw [List.mem_singleton.mp hmem]
      exact hd.ready
  have hattempt := Follows.bind
    (f := fun statement => match statement with
      | some statement => (return some statement : Parse (Option Statement))
      | none => do
        modify fun s => { s with buffer := s.buffer.rewind d.parser.buffer.mark }
        return none)
    (g := fun statement => match statement with
      | some statement => (return some statement : Write (Option Statement))
      | none => do
        goBack d.toMoment
        return none)
    (R := fun statement later =>
      match statement with
      | some statement => d.Wrote statement later
      | none => later.Sound ∧ later.emitter = d.emitter ∧ later.entries = d.entries)
    (follows_assignment hnoted global) fun statement later _ h => ?_
  · exact ⟨hattempt.ok, hattempt.error⟩
  cases statement with
  | some statement => exact .pure ⟨h.sound, h.emitted, h.entries⟩
  | none =>
    have hback := goBack_beyond hnoted.ready h
    have hparser : later.parser = { d.parser with buffer := later.parser.buffer } := h.parser.only
    have hplaced := h.parser.state.rewind hd.ready.placed
    refine .of_runs _ ?_ (bind_of_ok hback) ⟨⟨⟨hplaced.valid, hd.ready.early⟩, h.logged⟩, rfl, rfl⟩
    rw [hparser]
    rfl

/-! ### Statements -/

theorem follows_simpleStatement :
    Follows Parse.simpleStatement simpleStatement d d.Wrote := by
  have hC := beyond_reading d.parser.buffer
  unfold Parse.simpleStatement simpleStatement
  refine .read_bind hd.logged (obeys_globalWord hC hd.along) fun global s₁ h₁ => ?_
  refine (follows_tryAssignment (hd.read h₁.state) global).bind fun statement later _ h => ?_
  have hC' := beyond_reading later.parser.buffer
  cases statement with
  | some statement =>
    exact .read_bind h.sound.logged (obeys_expectSeparator hC' h.sound.along) fun _ s₂ h₂ =>
      .pure ⟨h.sound.read h₂.state, h.emitted, h.entries⟩
  | none =>
    obtain ⟨hsound, hemitter, hentries⟩ := h
    refine .read_bind hsound.logged (obeys_peek hC' hsound.along) fun token s₂ ⟨h₂, _⟩ => ?_
    refine .check hsound.logged fails_failGrammar fun _ => ?_
    refine .read_bind hsound.logged (parses_expression hC' h₂) fun typed s₃ h₃ => ?_
    cases typed with
    | none => exact .of_fails hsound.logged fails_failGrammar
    | some typed =>
      have hgrows : Emit.Grows ((Statement.discard typed.1 typed.2.size).emit later.entries) := by
        rw [Statement.emit]
        exact (typed.1.emit_grows _).bind fun _ => Emit.grows_discard _
      refine .execute_bind hgrows fun emitter hrun hgrown => ?_
      refine .read_bind hsound.logged (obeys_expectSeparator hC' h₃) fun _ s₄ h₄ => ?_
      refine .pure ⟨(hsound.put hgrown).read h₄.state, ?_, hentries⟩
      rw [← hemitter]
      dsimp only at hentries
      rw [← hentries]
      exact hrun

theorem follows_giveBack : Follows Parse.giveBack giveBack d d.Wrote := by
  refine .read_then hd.logged
    (obeys_giveBack (beyond_binding d.parser.buffer) hd.along.state) ?_
  rintro _ s ⟨hs, value, rfl⟩
  have hexit : Emit.Grows Emit.exit := (Emit.grows_append _).bind fun _ => Emit.grows_pure _
  have hgrows : Emit.Grows ((Statement.giveBack value).emit d.entries) := by
    cases value with
    | none =>
      rw [Statement.emit]
      exact hexit
    | some value =>
      rw [Statement.emit]
      exact (value.emit_grows _).bind fun _ => hexit
  exact .execute_bind hgrows fun emitter hrun hgrown =>
    .pure ⟨(hd.put hgrown).read hs, hrun, rfl⟩

omit hd

section
variable {statement : Parse Statement} {write : Write Statement}
  (hstatement : ∀ {d : Draft}, d.Sound → Follows statement write d d.Wrote)
include hstatement

theorem follows_blockRest : ∀ (fuel : Nat) {d : Draft}, d.Sound →
    Follows (Parse.blockRest statement fuel) (blockRest write fuel) d d.WroteBlock
  | 0, _, hd => .of_fails hd.logged Parse.fails_exhausted
  | fuel + 1, d, hd => by
    have hC := beyond_reading d.parser.buffer
    unfold Parse.blockRest blockRest
    refine .read_bind hd.logged (obeys_skipNewlines hC hd.along) fun token s₁ hread => ?_
    obtain ⟨h₁, -⟩ := hread
    have hmore : Follows (do
          if token.isWord "def" then Parse.failGrammar token .nestedDefinition
          let first ← statement
          return first :: (← Parse.blockRest statement fuel))
        (do
          if token.isWord "def" then read (Parse.failGrammar token .nestedDefinition)
          let first ← write
          return first :: (← blockRest write fuel)) { d with parser := s₁ } d.WroteBlock := by
      refine .check hd.logged fails_failGrammar fun _ => ?_
      refine (hstatement (hd.read h₁.state)).bind fun first d₂ _ hfirst => ?_
      refine (follows_blockRest fuel hfirst.sound).bind fun rest d₃ _ hrest => ?_
      refine .pure ⟨hrest.sound, ?_, hrest.entries.trans hfirst.entries⟩
      have hemitted := hrest.emitted
      rw [hfirst.entries] at hemitted
      rw [emitBlock, bind_of_ok hfirst.emitted]
      exact hemitted
    cases token.kind with
    | dedent =>
      refine .read_bind hd.logged (obeys_next hC h₁) fun _ s₂ hread => ?_
      exact .pure ⟨hd.read hread.1.state, rfl, rfl⟩
    | finish => exact .of_fails hd.logged fails_failGrammar
    | _ => exact hmore

theorem follows_block (hd : d.Sound) :
    Follows (Parse.block statement) (block write) d d.WroteBlock := by
  have hC := beyond_reading d.parser.buffer
  unfold Parse.block block
  refine .read_bind hd.logged (obeys_skipNewlines hC hd.along) fun token s₁ ⟨h₁, _⟩ => ?_
  refine .check hd.logged fails_failGrammar fun _ => ?_
  refine .read_bind hd.logged (obeys_next hC h₁) fun _ s₂ ⟨h₂, _⟩ => .get_bind ?_
  exact (follows_blockRest hstatement _ (hd.read h₂.state)).mono
    fun _ _ h => ⟨h.sound, h.emitted, h.entries⟩

theorem follows_conditional (hd : d.Sound) :
    Follows (Parse.conditional statement) (conditional write) d d.Wrote := by
  have hC := beyond_reading d.parser.buffer
  unfold Parse.conditional conditional
  refine .read_bind hd.logged (obeys_next hC hd.along) fun _ s₁ ⟨h₁, _⟩ => ?_
  refine .read_bind hd.logged (obeys_condition hC h₁ _) fun e s₂ h₂ => ?_
  refine .evaluate_bind fun e₁ hrun₁ hgrown₁ => ?_
  have hskip : Emit.branchIfFalse e₁ = .ok e₁.items.size (Emit.branchIfFalse.after e₁) := rfl
  refine .put_bind hskip ?_
  have hgrown₂ := hgrown₁.trans ((Emit.grows_append _).of_ok hskip)
  refine .read_bind hd.logged (obeys_expectSeparator hC h₂) fun _ s₃ h₃ => ?_
  refine (follows_block hstatement ((hd.put hgrown₂).read h₃.state)).bind fun body d₄ _ h₄ => ?_
  have hC' := beyond_reading d₄.parser.buffer
  refine .read_bind h₄.sound.logged (obeys_peek hC' h₄.sound.along) fun word s₅ ⟨h₅, _⟩ => ?_
  refine .ite (fun _ => ?_) fun _ => ?_
  · refine .read_bind h₄.sound.logged (obeys_next hC' h₅) fun _ s₆ ⟨h₆, _⟩ => ?_
    have hdone : Emit.branch d₄.emitter = .ok d₄.emitter.items.size (Emit.branch.after d₄.emitter) :=
      rfl
    have hgrown₆ := (Emit.grows_append _).of_ok hdone
    -- The first branch can be pointed behind the second one whatever follows.
    obtain ⟨_, htarget⟩ := (Statement.ifElse e body []).emit_ok d.entries d.emitter
    rw [Statement.emit, bind_of_ok hrun₁, bind_of_ok hskip, bind_of_ok h₄.emitted,
      bind_of_ok hdone] at htarget
    obtain ⟨_, e₇, hrun₇⟩ := ok_of_bind htarget
    refine .put_bind hdone (.put_bind hrun₇ ?_)
    refine .read_bind h₄.sound.logged (obeys_expectSeparator hC' h₆) fun _ s₈ h₈ => ?_
    have hd₈ := (((h₄.sound.put hgrown₆).target hrun₇).read h₈.state)
    refine (follows_block hstatement hd₈).bind fun otherwise d₉ _ h₉ => ?_
    obtain ⟨e₁₀, hrun⟩ := (Statement.ifElse e body otherwise).emit_ok d.entries d.emitter
    have hrun₁₀ := hrun
    have hentries : d₄.entries = d.entries := h₄.entries
    have hemitted : emitBlock d₄.entries otherwise e₇ = .ok ⟨⟩ d₉.emitter := h₉.emitted
    rw [hentries] at hemitted
    rw [Statement.emit, bind_of_ok hrun₁, bind_of_ok hskip, bind_of_ok h₄.emitted,
      bind_of_ok hdone, bind_of_ok hrun₇, bind_of_ok hemitted] at hrun₁₀
    exact .put_bind hrun₁₀ (.pure ⟨h₉.sound.target hrun₁₀, hrun, h₉.entries.trans h₄.entries⟩)
  · obtain ⟨e₆, hrun⟩ := (Statement.ifThen e body).emit_ok d.entries d.emitter
    have hrun₆ := hrun
    rw [Statement.emit, bind_of_ok hrun₁, bind_of_ok hskip, bind_of_ok h₄.emitted] at hrun₆
    exact .put_bind hrun₆ (.pure ⟨(h₄.sound.read h₅.state).target hrun₆, hrun, h₄.entries⟩)

theorem follows_loop (hd : d.Sound) :
    Follows (Parse.loop statement) (loop write) d d.Wrote := by
  have hC := beyond_reading d.parser.buffer
  unfold Parse.loop loop
  refine .read_bind hd.logged (obeys_next hC hd.along) fun _ s₁ ⟨h₁, _⟩ => ?_
  have hhead : Emit.mark d.emitter = .ok d.emitter.items.size d.emitter := rfl
  refine .put_bind hhead ?_
  refine .read_bind hd.logged (obeys_condition hC h₁ _) fun e s₂ h₂ => ?_
  refine .evaluate_bind fun e₁ hrun₁ hgrown₁ => ?_
  have hleave : Emit.branchIfFalse e₁ = .ok e₁.items.size (Emit.branchIfFalse.after e₁) := rfl
  refine .put_bind hleave ?_
  have hgrown₂ := hgrown₁.trans ((Emit.grows_append _).of_ok hleave)
  refine .read_bind hd.logged (obeys_expectSeparator hC h₂) fun _ s₃ h₃ => ?_
  refine (follows_block hstatement ((hd.put hgrown₂).read h₃.state)).bind fun body d₄ _ h₄ => ?_
  obtain ⟨e₅, hrun⟩ := (Statement.whileLoop e body).emit_ok d.entries d.emitter
  have hrun₅ := hrun
  rw [Statement.emit, bind_of_ok hhead, bind_of_ok hrun₁, bind_of_ok hleave,
    bind_of_ok h₄.emitted] at hrun₅
  have hearly : e₅.Early := by
    have hback := hrun₅
    rw [Emit.endWhile] at hback
    obtain ⟨_, e', hbranch⟩ := ok_of_bind hback
    rw [bind_of_ok hbranch] at hback
    have hgrown := Emit.Grows.of_ok ((Emit.grows_append _).bind fun _ => Emit.grows_pure _) hbranch
    exact Emit.target_early hback (hgrown.early h₄.sound.ready.early)
  exact .put_bind hrun₅ (.pure ⟨⟨⟨h₄.sound.ready.placed, hearly⟩, h₄.sound.logged⟩, hrun, h₄.entries⟩)

theorem follows_anyStatement (hd : d.Sound) :
    Follows (Parse.anyStatement statement) (anyStatement write) d d.Wrote := by
  have hC := beyond_reading d.parser.buffer
  unfold Parse.anyStatement anyStatement
  refine .read_bind hd.logged (obeys_peek hC hd.along) fun token s₁ ⟨h₁, _⟩ => ?_
  have hd₁ := hd.read h₁.state
  have hsame : ∀ {s later}, Draft.Wrote { d with parser := s₁ } s later → d.Wrote s later :=
    fun h => ⟨h.sound, h.emitted, h.entries⟩
  refine .ite (fun _ => .of_fails hd.logged fails_failGrammar) fun _ => ?_
  refine .ite (fun _ => (follows_conditional hstatement hd₁).mono fun _ _ => hsame) fun _ => ?_
  refine .ite (fun _ => (follows_loop hstatement hd₁).mono fun _ _ => hsame) fun _ => ?_
  exact .ite (fun _ => (follows_giveBack hd₁).mono fun _ _ => hsame) fun _ =>
    (follows_simpleStatement hd₁).mono fun _ _ => hsame

end

theorem follows_statementWithin : ∀ (fuel : Nat) {d : Draft}, d.Sound →
    Follows (Parse.statementWithin fuel) (statementWithin fuel) d d.Wrote
  | 0, _, hd => .of_fails hd.logged Parse.fails_exhausted
  | fuel + 1, _, hd => follows_anyStatement (fun h => follows_statementWithin fuel h) hd

/-- **A statement is emitted as it is read.** -/
theorem follows_statement (hd : d.Sound) : Follows Parse.statement statement d d.Wrote :=
  .get_bind (follows_statementWithin _ hd)

end Write

/-! ### Definitions -/

/-- The end of a function comes behind its body. -/
theorem Definition.emit_eq (entries : List Nat) (d : Definition) : d.emit entries = do
    let (entry, reserved) ← Emit.prologue d.function.parameterSize
    emitBlock (entries ++ [entry]) d.body
    Write.functionEnd entry reserved d.function
    return entry := by
  unfold Definition.emit Write.functionEnd
  refine congrArg (Emit.prologue d.function.parameterSize >>= ·) (funext fun (entry, reserved) => ?_)
  dsimp only
  refine congrArg (emitBlock (entries ++ [entry]) d.body >>= ·) (funext fun _ => ?_)
  split <;> simp only [bind_assoc]

/-- Behind the beginning of a function, there is an item behind any pending error. -/
theorem Emit.prologue_ok {e : Emitter} (he : e.Tidy) (size : Int) :
    ∃ reserved later, prologue size e = .ok (e.items.size, reserved) later ∧ later.Early := by
  obtain ⟨entered, henter, -⟩ := (appends_op .enterFrame [size] _ rfl).run e rfl
  have hearly : entered.Early := by
    have hafter := after_op .enterFrame [size] e
    rw [after, henter] at hafter
    dsimp only at hafter
    rw [hafter]
    exact Emitter.early_push he.noted _ _
  have hreserve : reserve entered = .ok entered.items.size (reserve.after entered) := rfl
  refine ⟨entered.items.size, reserve.after entered, ?_,
    ((grows_append _).of_ok hreserve).early hearly⟩
  have hmark : mark e = .ok e.items.size e := rfl
  have henter : op .enterFrame [size] e = .ok ⟨⟩ entered := henter
  rw [prologue, bind_of_ok hmark, bind_of_ok henter, bind_of_ok hreserve]
  rfl

theorem emitDefinitions_concat {ds : List Definition} {d : Definition} {entries entries' : List Nat}
    {e e' e'' : Emitter} {entry : Nat} (hrun : emitDefinitions entries ds e = .ok entries' e')
    (hlast : d.emit entries' e' = .ok entry e'') :
    emitDefinitions entries (ds ++ [d]) e = .ok (entries' ++ [entry]) e'' := by
  induction ds generalizing entries e with
  | nil =>
    cases hrun
    rw [List.nil_append, emitDefinitions, bind_of_ok hlast]
    rfl
  | cons first rest ih =>
    rw [emitDefinitions] at hrun
    obtain ⟨place, e₁, hfirst⟩ := ok_of_bind hrun
    rw [bind_of_ok hfirst] at hrun
    rw [List.cons_append, emitDefinitions, bind_of_ok hfirst]
    exact ih hrun

/-- The draft of a program up to the end of a definition. -/
structure Draft.Whole (d : Draft) : Prop where
  placed : d.parser.buffer.position ≤ d.parser.buffer.tokens.size
  logged : d.Logged
  written : emitDefinitions [] d.parser.definitions {} = .ok d.entries d.emitter

namespace Draft.Whole

variable {d : Draft} (hd : d.Whole)
include hd

theorem along : (beyond d.parser.buffer).Along d.parser d.parser := .refl (.refl hd.placed)

theorem tidy : d.emitter.Tidy := by
  have htidy := tidiesDefinitions [] d.parser.definitions {} Emitter.Built.new.tidy
  rw [Emit.after, EStateM.run, hd.written] at htidy
  exact htidy

theorem read {s : ParserState} (h : (beyond d.parser.buffer).Along d.parser s) :
    Whole { d with parser := s } where
  placed := h.state.valid
  logged := hd.logged
  written := by
    have hsame : s.definitions = d.parser.definitions := by rw [h.only]
    rw [hsame]
    exact hd.written

end Draft.Whole

theorem obeys_finish {nameToken : Token} {f : Function} {body : List Statement} {s : ParserState} :
    Obeys (.ofState fun _ => True) (Parse.finishFunction nameToken f body) s fun _ s' =>
      s'.buffer = s.buffer ∧
        s'.definitions = s.definitions ++ [⟨{ f with returnKnown := true }, body⟩] := by
  unfold Parse.finishFunction
  exact .check trivial fun _ => .modify_bind ⟨rfl, rfl⟩

namespace Write

open Parse (obeys_next obeys_peek obeys_functionName obeys_parametersWithin obeys_expectSeparator
  obeys_skipNewlines obeys_openIncluded keeps_block keeps_statement fails_failGrammar)

variable {d : Draft}

/-- The end of a definition that is parsed. -/
def finishParsed (nameToken : Token) (body : List Statement) : Parse Unit := do
  match (← get).current with
  | none => pure ()
  | some f => Parse.finishFunction nameToken f body

/-- The end of a definition that is parsed and written. -/
def finishWritten (nameToken : Token) (start reserved : Nat) (body : List Statement) :
    Write Unit := do
  match (← get).parser.current with
  | none => pure ()
  | some f =>
    read (Parse.finishFunction nameToken f body)
    put (functionEnd start reserved f)

/-- **A definition is emitted as it is read.** -/
theorem follows_definition (hd : d.Whole) :
    Follows Parse.definition definition d fun _ later => later.Whole := by
  have hC := beyond_reading d.parser.buffer
  unfold Parse.definition definition
  refine .read_bind hd.logged (obeys_next hC hd.along) fun _ s₁ h₁ => ?_
  refine .read_bind hd.logged (obeys_functionName hC h₁.1) fun nameToken s₂ h₂ => .get_bind ?_
  refine .read_bind hd.logged (obeys_parametersWithin hC h₂.1 (by simp))
    fun parameters s₃ h₃ => ?_
  refine .read_bind hd.logged (obeys_expectSeparator hC h₃.1) fun _ s₄ h₄ => ?_
  let s₅ : ParserState := { s₄ with current := some { name := nameToken.literal, parameters } }
  refine .read_bind (C := .ofState fun _ => True) (P := fun _ s => s = s₅) hd.logged rfl ?_
  rintro _ _ rfl
  obtain ⟨reserved, e₁, hprologue, hearly⟩ := Emit.prologue_ok hd.tidy parameters.totalSize
  refine .put_bind hprologue ?_
  let begun : Draft :=
    { parser := s₅, emitter := e₁, entries := d.entries ++ [d.emitter.items.size], tried := d.tried }
  have hbegun : begun.Sound := ⟨⟨h₄.state.valid, hearly⟩, hd.logged⟩
  have hbody := Follows.bind
    (f := finishParsed nameToken) (g := finishWritten nameToken d.emitter.items.size reserved)
    (R := fun _ later => later.Whole)
    (follows_block (fun h => follows_statement h) hbegun) fun body d₆ hparse hwrote => ?_
  · exact ⟨hbody.ok, hbody.error⟩
  have hamid : d₆.parser.Amid d.parser.definitions (some parameters) := by
    have hdeclaring := amid_declaring d.parser.definitions (some parameters)
    have hdefinitions : s₄.definitions = d.parser.definitions := by rw [h₄.only]
    have hamid : s₅.Amid d.parser.definitions (some parameters) := ⟨hdefinitions, rfl⟩
    exact (keeps_block hdeclaring (keeps_statement hdeclaring) hamid).of_ok hparse
  refine .get_bind ?_
  cases hcurrent : d₆.parser.current with
  | none =>
    have hparameters := hamid.parameters
    rw [hcurrent] at hparameters
    cases hparameters
  | some f =>
    have hparameters : f.parameters = parameters := by
      have hparameters := hamid.parameters
      rw [hcurrent] at hparameters
      exact Option.some.inj hparameters
    refine .read_then hwrote.sound.logged obeys_finish fun _ s₇ hfinish => ?_
    obtain ⟨hbuffer, hdefinitions⟩ := hfinish
    let whole : Definition := ⟨{ f with returnKnown := true }, body⟩
    obtain ⟨e₇, hemit, -⟩ := (whole.appends d.entries _ _ rfl).run d.emitter rfl
    have hlast : whole.emit d.entries d.emitter = .ok d.emitter.items.size e₇ := hemit
    have hend := hlast
    have hbegin : Emit.prologue whole.function.parameterSize d.emitter =
        .ok (d.emitter.items.size, reserved) e₁ := by
      have hsize : whole.function.parameterSize = parameters.totalSize :=
        congrArg VariableList.totalSize hparameters
      rw [hsize]
      exact hprologue
    have hemitted : emitBlock (d.entries ++ [d.emitter.items.size]) body e₁ = .ok ⟨⟩ d₆.emitter :=
      hwrote.emitted
    rw [whole.emit_eq, bind_of_ok hbegin] at hend
    dsimp only [whole] at hend
    rw [bind_of_ok hemitted] at hend
    obtain ⟨⟨⟩, e₈, hrun⟩ := ok_of_bind hend
    rw [bind_of_ok hrun] at hend
    cases hend
    refine .of_runs { d₆ with parser := s₇, emitter := e₇ } rfl ?_ ⟨?_, hwrote.sound.logged, ?_⟩
    · have hfinish : functionEnd d.emitter.items.size reserved f d₆.emitter = .ok ⟨⟩ e₇ := hrun
      rw [put]
      dsimp only
      rw [hfinish]
    · dsimp only
      rw [hbuffer]
      exact hwrote.sound.ready.placed
    · have hentries : d₆.entries = d.entries ++ [d.emitter.items.size] := hwrote.entries
      dsimp only at hdefinitions ⊢
      rw [hdefinitions, hamid.definitions, hentries]
      exact emitDefinitions_concat hd.written hlast

theorem follows_definitionsWithin {includeLine : Parse Unit} {writeLine : Write Unit}
    (hinclude : ∀ {d : Draft}, d.Whole →
      Follows includeLine writeLine d fun _ later => later.Whole) :
    ∀ (fuel : Nat) {d : Draft}, d.Whole →
      Follows (Parse.definitionsWithin includeLine fuel) (definitionsWithin writeLine fuel) d
        fun _ later => later.Whole
  | 0, _, hd => .of_fails hd.logged Parse.fails_exhausted
  | fuel + 1, d, hd => by
    have hC := beyond_reading d.parser.buffer
    have hmore : ∀ {later : Draft}, later.Whole → Follows
        (do Parse.commit; Parse.definitionsWithin includeLine fuel)
        (do read Parse.commit; definitionsWithin writeLine fuel) later
        fun _ later => later.Whole := by
      intro later hlater
      refine .read_bind (C := .ofState fun _ => True)
        (P := fun _ s => s = { later.parser with buffer := later.parser.buffer.commit })
        hlater.logged rfl ?_
      rintro _ _ rfl
      exact follows_definitionsWithin hinclude fuel ⟨Nat.zero_le _, hlater.logged, hlater.written⟩
    unfold Parse.definitionsWithin definitionsWithin
    refine .read_bind hd.logged (obeys_skipNewlines hC hd.along) fun token s₁ hread => ?_
    have hd₁ := hd.read hread.1
    refine .ite (fun _ => ?_) fun _ => .ite (fun _ => ?_) fun _ => .pure hd₁
    · exact (hinclude hd₁).bind fun _ _ _ h => hmore h
    · exact (follows_definition hd₁).bind fun _ _ _ h => hmore h

theorem follows_definitions {includeLine : Parse Unit} {writeLine : Write Unit}
    (hinclude : ∀ {d : Draft}, d.Whole →
      Follows includeLine writeLine d fun _ later => later.Whole) (hd : d.Whole) :
    Follows (Parse.definitions includeLine) (definitions writeLine) d fun _ later => later.Whole :=
  .get_bind (follows_definitionsWithin hinclude _ hd)

theorem follows_spliced {includeLine : Parse Unit} {writeLine : Write Unit}
    (hinclude : ∀ {d : Draft}, d.Whole →
      Follows includeLine writeLine d fun _ later => later.Whole) (file : SourceFile) (text : Bytes)
    (hd : d.Whole) :
    Follows (Parse.spliced includeLine file text) (spliced writeLine file text) d
      fun _ later => later.Whole := by
  unfold Parse.spliced spliced Parse.report
  refine .get_bind ?_
  refine .read_bind (C := .ofState fun _ => True) (P := fun _ s =>
    s.definitions = d.parser.definitions) hd.logged rfl fun _ s₁ h₁ => ?_
  refine .read_bind (C := .ofState fun _ => True) (P := fun _ s =>
    s.buffer.position = 0 ∧ s.definitions = d.parser.definitions) hd.logged ⟨rfl, h₁⟩
      fun _ s₂ ⟨hstart, hsame⟩ => ?_
  have hd₂ : Draft.Whole { d with parser := s₂ } := by
    refine ⟨?_, hd.logged, ?_⟩
    · dsimp only
      rw [hstart]
      exact Nat.zero_le _
    · dsimp only
      rw [hsame]
      exact hd.written
  refine (follows_definitions hinclude hd₂).bind fun _ d₃ _ hd₃ => ?_
  have hC := beyond_reading d₃.parser.buffer
  refine .read_bind hd₃.logged (obeys_peek hC hd₃.along) fun token s₄ ⟨h₄, _⟩ => ?_
  refine .check hd₃.logged fails_failGrammar fun _ => ?_
  have hd₄ := hd₃.read h₄
  refine (Follows.read hd₄.logged _).mono ?_
  rintro _ _ ⟨_, hrun, rfl⟩
  cases hrun
  exact ⟨hd.placed, hd₄.logged, hd₄.written⟩

theorem follows_includeFile {includeLine : Parse Unit} {writeLine : Write Unit}
    (hinclude : ∀ {d : Draft}, d.Whole →
      Follows includeLine writeLine d fun _ later => later.Whole) (hd : d.Whole) :
    Follows (Parse.includeFile includeLine) (includeFile writeLine) d
      fun _ later => later.Whole := by
  have hC := beyond_reading d.parser.buffer
  unfold Parse.includeFile includeFile
  refine .read_bind hd.logged (obeys_next hC hd.along) fun word s₁ ⟨h₁, _⟩ => ?_
  refine .read_bind hd.logged (obeys_next hC h₁) fun pathToken s₂ ⟨h₂, _⟩ => ?_
  refine .check hd.logged fails_failGrammar fun _ => ?_
  refine .read_bind hd.logged (obeys_expectSeparator hC h₂) fun _ s₃ h₃ => .get_bind ?_
  have hd₃ := hd.read h₃
  cases s₃.loader with
  | none => exact .of_fails hd.logged (Parse.fails_fail _ _)
  | some loader =>
    refine .read_bind hd.logged (obeys_openIncluded hC h₃ trivial) ?_
    rintro ⟨file, text⟩ _ ⟨opened, -, -, rfl⟩
    exact follows_spliced hinclude file text ⟨hd₃.placed, hd₃.logged, hd₃.written⟩

theorem follows_includeWithin : ∀ (depth : Nat) {d : Draft}, d.Whole →
    Follows (Parse.includeWithin depth) (includeWithin depth) d fun _ later => later.Whole
  | 0, _, hd => .of_fails hd.logged Parse.fails_exhausted
  | depth + 1, _, hd => follows_includeFile (fun h => follows_includeWithin depth h) hd

/-! ### Programs -/

theorem follows_mainWithin : ∀ (fuel : Nat) {d : Draft}, d.Sound →
    Follows (Parse.mainWithin fuel) (mainWithin fuel) d fun statements later =>
      d.WroteBlock statements later ∧ later.parser.definitions = d.parser.definitions
  | 0, _, hd => .of_fails hd.logged Parse.fails_exhausted
  | fuel + 1, d, hd => by
    have hC := beyond_reading d.parser.buffer
    unfold Parse.mainWithin mainWithin
    refine .read_bind hd.logged (obeys_skipNewlines hC hd.along) fun token s₁ hread => ?_
    obtain ⟨h₁, -⟩ := hread
    have hd₁ := hd.read h₁.state
    have hsame : s₁.definitions = d.parser.definitions := by rw [h₁.only]
    refine .ite (fun _ => .pure ⟨⟨hd₁, rfl, rfl⟩, hsame⟩) fun _ => ?_
    refine .check hd.logged fails_failGrammar fun _ => ?_
    refine (follows_statement hd₁).bind fun first d₂ hparse hfirst => ?_
    have hamid : d₂.parser.Amid d.parser.definitions (s₁.current.map (·.parameters)) :=
      (keeps_statement (amid_declaring _ _) ⟨hsame, rfl⟩).of_ok hparse
    refine .read_bind (C := .ofState fun _ => True)
      (P := fun _ s => s = { d₂.parser with buffer := d₂.parser.buffer.commit })
      hfirst.sound.logged rfl ?_
    rintro _ _ rfl
    have hd₃ : Draft.Sound { d₂ with
        parser := { d₂.parser with buffer := d₂.parser.buffer.commit } } :=
      ⟨⟨Nat.zero_le _, hfirst.sound.ready.early⟩, hfirst.sound.logged⟩
    refine (follows_mainWithin fuel hd₃).bind fun rest d₄ _ hwrote => ?_
    obtain ⟨hrest, hkept⟩ := hwrote
    refine .pure ⟨?_, hkept.trans hamid.definitions⟩
    refine ⟨hrest.sound, ?_, hrest.entries.trans hfirst.entries⟩
    have hentries : d₂.entries = d.entries := hfirst.entries
    have hemitted : emitBlock d₂.entries rest d₂.emitter = .ok ⟨⟩ d₄.emitter := hrest.emitted
    rw [hentries] at hemitted
    rw [emitBlock, bind_of_ok hfirst.emitted]
    exact hemitted

/-- **A program is emitted as it is read.** -/
theorem follows_program (fileName : Bytes) (hd : d.Whole) :
    Follows (Parse.program fileName) (program fileName) d fun result later =>
      result.emit {} = .ok later.entries later.emitter ∧ later.Logged := by
  unfold Parse.program program
  refine .get_bind ?_
  refine (follows_definitions (fun h => follows_includeWithin _ h) hd).bind fun _ d₁ _ hd₁ => ?_
  have hreserve : Emit.reserve d₁.emitter =
      .ok d₁.emitter.items.size (Emit.reserve.after d₁.emitter) := rfl
  have hearly : (Emit.reserve.after d₁.emitter).Early := by
    have hafter := Emit.after_append (.reserve none) d₁.emitter
    rw [Emit.reserve, hafter]
    exact Emitter.early_push hd₁.tidy.noted _ _
  let e₂ : Emitter := { Emit.reserve.after d₁.emitter with
    start := place? d₁.emitter.items.size }
  have hstart : Emit.setStart d₁.emitter.items.size (Emit.reserve.after d₁.emitter) = .ok ⟨⟩ e₂ :=
    rfl
  refine .put_bind hreserve (.put_bind hstart ?_)
  have hd₂ : Draft.Sound { d₁ with emitter := e₂ } := ⟨⟨hd₁.placed, hearly⟩, hd₁.logged⟩
  refine .get_bind ?_
  refine (follows_mainWithin _ hd₂).bind fun main d₃ _ ⟨hmain, hkept⟩ => ?_
  let result : Program :=
    { definitions := d₃.parser.definitions, main, globals := d₃.parser.globals }
  obtain ⟨e₅, hemit, -⟩ := result.emit_eq
  have hrest := hemit
  have hwritten : emitDefinitions [] result.definitions {} = .ok d₁.entries d₁.emitter := by
    have hdefinitions : result.definitions = d₁.parser.definitions := hkept
    rw [hdefinitions]
    exact hd₁.written
  have hemitted : emitBlock d₁.entries result.main e₂ = .ok ⟨⟩ d₃.emitter := hmain.emitted
  rw [Program.emit, bind_of_ok hwritten, bind_of_ok hreserve, bind_of_ok hstart,
    bind_of_ok hemitted] at hrest
  obtain ⟨⟨⟩, e₄, hhalt⟩ := ok_of_bind hrest
  rw [bind_of_ok hhalt] at hrest
  obtain ⟨⟨⟩, e₆, hpatch⟩ := ok_of_bind hrest
  rw [bind_of_ok hpatch] at hrest
  refine .put_bind hhalt (.draft_bind (.put_bind hpatch (.get_bind ?_)))
  unfold Parse.report
  refine .read_bind (C := .ofState fun _ => True) (P := fun _ _ => True) hmain.sound.logged trivial
    fun _ _ _ => .pure ⟨?_, hmain.sound.logged⟩
  have hentries : d₃.entries = d₁.entries := hmain.entries
  obtain ⟨hplaces, hsame⟩ := EStateM.Result.ok.inj hrest
  dsimp only
  rw [hentries, hplaces, hsame]
  exact hemit

end Write

/-- What is left of a compilation in a single pass is what the parser reports and the code of the
program. -/
theorem Program.draft_follows (loader : Option Loader) (source fileName : Bytes) :
    match Program.draft loader source fileName with
    | .ok program d =>
      Program.parse loader source fileName = (.ok program, d.parser.records) ∧
        program.emit {} = .ok d.entries d.emitter ∧ d.Logged
    | .error (.parsing e) d =>
      Program.parse loader source fileName = (.error e, d.parser.records) ∧ d.Logged
    | .error (.misuse _) _ => False := by
  have hempty : ∀ {d : Draft}, d.tried = [] → d.Logged := fun h attempt hmem => by
    rw [h] at hmem
    cases hmem
  unfold Program.draft Program.parse
  dsimp only
  cases hloader : loader.mapM (·.enter (SourceFile.ofName fileName)) with
  | error e => exact ⟨rfl, hempty rfl⟩
  | ok entered =>
    let first : Draft := { parser := {
      buffer := .ofSource source, file := SourceFile.ofName fileName
      limit := ParserState.limitOf source, loader := entered } }
    have hfirst : first.Whole := ⟨Nat.zero_le _, hempty rfl, rfl⟩
    have hfollows := Write.follows_program fileName hfirst
    dsimp only
    cases hparse : Parse.program fileName first.parser with
    | ok program s =>
      obtain ⟨d, hwrite, rfl, hemit, hlogged⟩ := hfollows.ok hparse
      rw [hwrite]
      exact ⟨rfl, hemit, hlogged⟩
    | error e s =>
      obtain ⟨d, hwrite, rfl, hlogged⟩ := hfollows.error hparse
      rw [hwrite]
      exact ⟨rfl, hlogged⟩

/-! ### No trace -/

/-- The moments at which an assignment is tried while a program is compiled, up to its first error
if it has one. -/
def Program.attempts (loader : Option Loader) (source fileName : Bytes) : List (Bool × Moment) :=
  match Program.draft loader source fileName with
  | .ok _ d => d.tried
  | .error _ d => d.tried

/-- The moment, with other tokens to be read. -/
def Moment.facing (m : Moment) (buffer : TokenBuffer) : Draft :=
  { parser := { m.parser with buffer }, emitter := m.emitter, entries := m.entries }

/-- The same tokens are still to be read, the code is the same, and so is all that is declared. -/
structure Draft.Restored (d later : Draft) : Prop where
  tokens : ∀ n, later.parser.buffer.upcoming n = d.parser.buffer.upcoming n
  items : later.emitter.items = d.emitter.items
  pending : later.emitter.pending = d.emitter.pending
  globals : later.parser.globals = d.parser.globals
  current : later.parser.current = d.parser.current
  functions : later.parser.functions = d.parser.functions
  entries : later.entries = d.entries

theorem Program.attempts_ready {loader : Option Loader} {source fileName : Bytes}
    {attempt : Bool × Moment} (h : attempt ∈ Program.attempts loader source fileName) :
    attempt.2.Ready := by
  have hfollows := Program.draft_follows loader source fileName
  unfold Program.attempts at h
  cases hdraft : Program.draft loader source fileName with
  | ok program d =>
    rw [hdraft] at h hfollows
    exact hfollows.2.2 attempt h
  | error abort d =>
    rw [hdraft] at h hfollows
    cases abort with
    | parsing e => exact hfollows.2 attempt h
    | misuse misuse => exact hfollows.elim

/-- **An attempt at an assignment leaves no trace if it fails.** Whatever program is compiled,
whenever it tries an assignment, and whatever tokens come then: if they turn out to be none, then
going back to them and truncating the code gives everything back. -/
theorem failed_attempts_leave_no_trace {loader : Option Loader} {source fileName : Bytes}
    {global : Bool} {m : Moment} (hm : (global, m) ∈ Program.attempts loader source fileName)
    {buffer : TokenBuffer}
    (hbuffer : buffer = m.parser.buffer ∨ buffer.position ≤ buffer.tokens.size) {failed : Draft}
    (hfailed : Write.assignment global (m.facing buffer) = .ok none failed) :
    ∃ later, Write.goBack (m.facing buffer).toMoment failed = .ok ⟨⟩ later ∧
      (m.facing buffer).Restored later := by
  have hready := Program.attempts_ready hm
  have hplaced : buffer.position ≤ buffer.tokens.size := by
    rcases hbuffer with rfl | hplaced
    · exact hready.placed
    · exact hplaced
  have hsound : (m.facing buffer).Sound := ⟨⟨hplaced, hready.early⟩, fun _ hmem => by cases hmem⟩
  obtain ⟨-, hbeyond⟩ := (Write.follows_assignment hsound global).of_ok hfailed
  refine ⟨_, Write.goBack_beyond hsound.ready hbeyond, ?_, rfl, rfl, rfl, rfl, rfl, rfl⟩
  exact fun n => hbeyond.parser.state.upcoming hplaced n

/-- An array is indexed by the result of a call, and nothing is assigned. -/
def indexedByCall : Bytes := "def f\n  return 1\n\ns = \"ab\"\ns[f()]\n"

/-- What is written when an assignment is tried at the moment and there is none. -/
def Moment.failed? (m : Moment) (global : Bool) : Option Draft :=
  match Write.assignment global (m.facing m.parser.buffer) with
  | .ok none failed => some failed
  | _ => none

theorem Moment.assignment_of_failed? {m : Moment} {global : Bool} {failed : Draft}
    (h : m.failed? global = some failed) :
    Write.assignment global (m.facing m.parser.buffer) = .ok none failed := by
  unfold Moment.failed? at h
  split at h
  next hrun =>
    cases h
    exact hrun
  next => cases h

/-- The address of the array and the call are dropped again, and the statement is read anew. -/
theorem indexedByCall_dropped : ∃ m failed later,
    (false, m) ∈ Program.attempts none indexedByCall "main" ∧
    Write.assignment false (m.facing m.parser.buffer) = .ok none failed ∧
    m.emitter.items.size + 3 = failed.emitter.items.size ∧
    Write.goBack (m.facing m.parser.buffer).toMoment failed = .ok ⟨⟩ later ∧
    (m.facing m.parser.buffer).Restored later := by
  have hany : (Program.attempts none indexedByCall "main").any (fun attempt =>
      !attempt.1 && (attempt.2.failed? false).any fun failed =>
        decide (attempt.2.emitter.items.size + 3 = failed.emitter.items.size)) = true := by
    decide +kernel
  obtain ⟨⟨global, m⟩, hm, hcheck⟩ := List.any_eq_true.mp hany
  obtain ⟨hglobal, hgrown⟩ := (Bool.and_eq_true _ _).mp hcheck
  obtain ⟨failed, hmoment, hgrown⟩ := (Option.any_eq_true _ _).mp hgrown
  have hlocal : global = false := by simpa using hglobal
  rw [hlocal] at hm
  have hfailed := Moment.assignment_of_failed? hmoment
  obtain ⟨later, hback, hrestored⟩ := failed_attempts_leave_no_trace hm (.inl rfl) hfailed
  exact ⟨m, failed, later, hm, hfailed, of_decide_eq_true hgrown, hback, hrestored⟩

end Terrace
