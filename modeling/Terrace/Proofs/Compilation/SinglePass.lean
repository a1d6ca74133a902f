/-
# Compiling in a single pass

A program is parsed as a whole before its code is generated, but the two can also go hand in hand:
each construct is emitted as soon as it is read. Then the parser and the emitter are both there when
an assignment is tried, with the code of an index emitted before it is clear whether an `=` follows.
`Write` is this compilation; it also notes the moments at which an assignment is tried. It comes to
the same program and the same code as the parser and the generator behind each other.

Key definitions: `Moment`, `Draft`, `Write`, `Write.assignment`, `Write.tryAssignment`,
`Write.program`, `Program.draft`, `Follows`.
Key theorems: `Follows.of_ok`, `Follows.bind`, `Follows.read_bind`, `Follows.put_bind`.
-/
import Terrace.Proofs.Code.Rollback
import Terrace.Proofs.Source.Building
import Terrace.Proofs.Source.Code
import Terrace.Proofs.Source.Contracts
import Terrace.Source.Generation

namespace Terrace

/-- A moment of a compilation in a single pass. -/
structure Moment where
  parser : ParserState
  emitter : Emitter := {}
  /-- Where the functions begin, the current one last. -/
  entries : List Nat := []

/-- A compilation in a single pass. -/
structure Draft extends Moment where
  /-- The moments at which an assignment was tried, and whether behind the word `global`. -/
  tried : List (Bool × Moment) := []

/-- What stops a compilation in a single pass. -/
inductive Abort where
  | parsing (error : ParseError)
  | misuse (misuse : Misuse)

/-- A step of a compilation in a single pass; an error leaves the draft as it is at that moment. -/
abbrev Write := EStateM Abort Draft

namespace Write

/-- What the parser does. -/
def read {α : Type} (x : Parse α) : Write α := fun d =>
  match x d.parser with
  | .ok a parser => .ok a { d with parser }
  | .error e parser => .error (.parsing e) { d with parser }

/-- What the emitter does. -/
def put {α : Type} (x : Emit α) : Write α := fun d =>
  match x d.emitter with
  | .ok a emitter => .ok a { d with emitter }
  | .error misuse emitter => .error (.misuse misuse) { d with emitter }

/-- The code of an expression. -/
def evaluate (e : Expression) : Write Unit := do put (e.emit (← get).entries)

/-- The code of a statement. -/
def execute (s : Statement) : Write Unit := do put (s.emit (← get).entries)

/-- An assignment to an element of an array. Its address and the index are emitted before it is
known whether the tokens are an assignment. -/
def elementAssignment (nameToken : Token) (global : Bool) : Write (Option Statement) := do
  match ((← get).parser.assignedPlace? global nameToken.literal).filter (·.slot.isArray) with
  | none => return none
  | some place =>
    put place.emitAddress
    let (i, indexShape) ← read (Parse.index Parse.expression)
    evaluate i
    if !(← read Parse.peek).isOperator "=" then return none
    let _ ← read Parse.next
    let (value, shape) ← read (Parse.required Parse.expression "=")
    evaluate value
    if shape.size ≠ place.slot.elementSize then
      read (Parse.failSize nameToken
        (.elementAssignment shape.size place.slot.name place.slot.elementSize))
    put (Emit.storeIndexed place.slot.elementSize indexShape.size)
    return some (.assignElement place i indexShape.size value)

/-- An assignment to a variable. -/
def variableAssignment (nameToken : Token) (global : Bool) : Write (Option Statement) := do
  match ← read (Parse.variableAssignment nameToken global) with
  | none => return none
  | some statement =>
    execute statement
    return some statement

/-- An assignment; none, with tokens consumed and code emitted, if the tokens are not one. -/
def assignment (global : Bool) : Write (Option Statement) := do
  let nameToken ← read Parse.next
  if nameToken.kind ≠ .identifier || isReserved nameToken.literal then return none
  if ((← get).parser.callee? nameToken.literal).isSome then return none
  let token ← read Parse.peek
  if token.kind = .leftBracket then elementAssignment nameToken global
  else if token.isOperator "=" then variableAssignment nameToken global
  else return none

/-- Notes that an assignment is tried. -/
def note (global : Bool) : Write Unit :=
  modify fun d => { d with tried := d.tried ++ [(global, d.toMoment)] }

/-- Goes back to the tokens and the code of a moment. -/
def goBack (m : Moment) : Write Unit := do
  read (modify fun s => { s with buffer := s.buffer.rewind m.parser.buffer.mark })
  put (Emit.truncate m.emitter.items.size)

/-- An assignment, or none. -/
def tryAssignment (global : Bool) : Write (Option Statement) := do
  note global
  let before := (← get).toMoment
  match ← assignment global with
  | some statement => return some statement
  | none =>
    goBack before
    return none

/-- An assignment or an expression. -/
def simpleStatement : Write Statement := do
  let global ← read Parse.globalWord
  match ← tryAssignment global with
  | some statement =>
    read Parse.expectSeparator
    return statement
  | none =>
    let token ← read Parse.peek
    if global then read (Parse.failGrammar token .globalNeedsAssignment)
    match ← read Parse.expression with
    | none => read (Parse.failGrammar token (.expectedStatement token))
    | some (e, shape) =>
      execute (.discard e shape.size)
      read Parse.expectSeparator
      return .discard e shape.size

/-- A return. -/
def giveBack : Write Statement := do
  let statement ← read Parse.giveBack
  execute statement
  return statement

section
variable (statement : Write Statement)

/-- The statements of a block up to its end, at most as many as the fuel. -/
def blockRest : Nat → Write (List Statement)
  | 0 => read Parse.exhausted
  | fuel + 1 => do
    let token ← read Parse.skipNewlines
    match token.kind with
    | .dedent =>
      let _ ← read Parse.next
      return []
    | .finish => read (Parse.failGrammar token .endInBlock)
    | _ =>
      if token.isWord "def" then read (Parse.failGrammar token .nestedDefinition)
      let first ← statement
      return first :: (← blockRest fuel)

/-- An indented block of statements. -/
def block : Write (List Statement) := do
  let token ← read Parse.skipNewlines
  if token.kind ≠ .indent then read (Parse.failGrammar token (.expectedBlock token))
  let _ ← read Parse.next
  blockRest statement (← get).parser.limit

/-- A block that is executed under a condition, and perhaps another one. -/
def conditional : Write Statement := do
  let _ ← read Parse.next
  let e ← read (Parse.condition "if")
  evaluate e
  let skip ← put Emit.branchIfFalse
  read Parse.expectSeparator
  let body ← block statement
  if (← read Parse.peek).isWord "else" then
    let _ ← read Parse.next
    let done ← put Emit.branch
    put (Emit.target skip)
    read Parse.expectSeparator
    let otherwise ← block statement
    put (Emit.target done)
    return .ifElse e body otherwise
  else
    put (Emit.target skip)
    return .ifThen e body

/-- A block that is repeated. -/
def loop : Write Statement := do
  let _ ← read Parse.next
  let head ← put Emit.mark
  let e ← read (Parse.condition "while")
  evaluate e
  let leave ← put Emit.branchIfFalse
  read Parse.expectSeparator
  let body ← block statement
  put (Emit.endWhile head leave)
  return .whileLoop e body

/-- A statement of any form. -/
def anyStatement : Write Statement := do
  let token ← read Parse.peek
  if token.kind = .indent then read (Parse.failGrammar token .unexpectedIndentation)
  else if token.isWord "if" then conditional statement
  else if token.isWord "while" then loop statement
  else if token.isWord "return" then giveBack
  else simpleStatement

end

/-- A statement with at most `fuel` blocks inside each other. -/
def statementWithin : Nat → Write Statement
  | 0 => read Parse.exhausted
  | fuel + 1 => anyStatement (statementWithin fuel)

/-- A statement. -/
def statement : Write Statement := do statementWithin (← get).parser.limit

/-- The end of a function that begins at `entry`. -/
def functionEnd (entry reserved : Nat) (f : Function) : Emit Unit := do
  if 0 < f.returnSize then Emit.literal (List.replicate f.returnSize.toNat 0)
  Emit.fixReturns entry
  Emit.epilogue f.parameterSize f.locals.totalSize f.returnSize
  Emit.patchReserve reserved f.locals.totalSize

/-- A function definition. -/
def definition : Write Unit := do
  let _ ← read Parse.next
  let nameToken ← read Parse.functionName
  let parameters ← read (Parse.parametersWithin (← get).parser.limit {})
  read Parse.expectSeparator
  read (modify fun s => { s with current := some { name := nameToken.literal, parameters } })
  let (entry, reserved) ← put (Emit.prologue parameters.totalSize)
  modify fun d => { d with entries := d.entries ++ [entry] }
  let body ← block statement
  match (← get).parser.current with
  | none => pure ()
  | some f =>
    read (Parse.finishFunction nameToken f body)
    put (functionEnd entry reserved f)

/-- Include lines and definitions, at most as many as the fuel, up to something else. -/
def definitionsWithin (includeLine : Write Unit) : Nat → Write Unit
  | 0 => read Parse.exhausted
  | fuel + 1 => do
    let token ← read Parse.skipNewlines
    if token.isWord "include" then
      includeLine
      read Parse.commit
      definitionsWithin includeLine fuel
    else if token.isWord "def" then
      definition
      read Parse.commit
      definitionsWithin includeLine fuel

/-- Include lines and definitions up to something else. -/
def definitions (includeLine : Write Unit) : Write Unit := do
  definitionsWithin includeLine (← get).parser.limit

/-- The definitions of an open file, which is closed afterwards. -/
def spliced (includeLine : Write Unit) (file : SourceFile) (text : Bytes) : Write Unit := do
  let outer := (← get).parser
  read (Parse.report "Including file" [("file", file.key), ("from", outer.file.key)])
  read (modify fun s => { s with
    buffer := .ofSource text, file, limit := ParserState.limitOf text })
  definitions includeLine
  let token ← read Parse.peek
  if token.kind ≠ .finish then read (Parse.failGrammar token .definitionsOnly)
  read (modify fun s => { s with
    buffer := outer.buffer, file := outer.file, limit := outer.limit
    loader := s.loader.map (·.close file) })

/-- An include line. -/
def includeFile (includeLine : Write Unit) : Write Unit := do
  let word ← read Parse.next
  let pathToken ← read Parse.next
  if pathToken.kind ≠ .string then
    read (Parse.failGrammar pathToken (.includeNeedsPath pathToken))
  read Parse.expectSeparator
  match (← get).parser.loader with
  | none => read (Parse.fail word .includesUnavailable)
  | some loader =>
    let (file, text) ← read (Parse.openIncluded loader pathToken)
    spliced includeLine file text

/-- An include line with at most `depth` files open inside each other. -/
def includeWithin : Nat → Write Unit
  | 0 => read Parse.exhausted
  | depth + 1 => includeFile (includeWithin depth)

/-- The statements of the main block, at most as many as the fuel. -/
def mainWithin : Nat → Write (List Statement)
  | 0 => read Parse.exhausted
  | fuel + 1 => do
    let token ← read Parse.skipNewlines
    if token.kind = .finish then return []
    if token.isWord "def" || token.isWord "include" then
      read (Parse.failGrammar token .lateDefinition)
    let first ← statement
    read Parse.commit
    return first :: (← mainWithin fuel)

/-- A whole program, from a file with this name. -/
def program (fileName : Bytes) : Write Program := do
  definitions (includeWithin (Loader.depthOf (← get).parser.loader))
  let start ← put Emit.reserve
  put (Emit.setStart start)
  let main ← mainWithin (← get).parser.limit
  put Emit.halt
  put (Emit.patchReserve start (← get).parser.globals.totalSize)
  let s := (← get).parser
  read (Parse.report "Program parsed" [
    ("file", fileName), ("functions", Bytes.decimal s.definitions.length),
    ("globals", Bytes.decimalInt s.globals.totalSize)])
  return { definitions := s.definitions, main, globals := s.globals }

end Write

/-- Compiles a source text in a single pass. -/
def Program.draft (loader : Option Loader) (source fileName : Bytes) :
    EStateM.Result Abort Draft Program :=
  let file := SourceFile.ofName fileName
  let parser : ParserState :=
    { buffer := .ofSource source, file, limit := ParserState.limitOf source, loader := none }
  match loader.mapM (·.enter file) with
  | .error error =>
    .error (.parsing { cause := .inclusion error, file := fileName, line := 0, column := 0 })
      { parser }
  | .ok loader => Write.program fileName { parser := { parser with loader } }

/-! ### Going hand in hand -/

/-- A pending error was noted in front of an item. -/
def Emitter.Early (e : Emitter) : Prop :=
  ∀ error noted, e.pending = some (error, noted) → noted < e.items.size

/-- The buffer is at a place that it has, and a pending error was noted before. -/
structure Moment.Ready (m : Moment) : Prop where
  placed : m.parser.buffer.position ≤ m.parser.buffer.tokens.size
  early : m.emitter.Early

/-- All moments at which an assignment was tried were ready for it. -/
def Draft.Logged (d : Draft) : Prop := ∀ attempt ∈ d.tried, attempt.2.Ready

/-- From this draft on, the compilation does what the parser does, and leaves a draft as in `Q`. -/
structure Follows {α : Type} (x : Parse α) (w : Write α) (d : Draft) (Q : α → Draft → Prop) :
    Prop where
  ok : ∀ {a : α} {s : ParserState}, x d.parser = .ok a s →
    ∃ d', w d = .ok a d' ∧ d'.parser = s ∧ Q a d'
  error : ∀ {e : ParseError} {s : ParserState}, x d.parser = .error e s →
    ∃ d', w d = .error (.parsing e) d' ∧ d'.parser = s ∧ d'.Logged

namespace Follows

open Parse (Contract Obeys)

variable {α β γ : Type} {x : Parse α} {w : Write α} {d : Draft} {f : α → Parse β}
  {g : α → Write β} {Q Q' : α → Draft → Prop} {R : β → Draft → Prop}

/-- What the compilation gives is what the parser gives. -/
theorem of_ok (h : Follows x w d Q) {a : α} {d' : Draft} (hrun : w d = .ok a d') :
    x d.parser = .ok a d'.parser ∧ Q a d' := by
  cases hparse : x d.parser with
  | error e s =>
    obtain ⟨_, herror, -⟩ := h.error hparse
    rw [hrun] at herror
    cases herror
  | ok b s =>
    obtain ⟨_, hok, rfl, hQ⟩ := h.ok hparse
    rw [hrun] at hok
    cases hok
    exact ⟨rfl, hQ⟩

theorem pure {a : α} (h : Q a d) : Follows (Pure.pure a) (Pure.pure a) d Q where
  ok hrun := by
    cases hrun
    exact ⟨d, rfl, rfl, h⟩
  error hrun := by cases hrun

theorem mono (h : Follows x w d Q) (hQ : ∀ a d', Q a d' → Q' a d') : Follows x w d Q' where
  ok hrun := by
    obtain ⟨d', hw, hparser, ha⟩ := h.ok hrun
    exact ⟨d', hw, hparser, hQ _ _ ha⟩
  error := h.error

/-- **Constructs behind each other.** -/
theorem bind (hx : Follows x w d Q)
    (hf : ∀ a d', x d.parser = .ok a d'.parser → Q a d' → Follows (f a) (g a) d' R) :
    Follows (x >>= f) (w >>= g) d R := by
  have hparse : (x >>= f) d.parser = EStateM.bind x f d.parser := rfl
  have hwrite : (w >>= g) d = EStateM.bind w g d := rfl
  cases hrun : x d.parser with
  | error e s =>
    obtain ⟨d', hw, hafter⟩ := hx.error hrun
    refine ⟨fun hall => ?_, fun hall => ⟨d', ?_⟩⟩
    · rw [hparse, EStateM.bind, hrun] at hall
      cases hall
    · rw [hparse, EStateM.bind, hrun] at hall
      cases hall
      rw [hwrite, EStateM.bind, hw]
      exact ⟨rfl, hafter⟩
  | ok a s =>
    obtain ⟨d', hw, rfl, hQ⟩ := hx.ok hrun
    have hrest := hf a d' hrun hQ
    have hsame : (w >>= g) d = g a d' := by rw [hwrite, EStateM.bind, hw]
    refine ⟨fun hall => ?_, fun hall => ?_⟩
    · rw [hparse, EStateM.bind, hrun] at hall
      rw [hsame]
      exact hrest.ok hall
    · rw [hparse, EStateM.bind, hrun] at hall
      rw [hsame]
      exact hrest.error hall

/-- What only the parser does. -/
theorem read (hd : d.Logged) (x : Parse α) :
    Follows x (Write.read x) d fun a d' =>
      ∃ parser, x d.parser = .ok a parser ∧ d' = { d with parser } where
  ok {a s} hrun := ⟨{ d with parser := s }, by rw [Write.read, hrun], rfl, s, hrun, rfl⟩
  error {e s} hrun := ⟨{ d with parser := s }, by rw [Write.read, hrun], rfl, hd⟩

/-- What only the parser does, and keeps some contract. -/
theorem read_bind {C : Contract} {P : α → ParserState → Prop} (hd : d.Logged)
    (hx : Obeys C x d.parser P)
    (h : ∀ a parser, P a parser → Follows (f a) (g a) { d with parser } R) :
    Follows (x >>= f) (Write.read x >>= g) d R :=
  (read hd x).bind fun a _ _ ⟨parser, hrun, heq⟩ => heq ▸ h a parser (hx.of_ok hrun)

/-- A parser that fails. -/
theorem of_fails (hd : d.Logged) (h : x.Fails) : Follows x (Write.read x) d Q where
  ok hrun := (h _ _ _ hrun).elim
  error {e s} hrun := ⟨{ d with parser := s }, by rw [Write.read, hrun], rfl, hd⟩

/-- What only the emitter does. -/
theorem put_bind {y : Emit γ} {y' : Parse β} {g : γ → Write β} {c : γ} {emitter : Emitter}
    (hrun : y d.emitter = .ok c emitter) (h : Follows y' (g c) { d with emitter } R) :
    Follows y' (Write.put y >>= g) d R := by
  have hwrite : (Write.put y >>= g) d = g c { d with emitter } := by
    change EStateM.bind (Write.put y) g d = _
    rw [EStateM.bind, Write.put, hrun]
  refine ⟨fun hall => ?_, fun hall => ?_⟩
  · rw [hwrite]
    exact h.ok hall
  · rw [hwrite]
    exact h.error hall

theorem get_bind {f : ParserState → Parse β} {g : Draft → Write β}
    (h : Follows (f d.parser) (g d) d R) : Follows (get >>= f) (get >>= g) d R := ⟨h.ok, h.error⟩

/-- A check that must be passed. -/
theorem check {c : Prop} [Decidable c] {y : Parse β} {v : Write β} (hd : d.Logged) (hx : x.Fails)
    (h : ¬ c → Follows y v d R) :
    Follows (if c then x >>= fun _ => y else y) (if c then Write.read x >>= fun _ => v else v) d R := by
  by_cases hc : c
  · rw [if_pos hc, if_pos hc]
    exact (of_fails (Q := fun _ _ => False) hd hx).bind fun _ _ _ h => h.elim
  · rw [if_neg hc, if_neg hc]
    exact h hc

theorem ite {c : Prop} [Decidable c] {y : Parse α} {v : Write α} (hx : c → Follows x w d Q)
    (hy : ¬ c → Follows y v d Q) :
    Follows (if c then x else y) (if c then w else v) d Q := by
  by_cases hc : c
  · rw [if_pos hc, if_pos hc]
    exact hx hc
  · rw [if_neg hc, if_neg hc]
    exact hy hc

end Follows

end Terrace
