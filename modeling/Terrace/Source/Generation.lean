/-
# Code for programs

Emits the items of a parsed program. The definitions come first, in their order,
then the main block, where the program starts.

    e1 op e2          e1, e2, op
    f(e1, …, en)      save frame, e1, …, en, call f
    a[i]              address of a, i, load indexed
    if c … else …     c, branch if false to L, …, branch to M, L: …, M:
    while c …         H: c, branch if false to X, …, branch to H, X:
    return e          e, branch to the tail
    def f …           enter frame, reserve locals, …, zero result, tail: leave frame
    main block        reserve globals, …, halt

Key definitions: `Expression.emit`, `Statement.emit`, `Definition.emit`,
`Program.emit`, `Program.generate`.
-/
import Terrace.Code.Emitter
import Terrace.Source.Program

namespace Terrace

/-- The size of the block a system call pops: an address and three registers. -/
def systemCallSize : Int := 5

/-- Pushes the address of a variable, or the address an array parameter holds. -/
def Place.emitAddress (place : Place) : Emit Unit :=
  if place.slot.isReference then Emit.loadVariable place.scope place.offset 2
  else Emit.address place.scope place.offset

mutual

/-- Emits an expression; `entries` are the places of the functions defined so far. -/
@[simp] def Expression.emit (entries : List Nat) : Expression → Emit Unit
  | .literal value => Emit.literal value
  | .load place => Emit.loadVariable place.scope place.offset place.slot.size
  | .addressOf place => place.emitAddress
  | .element place index indexSize => do
    place.emitAddress
    index.emit entries
    Emit.loadIndexed place.slot.elementSize indexSize
  | .unary operator operand size => do
    operand.emit entries
    Emit.unary operator size
  | .binary operator left right leftSize rightSize => do
    left.emit entries
    right.emit entries
    Emit.binary operator leftSize rightSize
  | .call callee arguments => do
    Emit.pushFrame
    emitAll entries arguments
    Emit.call (entries.getD callee 0)
  | .systemCall address a x y => do
    address.emit entries
    a.emit entries
    x.emit entries
    y.emit entries
    Emit.systemCall systemCallSize
  | .loadMemory size address => do
    address.emit entries
    Emit.loadMemory size
  | .storeMemory value size address => do
    value.emit entries
    address.emit entries
    Emit.storeMemory size

/-- Emits expressions in order. -/
@[simp] def emitAll (entries : List Nat) : List Expression → Emit Unit
  | [] => pure ()
  | e :: es => do
    e.emit entries
    emitAll entries es

end

mutual

/-- Emits a statement. -/
@[simp] def Statement.emit (entries : List Nat) : Statement → Emit Unit
  | .assign place value => do
    value.emit entries
    Emit.storeVariable place.scope place.offset place.slot.size
  | .assignElement place index indexSize value => do
    place.emitAddress
    index.emit entries
    value.emit entries
    Emit.storeIndexed place.slot.elementSize indexSize
  | .discard value size => do
    value.emit entries
    Emit.discard size
  | .ifThen condition body => do
    condition.emit entries
    let skip ← Emit.branchIfFalse
    emitBlock entries body
    Emit.target skip
  | .ifElse condition body otherwise => do
    condition.emit entries
    let skip ← Emit.branchIfFalse
    emitBlock entries body
    let done ← Emit.branch
    Emit.target skip
    emitBlock entries otherwise
    Emit.target done
  | .whileLoop condition body => do
    let head ← Emit.mark
    condition.emit entries
    let leave ← Emit.branchIfFalse
    emitBlock entries body
    Emit.endWhile head leave
  | .giveBack value => do
    match value with
    | some e => e.emit entries
    | none => pure ()
    Emit.exit

/-- Emits statements in order. -/
@[simp] def emitBlock (entries : List Nat) : List Statement → Emit Unit
  | [] => pure ()
  | statement :: statements => do
    statement.emit entries
    emitBlock entries statements

end

/-- Emits a function and tells its place. Its own place is known inside it. -/
def Definition.emit (entries : List Nat) (definition : Definition) : Emit Nat := do
  let f := definition.function
  let (entry, reserved) ← Emit.prologue f.parameterSize
  emitBlock (entries ++ [entry]) definition.body
  if 0 < f.returnSize then Emit.literal (List.replicate f.returnSize.toNat 0)
  Emit.fixReturns entry
  Emit.epilogue f.parameterSize f.locals.totalSize f.returnSize
  Emit.patchReserve reserved f.locals.totalSize
  return entry

/-- Emits definitions after those with the given places, and adds their places. -/
def emitDefinitions (entries : List Nat) : List Definition → Emit (List Nat)
  | [] => return entries
  | definition :: rest => do
    let entry ← definition.emit entries
    emitDefinitions (entries ++ [entry]) rest

/-- Emits a program and tells the places of its functions. -/
def Program.emit (program : Program) : Emit (List Nat) := do
  let entries ← emitDefinitions [] program.definitions
  let start ← Emit.reserve
  Emit.setStart start
  emitBlock entries program.main
  Emit.halt
  Emit.patchReserve start program.globals.totalSize
  return entries

/-- The code of a program, and its functions with their places in it. -/
def Program.generate (program : Program) : Except Misuse (Emitter × List Function) :=
  match program.emit {} with
  | .error misuse _ => .error misuse
  | .ok entries emitter =>
    .ok (emitter, program.definitions.zipWith (fun d entry => { d.function with entry }) entries)

end Terrace
