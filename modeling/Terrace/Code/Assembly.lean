/-
# Assembly

Lays emitted items out at a base address and encodes them. Branches start short
and are widened, all that do not reach their target at once, until every short
one reaches; a conditional branch backwards has no short form. Widening never
brings a target nearer, so each pass widens a branch or is the last.

Key definitions: `AssemblyError`, `Item.encodedLength`, `layout`, `widen`, `relax`,
`Item.encode`, `Emitter.assemble`, `Emitter.addressOf?`.
-/
import Terrace.Code.Emitter
import Terrace.Code.Image

namespace Terrace

/-- Something that still waits when the code is assembled. -/
inductive Waiting where
  | start
  | branch (i : Nat)
  | exit (i : Nat)
  | reservation (i : Nat)
  | call (i : Nat)
deriving DecidableEq, Repr

/-- Why code cannot be assembled. -/
inductive AssemblyError where
  | range (error : RangeError)
  | unresolved (waiting : Waiting)
  | doesNotFit (size : Nat) (base : UInt16)
  /-- A branch or the start points past the end of the code. -/
  | outside
deriving DecidableEq, Repr

/-- The message of something that waits. -/
def Waiting.message : Waiting → Bytes
  | .start => "unresolved placeholder: program start not set"
  | .branch i => "unresolved placeholder: branch at instruction " ++ Bytes.decimal i
  | .exit i => "unresolved placeholder: return at instruction " ++ Bytes.decimal i
  | .reservation i => "unresolved placeholder: stack reservation at instruction " ++ Bytes.decimal i
  | .call i => "unresolved placeholder: call at instruction " ++ Bytes.decimal i

/-- The message of an assembly error; a place past the end has none. -/
def AssemblyError.message : AssemblyError → Option Bytes
  | .range error => some error.message
  | .unresolved waiting => some waiting.message
  | .doesNotFit size base =>
    some ("program of " ++ Bytes.decimal size ++ " bytes does not fit at " ++ Bytes.address base.toNat)
  | .outside => none

namespace Item

/-- The number of bytes of an item, given whether a branch is long. -/
def encodedLength (long : Bool) : Item → Nat
  | .op _ operands => 1 + operands.length
  | .literal value => if value.length = 1 then 2 else 2 + value.length
  | .branch _ _ => if long then 3 else 2
  | .exit => 0
  | .call _ => 3
  | .reserve _ => 2

/-- What an item at place `i` among `count` still waits for. -/
def waiting (count i : Nat) : Item → Option Waiting
  | .branch _ none => some (.branch i)
  | .exit => some (.exit i)
  | .reserve none => some (.reservation i)
  | .call none => some (.call i)
  | .call (some entry) => if entry < count then none else some (.call i)
  | .op .. | .literal _ | .branch _ (some _) | .reserve (some _) => none

/-- Whether an item at place `i` is a branch without a short form. -/
def alwaysLong (i : Nat) : Item → Bool
  | .branch true (some target) => target ≤ i
  | _ => false

/-- The bytes of an item at place `i`, given the addresses of all items. -/
def encode (addresses : Array Nat) (i : Nat) (long : Bool) : Item → Bytes
  | .op code operands => code.byte :: operands
  | .literal [b] => [Opcode.loadByte.byte, b]
  | .literal value => Opcode.loadNumber.byte :: value.length.toUInt8 :: value
  | .branch ifFalse target =>
    let here := addresses.getD i 0
    let there := addresses.getD (target.getD 0) 0
    if long then
      (if ifFalse then Opcode.jumpIfFalse else Opcode.jump).byte :: addressBytes there.toUInt16
    else if ifFalse then [Opcode.branchForwardIfFalse.byte, (there - here).toUInt8]
    else if i < target.getD 0 then [Opcode.branchForward.byte, (there - here).toUInt8]
    else [Opcode.branchBackward.byte, (here - there).toUInt8]
  | .exit => []
  | .call entry =>
    Opcode.functionCall.byte :: addressBytes (addresses.getD (entry.getD 0) 0).toUInt16
  | .reserve size => [Opcode.allocate.byte, Emit.lowByte (size.getD 0)]

end Item

/-- The addresses of items from `address` on, and of their end. -/
def layout (address : Nat) : List Item → List Bool → List Nat
  | item :: items, long :: longs => address :: layout (address + item.encodedLength long) items longs
  | _, _ => [address]

/-- Widens the short branches, from place `i` on, whose distance does not fit in a
byte; none when one points past the end. -/
def widen (addresses : Array Nat) : Nat → List Item → List Bool → Option (List Bool)
  | i, .branch _ (some target) :: items, false :: longs =>
    match addresses[target]?, addresses[i]? with
    | some there, some here => do
      let rest ← widen addresses (i + 1) items longs
      return decide (255 < max there here - min there here) :: rest
    | _, _ => none
  | i, _ :: items, long :: longs => do
    let rest ← widen addresses (i + 1) items longs
    return long :: rest
  | _, _, _ => some []

/-- Repeats the layout and the widening until no branch changes; gives the lengths of
the branches and the addresses. A pass that is not the last widens a branch, so as
many passes as there are items are enough. -/
def relax (base : UInt16) (items : List Item) :
    Nat → List Bool → Except AssemblyError (List Bool × Array Nat)
  | fuel, longs =>
    let addresses := (layout base.toNat items longs).toArray
    let stop := addresses.back?.getD 0
    if 0x10000 < stop then .error (.doesNotFit (stop - base.toNat) base)
    else match widen addresses 0 items longs with
      | none => .error .outside
      | some wider =>
        if wider = longs then .ok (longs, addresses)
        else match fuel with
          | 0 => .ok (longs, addresses)
          | fuel + 1 => relax base items fuel wider

/-- The bytes of items from place `i` on. -/
def encodeItems (addresses : Array Nat) : Nat → List Item → List Bool → Bytes
  | i, item :: items, long :: longs =>
    item.encode addresses i long ++ encodeItems addresses (i + 1) items longs
  | _, _, _ => []

namespace Emitter

/-- The first thing that still waits. -/
def firstWaiting (e : Emitter) : Option Waiting :=
  if e.start.isNone then some .start
  else (e.items.toList.zipIdx.findSome? fun (item, i) => item.waiting e.items.size i)

/-- The branches that are long from the start. -/
def firstLongs (e : Emitter) : List Bool :=
  e.items.toList.zipIdx.map fun (item, i) => item.alwaysLong i

/-- Lays the code out at `base` and encodes it. The emitter keeps the addresses. -/
def assemble (base : UInt16) (e : Emitter) : Except AssemblyError Image × Emitter :=
  match e.pending, e.firstWaiting with
  | some (error, _), _ => (.error (.range error), e)
  | none, some waiting => (.error (.unresolved waiting), e)
  | none, none =>
    match relax base e.items.toList e.items.size e.firstLongs with
    | .error error => (.error error, e)
    | .ok (longs, addresses) =>
      let e := { e with addresses }
      match addresses[e.start.getD 0]? with
      | none => (.error .outside, e)
      | some start =>
        (.ok {
          code := encodeItems addresses 0 e.items.toList longs
          base
          start := start.toUInt16 }, e)

/-- The address of an item after the last assembly. -/
def addressOf? (e : Emitter) (i : Int) : Option UInt16 :=
  match place? i with
  | none => none
  | some i => e.addresses[i]?.map Nat.toUInt16

end Emitter

end Terrace
