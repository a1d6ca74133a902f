/-
# Hosts

What stands behind a system call. A program passes an address and three register
bytes, and gets back a new value of the first register. A host serves such calls
with a state of its own; it can also tell that the run has been called off.

Key definitions: `Request`, `Reply`, `Host`, `Terminal`, `Host.null`,
`Host.console`, `Host.prompt`.
-/
import Terrace.Text.Blank
import Terrace.Text.Device
import Terrace.Text.Lines
import Terrace.Text.Numeral

namespace Terrace

/-- A system call: the address called and the register bytes passed. -/
structure Request where
  address : UInt16
  a : UInt8
  x : UInt8
  y : UInt8
deriving DecidableEq, Repr

/-- The answer to a system call: the new value of the first register, and the
reason when the call failed. -/
structure Reply where
  a : UInt8
  failure : Option Bytes := none
deriving DecidableEq, Repr

/-- A server of system calls with state `σ`. -/
structure Host (σ : Type) where
  serve : Request → σ → Reply × σ
  /-- Whether the run has been called off. -/
  cancelled : σ → Bool := fun _ => false

/-- A terminal: what it shows, and the input still to be read from it. -/
structure Terminal where
  device : Device := {}
  input : Bytes := []
deriving DecidableEq, Repr

namespace Host

/-- The operating system's entry point that writes A, a carriage return as a newline. -/
def writeText : UInt16 := 0xffe3

/-- The entry point that writes a newline. -/
def writeNewline : UInt16 := 0xffe7

/-- The entry point that writes A. -/
def writeByte : UInt16 := 0xffee

/-- Ignores every call and answers 0. -/
def null : Host Terminal where
  serve _ terminal := ({ a := 0 }, terminal)

/-- Writes bytes to the terminal and answers with A. -/
def put (bytes : Bytes) (request : Request) (terminal : Terminal) : Reply × Terminal :=
  match terminal.device.write bytes with
  | some device => ({ a := request.a }, { terminal with device })
  | none => ({ a := request.a, failure := some Device.fullMessage }, terminal)

/-- Serves the entry points for character output; any other call answers 0. -/
def console : Host Terminal where
  serve request terminal :=
    if request.address = writeByte then put [request.a] request terminal
    else if request.address = writeNewline then put "\n" request terminal
    else if request.address = writeText then
      put (if request.a = 13 then "\n" else [request.a]) request terminal
    else ({ a := 0 }, terminal)

/-- The question a prompting host asks. -/
def question (request : Request) : Bytes :=
  "system call " ++ Bytes.hexPadded 4 request.address.toNat ++ " A=" ++ Bytes.hexByte request.a
    ++ " X=" ++ Bytes.hexByte request.x ++ " Y=" ++ Bytes.hexByte request.y ++ ", result A? "

/-- The answer a line of input gives: empty keeps A, otherwise a number of one byte. -/
def answer (request : Request) (line : Bytes) : Reply :=
  let text := Text.trim line
  if text.isEmpty then { a := request.a }
  else match Text.Numeral.readFree 255 text with
    | .ok n => { a := n.toUInt8 }
    | .error fault =>
      let reason : Bytes := "invalid register value " ++ Text.quote text ++ ": "
        ++ Text.Numeral.describe text fault
      { a := 0, failure := some reason }

/-- Describes each call on the terminal and reads the answer from it. A question
that does not fit on the device is left out. -/
def prompt : Host Terminal where
  serve request terminal :=
    let device := (terminal.device.write (question request)).getD terminal.device
    match Text.nextLine terminal.input with
    | .finished => ({ a := 0, failure := some "unexpected EOF" }, { terminal with device })
    | .tooLong => ({ a := 0, failure := some Text.tooLongMessage }, { terminal with device })
    | .line text rest => (answer request text, { device, input := rest })

end Host

end Terrace
