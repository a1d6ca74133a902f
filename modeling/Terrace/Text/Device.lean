/-
# Output devices

Where output goes: a device keeps what it was given, and one with limited room
refuses a write that is longer than the room left, taking nothing of it.

Key definitions: `Device`, `Device.written`, `Device.write`, `Device.writeAll`.
-/
import Terrace.Text.Bytes

namespace Terrace

/-- An output device: the pieces it was given, the last one first, and the room left
if that is limited. -/
structure Device where
  pieces : List Bytes := []
  room : Option Nat := none
deriving DecidableEq, Repr

namespace Device

/-- What a device holds. -/
def written (device : Device) : Bytes := device.pieces.reverse.flatten

/-- The message of a refused write. -/
def fullMessage : Bytes := "device full"

/-- Writes to a device; none when the bytes do not fit. -/
def write (device : Device) (bytes : Bytes) : Option Device :=
  match device.room with
  | none => some { device with pieces := bytes :: device.pieces }
  | some room =>
    if room < bytes.length then none
    else some { pieces := bytes :: device.pieces, room := some (room - bytes.length) }

/-- Writes pieces in turn until one is refused; tells whether all were taken. -/
def writeAll (device : Device) : List Bytes → Device × Bool
  | [] => (device, true)
  | bytes :: rest =>
    match device.write bytes with
    | none => (device, false)
    | some device => device.writeAll rest

end Device

end Terrace
