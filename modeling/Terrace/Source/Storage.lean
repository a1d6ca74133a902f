/-
# Room for a growing list

A list that grows one entry at a time asks for storage in blocks and doubles its
room while that is small. Storage comes in blocks of fixed sizes, large ones in
whole pages, and a block that is not tiny gives some of its bytes to a header; the
list uses all of the block it gets, so there may be more room than it asked for.

Key definitions: `Storage.blockFor`, `Storage.grow`, `Storage.room`.
-/

namespace Terrace.Storage

/-- The sizes of blocks. -/
def blockSizes : List Nat := [
    8, 16, 24, 32, 48, 64, 80, 96, 112, 128, 144, 160, 176, 192, 208, 224, 240, 256, 288, 320,
    352, 384, 416, 448, 480, 512, 576, 640, 704, 768, 896, 1024, 1152, 1280, 1408, 1536, 1792,
    2048, 2304, 2688, 3072, 3200, 3456, 4096, 4864, 5120, 5376, 6144, 6528, 6784, 6912, 8192,
    9472, 9728, 10240, 10880, 12288, 13568, 14336, 16384, 18432, 19072, 20480, 21760, 24576,
    27264, 28672, 32768]

/-- The size of a page. -/
def pageSize : Nat := 8192

/-- The largest request served without a header. -/
def maxBare : Nat := 512

/-- The size of a header. -/
def headerSize : Nat := 8

/-- The largest request served from a block of fixed size. -/
def maxBlock : Nat := 32768 - headerSize

/-- The bytes that can be used of the storage given for a request. -/
def blockFor (bytes : Nat) : Nat :=
  if bytes ≤ maxBare then (blockSizes.find? (bytes ≤ ·)).getD bytes
  else if bytes ≤ maxBlock then
    (blockSizes.find? (bytes + headerSize ≤ ·)).getD (bytes + headerSize) - headerSize
  else (bytes + pageSize - 1) / pageSize * pageSize

/-- The size of an entry: a name, two sizes and two marks, in whole words. -/
def entrySize : Nat := 40

/-- The room up to which a list doubles. -/
def doublingLimit : Nat := 256

/-- The room a full list asks for: twice as much as it has while that is small, and
from there on a share that falls towards a quarter more. -/
def wish (room : Nat) : Nat :=
  if room = 0 then 1
  else if room < doublingLimit then 2 * room
  else room + (room + 3 * doublingLimit) / 4

/-- The room of a full list once it has grown. -/
def grow (room : Nat) : Nat := blockFor (wish room * entrySize) / entrySize

/-- The room after one more entry made `size` of them. -/
def grown (size room : Nat) : Nat := if size ≤ room then room else grow room

/-- The room of a list to which `n` entries were added one by one. -/
def room : Nat → Nat
  | 0 => 0
  | n + 1 => grown (n + 1) (room n)

end Terrace.Storage
