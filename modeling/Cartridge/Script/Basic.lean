import Cartridge.Block.Decode
import Cartridge.Command.Stream
import Cartridge.StringTable

/-!
# Event scripts

A script is a number of objects with sixteen functions each, and a stream of commands.  It is stored
as the object count, one two-byte pointer per function, and the stream.  Positions count from the
first pointer, so the stream begins at `headerLength`, thirty-two bytes per object.  A function
whose pointer equals the one before it in the same object has no code of its own.

* `Script`                    pointers in table order, stream, strings, and whether it was edited;
* `Script.parse`, `Script.toBytes`   from and to the stored form;
* `Script.functionStart`, `Script.functionEnd`, `Script.objectEnd`, …   where code is;
* `Script.commands`, `Script.commandAt`, `Script.findCommand`, `Script.findBytes`   what it is;
* `Script.stringTableAddress`   the address of the strings, from the first function;
* `Script.load`               the script of a compressed block, with its strings.
-/

namespace Cartridge

structure Script where
  pointers : List Nat
  stream : Bytes
  strings : StringTable
  modified : Bool
  deriving DecidableEq, Repr

namespace Script

def functionsPerObject : Nat := 16

/-- the pointers of an object take up so many bytes -/
def objectHeader : Nat := 32

def maxObjects : Nat := 0xFF

/-- the largest length of a script, the object count aside -/
def maxLength : Nat := 0xFFFF

/-! ## sizes -/

def objectCount (s : Script) : Nat := s.pointers.length / functionsPerObject

/-- the position of the stream -/
def headerLength (s : Script) : Nat := 2 * s.pointers.length

/-- the position behind the stream -/
def length (s : Script) : Nat := s.headerLength + s.stream.length

/-- a script without code -/
def isEmpty (s : Script) : Bool := s.stream.isEmpty

/-! ## the stored form -/

/-- the first `n` two-byte numbers -/
def words : Nat → Bytes → List Nat
  | n + 1, lo :: hi :: rest => Bytes.value [lo, hi] :: words n rest
  | _, _ => []

/-- the slot and the value of the first pointer outside `[low, high]` -/
def firstOutside (low high : Nat) (pointers : List Nat) : Option (Nat × Nat) :=
  (pointers.zipIdx.find? fun (p, _) => p < low || high < p).map fun (p, slot) => (slot, p)

def parse (bytes : Bytes) : Except Error Script :=
  match bytes with
  | [] => .error (.format .emptyScript)
  | count :: body =>
    let objects := count.toNat
    let header := objects * objectHeader
    let actual := body.length
    if actual < header then .error (.format (.shortTable objects header actual))
    else if maxLength < actual then .error (.scriptTooLarge (actual + 1))
    else
      let pointers := words (objects * functionsPerObject) body
      match firstOutside header actual pointers with
      | some (slot, pointer) =>
        .error (.format (.pointerOutside (slot / functionsPerObject) (slot % functionsPerObject)
          pointer header actual))
      | none => .ok ⟨pointers, body.drop header, .empty, false⟩

def toBytes (s : Script) : Bytes :=
  UInt8.ofNat s.objectCount :: (s.pointers.flatMap (Bytes.field 2) ++ s.stream)

/-! ## functions and objects -/

/-- where the pointer of a function stands in the table -/
def slot (s : Script) (object function : Nat) : Except Error Nat :=
  if s.objectCount ≤ object then .error (.noSuchObject object)
  else if functionsPerObject ≤ function then .error (.noSuchFunction object function)
  else .ok (object * functionsPerObject + function)

def pointer (s : Script) (slot : Nat) : Nat := s.pointers.getD slot 0

/-- the function shares the code of the one before it -/
def slotIsEmpty (s : Script) (slot : Nat) : Bool :=
  slot % functionsPerObject != 0 && s.pointer slot == s.pointer (slot - 1)

/-- the first later pointer that differs, else the end of the stream -/
def slotEnd (s : Script) (slot : Nat) : Except Error Nat :=
  let start := s.pointer slot
  let stop := ((s.pointers.drop (slot + 1)).find? (· != start)).getD s.length
  if stop < start then .error (.format (.pointersDecrease start)) else .ok stop

def functionStart (s : Script) (object function : Nat) : Except Error Nat :=
  return s.pointer (← s.slot object function)

def functionEnd (s : Script) (object function : Nat) : Except Error Nat := do
  s.slotEnd (← s.slot object function)

def isFunctionEmpty (s : Script) (object function : Nat) : Except Error Bool :=
  return s.slotIsEmpty (← s.slot object function)

def objectStart (s : Script) (object : Nat) : Except Error Nat := s.functionStart object 0

def objectEnd (s : Script) (object : Nat) : Except Error Nat := do
  let start ← s.objectStart object
  let stop ← if object + 1 < s.objectCount then s.objectStart (object + 1) else .ok s.length
  if stop < start then throw (.format (.objectReversed object stop start))
  return stop

/-- the bytes of the stream in `[start, stop)` -/
def bytes (s : Script) (start stop : Nat) : Except Error Bytes :=
  if start < s.headerLength ∨ stop < start ∨ s.length < stop then
    .error (.invalidRange start stop)
  else .ok ((s.stream.drop (start - s.headerLength)).take (stop - start))

def function (s : Script) (object function : Nat) : Except Error Bytes := do
  let start ← s.functionStart object function
  let stop ← s.functionEnd object function
  s.bytes start stop

/-! ## commands -/

/-- the commands that begin in `[start, stop)`, as far as the stream reaches -/
def commands (s : Script) (start stop : Nat) : Reading :=
  let base := s.headerLength
  (readCommands s.stream (max start base - base) (min stop s.length - base)).shift base

def allCommands (s : Script) : Reading := s.commands s.headerLength s.length

def commandAt (s : Script) (pos : Nat) : Except Error Command :=
  if pos < s.headerLength then .error (.notOnBoundary pos)
  else
    let index := pos - s.headerLength
    (Command.decodeAt index (s.stream.drop index)).mapError .format

def findCommand? (s : Script) (opcodes : Bytes) (start stop : Nat) : Except Error (Option Nat) :=
  return (← (s.commands start stop).find? fun c => opcodes.contains c.opcode).map Prod.fst

def findCommand (s : Script) (opcodes : Bytes) (start stop : Nat) : Except Error Nat := do
  match ← s.findCommand? opcodes start stop with
  | some pos => return pos
  | none => throw (.commandNotFound opcodes start stop)

/-- where `needle` first stands in the bytes, of which the first is at `pos` -/
def positionOf (needle : Bytes) : Nat → Bytes → Option Nat
  | _, [] => none
  | pos, b :: rest =>
    if needle.isPrefixOf (b :: rest) then some pos else positionOf needle (pos + 1) rest

/-- where `needle` first stands within `[start, stop)`; an empty one stands nowhere -/
def findBytes (s : Script) (needle : Bytes) (start stop : Nat) : Option Nat :=
  let start := max start s.headerLength
  let stop := min stop s.length
  if needle.isEmpty || stop ≤ start then none
  else positionOf needle start ((s.stream.drop (start - s.headerLength)).take (stop - start))

/-! ## strings -/

def string (s : Script) (index : Nat) : Except Error Bytes :=
  match s.strings.get? index with
  | some text => .ok text
  | none => .error (.noSuchString index)

/-- the index that a command shows, if it is a textbox -/
def shownString? (c : Command) : Option Nat :=
  if c.kind = .textbox then some (c.args.headD 0).toNat else none

/-- the indices that textboxes name, ascending -/
def usedStrings (s : Script) : Except Error (List Nat) := do
  let shown := (← s.allCommands.toExcept).filterMap fun entry => shownString? entry.2
  return (List.range StringTable.limit).filter shown.contains

/-- where the command that names the string table stands, in the first function of the script -/
def findStringIndex? (s : Script) : Except Error (Option Nat) := do
  let start ← s.functionStart 0 0
  let stop ← s.functionEnd 0 0
  s.findCommand? [Opcode.stringIndex] start stop

/-- a script without objects names no string table -/
def stringTableAddress (s : Script) : Except Error (Option Nat) := do
  if s.objectCount = 0 then return none
  match ← s.findStringIndex? with
  | some pos => return some (Bytes.value ((← s.commandAt pos).args.take 3))
  | none => return none

/-! ## loading -/

/-- the script of the compressed block at `offset` -/
def load (image : Image) (offset : Nat) : Except Error Script := do
  let script ← parse (← Block.decompress image.data offset)
  match ← script.stringTableAddress with
  | none => return script
  | some addr =>
    let used ← script.usedStrings
    let table ← image.toOffset addr
    return { script with strings := ← StringTable.load image table used }

end Script

end Cartridge
