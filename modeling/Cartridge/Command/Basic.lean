import Cartridge.Error
import Cartridge.Command.Opcode

/-!
# Commands

A command is an opcode and its argument bytes.  Its size follows from the opcode, for two opcodes
from the first arguments too.

* `Command`          any opcode with any arguments;
* `Command.sizeAt`   the size of the command that a stream begins with; its position is for
                     diagnostics;
* `Command.decodeAt` that command;
* `Command.make`     a command whose arguments are as many as its size asks for;
* `Command.call`, `Command.copy`, …   commands by what they do;
* `Command.text`     the line of a listing.
-/

namespace Cartridge

structure Command where
  opcode : UInt8
  args : Bytes
  deriving DecidableEq, Repr

namespace Command

def info (c : Command) : Opcode.Info := Opcode.info c.opcode

def kind (c : Command) : ArgKind := c.info.kind

def length (c : Command) : Nat := c.args.length + 1

def bytes (c : Command) : Bytes := c.opcode :: c.args

theorem length_bytes (c : Command) : c.bytes.length = c.length := rfl

theorem length_pos (c : Command) : 0 < c.length := Nat.succ_pos _

/-! ## sizes -/

/-- the size of a display effect in each of its sixteen modes -/
def effectSize (mode : Nat) : Nat :=
  if mode < 2 then 2 else if mode < 4 then 4 else if mode < 8 then 6 else 3

/-- the size that the opcode and its first arguments announce -/
def announcedSize (pos : Nat) (opcode : UInt8) (args : Bytes) : Except FormatFault Nat :=
  match (Opcode.info opcode).kind with
  | .memCopy =>
    match args with
    | _ :: _ :: _ :: lo :: hi :: _ =>
      let n := Bytes.value [lo, hi]
      if n < 2 then .error (.copyLength pos n) else .ok (4 + n)
    | _ => .error (.truncatedCopy pos)
  | .displayEffect =>
    match args with
    | mode :: _ => .ok (effectSize (mode.toNat / 16))
    | [] => .error (.truncatedEffect pos)
  | _ => .ok (Opcode.info opcode).size

/-- `stream` begins with the command -/
def sizeAt (pos : Nat) (stream : Bytes) : Except FormatFault Nat :=
  match stream with
  | [] => .error (.noCommand pos)
  | opcode :: args =>
    match announcedSize pos opcode args with
    | .error fault => .error fault
    | .ok size =>
      if (stream.take size).length < size then
        .error (.runsPastStream (Opcode.info opcode).name pos)
      else .ok size

def decodeAt (pos : Nat) (stream : Bytes) : Except FormatFault Command :=
  match stream with
  | [] => .error (.noCommand pos)
  | opcode :: args =>
    match sizeAt pos stream with
    | .error fault => .error fault
    | .ok size => .ok ⟨opcode, args.take (size - 1)⟩

/-! ## construction -/

def make (opcode : UInt8) (args : Bytes) : Except ArgumentFault Command :=
  match sizeAt 0 (opcode :: args) with
  | .error _ => .error (.argumentsRefused (Opcode.info opcode).name args.length)
  | .ok size =>
    if size = args.length + 1 then .ok ⟨opcode, args⟩
    else .error (.argumentCount (Opcode.info opcode).name (size - 1) args.length)

def ret : Command := ⟨Opcode.ret, []⟩

def finish : Command := ⟨Opcode.finish, []⟩

def pause : Command := ⟨Opcode.pause, []⟩

def jumpForward (distance : UInt8) : Command := ⟨Opcode.jumpForward, [distance]⟩

def jumpBack (distance : UInt8) : Command := ⟨Opcode.jumpBack, [distance]⟩

def textbox (index : UInt8) : Command := ⟨Opcode.textbox, [index]⟩

/-- handles are even bytes, so only 128 objects have one -/
def handle (object : Nat) : Except ArgumentFault UInt8 :=
  if object < 0x80 then .ok (UInt8.ofNat (2 * object)) else .error (.objectWithoutHandle object)

/-- how long a call waits: not at all, until the function starts, or until it returns -/
inductive CallMode where
  | queue | untilStart | untilReturn
  deriving DecidableEq, Repr

def CallMode.opcode : CallMode → UInt8
  | .queue => Opcode.call
  | .untilStart => Opcode.callSync
  | .untilReturn => Opcode.callHalt

def call (object function priority : Nat) (mode : CallMode) : Except ArgumentFault Command := do
  let h ← handle object
  if 16 ≤ function then throw (.functionTooWide function)
  if 8 ≤ priority then throw (.priorityTooWide priority)
  return ⟨mode.opcode, [h, UInt8.ofNat (16 * priority + function)]⟩

def setVisible (object : Nat) (visible : Bool) : Except ArgumentFault Command := do
  let h ← handle object
  return ⟨if visible then Opcode.showObject else Opcode.hideObject, [h]⟩

def removeObject (object : Nat) : Except ArgumentFault Command := do
  let h ← handle object
  return ⟨Opcode.removeObject, [h]⟩

/-- the largest 24-bit address -/
def maxAddress : Nat := 0xFFFFFF

def stringIndex (addr : Nat) : Except ArgumentFault Command :=
  if maxAddress < addr then .error (.notAnAddress addr)
  else .ok ⟨Opcode.stringIndex, Bytes.field 3 addr⟩

/-- the length field counts itself -/
def copy (dest : Nat) (data : Bytes) : Except ArgumentFault Command :=
  if maxAddress < dest ∨ 0xFFFF < data.length + 2 then .error (.copyTooLarge data.length dest)
  else .ok ⟨Opcode.memCopy, Bytes.field 3 dest ++ Bytes.field 2 (data.length + 2) ++ data⟩

/-! ## listing -/

/-- the mnemonic, or `Op` and the number of an opcode without one -/
def mnemonic (c : Command) : String :=
  if c.info.name = Opcode.unknown.name then "Op" ++ Text.upperHex 2 c.opcode.toNat else c.info.name

def text (c : Command) : String :=
  c.mnemonic ++ String.join (c.args.map fun b => " " ++ Text.upperHex 2 b.toNat)

end Command

end Cartridge
