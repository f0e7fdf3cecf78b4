import Cartridge.Command.Basic

/-!
# Command streams

A stream is read command by command.  Reading never fails as a whole: it gives the commands up to
the first fault and the fault.

* `Reading`          commands with their positions, and the fault behind them, if any;
* `readCommands`     the commands that begin in a part of a stream;
* `Reading.find?`    the first command of a kind, unless the fault comes before it;
* `validate`         that a byte string is a run of whole commands.
-/

namespace Cartridge

structure Reading where
  commands : List (Nat × Command)
  fault : Option FormatFault
  deriving DecidableEq, Repr

/-- `rest` is the stream from `pos` on; only commands that begin before `stop` are read; those read
so far are in `done`, last first -/
def readFrom (pos stop : Nat) (rest : Bytes) (done : List (Nat × Command)) : Reading :=
  if pos < stop then
    match Command.decodeAt pos rest with
    | .error fault => ⟨done.reverse, some fault⟩
    | .ok c => readFrom (pos + c.length) stop (rest.drop c.length) ((pos, c) :: done)
  else ⟨done.reverse, none⟩
termination_by stop - pos
decreasing_by have := c.length_pos; omega

/-- the commands that begin in `[start, stop)`; `stop` is at most the length of the stream -/
def readCommands (stream : Bytes) (start stop : Nat) : Reading :=
  readFrom start stop (stream.drop start) []

def readAll (stream : Bytes) : Reading := readCommands stream 0 stream.length

namespace Reading

/-- the commands as they stand when the stream begins at `base` -/
def shift (base : Nat) (r : Reading) : Reading :=
  { r with commands := r.commands.map fun (pos, c) => (base + pos, c) }

/-- all commands, or the fault that ends them -/
def toExcept (r : Reading) : Except Error (List (Nat × Command)) :=
  match r.fault with
  | some fault => .error (.format fault)
  | none => .ok r.commands

def find? (r : Reading) (p : Command → Bool) : Except Error (Option (Nat × Command)) :=
  match r.commands.find? fun entry => p entry.2 with
  | some entry => .ok (some entry)
  | none =>
    match r.fault with
    | some fault => .error (.format fault)
    | none => .ok none

end Reading

def validate (code : Bytes) : Except Error Unit :=
  match (readAll code).fault with
  | some fault => .error (.format fault)
  | none => .ok ()

end Cartridge
