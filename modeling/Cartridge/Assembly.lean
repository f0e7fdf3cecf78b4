import Cartridge.Command.Basic
import Cartridge.Text.Words

/-!
# Assembly of source texts

A source text has one command per line: a mnemonic in any case and its operands, with blanks
between; commas may follow an operand.  Blank lines and lines that begin with `#` or `//` say
nothing.  Most operands are the argument bytes as they are; some mnemonics take what their
arguments stand for instead.

* `number`, `operand`   a number, and a number within the bounds of what it stands for;
* `Form`                the mnemonics with operands of their own, and `Form.ofMnemonic?`;
* `assembleLine`        the command of a line, or nothing;
* `assemble`            the commands of a text, or the fault of its first faulty line;
* `assembleBytes`       their bytes.
-/

namespace Cartridge

/-- the largest operand of a kind -/
def OperandKind.limit : OperandKind → Nat
  | .byte => 0xFF
  | .object => 0x7F
  | .function => 0x0F
  | .priority => 0x07
  | .address => 0xFFFFFF

namespace Assembly

/-! ## operands -/

def withoutCommas (token : List Char) : List Char :=
  (token.reverse.dropWhile (· == ',')).reverse

/-- the largest number that an operand may spell, whatever it stands for -/
def maxNumber : Nat := 0xFFFFFFFF

def number (line : Nat) (token : List Char) : Except AssemblyFault Nat :=
  let digits := withoutCommas token
  match Text.readNumber maxNumber digits with
  | .ok n => .ok n
  | .error _ => .error (.notANumber line (String.ofList digits))

def operand (line : Nat) (kind : OperandKind) (token : List Char) : Except AssemblyFault Nat := do
  let n ← number line token
  if kind.limit < n then throw (.outOfRange line (String.ofList token) kind)
  return n

def byteOperand (line : Nat) (token : List Char) : Except AssemblyFault UInt8 :=
  (operand line .byte token).map UInt8.ofNat

/-! ## forms -/

inductive Form where
  /-- object, function and priority -/
  | call (mode : Command.CallMode)
  /-- object -/
  | visibility (visible : Bool)
  /-- object -/
  | removal
  /-- address -/
  | stringIndex
  /-- address and data bytes -/
  | copy
  deriving DecidableEq, Repr

def Form.ofMnemonic? (mnemonic : List Char) : Option Form :=
  match String.ofList (mnemonic.map Char.toUpper) with
  | "CALLOBJFUNC" => some (.call .queue)
  | "CALLOBJFUNCSYNC" => some (.call .untilStart)
  | "CALLOBJFUNCHALT" => some (.call .untilReturn)
  | "SHOWOBJECT" => some (.visibility true)
  | "HIDEOBJECT" => some (.visibility false)
  | "REMOVEOBJECT" => some .removal
  | "STRINGINDEX" => some .stringIndex
  | "MEMCOPY" => some .copy
  | _ => none

/-! ## lines -/

section
variable (line : Nat) (mnemonic : List Char)

/-- wrong number of operands -/
def miscounted (expected got : Nat) : AssemblyFault :=
  .argumentCount line (String.ofList mnemonic) expected got

/-- a command that cannot be built is the fault of the line -/
def built (command : Except ArgumentFault Command) : Except AssemblyFault Command :=
  command.mapError (.refused line (String.ofList mnemonic))

/-- the command of a mnemonic with operands of its own -/
def formCommand (form : Form) (args : List (List Char)) : Except AssemblyFault Command :=
  match form, args with
  | .call mode, [object, function, priority] => do
    let object ← operand line .object object
    let function ← operand line .function function
    let priority ← operand line .priority priority
    built line mnemonic (Command.call object function priority mode)
  | .call _, _ => .error (miscounted line mnemonic 3 args.length)
  | .visibility visible, [object] => do
    let object ← operand line .object object
    built line mnemonic (Command.setVisible object visible)
  | .removal, [object] => do
    let object ← operand line .object object
    built line mnemonic (Command.removeObject object)
  | .stringIndex, [addr] => do
    let addr ← operand line .address addr
    built line mnemonic (Command.stringIndex addr)
  | .copy, dest :: data => do
    let dest ← operand line .address dest
    let data ← data.mapM (byteOperand line)
    built line mnemonic (Command.copy dest data)
  | _, _ => .error (miscounted line mnemonic 1 args.length)

/-- the command of any other mnemonic: its operands are its argument bytes -/
def plainCommand (args : List (List Char)) : Except AssemblyFault Command :=
  match Opcode.ofMnemonic? mnemonic with
  | none => .error (.unknownMnemonic line (String.ofList mnemonic))
  | some opcode => do
    let bytes ← args.mapM (byteOperand line)
    -- the table's size stands in where the arguments are too few to announce one
    let size := (Command.sizeAt 0 (opcode :: bytes)).toOption.getD (Opcode.info opcode).size
    if args.length ≠ size - 1 then throw (miscounted line mnemonic (size - 1) args.length)
    built line mnemonic (Command.make opcode bytes)

end

def isComment (word : List Char) : Bool :=
  ['#'].isPrefixOf word || ['/', '/'].isPrefixOf word

def assembleLine (line : Nat) (text : List Char) : Except AssemblyFault (Option Command) :=
  match Text.words text with
  | [] => .ok none
  | mnemonic :: args =>
    if isComment mnemonic then .ok none
    else match Form.ofMnemonic? mnemonic with
      | some form => (formCommand line mnemonic form args).map some
      | none => (plainCommand line mnemonic args).map some

/-! ## texts -/

/-- the commands of numbered lines -/
def assembleLines (lines : List (List Char × Nat)) : Except AssemblyFault (List Command) := do
  let commands ← lines.mapM fun (text, line) => assembleLine line text
  return commands.filterMap id

/-- lines are numbered from one -/
def assemble (source : List Char) : Except AssemblyFault (List Command) :=
  assembleLines ((Text.lines source).zipIdx 1)

def assembleBytes (source : List Char) : Except AssemblyFault Bytes :=
  (assemble source).map fun commands => commands.flatMap Command.bytes

end Assembly

end Cartridge
