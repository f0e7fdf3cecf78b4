import Cartridge.Text.Hex

/-!
# Causes of failure

Every operation of the library that can fail says why by a value of one of these types; the
wording of the causes is here and nowhere else.

* `BlockFault`      a compressed block is not well formed;
* `FormatFault`     a command stream, a script or a table is not well formed;
* `ArgumentFault`   an operation was asked for something that cannot be;
* `StringFault`     a string table cannot be read or written;
* `AssemblyFault`   a source text cannot be assembled;
* `LayoutFault`     a layout text cannot be read;
* `Error`           any of these, and the failures of searches, edits and allocations.
-/

namespace Cartridge

open Text (address paddedAddress byteList numberList)

/-! ## blocks -/

inductive BlockFault where
  | truncatedHeader
  | bodyPastEnd
  | literalOverrun (pos : Nat)
  | referenceOverrun (pos : Nat)
  | distanceOutside (distance decoded : Nat)
  | missingControl
  | commandCount (count : Nat)
  | truncatedAddendum
  | addendumStalled
  | addendumPastEnd
  deriving DecidableEq, Repr

def BlockFault.message : BlockFault → String
  | truncatedHeader => "truncated header"
  | bodyPastEnd => "body runs past end of image"
  | literalOverrun pos => s!"literal at {address pos} overruns body"
  | referenceOverrun pos => s!"reference at {address pos} overruns body"
  | distanceOutside distance decoded =>
    s!"reference distance {distance} with {decoded} bytes decoded"
  | missingControl => "missing control byte"
  | commandCount count => s!"addendum command count {count}"
  | truncatedAddendum => "truncated addendum"
  | addendumStalled => "addendum end does not advance"
  | addendumPastEnd => "addendum runs past end of image"

/-! ## streams, scripts and tables -/

inductive FormatFault where
  | noCommand (pos : Nat)
  | truncatedCopy (pos : Nat)
  | copyLength (pos length : Nat)
  | truncatedEffect (pos : Nat)
  | runsPastStream (name : String) (pos : Nat)
  | emptyScript
  | shortTable (objects header actual : Nat)
  | pointerOutside (object function pointer low high : Nat)
  | pointersDecrease (start : Nat)
  | objectReversed (object stop start : Nat)
  | functionOutside (object function : Nat)
  | jumpBeforeStart (pos : Nat)
  | jumpPassesTarget (pos : Nat)
  | jumpLeavesObject (pos object : Nat)
  | oddHandle (name : String) (pos handle : Nat)
  | addressBelowBase (addr base : Nat)
  | eventPastTable (index : Nat)
  deriving DecidableEq, Repr

def FormatFault.message : FormatFault → String
  | noCommand pos => s!"no command at {address pos}"
  | truncatedCopy pos => s!"truncated MemCopy at {address pos}"
  | copyLength pos length => s!"MemCopy at {address pos} has length {length}"
  | truncatedEffect pos => s!"truncated DisplayEffect at {address pos}"
  | runsPastStream name pos => s!"{name} at {address pos} runs past the end of the stream"
  | emptyScript => "empty script"
  | shortTable objects header actual =>
    s!"{objects} objects need a {header} byte table, script has {actual} bytes"
  | pointerOutside object function pointer low high =>
    s!"object {object} function {function} points at {address pointer}, "
      ++ s!"outside [{address low}, {address high}]"
  | pointersDecrease start => s!"function pointers decrease after {address start}"
  | objectReversed object stop start =>
    s!"object {object} ends at {address stop} before it starts at {address start}"
  | functionOutside object function =>
    s!"object {object} function {function} lies outside the object"
  | jumpBeforeStart pos => s!"jump at {address pos} lands before the script"
  | jumpPassesTarget pos => s!"jump at {address pos} would pass over its target"
  | jumpLeavesObject pos object => s!"jump at {address pos} leaves object {object}"
  | oddHandle name pos handle => s!"{name} at {address pos} names odd object handle {paddedAddress 2 handle}"
  | addressBelowBase addr base =>
    s!"address {paddedAddress 6 addr} lies below ROM base {paddedAddress 6 base}"
  | eventPastTable index => s!"event index {address index} is past the pointer table"

/-! ## arguments -/

inductive ArgumentFault where
  | emptyRegion
  | tooWideForField (value : Nat)
  | bodyTooLong (data body : Nat)
  | addendumOffset (offset : Nat)
  | argumentsRefused (name : String) (given : Nat)
  | argumentCount (name : String) (takes given : Nat)
  | objectWithoutHandle (object : Nat)
  | functionTooWide (function : Nat)
  | priorityTooWide (priority : Nat)
  | notAnAddress (addr : Nat)
  | copyTooLarge (length dest : Nat)
  | terminatorInString
  | objectLimit (limit : Nat)
  | patchPastArguments (name : String) (arguments length offset : Nat)
  | patchResizes (name : String) (pos : Nat)
  deriving DecidableEq, Repr

def ArgumentFault.message : ArgumentFault → String
  | emptyRegion => "cannot allocate an empty region"
  | tooWideForField value => s!"{address value} does not fit in 24 bits"
  | bodyTooLong data body => s!"{data} bytes compress to a body of {body} bytes"
  | addendumOffset offset => s!"addendum offset {address offset} does not fit in 16 bits"
  | argumentsRefused name given => s!"{name} cannot take {given} argument bytes"
  | argumentCount name takes given => s!"{name} takes {takes} argument bytes, got {given}"
  | objectWithoutHandle object => s!"object {object} has no 8-bit handle"
  | functionTooWide function => s!"function {function} does not fit in 4 bits"
  | priorityTooWide priority => s!"priority {priority} does not fit in 3 bits"
  | notAnAddress addr => s!"{address addr} is not a 24-bit address"
  | copyTooLarge length dest => s!"cannot copy {length} bytes to {address dest}"
  | terminatorInString => "string contains the 0x00 terminator"
  | objectLimit limit => s!"a script holds at most {limit} objects"
  | patchPastArguments name arguments length offset =>
    s!"{name} has {arguments} argument bytes, cannot write {length} at {offset}"
  | patchResizes name pos => s!"patch would change the size of {name} at {address pos}"

/-! ## string tables -/

inductive StringFault where
  | pointerOutsideImage (index slot : Nat)
  | outsideBank (start : Nat)
  | unterminated (start : Nat)
  | stringLimit (limit : Nat)
  | sparseTable
  | crossesBank (total offset : Nat)
  deriving DecidableEq, Repr

def StringFault.message : StringFault → String
  | pointerOutsideImage index slot => s!"pointer {index} at {address slot} is outside the image"
  | outsideBank start => s!"string at {address start} lies outside its bank"
  | unterminated start => s!"string at {address start} is not terminated"
  | stringLimit limit => s!"a script holds at most {limit} strings"
  | sparseTable => "cannot write a sparse string table"
  | crossesBank total offset => s!"string block of {total} bytes at {address offset} crosses a bank"

/-! ## assembly -/

/-- what an operand stands for, as diagnostics name it -/
inductive OperandKind where
  | byte | object | function | priority | address
  deriving DecidableEq, Repr

def OperandKind.description : OperandKind → String
  | byte => "byte"
  | object => "object (0-127)"
  | function => "function (0-15)"
  | priority => "priority (0-7)"
  | address => "24-bit address"

inductive AssemblyFault where
  | unknownMnemonic (line : Nat) (mnemonic : String)
  | argumentCount (line : Nat) (mnemonic : String) (expected got : Nat)
  | notANumber (line : Nat) (token : String)
  | outOfRange (line : Nat) (token : String) (kind : OperandKind)
  | refused (line : Nat) (mnemonic : String) (cause : ArgumentFault)
  deriving DecidableEq, Repr

/-- arguments are at fault: the wording that every such message begins with -/
def ArgumentFault.report (fault : ArgumentFault) : String := "invalid argument: " ++ fault.message

def AssemblyFault.message : AssemblyFault → String
  | unknownMnemonic line mnemonic => s!"unknown opcode '{mnemonic}' on line {line}"
  | argumentCount line mnemonic expected got =>
    s!"wrong argument count for {mnemonic} on line {line}: expected {expected}, got {got}"
  | notANumber line token => s!"failed to parse integer '{token}' on line {line}"
  | outOfRange line token kind =>
    s!"value '{token}' on line {line} is out of range for {kind.description}"
  | refused line mnemonic cause => s!"invalid {mnemonic} on line {line}: {cause.report}"

/-! ## layout texts -/

/-- how a layout text fails: it stops early, it is no text of the format, or it holds other data -/
inductive LayoutFault where
  | endsEarly | malformed | wrongShape
  deriving DecidableEq, Repr

def LayoutFault.message : LayoutFault → String
  | endsEarly => "the text ends too early"
  | malformed => "the text is malformed"
  | wrongShape => "the text holds other data than a layout"

/-! ## all failures -/

inductive Error where
  | unreadable
  | layout (fault : LayoutFault)
  | block (offset : Nat) (fault : BlockFault)
  | format (fault : FormatFault)
  | argument (fault : ArgumentFault)
  | strings (fault : StringFault)
  | assembly (fault : AssemblyFault)
  | commandNotFound (opcodes : List UInt8) (start stop : Nat)
  | notOnBoundary (pos : Nat)
  | unknownLocation (location : Nat)
  | outOfSpace (size : Nat)
  | noSharedBank (sizes : List Nat)
  | scriptTooLarge (size : Nat)
  | jumpOutOfRange (pos distance : Nat)
  | invalidRange (start stop : Nat)
  | noSuchObject (object : Nat)
  | noSuchFunction (object function : Nat)
  | noSuchString (index : Nat)
  deriving DecidableEq, Repr

def Error.message : Error → String
  | unreadable => "a file cannot be read or written"
  | layout fault => s!"layout config error: {fault.message}"
  | block offset fault => s!"malformed compressed block at {address offset}: {fault.message}"
  | format fault => s!"malformed event script: {fault.message}"
  | argument fault => fault.report
  | strings fault => s!"string table error: {fault.message}"
  | assembly fault => fault.message
  | commandNotFound opcodes start stop =>
    s!"no command {byteList opcodes} between {address start} and {address stop}"
  | notOnBoundary pos => s!"offset {address pos} is not on an instruction boundary"
  | unknownLocation location => s!"location {address location} is outside the location table"
  | outOfSpace size => s!"no free region of {size} bytes"
  | noSharedBank sizes => s!"no single bank can hold regions of sizes {numberList sizes}"
  | scriptTooLarge size => s!"script grew to {size} bytes, past the 16-bit offset limit"
  | jumpOutOfRange pos distance =>
    s!"jump at {address pos} would need a distance of {distance} bytes"
  | invalidRange start stop => s!"invalid range [{address start}, {address stop})"
  | noSuchObject object => s!"object {object} does not exist"
  | noSuchFunction object function => s!"object {object} has no function {function}"
  | noSuchString index => s!"string {index} does not exist"

end Cartridge
