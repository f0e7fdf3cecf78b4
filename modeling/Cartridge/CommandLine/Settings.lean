import Cartridge.CommandLine.Number
import Cartridge.CommandLine.Request

/-!
# Subcommands and their options

* `Parameter`         an option that takes a value;
* `Settings`          the values given so far; `Settings.give` adds one;
* `Subcommand`        a subcommand; `Subcommand.parameters` are the options it needs, and
                      `Subcommand.request` makes the request once all are given;
* `UsageFault`        why arguments make no request.
-/

namespace Cartridge.CommandLine

inductive Parameter where
  | layout | rom | offset | input | output | location
  deriving DecidableEq, Repr

namespace Parameter

/-- the name without its two dashes -/
def name : Parameter → String
  | layout => "layout"
  | rom => "rom"
  | offset => "offset"
  | input => "input"
  | output => "output"
  | location => "location"

end Parameter

/-! ## faults -/

inductive UsageFault where
  | noArguments
  | noSubcommand
  | unknownSubcommand (name : String)
  | missing (p : Parameter)
  | unknownArgument (text : String)
  | noValue (p : Parameter)
  | badValue (p : Parameter) (cause : NumberFault)
  | repeated (p : Parameter)
  /-- a value for a flag -/
  | valueRefused (flag : String)
  /-- no faults of the arguments: they ask for help, or for the version -/
  | help | version
  deriving DecidableEq, Repr

def UsageFault.message : UsageFault → String
  | noArguments => "a subcommand is needed: decompress, compress, dump-script, assemble, free-space"
  | noSubcommand => "a subcommand is needed"
  | unknownSubcommand name => s!"unknown subcommand '{name}'"
  | missing p => s!"option --{p.name} is missing"
  | unknownArgument text => s!"unexpected argument '{text}'"
  | noValue p => s!"option --{p.name} needs a value"
  | badValue p cause => s!"option --{p.name}: {cause.message}"
  | repeated p => s!"option --{p.name} is given twice"
  | valueRefused flag => s!"flag --{flag} takes no value"
  | help =>
    "Event script and free space tooling for ROM images\n\n"
      ++ "decompress --rom FILE --offset N --output FILE\n"
      ++ "compress --input FILE --output FILE\n"
      ++ "dump-script --rom FILE --location N\n"
      ++ "assemble --input FILE --output FILE\n"
      ++ "free-space --rom FILE\n\n"
      ++ "--layout FILE overrides the standard layout"
  | version => "cartridge 0.1.0"

/-! ## settings -/

structure Settings where
  layout : Option String
  rom : Option String
  offset : Option Nat
  input : Option String
  output : Option String
  location : Option Nat
  deriving DecidableEq, Repr

namespace Settings

def empty : Settings := ⟨none, none, none, none, none, none⟩

def isGiven (s : Settings) : Parameter → Bool
  | .layout => s.layout.isSome
  | .rom => s.rom.isSome
  | .offset => s.offset.isSome
  | .input => s.input.isSome
  | .output => s.output.isSome
  | .location => s.location.isSome

/-- paths are not empty -/
def path (p : Parameter) (value : String) : Except UsageFault String :=
  if value.isEmpty then .error (.noValue p) else .ok value

/-- an option may be given once -/
def give (s : Settings) (p : Parameter) (value : String) : Except UsageFault Settings :=
  if s.isGiven p then .error (.repeated p)
  else match p with
    | .layout => return { s with layout := some (← path p value) }
    | .rom => return { s with rom := some (← path p value) }
    | .offset => return { s with offset := some (← (readNumber value).mapError (.badValue p)) }
    | .input => return { s with input := some (← path p value) }
    | .output => return { s with output := some (← path p value) }
    | .location =>
      return { s with location := some (← (readLocation value).mapError (.badValue p)) }

end Settings

/-! ## subcommands -/

inductive Subcommand where
  | decompress | compress | dumpScript | assemble | freeSpace
  deriving DecidableEq, Repr

namespace Subcommand

def all : List Subcommand := [decompress, compress, dumpScript, assemble, freeSpace]

def name : Subcommand → String
  | decompress => "decompress"
  | compress => "compress"
  | dumpScript => "dump-script"
  | assemble => "assemble"
  | freeSpace => "free-space"

def ofName? (name : String) : Option Subcommand := all.find? fun sub => sub.name == name

def parameters : Subcommand → List Parameter
  | decompress => [.rom, .offset, .output]
  | compress => [.input, .output]
  | dumpScript => [.rom, .location]
  | assemble => [.input, .output]
  | freeSpace => [.rom]

/-- the value of an option that must be given -/
def need {α : Type} (p : Parameter) : Option α → Except UsageFault α
  | some value => .ok value
  | none => .error (.missing p)

def request (s : Settings) : Subcommand → Except UsageFault Request
  | decompress =>
    return .decompress (← need .rom s.rom) (← need .offset s.offset) (← need .output s.output)
  | compress => return .compress (← need .input s.input) (← need .output s.output)
  | dumpScript => return .dumpScript (← need .rom s.rom) (← need .location s.location)
  | assemble => return .assemble (← need .input s.input) (← need .output s.output)
  | freeSpace => return .freeSpace (← need .rom s.rom)

end Subcommand

end Cartridge.CommandLine
