import Cartridge.Assembly
import Cartridge.Block.Encode
import Cartridge.Json.Print
import Cartridge.Layout.Codec
import Cartridge.Script.Listing
import Cartridge.Session.Basic

/-!
# Requests

What the command line can be asked for.  A request reads files and gives one effect; carrying the
effect out is left to the caller.

* `Request`            one constructor per subcommand;
* `Invocation`         a request and the file with the layout, if not the standard one;
* `Files`              what can be read; `Effect`   what is to be done;
* `Invocation.run`     the effect of an invocation: the layout is read before anything else.
-/

namespace Cartridge.CommandLine

inductive Request where
  | decompress (rom : String) (offset : Nat) (output : String)
  | compress (input output : String)
  | dumpScript (rom : String) (location : Nat)
  | assemble (input output : String)
  | freeSpace (rom : String)
  deriving DecidableEq, Repr

structure Invocation where
  layout : Option String
  request : Request
  deriving DecidableEq, Repr

inductive Effect where
  | print (text : String)
  | write (path : String) (bytes : Bytes)
  deriving DecidableEq, Repr

/-! ## files -/

/-- the contents of the files that can be read -/
abbrev Files := String → Option Bytes

def readFile (files : Files) (path : String) : Except Error Bytes :=
  match files path with
  | some bytes => .ok bytes
  | none => .error .unreadable

/-- the characters of a file, which must be UTF-8 -/
def readText (files : Files) (path : String) : Except Error (List Char) := do
  let bytes ← readFile files path
  match String.fromUTF8? ⟨bytes.toArray⟩ with
  | some text => return text.toList
  | none => throw .unreadable

def readLayout (files : Files) : Option String → Except Error Layout
  | none => .ok .standard
  | some path => do Layout.fromJson Layout.codec (← readText files path)

def readImage (files : Files) (layout : Layout) (path : String) : Except Error Image := do
  Image.ofBytes (← readFile files path) layout

/-! ## reports -/

def segmentText (s : Segment) : List Char :=
  Json.object 1 [Json.member "start" (Json.number s.start), Json.member "end" (Json.number s.stop),
    Json.member "free" (Json.boolean s.free)]

/-- the segments of a free map, as a JSON list -/
def segmentsText (m : FreeMap) : List Char := Json.list 0 (m.segments.map segmentText)

/-! ## requests -/

/-- the block is measured before it is expanded -/
def expandBlock (bytes : Bytes) (offset : Nat) : Except Error Bytes := do
  let _ ← Block.blockLength bytes offset
  Block.decompress bytes offset

def Request.run (files : Files) (layout : Layout) : Request → Except Error Effect
  | decompress rom offset output => do
    return .write output (← expandBlock (← readFile files rom) offset)
  | compress input output => do
    return .write output (← Block.compress (← readFile files input))
  | dumpScript rom location => do
    let image ← readImage files layout rom
    let (script, _) ← (Session.ofImage image).get location
    return .print ((← script.listing) ++ "\n")
  | assemble input output => do
    let source ← readText files input
    return .write output (← (Assembly.assembleBytes source).mapError .assembly)
  | freeSpace rom => do
    let image ← readImage files layout rom
    return .print (String.ofList (segmentsText image.space) ++ "\n")

/-- the file that a request reads -/
def Request.source : Request → String
  | decompress rom _ _ => rom
  | compress input _ => input
  | dumpScript rom _ => rom
  | assemble input _ => input
  | freeSpace rom => rom

namespace Invocation

/-- the files that an invocation reads -/
def sources (inv : Invocation) : List String := inv.layout.toList ++ [inv.request.source]

def run (inv : Invocation) (files : Files) : Except Error Effect := do
  inv.request.run files (← readLayout files inv.layout)

end Invocation

end Cartridge.CommandLine
