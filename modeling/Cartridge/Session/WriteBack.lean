import Cartridge.Block.Encode
import Cartridge.Script.Edit
import Cartridge.Session.Basic
import Cartridge.Session.Ledger

/-!
# Writing scripts back

An edited script goes back into the image in two steps: first its blocks are placed, which is undone
when it fails, then they are written and the event pointer is set.

* `Staged`               a script with its blocks and their places;
* `Staged.reserve`       places the string block, if the strings were edited, and the compressed
                         script; the old blocks are free before the new ones are placed;
* `Staged.store`         writes the blocks and the pointer;
* `Session.writeBack`    writes back the script of a location, if it was edited;
* `Session.commit`       writes back all edited scripts, in the order of their event indices.
-/

namespace Cartridge

structure Staged where
  script : Script
  strings : Option Placement
  body : Placement
  deriving DecidableEq, Repr

namespace Staged

/-! ## places -/

/-- an old string block whose range is unknown stays where it is -/
def releaseStrings (table : StringTable) : Ledgered Unit :=
  match table.extent with
  | some old => Ledger.release old
  | none => fun ledger => (.ok (), ledger)

/-- the string block at an offset, and the script with the address of the block -/
def stringsAt (image : Image) (script : Script) (offset : Nat) :
    Except Error (Script × Placement) := do
  let bytes ← script.strings.serialize offset image.layout.bankSize
  let script ← script.setStringTableAddress (image.toAddress offset)
  return (script, ⟨offset, bytes⟩)

def reserveStrings (script : Script) : Ledgered (Script × Option Placement) := fun ledger =>
  if !script.strings.dirty then (.ok (script, none), ledger)
  else match releaseStrings script.strings ledger with
    | (.error e, ledger) => (.error e, ledger)
    | (.ok (), ledger) =>
      match Ledger.claim script.strings.blockLength ledger with
      | (.error e, ledger) => (.error e, ledger)
      | (.ok offset, ledger) =>
        ((stringsAt ledger.image script offset).map fun (script, p) => (script, some p), ledger)

/-- the compressed script; `old` is the range of the block that it replaces -/
def reserveBody (script : Script) (old : Range) : Ledgered Placement := fun ledger =>
  match Block.compress script.toBytes with
  | .error e => (.error e, ledger)
  | .ok bytes =>
    match Ledger.release old ledger with
    | (.error e, ledger) => (.error e, ledger)
    | (.ok (), ledger) =>
      match Ledger.claim bytes.length ledger with
      | (.error e, ledger) => (.error e, ledger)
      | (.ok offset, ledger) => (.ok ⟨offset, bytes⟩, ledger)

def reserve (script : Script) (old : Range) : Ledgered Staged := fun ledger =>
  match reserveStrings script ledger with
  | (.error e, ledger) => (.error e, ledger)
  | (.ok (script, strings), ledger) =>
    match reserveBody script old ledger with
    | (.error e, ledger) => (.error e, ledger)
    | (.ok body, ledger) => (.ok ⟨script, strings, body⟩, ledger)

/-! ## writing -/

/-- writes one block after the other; what is written when one fails stays -/
def writeAll (image : Image) : List Placement → Except Error Unit × Image
  | [] => (.ok (), image)
  | p :: rest =>
    match image.write p.offset p.bytes .used with
    | .error e => (.error e, image)
    | .ok image => writeAll image rest

/-- the string block comes first -/
def placements (staged : Staged) : List Placement := staged.strings.toList ++ [staged.body]

def store (staged : Staged) (index : Nat) (image : Image) : Except Error Unit × Image :=
  match writeAll image staged.placements with
  | (.error e, image) => (.error e, image)
  | (.ok (), image) =>
    match image.setEventPointer index (image.toAddress staged.body.offset) with
    | .error e => (.error e, image)
    | .ok image => (.ok (), image)

/-- the script as it is once it is stored -/
def stored (staged : Staged) : CachedScript :=
  let strings := match staged.strings with
    | some p => staged.script.strings.markStored p.range
    | none => staged.script.strings
  ⟨{ staged.script with strings, modified := false }, staged.body.range⟩

end Staged

/-! ## sessions -/

namespace Session

/-- writes back the script of an event, if it is loaded and was edited -/
def writeBackEvent (s : Session) (index : Nat) : Except Error Unit × Session :=
  match s.cache.get? index with
  | none => (.ok (), s)
  | some entry =>
    if !entry.script.modified then (.ok (), s)
    else match Staged.reserve entry.script entry.block (.ofImage s.image) with
      | (.error e, ledger) => (.error e, { s with image := ledger.undo })
      | (.ok staged, ledger) =>
        match staged.store index ledger.image with
        | (.error e, image) => (.error e, { s with image })
        | (.ok (), image) => (.ok (), ⟨image, s.cache.insert index staged.stored⟩)

def writeBack (s : Session) (location : Nat) : Except Error Unit × Session :=
  match s.eventIndex location with
  | .error e => (.error e, s)
  | .ok index => s.writeBackEvent index

/-- stops at the first script that cannot be written back -/
def writeBackEach (s : Session) : List Nat → Except Error Unit × Session
  | [] => (.ok (), s)
  | index :: rest =>
    match s.writeBackEvent index with
    | (.error e, s) => (.error e, s)
    | (.ok (), s) => writeBackEach s rest

/-- how many scripts were written back -/
def commit (s : Session) : Except Error Nat × Session :=
  match s.writeBackEach s.cache.modified with
  | (.error e, s) => (.error e, s)
  | (.ok (), s') => (.ok s.cache.modified.length, s')

end Session

end Cartridge
