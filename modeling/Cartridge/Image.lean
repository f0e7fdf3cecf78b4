import Cartridge.Bytes
import Cartridge.FreeMap.Search
import Cartridge.Layout.Basic

/-!
# Images

An image is the bytes of a cartridge with a free map of the same size and the layout that says what
is where.  An operation gives a new image or a cause, and leaves the image as it was when it fails,
with two exceptions.  The search for several regions marks as it goes, so it gives the image along
with the cause.  A write puts the bytes down before it marks them, and the mark is refused when the
free map has been replaced by one that ends in front of them: the bytes are changed then, although
only the cause is given here.

Sums of offsets, lengths and addresses are exact.  In words of 64 bits they are the same for what
lies in an image, which holds fewer than `2 ^ 63` bytes, as long as its addresses are below
`2 ^ 64`.

* `Image.ofBytes`      an image whose free map holds the free ranges of the layout;
* `Image.read`, `Image.readField`   bytes, and a little-endian number;
* `Image.write`        bytes over what is there; past the end the image grows, a gap is filled with
                       `0xFF`, and the growth counts as used before the written range is marked;
* `Image.allocate`, `Image.allocateSameBank`, `Image.free`   regions of the free map;
* `Image.locationRecord`, `Image.eventPointer`, `Image.setEventPointer`   the tables.
-/

namespace Cartridge

structure Image where
  data : Bytes
  space : FreeMap
  layout : Layout
  deriving DecidableEq, Repr

/-- the class that a write gives its range, if any -/
inductive WriteMode where
  | used | free | keep
  deriving DecidableEq, Repr

/-- an event index, and the rightmost and bottommost coordinates -/
structure LocationRecord where
  eventIndex : Nat
  right : Nat
  bottom : Nat
  deriving DecidableEq, Repr

namespace Image

def ofBytes (data : Bytes) (layout : Layout) : Except Error Image :=
  match (FreeMap.ofSize data.length layout.bankSize).markEach true layout.freeRanges with
  | (.ok (), space) => .ok ⟨data, space, layout⟩
  | (.error e, _) => .error e

def size (image : Image) : Nat := image.data.length

def isEmpty (image : Image) : Bool := image.data.isEmpty

/-! ## addresses -/

def toOffset (image : Image) (addr : Nat) : Except Error Nat :=
  if addr < image.layout.romBase then .error (.format (.addressBelowBase addr image.layout.romBase))
  else .ok (addr - image.layout.romBase)

/-- Any base is admitted.  With words of 64 bits the check that an address has 24 bits relies on
`image.size + romBase ≤ 2 ^ 64`. -/
def toAddress (image : Image) (offset : Nat) : Nat := offset + image.layout.romBase

/-! ## reading -/

def read (image : Image) (offset length : Nat) : Except Error Bytes :=
  match image.data.slice? offset length with
  | some bytes => .ok bytes
  | none => .error (.invalidRange offset (offset + length))

def readField (image : Image) (offset width : Nat) : Except Error Nat :=
  (image.read offset width).map Bytes.value

/-! ## writing -/

/-- the bytes with at least `size` of them, new ones `0xFF` -/
def grown (data : Bytes) (size : Nat) : Bytes :=
  data ++ List.replicate (size - data.length) 0xFF

def markWritten (space : FreeMap) (start stop : Nat) : WriteMode → Except Error FreeMap
  | .used => space.mark start stop false
  | .free => space.mark start stop true
  | .keep => .ok space

/-- A mark that is refused comes after the bytes have been put down; here its cause is all that is
left of such a write. -/
def write (image : Image) (offset : Nat) (bytes : Bytes) (mode : WriteMode) :
    Except Error Image :=
  if bytes.isEmpty then .ok image
  else
    let stop := offset + bytes.length
    let space := if image.size < stop then image.space.extend stop false else image.space
    match markWritten space offset stop mode with
    | .error e => .error e
    | .ok space => .ok { image with data := (grown image.data stop).overwrite offset bytes, space }

def writeField (image : Image) (offset width value : Nat) (mode : WriteMode) : Except Error Image :=
  image.write offset (Bytes.field width value) mode

/-- a number of 24 bits; a larger one is refused -/
def writeAddress (image : Image) (offset value : Nat) (mode : WriteMode) : Except Error Image :=
  if 0xFFFFFF < value then .error (.argument (.tooWideForField value))
  else image.writeField offset 3 value mode

/-! ## regions -/

def allocate (image : Image) (size : Nat) : Except Error (Nat × Image) := do
  let offset ← image.space.findFree size 0
  let space ← image.space.markUsed ⟨offset, offset + size⟩
  return (offset, { image with space })

/-- one region per size, all in one bank -/
def allocateSameBank (image : Image) (sizes : List Nat) : Except Error (List Nat) × Image :=
  match image.space.findFreeSameBank sizes with
  | (.error e, space) => (.error e, { image with space })
  | (.ok offsets, space) =>
    match space.markEach false ((offsets.zip sizes).map fun (start, n) => ⟨start, start + n⟩) with
    | (.error e, space) => (.error e, { image with space })
    | (.ok (), space) => (.ok offsets, { image with space })

def free (image : Image) (r : Range) : Except Error Image := do
  return { image with space := ← image.space.markFree r }

def markUsed (image : Image) (r : Range) : Except Error Image := do
  return { image with space := ← image.space.markUsed r }

/-! ## tables -/

def locationRecord (image : Image) (location : Nat) : Except Error LocationRecord :=
  if image.layout.locationCount ≤ location then .error (.unknownLocation location)
  else do
    let base := image.layout.locationTable + location * image.layout.locationRecordSize
    let eventIndex ← image.readField (base + image.layout.eventIndexField) 2
    let bounds ← image.readField (base + image.layout.boundsField) 2
    return ⟨eventIndex, bounds % 256, bounds / 256⟩

/-- where the pointer to an event stands -/
def eventPointerSlot (image : Image) (index : Nat) : Except Error Nat :=
  if image.layout.eventPointerCount ≤ index then .error (.format (.eventPastTable index))
  else .ok (image.layout.eventPointerTable + 3 * index)

/-- the address of the compressed script of an event -/
def eventPointer (image : Image) (index : Nat) : Except Error Nat := do
  image.readField (← image.eventPointerSlot index) 3

def setEventPointer (image : Image) (index addr : Nat) : Except Error Image := do
  image.writeAddress (← image.eventPointerSlot index) addr .keep

end Image

end Cartridge
