import Cartridge.Image

/-!
# Ledgers

While new blocks are being placed, the image's free map changes and every change is entered in a
ledger, so that a failure can be undone.

* `Ledger`           the image, and the ranges freed and reserved so far;
* `Ledgered`         a computation on a ledger that may fail; the ledger outlives the failure;
* `Ledger.release`   frees a range;
* `Ledger.claim`     reserves a region;
* `Ledger.undo`      the image with the reserved ranges free and the freed ones used again.
-/

namespace Cartridge

structure Ledger where
  image : Image
  /-- in the order in which they were freed -/
  freed : List Range
  /-- in the order in which they were reserved -/
  reserved : List Range
  deriving DecidableEq, Repr

/-- blocks of bytes and where they go -/
structure Placement where
  offset : Nat
  bytes : Bytes
  deriving DecidableEq, Repr

def Placement.range (p : Placement) : Range := ⟨p.offset, p.offset + p.bytes.length⟩

abbrev Ledgered (α : Type) := Ledger → Except Error α × Ledger

namespace Ledger

def ofImage (image : Image) : Ledger := ⟨image, [], []⟩

/-- a range is entered before it is freed -/
def release (r : Range) : Ledgered Unit := fun ledger =>
  let ledger := { ledger with freed := ledger.freed ++ [r] }
  match ledger.image.free r with
  | .error e => (.error e, ledger)
  | .ok image => (.ok (), { ledger with image })

/-- a region is entered once it is found -/
def claim (size : Nat) : Ledgered Nat := fun ledger =>
  match ledger.image.allocate size with
  | .error e => (.error e, ledger)
  | .ok (offset, image) =>
    (.ok offset, ⟨image, ledger.freed, ledger.reserved ++ [⟨offset, offset + size⟩]⟩)

/-- stops at the first range that is refused -/
def undo (ledger : Ledger) : Image :=
  match ledger.image.space.markEach true ledger.reserved with
  | (.error _, space) => { ledger.image with space }
  | (.ok (), space) => { ledger.image with space := (space.markEach false ledger.freed).2 }

end Ledger

end Cartridge
