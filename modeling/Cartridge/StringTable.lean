import Cartridge.Image

/-!
# String tables

The strings that a script shows.  In an image a table is a run of two-byte pointers, relative to the
bank, followed by the strings, each ended by a zero byte.  Only the strings that a script uses are
read, so the indices may have gaps until the first edit of the script numbers them afresh.

* `StringTable`             strings by index, ascending; whether they have been renumbered, whether
                            they differ from what is stored, and the range that holds them;
* `StringTable.load`        the strings at some indices of a stored table; the range is known when
                            it holds nothing but these strings, one behind the other;
* `StringTable.compact`     the strings renumbered `0, 1, 2, …`; `newIndex?` is the renumbering;
* `StringTable.add`, `StringTable.set`   a string behind the last one, and in place of one;
* `StringTable.serialize`   the stored form at an offset.
-/

namespace Cartridge

structure StringTable where
  entries : List (Nat × Bytes)
  compacted : Bool
  dirty : Bool
  extent : Option Range
  deriving DecidableEq, Repr

namespace StringTable

def empty : StringTable := ⟨[], false, false, none⟩

/-- a table holds at most so many strings -/
def limit : Nat := 0x100

def terminator : UInt8 := 0

def count (t : StringTable) : Nat := t.entries.length

def indices (t : StringTable) : List Nat := t.entries.map Prod.fst

def texts (t : StringTable) : List Bytes := t.entries.map Prod.snd

def get? (t : StringTable) (index : Nat) : Option Bytes := t.entries.lookup index

/-! ## reading -/

/-- the bytes from `start` to the first zero before `stop` and the end of the image -/
def readTerminated (image : Image) (start stop : Nat) : Except StringFault Bytes :=
  let stop := min stop image.size
  if stop < start then .error (.outsideBank start)
  else
    let bytes := (image.data.drop start).take (stop - start)
    if terminator ∈ bytes then .ok (bytes.takeWhile (· ≠ terminator))
    else .error (.unterminated start)

/-- reads the strings at `used`; `next` is where the next one starts as long as each starts where
the one before it ends -/
def loadEntries (image : Image) (table bank : Nat) :
    (used : List Nat) → (next : Option Nat) →
      Except StringFault (List (Nat × Bytes) × Option Nat)
  | [], next => .ok ([], next)
  | index :: used, next =>
    match image.data.read? (table + 2 * index) 2 with
    | none => .error (.pointerOutsideImage index (table + 2 * index))
    | some pointer => do
      let start := bank + pointer
      let text ← readTerminated image start (bank + image.layout.bankSize)
      let next := if next = some start then some (start + text.length + 1) else none
      let (entries, last) ← loadEntries image table bank used next
      return ((index, text) :: entries, last)

/-- `used` is ascending -/
def load (image : Image) (table : Nat) (used : List Nat) : Except Error StringTable :=
  match used.getLast? with
  | none => .ok empty
  | some last =>
    let bank := table - table % image.layout.bankSize
    match loadEntries image table bank used (some (table + 2 * (last + 1))) with
    | .error fault => .error (.strings fault)
    | .ok (entries, stop) =>
      let extent := match stop with
        | some stop => if used.length = last + 1 then some ⟨table, stop⟩ else none
        | none => none
      .ok ⟨entries, false, false, extent⟩

/-! ## renumbering -/

/-- the index that a string has once the gaps are closed -/
def newIndex? (t : StringTable) (index : Nat) : Option Nat := t.indices.findIdx? (· == index)

/-- whether the indices are `0, 1, 2, …` -/
def isDense (t : StringTable) : Bool := t.indices == List.range t.count

def compact (t : StringTable) : StringTable :=
  if t.compacted then t
  else { t with
    entries := t.texts.zipIdx.map fun (text, index) => (index, text)
    compacted := true
    dirty := t.dirty || !t.isDense }

/-! ## editing -/

def checkText (text : Bytes) : Except Error Unit :=
  if terminator ∈ text then .error (.argument .terminatorInString) else .ok ()

def set (t : StringTable) (index : Nat) (text : Bytes) : Except Error StringTable := do
  checkText text
  if (t.get? index).isNone then throw (.noSuchString index)
  return { t with
    entries := t.entries.map fun (i, old) => (i, if i = index then text else old)
    dirty := true }

/-- one more than the last index -/
def nextIndex (t : StringTable) : Nat :=
  match t.indices.getLast? with
  | some last => last + 1
  | none => 0

/-- the index of the new string, and the table with it -/
def add (t : StringTable) (text : Bytes) : Except Error (Nat × StringTable) := do
  checkText text
  let index := t.nextIndex
  if limit ≤ index then throw (.strings (.stringLimit limit))
  return (index, { t with entries := t.entries ++ [(index, text)], dirty := true })

/-! ## writing -/

/-- the size of the stored form: a pointer and a zero byte per string, and the strings -/
def blockLength (t : StringTable) : Nat :=
  2 * t.count + (t.texts.map fun text => text.length + 1).foldr (· + ·) 0

/-- the pointers of strings of which the first starts at `start` -/
def pointers (bankSize start : Nat) : List Bytes → Bytes
  | [] => []
  | text :: rest =>
    Bytes.field 2 (start % bankSize) ++ pointers bankSize (start + text.length + 1) rest

def terminated (text : Bytes) : Bytes := text ++ [terminator]

/-- pointers have 16 bits, so banks must not be larger than they can reach -/
def serialize (t : StringTable) (offset bankSize : Nat) : Except Error Bytes :=
  if !t.isDense then .error (.strings .sparseTable)
  else if 0x10000 < bankSize ∨ bankSize < offset % bankSize + t.blockLength then
    .error (.strings (.crossesBank t.blockLength offset))
  else
    .ok (pointers bankSize (offset + 2 * t.count) t.texts ++ t.texts.flatMap terminated)

/-- the strings are now stored in `extent` -/
def markStored (t : StringTable) (extent : Range) : StringTable :=
  { t with extent := some extent, dirty := false }

end StringTable

end Cartridge
