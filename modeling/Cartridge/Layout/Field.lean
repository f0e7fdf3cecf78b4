import Cartridge.Layout.Basic

/-!
# The fields of a layout

* `NumberField`   the fields that hold one number: `get` and `set`;
* `Field`         these and the free ranges; `Field.all` in the order of the record;
* `Field.name`    the key of a field in a layout text, and `Field.ofName?`.
-/

namespace Cartridge.Layout

inductive NumberField where
  | bankSize | romBase | locationTable | locationRecordSize | locationCount
  | eventIndexField | boundsField | eventPointerTable | eventPointerCount
  deriving DecidableEq, Repr

namespace NumberField

def get : NumberField → Layout → Nat
  | bankSize, l => l.bankSize
  | romBase, l => l.romBase
  | locationTable, l => l.locationTable
  | locationRecordSize, l => l.locationRecordSize
  | locationCount, l => l.locationCount
  | eventIndexField, l => l.eventIndexField
  | boundsField, l => l.boundsField
  | eventPointerTable, l => l.eventPointerTable
  | eventPointerCount, l => l.eventPointerCount

def set : NumberField → Nat → Layout → Layout
  | bankSize, n, l => { l with bankSize := n }
  | romBase, n, l => { l with romBase := n }
  | locationTable, n, l => { l with locationTable := n }
  | locationRecordSize, n, l => { l with locationRecordSize := n }
  | locationCount, n, l => { l with locationCount := n }
  | eventIndexField, n, l => { l with eventIndexField := n }
  | boundsField, n, l => { l with boundsField := n }
  | eventPointerTable, n, l => { l with eventPointerTable := n }
  | eventPointerCount, n, l => { l with eventPointerCount := n }

theorem get_set (f : NumberField) (n : Nat) (l : Layout) : f.get (f.set n l) = n := by
  cases f <;> rfl

theorem get_set_of_ne {f g : NumberField} (h : f ≠ g) (n : Nat) (l : Layout) :
    f.get (g.set n l) = f.get l := by
  cases f <;> cases g <;> simp_all [get, set]

def name : NumberField → String
  | bankSize => "bank_size"
  | romBase => "rom_base"
  | locationTable => "location_table"
  | locationRecordSize => "location_record_size"
  | locationCount => "location_count"
  | eventIndexField => "event_index_field"
  | boundsField => "bounds_field"
  | eventPointerTable => "event_pointer_table"
  | eventPointerCount => "event_pointer_count"

end NumberField

inductive Field where
  | number (f : NumberField)
  | freeRanges
  deriving DecidableEq, Repr

namespace Field

def all : List Field :=
  [.number .bankSize, .number .romBase, .number .locationTable, .number .locationRecordSize,
    .number .locationCount, .number .eventIndexField, .number .boundsField,
    .number .eventPointerTable, .number .eventPointerCount, .freeRanges]

theorem mem_all (f : Field) : f ∈ all := by
  cases f with
  | number f => cases f <;> decide
  | freeRanges => decide

def name : Field → String
  | number f => f.name
  | freeRanges => "free_ranges"

def ofName? (name : List Char) : Option Field := all.find? fun f => f.name.toList = name

end Field

end Cartridge.Layout
