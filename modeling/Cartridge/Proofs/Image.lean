import Cartridge.Image
import Cartridge.Proofs.Bytes
import Cartridge.Proofs.Except
import Cartridge.Proofs.FreeMap.Search

/-!
# What the operations on an image change

* `WriteMode.over`           the class that a mode gives an offset, from the class that it had;
* `Image.exists_markWritten`, `Image.isFree_markWritten`   the mark that a write makes;
* `Image.write_eq_ok`        a write, with `Image.size_write_of_ne`, `Image.getElem?_write` and
                             `Image.isFree_write` on what it leaves;
* `Image.space_size_write_of_le`   a write inside the free map does not enlarge it;
* `Image.exists_write`       a write into the free map is not refused;
* `Image.setEventPointer_eq_ok`, `Image.setEventPointer_eq_error`   the outcomes of the last step
                             of a write-back;
* `Image.allocate_eq_ok`, `Image.free_eq_ok`   what happens to the free map;
* `Image.toAddress_mod`      the base up to which an address is a word of 64 bits;
* `Image.recordRanges`, `Image.pointerRange`   the bytes that a look-up reads, with
                             `Image.locationRecord_congr`, `Image.eventPointer_congr` and
                             `Image.eventPointer_setEventPointer`.
-/

namespace Cartridge

def WriteMode.over (mode : WriteMode) (old : Bool) : Bool :=
  match mode with
  | .used => false
  | .free => true
  | .keep => old

namespace Image

/-! ## marks -/

section
variable {space space' : FreeMap} {start stop : Nat} {mode : WriteMode}

/-- a range that begins inside the map is not refused -/
theorem exists_markWritten (mode : WriteMode) (hpos : start < stop) (hinside : start < space.size) :
    ∃ space', markWritten space start stop mode = .ok space' := by
  cases mode with
  | used => exact FreeMap.exists_mark false hpos hinside
  | free => exact FreeMap.exists_mark true hpos hinside
  | keep => exact ⟨space, rfl⟩

theorem size_of_markWritten (h : markWritten space start stop mode = .ok space') :
    space'.size = space.size ∧ space'.bankSize = space.bankSize := by
  cases mode with
  | used => exact FreeMap.size_of_mark h
  | free => exact FreeMap.size_of_mark h
  | keep =>
    cases h
    exact ⟨rfl, rfl⟩

theorem isFree_markWritten (h : markWritten space start stop mode = .ok space') (x : Nat) :
    space'.isFree x =
      if x ∈ Range.mk start stop ∧ x < space.size then mode.over (space.isFree x)
      else space.isFree x := by
  cases mode with
  | used => exact FreeMap.isFree_mark h x
  | free => exact FreeMap.isFree_mark h x
  | keep =>
    cases h
    exact (ite_self _).symm

end

/-! ## writing -/

theorem length_grown (data : Bytes) (size : Nat) :
    (grown data size).length = max data.length size := by
  rw [grown, List.length_append, List.length_replicate]
  omega

theorem le_length_grown (data : Bytes) (size : Nat) : size ≤ (grown data size).length := by
  rw [length_grown]
  exact Nat.le_max_right ..

theorem getElem?_grown {data : Bytes} {x : Nat} (h : x < data.length) (size : Nat) :
    (grown data size)[x]? = data[x]? := List.getElem?_append_left h

theorem getElem?_grown_gap {data : Bytes} {size x : Nat} (h : data.length ≤ x) (hx : x < size) :
    (grown data size)[x]? = some 0xFF := by
  rw [grown, List.getElem?_append_right h, List.getElem?_replicate, if_pos (by omega)]

/-- the free map once it reaches up to `stop` -/
def roomFor (image : Image) (stop : Nat) : FreeMap :=
  if image.size < stop then image.space.extend stop false else image.space

theorem isFree_roomFor (image : Image) (stop x : Nat) :
    (image.roomFor stop).isFree x = image.space.isFree x := by
  unfold roomFor
  by_cases h : image.size < stop
  · rw [if_pos h, FreeMap.isFree_extend, Bool.and_false]
    by_cases hx : x < image.space.size
    · rw [if_pos hx]
    · rw [if_neg hx, FreeMap.isFree_of_size_le _ x (Nat.le_of_not_lt hx)]
  · rw [if_neg h]

theorem size_le_roomFor (image : Image) (stop : Nat) :
    image.space.size ≤ (image.roomFor stop).size := by
  unfold roomFor
  by_cases h : image.size < stop
  · rw [if_pos h, FreeMap.extend]
    split
    · exact Nat.le_refl _
    · split
      · exact Nat.le_of_not_le ‹_›
      · exact Nat.le_of_not_le ‹_›
  · rw [if_neg h]

theorem roomFor_of_le {image : Image} {stop : Nat}
    (h : stop ≤ image.size ∨ stop ≤ image.space.size) : image.roomFor stop = image.space := by
  unfold roomFor
  by_cases hsize : image.size < stop
  · rw [if_pos hsize, FreeMap.extend, dif_pos (h.resolve_left (Nat.not_le_of_lt hsize))]
  · rw [if_neg hsize]

theorem write_eq_ok {image image' : Image} {offset : Nat} {bytes : Bytes} {mode : WriteMode}
    (hne : bytes ≠ []) :
    image.write offset bytes mode = .ok image' ↔ ∃ space,
      markWritten (image.roomFor (offset + bytes.length)) offset (offset + bytes.length) mode =
        .ok space ∧
      image' = { image with
        data := (grown image.data (offset + bytes.length)).overwrite offset bytes, space } := by
  have hnonempty : ¬ bytes.isEmpty = true := by
    rw [List.isEmpty_iff]
    exact hne
  unfold write roomFor
  rw [if_neg hnonempty]
  dsimp only
  cases markWritten (if image.size < offset + bytes.length then
      image.space.extend (offset + bytes.length) false else image.space) offset
      (offset + bytes.length) mode with
  | error e => simp
  | ok space => simp [eq_comm]

section
variable {image image' : Image} {offset : Nat} {bytes : Bytes} {mode : WriteMode}

/-- a write of nothing -/
theorem eq_of_write_nil (hnil : bytes = []) (h : image.write offset bytes mode = .ok image') :
    image' = image := by
  rw [write, hnil] at h
  exact (Except.ok.inj h).symm

theorem layout_write (h : image.write offset bytes mode = .ok image') :
    image'.layout = image.layout := by
  by_cases hne : bytes = []
  · rw [eq_of_write_nil hne h]
  · obtain ⟨space, _, rfl⟩ := (write_eq_ok hne).mp h
    rfl

theorem size_write_of_ne (hne : bytes ≠ []) (h : image.write offset bytes mode = .ok image') :
    image'.size = max image.size (offset + bytes.length) := by
  obtain ⟨space, _, rfl⟩ := (write_eq_ok hne).mp h
  show ((grown image.data (offset + bytes.length)).overwrite offset bytes).length = _
  rw [Bytes.length_overwrite (le_length_grown ..), length_grown]
  rfl

theorem size_write (h : image.write offset bytes mode = .ok image') : image.size ≤ image'.size := by
  by_cases hne : bytes = []
  · rw [eq_of_write_nil hne h]
  · rw [size_write_of_ne hne h]
    exact Nat.le_max_left ..

theorem space_size_write_of_ne (hne : bytes ≠ []) (h : image.write offset bytes mode = .ok image') :
    image'.space.size = (image.roomFor (offset + bytes.length)).size := by
  obtain ⟨space, hmark, rfl⟩ := (write_eq_ok hne).mp h
  exact (size_of_markWritten hmark).1

theorem space_size_write (h : image.write offset bytes mode = .ok image') :
    image.space.size ≤ image'.space.size := by
  by_cases hne : bytes = []
  · rw [eq_of_write_nil hne h]
  · rw [space_size_write_of_ne hne h]
    exact size_le_roomFor ..

/-- a write inside the image, or inside its free map, does not enlarge the map -/
theorem space_size_write_of_le (h : image.write offset bytes mode = .ok image')
    (hstop : offset + bytes.length ≤ image.size ∨ offset + bytes.length ≤ image.space.size) :
    image'.space.size = image.space.size := by
  by_cases hne : bytes = []
  · rw [eq_of_write_nil hne h]
  · rw [space_size_write_of_ne hne h, roomFor_of_le hstop]

theorem getElem?_write (hne : bytes ≠ []) (h : image.write offset bytes mode = .ok image')
    (x : Nat) :
    image'.data[x]? =
      if offset ≤ x ∧ x < offset + bytes.length then bytes[x - offset]?
      else (grown image.data (offset + bytes.length))[x]? := by
  obtain ⟨space, _, rfl⟩ := (write_eq_ok hne).mp h
  exact Bytes.getElem?_overwrite (le_length_grown ..) x

theorem getElem?_write_in (h : image.write offset bytes mode = .ok image') {i : Nat}
    (hi : i < bytes.length) : image'.data[offset + i]? = bytes[i]? := by
  have hne : bytes ≠ [] := List.ne_nil_of_length_pos (by omega)
  rw [getElem?_write hne h, if_pos (by omega), Nat.add_sub_cancel_left]

theorem getElem?_write_out (h : image.write offset bytes mode = .ok image') {x : Nat}
    (hx : x < image.size) (hout : x ∉ Range.mk offset (offset + bytes.length)) :
    image'.data[x]? = image.data[x]? := by
  by_cases hne : bytes = []
  · rw [eq_of_write_nil hne h]
  · have hout : ¬ (offset ≤ x ∧ x < offset + bytes.length) := hout
    rw [getElem?_write hne h, if_neg hout, getElem?_grown hx]

/-- what is written gets the class of the mode, and all other offsets keep theirs -/
theorem isFree_write (h : image.write offset bytes mode = .ok image') (x : Nat) :
    image'.space.isFree x =
      if x ∈ Range.mk offset (offset + bytes.length) ∧
          x < (image.roomFor (offset + bytes.length)).size then mode.over (image.space.isFree x)
      else image.space.isFree x := by
  by_cases hne : bytes = []
  · have hout : x ∉ Range.mk offset (offset + bytes.length) := by
      rw [Range.mem_iff, hne]
      show ¬ (offset ≤ x ∧ x < offset + 0)
      omega
    rw [eq_of_write_nil hne h, if_neg fun hin => hout hin.1]
  · obtain ⟨space, hmark, rfl⟩ := (write_eq_ok hne).mp h
    show space.isFree x = _
    rw [isFree_markWritten hmark, isFree_roomFor]

theorem isFree_write_used (h : image.write offset bytes .used = .ok image') (x : Nat) :
    image'.space.isFree x =
      (!decide (x ∈ Range.mk offset (offset + bytes.length)) && image.space.isFree x) := by
  rw [isFree_write h]
  by_cases hin : x ∈ Range.mk offset (offset + bytes.length)
  · rw [decide_eq_true hin]
    by_cases hsize : x < (image.roomFor (offset + bytes.length)).size
    · rw [if_pos ⟨hin, hsize⟩]
      rfl
    · rw [if_neg fun h => hsize h.2, ← isFree_roomFor image (offset + bytes.length),
        FreeMap.isFree_of_size_le _ x (Nat.le_of_not_lt hsize)]
      rfl
  · rw [if_neg fun h => hin h.1, decide_eq_false hin]
    rfl

/-- a write that keeps the classes changes no class, also where it enlarges the map -/
theorem isFree_write_keep (h : image.write offset bytes .keep = .ok image') (x : Nat) :
    image'.space.isFree x = image.space.isFree x := by
  rw [isFree_write h]
  exact ite_self _

/-- only a write that frees what it writes makes offsets free -/
theorem isFree_of_write (h : image.write offset bytes mode = .ok image') {x : Nat}
    (hfree : image'.space.isFree x = true) :
    image.space.isFree x = true ∨ mode = .free ∧ x ∈ Range.mk offset (offset + bytes.length) := by
  rw [isFree_write h] at hfree
  split at hfree
  · rename_i hin
    cases mode with
    | used => cases hfree
    | free => exact .inr ⟨rfl, hin.1⟩
    | keep => exact .inl hfree
  · exact .inl hfree

/-- a write that begins inside the map, once there is room, is not refused -/
theorem exists_write (bytes : Bytes) (mode : WriteMode)
    (h : offset < (image.roomFor (offset + bytes.length)).size) :
    ∃ image', image.write offset bytes mode = .ok image' := by
  by_cases hne : bytes = []
  · exact ⟨image, by rw [write, hne]; rfl⟩
  · have hpos : offset < offset + bytes.length :=
      Nat.lt_add_of_pos_right (List.length_pos_of_ne_nil hne)
    obtain ⟨space, hmark⟩ := exists_markWritten mode hpos h
    exact ⟨_, (write_eq_ok hne).mpr ⟨space, hmark, rfl⟩⟩

end

/-! ## the event pointer -/

theorem markWritten_keep (space : FreeMap) (start stop : Nat) :
    markWritten space start stop .keep = .ok space := rfl

/-- the write of the pointer keeps its class, so only the slot and the address can be refused -/
theorem setEventPointer_eq_error {image : Image} {index addr : Nat} {e : Error} :
    image.setEventPointer index addr = .error e ↔
      (image.layout.eventPointerCount ≤ index ∧ e = .format (.eventPastTable index)) ∨
      (index < image.layout.eventPointerCount ∧ 0xFFFFFF < addr ∧
        e = .argument (.tooWideForField addr)) := by
  unfold setEventPointer eventPointerSlot
  by_cases hindex : image.layout.eventPointerCount ≤ index
  · rw [if_pos hindex]
    show Except.error (.format (.eventPastTable index)) = Except.error e ↔ _
    simp [hindex, eq_comm]
  · have hlt : index < image.layout.eventPointerCount := Nat.lt_of_not_le hindex
    rw [if_neg hindex]
    show image.writeAddress (image.layout.eventPointerTable + 3 * index) addr .keep = _ ↔ _
    unfold writeAddress
    by_cases haddr : 0xFFFFFF < addr
    · rw [if_pos haddr]
      simp [hindex, hlt, haddr, eq_comm]
    · have hwrite : ∃ image',
          image.writeField (image.layout.eventPointerTable + 3 * index) 3 addr .keep =
            .ok image' := by
        have hne : Bytes.field 3 addr ≠ [] := by
          rw [Bytes.field_succ]
          exact List.cons_ne_nil _ _
        exact ⟨_, (write_eq_ok hne).mpr ⟨_, markWritten_keep .., rfl⟩⟩
      obtain ⟨image', hwrite⟩ := hwrite
      rw [if_neg haddr, hwrite]
      simp [hindex, haddr]

theorem setEventPointer_eq_ok {image image' : Image} {index addr : Nat}
    (h : image.setEventPointer index addr = .ok image') :
    index < image.layout.eventPointerCount ∧ addr ≤ 0xFFFFFF ∧
      image.write (image.layout.eventPointerTable + 3 * index) (Bytes.field 3 addr) .keep =
        .ok image' := by
  obtain ⟨slot, hslot, h⟩ := bind_eq_ok.mp h
  obtain ⟨hindex, hslot⟩ := unless_eq_ok.mp hslot
  obtain ⟨haddr, h⟩ := unless_eq_ok.mp h
  cases hslot
  exact ⟨Nat.lt_of_not_le hindex, Nat.le_of_not_lt haddr, h⟩

/-! ## regions -/

theorem free_eq_ok {image image' : Image} {r : Range} (h : image.free r = .ok image') :
    image'.data = image.data ∧ image'.layout = image.layout ∧
      image'.space.size = image.space.size ∧ image'.space.bankSize = image.space.bankSize ∧
      ∀ x, image'.space.isFree x =
        if x ∈ r ∧ x < image.space.size then true else image.space.isFree x := by
  obtain ⟨space, hspace, h⟩ := bind_eq_ok.mp h
  cases h
  obtain ⟨hsize, hbank⟩ := FreeMap.size_of_mark hspace
  exact ⟨rfl, rfl, hsize, hbank, FreeMap.isFree_mark hspace⟩

theorem allocate_eq_ok {image image' : Image} {size offset : Nat}
    (h : image.allocate size = .ok (offset, image')) :
    0 < size ∧ image.space.Offers size offset ∧
      image'.data = image.data ∧ image'.layout = image.layout ∧
      image'.space.size = image.space.size ∧ image'.space.bankSize = image.space.bankSize ∧
      ∀ x, image'.space.isFree x =
        if x ∈ Range.mk offset (offset + size) then false else image.space.isFree x := by
  obtain ⟨place, hplace, h⟩ := bind_eq_ok.mp h
  obtain ⟨space, hspace, h⟩ := bind_eq_ok.mp h
  cases h
  obtain ⟨hpos, hoffers⟩ := FreeMap.offers_of_findFree hplace
  obtain ⟨hsize, hbank⟩ := FreeMap.size_of_mark hspace
  refine ⟨hpos, hoffers, rfl, rfl, hsize, hbank, ?_⟩
  intro x
  show space.isFree x = _
  rw [FreeMap.isFree_mark hspace]
  by_cases hin : x ∈ Range.mk offset (offset + size)
  · have hinside : x < image.space.size := Nat.lt_of_lt_of_le hin.2 hoffers.inside
    rw [if_pos hin, if_pos ⟨hin, hinside⟩]
  · rw [if_neg hin, if_neg fun h => hin h.1]

/-! ## look-ups -/

theorem toOffset_toAddress (image : Image) (offset : Nat) :
    image.toOffset (image.toAddress offset) = .ok offset := by
  have hbase : ¬ image.toAddress offset < image.layout.romBase :=
    Nat.not_lt_of_le (Nat.le_add_left ..)
  rw [toOffset, if_neg hbase, toAddress, Nat.add_sub_cancel]

/-- a word of 64 bits that holds the addresses of the image keeps every bit of them, so the check for
24 bits sees those that are too many -/
theorem toAddress_mod {image : Image} {offset : Nat} (h : offset < image.size)
    (hbase : image.size + image.layout.romBase ≤ 2 ^ 64) :
    image.toAddress offset % 2 ^ 64 = image.toAddress offset := by
  apply Nat.mod_eq_of_lt
  unfold toAddress
  omega

/-- the two fields of a location record -/
def recordRanges (image : Image) (location : Nat) : List Range :=
  let base := image.layout.locationTable + location * image.layout.locationRecordSize
  [⟨base + image.layout.eventIndexField, base + image.layout.eventIndexField + 2⟩,
    ⟨base + image.layout.boundsField, base + image.layout.boundsField + 2⟩]

/-- the event pointer of an index -/
def pointerRange (image : Image) (index : Nat) : Range :=
  ⟨image.layout.eventPointerTable + 3 * index, image.layout.eventPointerTable + 3 * index + 3⟩

theorem pointerRange_disjoint (image : Image) {i j : Nat} (h : i ≠ j) :
    (image.pointerRange i).Disjoint (image.pointerRange j) := by
  rcases Nat.lt_or_gt_of_ne h with hlt | hgt
  · refine Range.disjoint_of_le (.inl ?_)
    show image.layout.eventPointerTable + 3 * i + 3 ≤ image.layout.eventPointerTable + 3 * j
    omega
  · refine Range.disjoint_of_le (.inr ?_)
    show image.layout.eventPointerTable + 3 * j + 3 ≤ image.layout.eventPointerTable + 3 * i
    omega

theorem inside_of_readField {image : Image} {offset width n : Nat}
    (h : image.readField offset width = .ok n) : offset + width ≤ image.size := by
  obtain ⟨bytes, hread, _⟩ := map_eq_ok.mp h
  unfold read at hread
  cases hslice : image.data.slice? offset width with
  | none =>
    rw [hslice] at hread
    cases hread
  | some found => exact (Bytes.slice?_eq_some.mp hslice).1

theorem readField_congr {image image' : Image} {offset width : Nat} (hwidth : 0 < width)
    (h : ∀ x ∈ Range.mk offset (offset + width), image.data[x]? = image'.data[x]?) :
    image.readField offset width = image'.readField offset width := by
  have hslice : image.data.slice? offset width = image'.data.slice? offset width :=
    Bytes.slice?_congr hwidth fun x hlow hhigh => h x ⟨hlow, hhigh⟩
  rw [readField, readField, read, read, hslice]

theorem inside_of_locationRecord {image : Image} {location : Nat} {record : LocationRecord}
    (h : image.locationRecord location = .ok record) :
    ∀ r ∈ image.recordRanges location, r.stop ≤ image.size := by
  obtain ⟨_, h⟩ := unless_eq_ok.mp h
  obtain ⟨index, hindex, h⟩ := bind_eq_ok.mp h
  obtain ⟨bounds, hbounds, _⟩ := bind_eq_ok.mp h
  intro r hr
  rw [recordRanges, List.mem_pair] at hr
  rcases hr with rfl | rfl
  · exact inside_of_readField hindex
  · exact inside_of_readField hbounds

theorem locationRecord_congr {image image' : Image} {location : Nat}
    (hlayout : image'.layout = image.layout)
    (h : ∀ r ∈ image.recordRanges location, ∀ x ∈ r, image.data[x]? = image'.data[x]?) :
    image'.locationRecord location = image.locationRecord location := by
  rw [recordRanges, List.forall_mem_cons, List.forall_mem_singleton] at h
  have hindex := readField_congr (by decide) h.1
  have hbounds := readField_congr (by decide) h.2
  unfold locationRecord
  simp only [hlayout, hindex, hbounds]

theorem inside_of_eventPointer {image : Image} {index addr : Nat}
    (h : image.eventPointer index = .ok addr) : (image.pointerRange index).stop ≤ image.size := by
  obtain ⟨slot, hslot, hread⟩ := bind_eq_ok.mp h
  obtain ⟨_, hslot⟩ := unless_eq_ok.mp hslot
  cases hslot
  exact inside_of_readField hread

theorem count_of_eventPointer {image : Image} {index addr : Nat}
    (h : image.eventPointer index = .ok addr) : index < image.layout.eventPointerCount := by
  obtain ⟨slot, hslot, _⟩ := bind_eq_ok.mp h
  exact Nat.lt_of_not_le (unless_eq_ok.mp hslot).1

theorem eventPointer_congr {image image' : Image} {index : Nat}
    (hlayout : image'.layout = image.layout)
    (h : ∀ x ∈ image.pointerRange index, image.data[x]? = image'.data[x]?) :
    image'.eventPointer index = image.eventPointer index := by
  have hfield := readField_congr (by decide) h
  unfold eventPointer eventPointerSlot
  rw [hlayout]
  by_cases hindex : image.layout.eventPointerCount ≤ index
  · rw [if_pos hindex]
    rfl
  · rw [if_neg hindex]
    exact hfield.symm

/-- an event pointer is written over nothing but its own bytes -/
theorem getElem?_setEventPointer {image image' : Image} {index addr x : Nat}
    (h : image.setEventPointer index addr = .ok image') (hx : x < image.size)
    (hout : x ∉ image.pointerRange index) : image'.data[x]? = image.data[x]? := by
  obtain ⟨_, _, hslot⟩ := setEventPointer_eq_ok h
  refine getElem?_write_out hslot hx ?_
  rw [Bytes.length_field]
  exact hout

/-- an event pointer that is set is read back -/
theorem eventPointer_setEventPointer {image image' : Image} {index addr : Nat}
    (h : image.setEventPointer index addr = .ok image') : image'.eventPointer index = .ok addr := by
  obtain ⟨hindex, haddr, hwrite⟩ := setEventPointer_eq_ok h
  have hlayout := layout_write hwrite
  have hholds : image'.data.Holds (image.layout.eventPointerTable + 3 * index)
      (Bytes.field 3 addr) := fun i hi => getElem?_write_in hwrite hi
  have hlength : (Bytes.field 3 addr).length = 3 := Bytes.length_field 3 addr
  have hslice := Bytes.slice?_of_holds hholds (by omega)
  rw [hlength] at hslice
  have hslot : image'.eventPointerSlot index =
      .ok (image.layout.eventPointerTable + 3 * index) := by
    rw [eventPointerSlot, hlayout, if_neg (Nat.not_le_of_lt hindex)]
  unfold eventPointer
  rw [hslot]
  show (image'.read _ 3).map Bytes.value = _
  rw [read, hslice]
  show Except.ok (Bytes.value (Bytes.field 3 addr)) = .ok addr
  rw [Bytes.value_field, Nat.mod_eq_of_lt (Nat.lt_succ_of_le haddr)]

end Image

end Cartridge
