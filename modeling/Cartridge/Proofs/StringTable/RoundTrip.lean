import Cartridge.Proofs.StringTable.Edit
import Cartridge.Proofs.StringTable.Reads

/-!
# Blocks of strings

A table with a known range is one block: the pointers of all its strings, and the strings one behind
the other.  This is the stored form, and the stored form is always such a block, so what is loaded
can be written again byte for byte, and what is written loads again.

* `StringTable.InRow`        strings that stand one behind the other;
* `StringTable.loadEntries_of_row`, `StringTable.row_of_loadEntries`   the end of the strings is known
                             just when they do;
* `StringTable.InRow.holds`  the bytes of such strings and of their pointers;
* `StringTable.load_of_row`, `StringTable.row_of_load`   tables with a known range;
* `StringTable.serialize_round_trip`   **writing and loading undo each other.**
-/

namespace Cartridge

namespace StringTable

/-- the strings of the entries stand one behind the other in `[start, stop)`, and the pointers of
their indices lead to them -/
inductive InRow (image : Image) (table : Nat) : Nat → List (Nat × Bytes) → Nat → Prop
  | nil (stop : Nat) : InRow image table stop [] stop
  | cons {start stop index : Nat} {text : Bytes} {entries : List (Nat × Bytes)}
    (hfirst : StandsAt image table index start text)
    (hrest : InRow image table (start + text.length + 1) entries stop) :
    InRow image table start ((index, text) :: entries) stop

section
variable {image : Image} {table start stop : Nat} {entries : List (Nat × Bytes)}

/-! ## reading a row -/

theorem loadEntries_of_row (h : InRow image table start entries stop) :
    loadEntries image table (bankStart image table) (entries.map Prod.fst) (some start) =
      .ok (entries, some stop) := by
  induction h with
  | nil stop => rfl
  | @cons start stop index text entries hfirst _ ih =>
    obtain ⟨pointer, hread, rfl⟩ := hfirst.pointer
    rw [List.map_cons, loadEntries, hread]
    simp only [hfirst.text]
    show (loadEntries image table (bankStart image table) _ _ >>= _) = _
    rw [if_pos trivial, ih]
    rfl

/-- the end of the strings is known just when they stand in a row -/
theorem row_of_loadEntries {used : List Nat}
    (h : loadEntries image table (bankStart image table) used (some start) =
      .ok (entries, some stop)) : InRow image table start entries stop := by
  induction used generalizing start entries with
  | nil =>
    cases h
    exact .nil stop
  | cons index used ih =>
    obtain ⟨text, rest, hstands, hrest, rfl⟩ := loadEntries_cons h
    by_cases hnext : some start = some (startOf image table index)
    · rw [if_pos hnext] at hrest
      obtain rfl : start = startOf image table index := Option.some.inj hnext
      exact .cons hstands (ih hrest)
    · rw [if_neg hnext] at hrest
      cases loadEntries_none hrest

/-! ## the bytes of a row -/

/-- the bytes of a field are those of its number -/
theorem holds_of_read? {data : Bytes} {pos width n : Nat} (h : data.read? pos width = some n) :
    data.Holds pos (Bytes.field width n) := by
  obtain ⟨bytes, hslice, rfl⟩ := Option.map_eq_some_iff.mp h
  obtain ⟨hinside, rfl⟩ := Bytes.slice?_eq_some.mp hslice
  have hlength : ((data.drop pos).take width).length = width := by
    rw [List.length_take, List.length_drop]
    omega
  have hfield := Bytes.field_value ((data.drop pos).take width)
  rw [hlength] at hfield
  rw [hfield]
  intro i hi
  rw [hlength] at hi
  rw [List.getElem?_take_of_lt hi, List.getElem?_drop]

/-- the pointer of a string is its start, counted from the start of its bank -/
theorem StandsAt.pointer_eq {index : Nat} {text : Bytes}
    (h : StandsAt image table index start text) :
    image.data.read? (table + 2 * index) 2 = some (start % image.layout.bankSize) := by
  obtain ⟨pointer, hread, hstart⟩ := h.pointer
  obtain ⟨_, _, hstop⟩ := readTerminated_eq_ok.mp h.text
  have hbank : image.layout.bankSize ∣ bankStart image table := Nat.dvd_sub_mod table
  rw [hread, ← hstart, Nat.add_mod, Nat.mod_eq_zero_of_dvd hbank, Nat.zero_add, Nat.mod_mod,
    Nat.mod_eq_of_lt]
  omega

theorem InRow.stop_eq (h : InRow image table start entries stop) :
    stop = start + ((entries.map Prod.snd).flatMap terminated).length := by
  induction h with
  | nil stop => rfl
  | cons _ _ ih =>
    rw [ih, List.map_cons, List.flatMap_cons, List.length_append, length_terminated,
      Nat.add_assoc, Nat.add_assoc, Nat.add_assoc]

/-- strings stand in the bank of their table -/
theorem InRow.stop_le (h : InRow image table start entries stop) (hne : entries ≠ []) :
    stop ≤ bankStart image table + image.layout.bankSize := by
  induction h with
  | nil stop => exact absurd rfl hne
  | @cons start stop index text entries hfirst hrest ih =>
    obtain ⟨_, _, hstop⟩ := readTerminated_eq_ok.mp hfirst.text
    cases hrest with
    | nil => exact hstop
    | cons hnext hrest => exact ih (by simp)

/-- a row with the indices from `first` on: the strings, and their pointers -/
theorem InRow.holds (h : InRow image table start entries stop) {first : Nat}
    (hindices : entries.map Prod.fst = List.range' first entries.length) :
    image.data.Holds (table + 2 * first)
        (pointers image.layout.bankSize start (entries.map Prod.snd)) ∧
      image.data.Holds start ((entries.map Prod.snd).flatMap terminated) := by
  induction h generalizing first with
  | nil stop => simp [Bytes.Holds, pointers]
  | @cons start stop index text entries hfirst hrest ih =>
    rw [List.map_cons, List.length_cons, List.range'_succ] at hindices
    obtain ⟨rfl, hothers⟩ := List.cons.inj hindices
    obtain ⟨hpointers, htexts⟩ := ih hothers
    obtain ⟨_, htext, _⟩ := readTerminated_eq_ok.mp hfirst.text
    rw [List.map_cons, pointers, List.flatMap_cons, Bytes.holds_append, Bytes.holds_append,
      Bytes.length_field, length_terminated]
    exact ⟨⟨holds_of_read? hfirst.pointer_eq, hpointers⟩, htext, htexts⟩

/-- strings that stand where a layout of them puts them are in a row -/
theorem row_of_textStart (h : ∀ i index text, entries[i]? = some (index, text) →
    StandsAt image table index (textStart start (entries.map Prod.snd) i) text) :
    InRow image table start entries
      (start + ((entries.map Prod.snd).flatMap terminated).length) := by
  induction entries generalizing start with
  | nil => exact .nil start
  | cons entry entries ih =>
    obtain ⟨index, text⟩ := entry
    have hfirst := h 0 index text rfl
    rw [List.map_cons, textStart_zero] at hfirst
    have hrest : InRow image table (start + text.length + 1) entries _ :=
      ih fun i index' text' hi => h (i + 1) index' text' hi
    rw [List.map_cons, List.flatMap_cons, List.length_append, length_terminated, ← Nat.add_assoc,
      ← Nat.add_assoc]
    exact .cons hfirst hrest

end

/-! ## tables with a known range -/

section
variable {image : Image} {table stop count : Nat} {entries : List (Nat × Bytes)}

/-- a row behind the pointers of all its strings is loaded with its range -/
theorem load_of_row (hpos : 0 < count) (hindices : entries.map Prod.fst = List.range count)
    (hrow : InRow image table (table + 2 * count) entries stop) :
    load image table (List.range count) = .ok ⟨entries, false, false, some ⟨table, stop⟩⟩ := by
  have hlast : (List.range count).getLast? = some (count - 1) := by
    rw [List.getLast?_range, if_neg (Nat.ne_of_gt hpos)]
  have hcount : count - 1 + 1 = count := Nat.sub_add_cancel hpos
  have hentries := loadEntries_of_row hrow
  rw [hindices] at hentries
  unfold load
  simp only [hlast, hcount, List.length_range, if_true]
  rw [show table - table % image.layout.bankSize = bankStart image table from rfl, hentries]

/-- a table with a known range has all indices up to its last one, and its strings are in a row -/
theorem row_of_load {used : List Nat} {t : StringTable} {r : Range}
    (h : load image table used = .ok t) (hascend : used.Pairwise (· < ·))
    (hextent : t.extent = some r) :
    r.start = table ∧ 0 < t.count ∧ t.indices = List.range t.count ∧
      InRow image table (table + 2 * t.count) t.entries r.stop := by
  rcases load_eq_ok h with ⟨_, rfl⟩ | ⟨top, entries, last, hlast, hentries, rfl, hknown⟩
  · cases hextent
  · obtain ⟨hlength, stop, rfl, rfl⟩ := hknown r hextent
    -- ascending and as many as the last one says, so none is missing
    have hall : used = List.range (top + 1) := by
      have : Std.Irrefl fun a b : Nat => a < b := ⟨Nat.lt_irrefl⟩
      have : Std.Antisymm fun a b : Nat => a < b :=
        ⟨fun a b hab hba => (Nat.lt_asymm hab hba).elim⟩
      refine List.Pairwise.eq_of_mem_iff hascend List.pairwise_lt_range fun i => ?_
      rw [List.mem_range, Nat.lt_succ_iff]
      exact ⟨le_of_ascending hascend hlast, mem_of_ascending hascend hlast hlength⟩
    have hindices : t.indices = used := (standsAt_of_loadEntries hentries).1
    have hcount : t.count = top + 1 := by
      rw [count, ← List.length_map (f := Prod.fst), ← hlength, ← hindices]
      rfl
    rw [hcount]
    exact ⟨rfl, Nat.succ_pos top, hindices.trans hall, row_of_loadEntries hentries⟩

end

/-! ## writing and loading -/

/-- **Writing and loading undo each other.**  The stored form of a table, in any image that holds it,
loads as the strings of the table, with the range of the stored form; and a table that is loaded with
a known range has the bytes of that range as its stored form. -/
theorem serialize_round_trip :
    (∀ (t : StringTable) (image : Image) (offset : Nat) (block : Bytes), 1 ≤ t.count →
      (∀ text ∈ t.texts, terminator ∉ text) →
      t.serialize offset image.layout.bankSize = .ok block →
      block.length = t.blockLength ∧
      (image.data.Holds offset block → load image offset (List.range t.count) =
        .ok ⟨t.entries, false, false, some ⟨offset, offset + block.length⟩⟩)) ∧
    (∀ (image : Image) (table : Nat) (used : List Nat) (t : StringTable) (r : Range),
      image.layout.bankSize ≤ 0x10000 → used.Pairwise (· < ·) → load image table used = .ok t →
      t.extent = some r → r.start = table ∧
      ∃ block, t.serialize table image.layout.bankSize = .ok block ∧
        image.data.slice? table (r.stop - table) = some block) := by
  constructor
  · intro t image offset block hpos hclean hserialize
    have hlength := length_of_serialize hserialize
    refine ⟨hlength, fun hholds => ?_⟩
    have hindices := isDense_iff.mp (serialize_eq_ok.mp hserialize).1
    have hstands : ∀ i index text, t.entries[i]? = some (index, text) →
        StandsAt image offset index (textStart (offset + 2 * t.count) t.texts i) text := by
      intro i index text hi
      have hindex : t.indices[i]? = some index := by rw [indices, List.getElem?_map, hi]; rfl
      have htext : t.texts[i]? = some text := by rw [texts, List.getElem?_map, hi]; rfl
      rw [hindices] at hindex
      obtain ⟨_, rfl⟩ := List.getElem?_eq_some_iff.mp hindex
      rw [List.getElem_range]
      exact standsAt_of_serialize hserialize hholds htext (hclean text (List.mem_of_getElem? htext))
    have hload := load_of_row hpos hindices (row_of_textStart hstands)
    rw [hload, hlength, blockLength_eq, ← Nat.add_assoc]
    rfl
  · intro image table used t r hreach hascend hload hextent
    obtain ⟨rfl, hpos, hindices, hrow⟩ := row_of_load hload hascend hextent
    have hne : t.entries ≠ [] := List.ne_nil_of_length_pos hpos
    have hbank := hrow.stop_le hne
    have hstop : r.stop = r.start + t.blockLength := by
      rw [hrow.stop_eq, blockLength_eq, Nat.add_assoc]
      rfl
    have hroom : r.start % image.layout.bankSize + t.blockLength ≤ image.layout.bankSize := by
      have hmod := Nat.mod_le r.start image.layout.bankSize
      rw [bankStart] at hbank
      omega
    have hserialize := serialize_eq_ok.mpr ⟨isDense_iff.mpr hindices, hreach, hroom, rfl⟩
    have hlength := length_of_serialize hserialize
    have hfirst : t.entries.map Prod.fst = List.range' 0 t.entries.length :=
      hindices.trans List.range_eq_range'
    have hholds := hrow.holds hfirst
    refine ⟨rfl, _, hserialize, ?_⟩
    rw [hstop, Nat.add_sub_cancel_left, ← hlength]
    refine Bytes.slice?_of_holds (Bytes.holds_append.mpr ⟨hholds.1, ?_⟩) ?_
    · rw [length_pointers, length_texts]
      exact hholds.2
    · rw [hlength, blockLength_eq]
      omega

/-- two strings, the second of them empty, in a block that ends with its bank -/
theorem serialize_round_trip_bank_end :
    let t : StringTable := ⟨[(0, [0x48, 0x49]), (1, [])], true, true, none⟩
    let block : Bytes := [12, 0, 15, 0, 0x48, 0x49, 0, 0]
    let image : Image := ⟨List.replicate 24 0xFF ++ block ++ [1], FreeMap.ofSize 33 16,
      { Layout.standard with bankSize := 16 }⟩
    let loaded : StringTable := ⟨t.entries, false, false, some ⟨24, 32⟩⟩
    t.serialize 24 16 = .ok block ∧ image.data.Holds 24 block ∧
      load image 24 [0, 1] = .ok loaded ∧
      ∃ bytes, loaded.serialize 24 16 = .ok bytes ∧ image.data.slice? 24 8 = some bytes := by
  intro t block image loaded
  have hserialize : t.serialize 24 16 = .ok block := toOption_eq_some.mp (by decide +kernel)
  have hholds : image.data.Holds 24 block := by unfold Bytes.Holds; decide +kernel
  obtain ⟨_, hload⟩ := serialize_round_trip.1 t image 24 block (by decide) (by decide) hserialize
  have hagain := serialize_round_trip.2 image 24 [0, 1] loaded ⟨24, 32⟩ (by decide) (by decide)
    (hload hholds) rfl
  exact ⟨hserialize, hholds, hload hholds, hagain.2⟩

end StringTable

end Cartridge
