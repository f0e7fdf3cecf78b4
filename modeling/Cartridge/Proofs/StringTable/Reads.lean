import Cartridge.Proofs.StringTable.Stored
import Mathlib.Data.Finset.Card

/-!
# What is read for a string table

* `StringTable.ranges`       the bytes that are read for the strings of a table: their pointers, and
                             the strings with their zeros;
* `StringTable.loadEntries_cons`   the reading of one string;
* `StringTable.inside_of_load`   what is read lies inside the image;
* `StringTable.load_congr`   the table depends on these bytes only;
* `StringTable.mem_ranges_of_extent`, `StringTable.extent_inside`   a known range of the strings
                             holds no other bytes, and lies inside.
-/

namespace Cartridge

namespace StringTable

/-- where the string of an index starts, going by its pointer -/
def startOf (image : Image) (table index : Nat) : Nat :=
  bankStart image table + (image.data.read? (table + 2 * index) 2).getD 0

def ranges (image : Image) (table : Nat) (t : StringTable) : List Range :=
  t.entries.flatMap fun (index, text) =>
    [slotRange table index, textRange (startOf image table index) text]

theorem mem_ranges {image : Image} {table : Nat} {t : StringTable} {r : Range} :
    r ∈ ranges image table t ↔ ∃ index text, (index, text) ∈ t.entries ∧
      (r = slotRange table index ∨ r = textRange (startOf image table index) text) := by
  simp [ranges, List.mem_flatMap]

/-! ## reading the strings -/

section
variable {image image' : Image} {table : Nat} {used : List Nat} {next last : Option Nat}
  {entries : List (Nat × Bytes)}

/-- one string is read, and then the others -/
theorem loadEntries_cons {index : Nat}
    (h : loadEntries image table (bankStart image table) (index :: used) next =
      .ok (entries, last)) :
    ∃ text rest, StandsAt image table index (startOf image table index) text ∧
      loadEntries image table (bankStart image table) used
        (if next = some (startOf image table index) then
          some (startOf image table index + text.length + 1) else none) = .ok (rest, last) ∧
      entries = (index, text) :: rest := by
  rw [loadEntries] at h
  cases hread : image.data.read? (table + 2 * index) 2 with
  | none =>
    rw [hread] at h
    cases h
  | some pointer =>
    rw [hread] at h
    have hstart : startOf image table index = bankStart image table + pointer := by
      rw [startOf, hread]
      rfl
    obtain ⟨text, htext, h⟩ := bind_eq_ok.mp h
    obtain ⟨⟨rest, last'⟩, hrest, h⟩ := bind_eq_ok.mp h
    cases h
    rw [hstart]
    exact ⟨text, rest, ⟨⟨pointer, hread, rfl⟩, htext⟩, hrest, rfl⟩

/-- every string that is read stands in the image, and each index is read -/
theorem standsAt_of_loadEntries
    (h : loadEntries image table (bankStart image table) used next = .ok (entries, last)) :
    entries.map Prod.fst = used ∧ ∀ index text, (index, text) ∈ entries →
      StandsAt image table index (startOf image table index) text := by
  induction used generalizing next entries with
  | nil =>
    cases h
    exact ⟨rfl, fun index text hentry => by cases hentry⟩
  | cons index used ih =>
    obtain ⟨text, rest, hstands, hrest, rfl⟩ := loadEntries_cons h
    obtain ⟨hindices, hothers⟩ := ih hrest
    refine ⟨by rw [List.map_cons, hindices], ?_⟩
    intro i found hentry
    rcases List.mem_cons.mp hentry with heq | hentry
    · cases heq
      exact hstands
    · exact hothers i found hentry

theorem startOf_of_standsAt {index start : Nat} {text : Bytes}
    (h : StandsAt image table index start text) : startOf image table index = start := by
  obtain ⟨pointer, hread, rfl⟩ := h.pointer
  rw [startOf, hread]
  rfl

/-- the same strings are read wherever they stand in the same places -/
theorem loadEntries_congr
    (h : loadEntries image table (bankStart image table) used next = .ok (entries, last))
    (hstands : ∀ index text, (index, text) ∈ entries →
      StandsAt image' table index (startOf image table index) text) :
    loadEntries image' table (bankStart image' table) used next = .ok (entries, last) := by
  induction used generalizing next entries with
  | nil =>
    cases h
    rfl
  | cons index used ih =>
    obtain ⟨text, rest, _, hrest, rfl⟩ := loadEntries_cons h
    have hfirst := hstands index text (List.mem_cons_self ..)
    have hothers := ih hrest fun i found hentry => hstands i found (List.mem_cons_of_mem _ hentry)
    obtain ⟨pointer, hread, hstart⟩ := hfirst.pointer
    have htext := hfirst.text
    rw [← hstart] at htext hothers
    rw [loadEntries, hread]
    simp only [htext]
    show (loadEntries image' table (bankStart image' table) used _ >>= _) = _
    rw [hothers]
    rfl

/-! ## strings one behind the other -/

/-- once a string starts elsewhere, the end is not known any more -/
theorem loadEntries_none
    (h : loadEntries image table (bankStart image table) used none = .ok (entries, last)) :
    last = none := by
  induction used generalizing entries with
  | nil =>
    cases h
    rfl
  | cons index used ih =>
    obtain ⟨text, rest, _, hrest, rfl⟩ := loadEntries_cons h
    rw [if_neg (by simp)] at hrest
    exact ih hrest

theorem le_of_loadEntries {start stop : Nat}
    (h : loadEntries image table (bankStart image table) used (some start) =
      .ok (entries, some stop)) : start ≤ stop := by
  induction used generalizing start entries with
  | nil =>
    cases h
    exact Nat.le_refl _
  | cons index used ih =>
    obtain ⟨text, rest, _, hrest, rfl⟩ := loadEntries_cons h
    by_cases hnext : some start = some (startOf image table index)
    · rw [if_pos hnext] at hrest
      have hplace : start = startOf image table index := Option.some.inj hnext
      have hle := ih hrest
      omega
    · rw [if_neg hnext] at hrest
      cases loadEntries_none hrest

/-- strings with a known end fill the bytes in front of it -/
theorem mem_textRange_of_loadEntries {start stop x : Nat}
    (h : loadEntries image table (bankStart image table) used (some start) =
      .ok (entries, some stop)) (hstart : start ≤ x) (hstop : x < stop) :
    ∃ index text, (index, text) ∈ entries ∧ x ∈ textRange (startOf image table index) text := by
  induction used generalizing start entries with
  | nil =>
    cases h
    exact absurd hstop (Nat.not_lt_of_le hstart)
  | cons index used ih =>
    obtain ⟨text, rest, _, hrest, rfl⟩ := loadEntries_cons h
    by_cases hnext : some start = some (startOf image table index)
    · rw [if_pos hnext] at hrest
      have hplace : start = startOf image table index := Option.some.inj hnext
      by_cases hx : x < startOf image table index + text.length + 1
      · exact ⟨index, text, List.mem_cons_self .., hplace ▸ hstart, hx⟩
      · obtain ⟨i, found, hentry, hmem⟩ := ih hrest (Nat.le_of_not_lt hx)
        exact ⟨i, found, List.mem_cons_of_mem _ hentry, hmem⟩
    · rw [if_neg hnext] at hrest
      cases loadEntries_none hrest

end

/-! ## tables -/

theorem load_eq_ok {image : Image} {table : Nat} {used : List Nat} {t : StringTable}
    (h : load image table used = .ok t) :
    (used = [] ∧ t = empty) ∨ ∃ top entries last, used.getLast? = some top ∧
      loadEntries image table (bankStart image table) used (some (table + 2 * (top + 1))) =
        .ok (entries, last) ∧ t.entries = entries ∧
      ∀ r, t.extent = some r → used.length = top + 1 ∧ ∃ stop, last = some stop ∧
        r = ⟨table, stop⟩ := by
  unfold load at h
  cases hlast : used.getLast? with
  | none =>
    rw [hlast] at h
    cases h
    exact .inl ⟨List.getLast?_eq_none_iff.mp hlast, rfl⟩
  | some top =>
    rw [hlast] at h
    simp only at h
    cases hentries : loadEntries image table (table - table % image.layout.bankSize) used
        (some (table + 2 * (top + 1))) with
    | error fault =>
      rw [hentries] at h
      cases h
    | ok found =>
      obtain ⟨entries, last⟩ := found
      rw [hentries] at h
      cases h
      refine .inr ⟨top, entries, last, rfl, hentries, rfl, ?_⟩
      intro r hr
      cases last with
      | none => cases hr
      | some stop =>
        by_cases hcount : used.length = top + 1
        · simp only [if_pos hcount, Option.some.injEq] at hr
          exact ⟨hcount, stop, rfl, hr.symm⟩
        · simp only [if_neg hcount] at hr
          cases hr

section
variable {image image' : Image} {table : Nat} {used : List Nat} {t : StringTable}
  (h : load image table used = .ok t)
include h

theorem standsAt_of_load {index : Nat} {text : Bytes} (hentry : (index, text) ∈ t.entries) :
    StandsAt image table index (startOf image table index) text := by
  rcases load_eq_ok h with ⟨_, rfl⟩ | ⟨_, entries, _, _, hentries, hsame, _⟩
  · cases hentry
  · rw [hsame] at hentry
    exact (standsAt_of_loadEntries hentries).2 index text hentry

theorem inside_of_load : ∀ r ∈ ranges image table t, r.stop ≤ image.size := by
  intro r hr
  obtain ⟨index, text, hentry, hcase⟩ := mem_ranges.mp hr
  obtain ⟨hslot, htext⟩ := (standsAt_of_load h hentry).inside
  rcases hcase with rfl | rfl
  · exact hslot
  · exact htext

/-- **A table depends only on the bytes that are read for it.** -/
theorem load_congr (hlayout : image'.layout = image.layout)
    (hsame : ∀ r ∈ ranges image table t, ∀ x ∈ r, image.data[x]? = image'.data[x]?) :
    load image' table used = .ok t ∧ ranges image' table t = ranges image table t := by
  have hstands : ∀ index text, (index, text) ∈ t.entries →
      StandsAt image' table index (startOf image table index) text := by
    intro index text hentry
    exact (standsAt_of_load h hentry).congr hlayout
      (hsame _ (mem_ranges.mpr ⟨index, text, hentry, .inl rfl⟩))
      (hsame _ (mem_ranges.mpr ⟨index, text, hentry, .inr rfl⟩))
  constructor
  · rcases load_eq_ok h with ⟨rfl, rfl⟩ | ⟨top, entries, last, hlast, hentries, rfl, _⟩
    · rfl
    · have hbank : bankStart image' table = table - table % image.layout.bankSize := by
        rw [bankStart, hlayout]
      have hread := loadEntries_congr hentries hstands
      rw [← h]
      unfold load
      rw [hlast]
      simp only [hlayout, ← hbank, hread]
      rw [hbank, show table - table % image.layout.bankSize = bankStart image table from rfl,
        hentries]
  · unfold ranges
    refine List.flatMap_congr ?_
    rintro ⟨index, text⟩ hentry
    simp only [startOf_of_standsAt (hstands index text hentry)]

end

/-! ## the known range of a table -/

/-- the last of ascending indices is the largest -/
theorem le_of_ascending {used : List Nat} {top i : Nat} (hascend : used.Pairwise (· < ·))
    (hlast : used.getLast? = some top) (hi : i ∈ used) : i ≤ top := by
  obtain ⟨front, rfl⟩ := List.getLast?_eq_some_iff.mp hlast
  rcases List.mem_append.mp hi with hi | hi
  · exact Nat.le_of_lt ((List.pairwise_append.mp hascend).2.2 i hi top (List.mem_singleton_self _))
  · rw [List.mem_singleton.mp hi]

/-- as many ascending indices as the last one allows are all of them -/
theorem mem_of_ascending {used : List Nat} {top i : Nat} (hascend : used.Pairwise (· < ·))
    (hlast : used.getLast? = some top) (hlength : used.length = top + 1) (hi : i ≤ top) :
    i ∈ used := by
  have hnodup : used.Nodup := hascend.imp Nat.ne_of_lt
  have hsubset : used.toFinset ⊆ Finset.range (top + 1) := by
    intro j hj
    have hj := le_of_ascending hascend hlast (List.mem_toFinset.mp hj)
    exact Finset.mem_range.mpr (Nat.lt_succ_of_le hj)
  have hall : used.toFinset = Finset.range (top + 1) := by
    apply Finset.eq_of_subset_of_card_le hsubset
    rw [Finset.card_range, List.toFinset_card_of_nodup hnodup, hlength]
  rw [← List.mem_toFinset, hall, Finset.mem_range]
  exact Nat.lt_succ_of_le hi

/-- **A known range of the strings holds nothing but what is read for them.** -/
theorem mem_ranges_of_extent {image : Image} {table x : Nat} {used : List Nat} {t : StringTable}
    {r : Range} (h : load image table used = .ok t) (hascend : used.Pairwise (· < ·))
    (hextent : t.extent = some r) (hx : x ∈ r) : ∃ q ∈ ranges image table t, x ∈ q := by
  rcases load_eq_ok h with ⟨_, rfl⟩ | ⟨top, entries, last, hlast, hentries, rfl, hknown⟩
  · cases hextent
  · obtain ⟨hlength, stop, rfl, rfl⟩ := hknown r hextent
    have hlow : table ≤ x := hx.1
    by_cases hslots : x < table + 2 * (top + 1)
    · -- a pointer: all indices up to the last one are read
      have hindex : (x - table) / 2 ∈ used := mem_of_ascending hascend hlast hlength (by omega)
      rw [← (standsAt_of_loadEntries hentries).1] at hindex
      obtain ⟨⟨index, text⟩, hentry, heq⟩ := List.mem_map.mp hindex
      have hslot : x ∈ slotRange table index := by
        rw [← show (x - table) / 2 = index from heq.symm, Range.mem_iff]
        show table + 2 * ((x - table) / 2) ≤ x ∧ x < table + 2 * ((x - table) / 2) + 2
        omega
      exact ⟨_, mem_ranges.mpr ⟨index, text, hentry, .inl rfl⟩, hslot⟩
    · obtain ⟨index, text, hentry, hmem⟩ :=
        mem_textRange_of_loadEntries hentries (Nat.le_of_not_lt hslots) hx.2
      exact ⟨_, mem_ranges.mpr ⟨index, text, hentry, .inr rfl⟩, hmem⟩

theorem extent_inside {image : Image} {table : Nat} {used : List Nat} {t : StringTable}
    {r : Range} (h : load image table used = .ok t) (hascend : used.Pairwise (· < ·))
    (hextent : t.extent = some r) : r.start < r.stop ∧ r.stop ≤ image.size := by
  have hpos : r.start < r.stop := by
    rcases load_eq_ok h with ⟨_, rfl⟩ | ⟨top, entries, last, _, hentries, rfl, hknown⟩
    · cases hextent
    · obtain ⟨_, stop, rfl, rfl⟩ := hknown r hextent
      have hle := le_of_loadEntries hentries
      show table < stop
      omega
  have hlast : r.stop - 1 ∈ r := by
    rw [Range.mem_iff]
    omega
  obtain ⟨q, hq, hin⟩ := mem_ranges_of_extent h hascend hextent hlast
  have hinside := inside_of_load h q hq
  have hlt : r.stop - 1 < q.stop := hin.2
  exact ⟨hpos, by omega⟩

end StringTable

end Cartridge
