import Cartridge.Proofs.Bytes
import Cartridge.Proofs.Except
import Cartridge.Proofs.FreeMap.Classes
import Cartridge.StringTable

/-!
# Stored string tables

* `StringTable.StandsAt`       the string of an index stands in an image: its pointer, and its bytes
                               up to the zero, `slotRange` and `textRange`;
* `StringTable.StandsAt.congr` it stands as long as these bytes do;
* `StringTable.load_of_standsAt`   strings that stand in an image are loaded;
* `StringTable.serialize_eq_ok`, `StringTable.length_of_serialize`   the stored form;
* `StringTable.standsAt_of_serialize`   where the stored form is, its strings stand;
* `StringTable.get?_eq`      a string and its index, which is its place if the table is dense.
-/

namespace Cartridge

namespace StringTable

/-! ## one string -/

theorem length_terminated (text : Bytes) : (terminated text).length = text.length + 1 := by
  rw [terminated, List.length_append, List.length_singleton]

/-- the bytes in front of the first zero, and the zero -/
theorem split_at_terminator {bytes : Bytes} (h : terminator ∈ bytes) :
    terminator ∉ bytes.takeWhile (· ≠ terminator) ∧
      ∃ rest, bytes = terminated (bytes.takeWhile (· ≠ terminator)) ++ rest := by
  induction bytes with
  | nil => cases h
  | cons b bytes ih =>
    by_cases hb : b = terminator
    · rw [List.takeWhile_cons_of_neg (by simpa using hb)]
      exact ⟨List.not_mem_nil, bytes, by rw [hb]; rfl⟩
    · rw [List.takeWhile_cons_of_pos (by simpa using hb)]
      obtain ⟨hclean, rest, hrest⟩ := ih ((List.mem_cons.mp h).resolve_left fun heq => hb heq.symm)
      refine ⟨?_, rest, ?_⟩
      · intro hmem
        rcases List.mem_cons.mp hmem with heq | hmem
        · exact hb heq.symm
        · exact hclean hmem
      · conv => lhs; rw [hrest]
        rfl

/-- a string that is held is found in front of the bytes up to an offset behind it -/
theorem take_of_holds {data text : Bytes} {start n : Nat} (h : data.Holds start (terminated text))
    (hn : text.length < n) : ∃ rest, (data.drop start).take n = terminated text ++ rest := by
  have hpos : 0 < (terminated text).length := by
    rw [length_terminated]
    exact Nat.succ_pos _
  rw [Bytes.drop_of_holds h hpos, List.take_append, List.take_of_length_le]
  · exact ⟨_, rfl⟩
  · rw [length_terminated]
    exact hn

/-- the string up to the first zero, if that lies before `stop` -/
theorem readTerminated_eq_ok {image : Image} {start stop : Nat} {text : Bytes} :
    readTerminated image start stop = .ok text ↔
      terminator ∉ text ∧ image.data.Holds start (terminated text) ∧
      start + text.length < stop := by
  have hdrop : ∀ i n, i < n → ((image.data.drop start).take n)[i]? = image.data[start + i]? := by
    intro i n hi
    rw [List.getElem?_take_of_lt hi, List.getElem?_drop]
  unfold readTerminated
  constructor
  · intro h
    obtain ⟨hstart, h⟩ := unless_eq_ok.mp h
    simp only at h
    by_cases hzero : terminator ∈ (image.data.drop start).take (min stop image.size - start)
    · rw [if_pos hzero] at h
      obtain ⟨hclean, rest, hrest⟩ := split_at_terminator hzero
      rw [Except.ok.inj h] at hclean hrest
      have hlength : (terminated text ++ rest).length ≤ min stop image.size - start := by
        rw [← hrest]
        exact List.length_take_le ..
      rw [List.length_append, length_terminated] at hlength
      refine ⟨hclean, ?_, by omega⟩
      intro i hi
      rw [length_terminated] at hi
      rw [← hdrop i _ (by omega : i < min stop image.size - start), hrest]
      exact List.getElem?_append_left (by rw [length_terminated]; omega)
    · rw [if_neg hzero] at h
      cases h
  · rintro ⟨hclean, hholds, hstop⟩
    have hsize := Bytes.length_of_holds hholds (by rw [length_terminated]; exact Nat.succ_pos _)
    rw [length_terminated] at hsize
    have hsize : start + (text.length + 1) ≤ image.size := hsize
    have hin : ¬ min stop image.size < start := by omega
    obtain ⟨rest, hbytes⟩ :=
      take_of_holds hholds (by omega : text.length < min stop image.size - start)
    have hall : ∀ b ∈ text, decide (b ≠ terminator) = true := by
      intro b hb
      rw [decide_eq_true_eq]
      rintro rfl
      exact hclean hb
    rw [if_neg hin, hbytes, if_pos (by simp [terminated])]
    rw [terminated, List.append_assoc, List.takeWhile_append_of_pos hall, List.singleton_append,
      List.takeWhile_cons_of_neg (by simp), List.append_nil]

/-! ## strings that stand in an image -/

/-- the bytes of a pointer -/
def slotRange (table index : Nat) : Range := ⟨table + 2 * index, table + 2 * index + 2⟩

/-- the bytes of a string with its terminator -/
def textRange (start : Nat) (text : Bytes) : Range := ⟨start, start + text.length + 1⟩

/-- the start of the bank of an offset -/
def bankStart (image : Image) (offset : Nat) : Nat := offset - offset % image.layout.bankSize

/-- the pointer of an index leads to `start`, and there `text` stands -/
structure StandsAt (image : Image) (table index start : Nat) (text : Bytes) : Prop where
  pointer : ∃ pointer, image.data.read? (table + 2 * index) 2 = some pointer ∧
    bankStart image table + pointer = start
  text : readTerminated image start (bankStart image table + image.layout.bankSize) = .ok text

theorem StandsAt.inside {image : Image} {table index start : Nat} {text : Bytes}
    (h : StandsAt image table index start text) :
    (slotRange table index).stop ≤ image.size ∧ (textRange start text).stop ≤ image.size := by
  obtain ⟨pointer, hread, _⟩ := h.pointer
  obtain ⟨bytes, hslice, _⟩ := Option.map_eq_some_iff.mp hread
  obtain ⟨_, hholds, _⟩ := readTerminated_eq_ok.mp h.text
  have hlength := length_terminated text
  have hinside := Bytes.length_of_holds hholds (by omega)
  rw [hlength] at hinside
  exact ⟨(Bytes.slice?_eq_some.mp hslice).1, hinside⟩

theorem StandsAt.congr {image image' : Image} {table index start : Nat} {text : Bytes}
    (h : StandsAt image table index start text) (hlayout : image'.layout = image.layout)
    (hslot : ∀ x ∈ slotRange table index, image.data[x]? = image'.data[x]?)
    (htext : ∀ x ∈ textRange start text, image.data[x]? = image'.data[x]?) :
    StandsAt image' table index start text := by
  have hbank : bankStart image' table = bankStart image table := by
    rw [bankStart, bankStart, hlayout]
  constructor
  · obtain ⟨pointer, hpointer, hstart⟩ := h.pointer
    refine ⟨pointer, ?_, by rw [hbank, hstart]⟩
    rw [← hpointer, Bytes.read?, Bytes.read?]
    congr 1
    exact (Bytes.slice?_congr (by decide) fun x hx hlt => hslot x ⟨hx, hlt⟩).symm
  · obtain ⟨hclean, hholds, hstop⟩ := readTerminated_eq_ok.mp h.text
    rw [hbank, hlayout, readTerminated_eq_ok]
    refine ⟨hclean, hholds.congr fun x hx hlt => htext x ⟨hx, ?_⟩, hstop⟩
    rw [length_terminated] at hlt
    exact hlt

/-! ## loading -/

theorem lookup_map_mk {α : Type} (f : Nat → α) {used : List Nat} {i : Nat} (h : i ∈ used) :
    (used.map fun j => (j, f j)).lookup i = some (f i) := by
  induction used with
  | nil => cases h
  | cons j used ih =>
    rw [List.map_cons, List.lookup_cons]
    by_cases hij : i = j
    · rw [hij, beq_self_eq_true]
    · have hbeq : (i == j) = false := by simpa using hij
      rw [hbeq]
      exact ih ((List.mem_cons.mp h).resolve_left hij)

theorem loadEntries_of_standsAt {image : Image} {table : Nat} {used : List Nat} {text : Nat → Bytes}
    (h : ∀ i ∈ used, ∃ start, StandsAt image table i start (text i)) (next : Option Nat) :
    ∃ last, loadEntries image table (bankStart image table) used next =
      .ok (used.map fun i => (i, text i), last) := by
  induction used generalizing next with
  | nil => exact ⟨next, rfl⟩
  | cons i used ih =>
    obtain ⟨start, hstands⟩ := h i (List.mem_cons_self ..)
    obtain ⟨pointer, hpointer, rfl⟩ := hstands.pointer
    obtain ⟨last, hrest⟩ := ih (fun j hj => h j (List.mem_cons_of_mem _ hj))
      (if next = some (bankStart image table + pointer) then
        some (bankStart image table + pointer + (text i).length + 1) else none)
    refine ⟨last, ?_⟩
    rw [loadEntries, hpointer]
    simp only [hstands.text]
    show (loadEntries image table (bankStart image table) used _ >>= _) = _
    rw [hrest]
    rfl

/-- **Strings that stand in an image are loaded.** -/
theorem load_of_standsAt {image : Image} {table : Nat} {used : List Nat} {text : Nat → Bytes}
    (h : ∀ i ∈ used, ∃ start, StandsAt image table i start (text i)) :
    ∃ loaded, load image table used = .ok loaded ∧ ∀ i ∈ used, loaded.get? i = some (text i) := by
  unfold load
  cases hlast : used.getLast? with
  | none =>
    rw [List.getLast?_eq_none_iff] at hlast
    subst hlast
    exact ⟨empty, rfl, by simp⟩
  | some last =>
    obtain ⟨stop, hentries⟩ := loadEntries_of_standsAt h (some (table + 2 * (last + 1)))
    simp only
    rw [show table - table % image.layout.bankSize = bankStart image table from rfl, hentries]
    exact ⟨_, rfl, fun i hi => lookup_map_mk text hi⟩

/-! ## the stored form -/

/-- where the string of an index starts when the first starts at `start` -/
def textStart : (start : Nat) → List Bytes → (index : Nat) → Nat
  | start, text :: rest, index + 1 => textStart (start + text.length + 1) rest index
  | start, _, _ => start

theorem textStart_zero (start : Nat) (texts : List Bytes) : textStart start texts 0 = start := by
  cases texts with
  | nil => rfl
  | cons text rest => rfl

theorem textStart_succ (start : Nat) (text : Bytes) (rest : List Bytes) (index : Nat) :
    textStart start (text :: rest) (index + 1) = textStart (start + text.length + 1) rest index :=
  rfl

theorem length_pointers (bankSize start : Nat) (texts : List Bytes) :
    (pointers bankSize start texts).length = 2 * texts.length := by
  induction texts generalizing start with
  | nil => rfl
  | cons text rest ih =>
    rw [pointers, List.length_append, Bytes.length_field, ih, List.length_cons]
    omega

theorem length_terminatedAll (texts : List Bytes) :
    (texts.flatMap terminated).length =
      (texts.map fun text => text.length + 1).foldr (· + ·) 0 := by
  induction texts with
  | nil => rfl
  | cons text rest ih =>
    rw [List.flatMap_cons, List.length_append, length_terminated, ih]
    rfl

theorem blockLength_eq (t : StringTable) :
    t.blockLength = 2 * t.count + (t.texts.flatMap terminated).length := by
  rw [length_terminatedAll, blockLength]

theorem serialize_eq_ok {t : StringTable} {offset bankSize : Nat} {bytes : Bytes} :
    t.serialize offset bankSize = .ok bytes ↔
      t.isDense = true ∧ bankSize ≤ 0x10000 ∧ offset % bankSize + t.blockLength ≤ bankSize ∧
      bytes = pointers bankSize (offset + 2 * t.count) t.texts ++ t.texts.flatMap terminated := by
  unfold serialize
  rw [unless_eq_ok, unless_eq_ok, Except.ok.injEq, not_or, Nat.not_lt, Nat.not_lt,
    Bool.not_eq_true', Bool.not_eq_false, and_assoc, eq_comm (b := bytes)]

section
variable {t : StringTable} {offset bankSize : Nat} {bytes : Bytes}

theorem length_texts (t : StringTable) : t.texts.length = t.count := List.length_map ..

/-- the stored form takes up the room that is kept for it -/
theorem length_of_serialize (h : t.serialize offset bankSize = .ok bytes) :
    bytes.length = t.blockLength := by
  obtain ⟨_, _, _, rfl⟩ := serialize_eq_ok.mp h
  rw [List.length_append, length_pointers, length_texts, blockLength_eq]

end

theorem blockLength_of_count {t : StringTable} (h : t.count = 0) : t.blockLength = 0 := by
  have hentries : t.entries = [] := List.eq_nil_of_length_eq_zero h
  rw [blockLength, h, texts, hentries]
  rfl

theorem read?_pointers {data : Bytes} {bankSize start table : Nat} {texts : List Bytes}
    (h : data.Holds table (pointers bankSize start texts)) {i : Nat} (hi : i < texts.length) :
    data.read? (table + 2 * i) 2 = some (textStart start texts i % bankSize % 0x10000) := by
  induction texts generalizing start table i with
  | nil => cases hi
  | cons text rest ih =>
    rw [pointers, Bytes.holds_append, Bytes.length_field] at h
    cases i with
    | zero =>
      have hslice := Bytes.slice?_of_holds h.1 (by rw [Bytes.length_field]; decide)
      rw [Bytes.length_field] at hslice
      rw [Nat.mul_zero, Nat.add_zero, Bytes.read?, hslice, textStart_zero]
      show some (Bytes.value (Bytes.field 2 (start % bankSize))) = _
      rw [Bytes.value_field]
    | succ i =>
      have hrest := ih h.2 (Nat.lt_of_succ_lt_succ hi)
      rw [textStart_succ, ← hrest]
      congr 1
      omega

theorem holds_terminated {data : Bytes} {start : Nat} {texts : List Bytes}
    (h : data.Holds start (texts.flatMap terminated)) {i : Nat} {text : Bytes}
    (hi : texts[i]? = some text) :
    data.Holds (textStart start texts i) (terminated text) ∧ start ≤ textStart start texts i ∧
      textStart start texts i + text.length < start + (texts.flatMap terminated).length := by
  induction texts generalizing start i with
  | nil => cases hi
  | cons first rest ih =>
    rw [List.flatMap_cons, Bytes.holds_append, length_terminated] at h
    rw [List.flatMap_cons, List.length_append, length_terminated]
    cases i with
    | zero =>
      cases hi
      rw [textStart_zero]
      exact ⟨h.1, Nat.le_refl _, by omega⟩
    | succ i =>
      rw [← Nat.add_assoc] at h
      obtain ⟨hholds, hstart, hstop⟩ := ih h.2 hi
      rw [textStart_succ]
      exact ⟨hholds, by omega, by omega⟩

/-- a place in the bank of another is named by what it has beyond the start of the bank -/
theorem bankStart_add_mod {image : Image} {offset place : Nat} (hle : offset ≤ place)
    (hbank : offset % image.layout.bankSize + (place - offset) < image.layout.bankSize) :
    bankStart image offset + place % image.layout.bankSize = place := by
  have hdiv := Nat.div_add_mod offset image.layout.bankSize
  have hmod := Nat.mod_le offset image.layout.bankSize
  have hsplit : place = image.layout.bankSize * (offset / image.layout.bankSize) +
      (offset % image.layout.bankSize + (place - offset)) := by omega
  have hplace : place % image.layout.bankSize =
      offset % image.layout.bankSize + (place - offset) := by
    conv => lhs; rw [hsplit, Nat.mul_add_mod]
    exact Nat.mod_eq_of_lt hbank
  rw [hplace, bankStart]
  omega

/-- **Where the stored form of a table is, its strings stand.** -/
theorem standsAt_of_serialize {t : StringTable} {image : Image} {offset : Nat} {bytes : Bytes}
    (hserialize : t.serialize offset image.layout.bankSize = .ok bytes)
    (hholds : image.data.Holds offset bytes) {i : Nat} {text : Bytes} (hi : t.texts[i]? = some text)
    (hclean : terminator ∉ text) :
    StandsAt image offset i (textStart (offset + 2 * t.count) t.texts i) text := by
  obtain ⟨_, hreach, hbank, rfl⟩ := serialize_eq_ok.mp hserialize
  rw [Bytes.holds_append, length_pointers, length_texts] at hholds
  have hindex : i < t.texts.length := (List.getElem?_eq_some_iff.mp hi).1
  obtain ⟨htext, hstart, hstop⟩ := holds_terminated hholds.2 hi
  have hpointer := read?_pointers hholds.1 hindex
  have hlength : offset + t.blockLength =
      offset + 2 * t.count + (t.texts.flatMap terminated).length := by
    rw [blockLength_eq, Nat.add_assoc]
  generalize textStart (offset + 2 * t.count) t.texts i = start at *
  have hinside : offset % image.layout.bankSize + (start - offset) < image.layout.bankSize := by
    omega
  have hplace := bankStart_add_mod (by omega : offset ≤ start) hinside
  have hbelow : start % image.layout.bankSize < 0x10000 := by
    have := Nat.mod_lt start (by omega : 0 < image.layout.bankSize)
    omega
  refine ⟨⟨_, hpointer, ?_⟩, readTerminated_eq_ok.mpr ⟨hclean, htext, ?_⟩⟩
  · rw [Nat.mod_eq_of_lt hbelow, hplace]
  · have hmod := Nat.mod_le offset image.layout.bankSize
    rw [bankStart]
    omega

/-! ## strings by index -/

/-- a string is found at the place of its index -/
theorem get?_eq (t : StringTable) (index : Nat) :
    t.get? index = (t.newIndex? index).bind (t.texts[·]?) := by
  unfold get? newIndex? indices texts
  induction t.entries with
  | nil => rfl
  | cons entry entries ih =>
    obtain ⟨i, text⟩ := entry
    rw [List.lookup_cons, List.map_cons, List.findIdx?_cons, List.map_cons]
    by_cases hi : i = index
    · rw [hi, beq_self_eq_true, if_pos rfl]
      rfl
    · rw [beq_eq_false_iff_ne.mpr (Ne.symm hi), beq_eq_false_iff_ne.mpr hi, ih, if_neg (by decide),
        Option.bind_map]
      rfl

theorem getElem?_indices {t : StringTable} {index new : Nat} (h : t.newIndex? index = some new) :
    t.indices[new]? = some index := by
  obtain ⟨hlt, hsame, _⟩ := List.findIdx?_eq_some_iff_getElem.mp h
  rw [List.getElem?_eq_getElem hlt, eq_of_beq hsame]

/-- different strings have different places -/
theorem newIndex?_inj {t : StringTable} {i j new : Nat} (hi : t.newIndex? i = some new)
    (hj : t.newIndex? j = some new) : i = j :=
  Option.some.inj ((getElem?_indices hi).symm.trans (getElem?_indices hj))

theorem newIndex?_lt {t : StringTable} {index new : Nat} (h : t.newIndex? index = some new) :
    new < t.count := by
  obtain ⟨hlt, _⟩ := List.getElem?_eq_some_iff.mp (getElem?_indices h)
  rwa [indices, List.length_map] at hlt

theorem exists_newIndex {t : StringTable} {index : Nat} {text : Bytes}
    (h : t.get? index = some text) : ∃ new, t.newIndex? index = some new := by
  rw [get?_eq] at h
  obtain ⟨new, hnew, _⟩ := Option.bind_eq_some_iff.mp h
  exact ⟨new, hnew⟩

/-! ## dense tables -/

theorem isDense_iff {t : StringTable} : t.isDense = true ↔ t.indices = List.range t.count := by
  rw [isDense, beq_iff_eq]

theorem newIndex?_of_isDense {t : StringTable} (h : t.isDense = true) {index : Nat} :
    t.newIndex? index = if index < t.count then some index else none := by
  rw [newIndex?, isDense_iff.mp h]
  by_cases hlt : index < t.count
  · rw [if_pos hlt, List.findIdx?_eq_some_iff_getElem]
    refine ⟨by rwa [List.length_range], by rw [List.getElem_range, beq_self_eq_true], ?_⟩
    intro j hj
    rw [List.getElem_range, beq_iff_eq]
    exact Nat.ne_of_lt hj
  · rw [if_neg hlt, List.findIdx?_eq_none_iff]
    intro i hi
    rw [beq_eq_false_iff_ne]
    rintro rfl
    exact hlt (List.mem_range.mp hi)

/-- in a dense table, the index of a string is its place in the list -/
theorem get?_of_isDense {t : StringTable} (h : t.isDense = true) (i : Nat) :
    t.get? i = t.texts[i]? := by
  rw [get?_eq, newIndex?_of_isDense h]
  by_cases hlt : i < t.count
  · rw [if_pos hlt, Option.bind_some]
  · rw [if_neg hlt, Option.bind_none, List.getElem?_eq_none (by rw [length_texts]; omega)]

end StringTable

end Cartridge
