import Cartridge.Proofs.Script.Renumbering
import Cartridge.Proofs.StringTable.Reads

/-!
# What textboxes show

The strings of a script that has been loaded are those that its textboxes show, by the indices that
these name, which may have gaps.  The first edit numbers the strings afresh, and only then does what
it was asked to.  So an index that a string was read by is not always the one that it is set by.

* `Script.Built.usedStrings` strings that have not been numbered are those that the textboxes show;
* `Script.exists_compactStrings`   so they can be numbered;
* `Script.ShowsAt`           a textbox, the index that it names, and what it shows;
* `Script.ShowsAt.compactStrings`   numbering changes the index only;
* `Script.setString_eq_error`, `Script.setString_shows`   a text that is set;
* `Script.setString_resets_iff`   the string that is set is the one that was read just when its
                             index stays;
* `Script.setString_takes_new_index`   **what setting a string changes.**
-/

namespace Cartridge

open Command

namespace Script

/-! ## strings that have not been numbered -/

theorem usedStrings_of_load {image : Image} {offset : Nat} {s : Script}
    (h : load image offset = .ok s) :
    s.strings.isDense = true ∨ s.usedStrings = .ok s.strings.indices := by
  obtain ⟨bytes, t, _, hparse, ⟨_, rfl⟩ | ⟨_, used, table, strings, _, hused, _, hstrings, rfl⟩⟩ :=
    load_eq_ok.mp h
  · obtain ⟨_, _, _, _, _, rfl, _⟩ := parse_eq_ok hparse
    exact .inl rfl
  · rcases StringTable.load_eq_ok hstrings with ⟨_, rfl⟩ | ⟨_, entries, _, _, hentries, rfl, _⟩
    · exact .inl rfl
    · refine .inr ?_
      show t.usedStrings = .ok (strings.entries.map Prod.fst)
      rw [hused, (StringTable.standsAt_of_loadEntries hentries).1]

/-- **The strings of a script are numbered, or are those that its textboxes show.** -/
theorem Built.usedStrings {s : Script} (hs : s.Built) :
    s.strings.isDense = true ∨ s.usedStrings = .ok s.strings.indices := by
  induction hs with
  | parse h =>
    obtain ⟨_, _, _, _, _, rfl, _⟩ := parse_eq_ok h
    exact .inl rfl
  | load h => exact usedStrings_of_load h
  | @edit _ s' hs edit h _ =>
    have hwell : s'.WellFormed := (Built.edit hs edit h).wellFormed
    exact .inl (hwell.texts.dense (hwell.numbered (ScriptEdit.modified h)))
  | stored _ extent ih => exact ih
  | clean _ ih => exact ih

section
variable {s : Script} (hs : s.Built)
include hs

/-- the strings can be numbered: if that takes the stream, it has been read for the strings -/
theorem exists_compactStrings : ∃ t, s.compactStrings = .ok t := by
  unfold compactStrings
  by_cases hcompacted : s.strings.compacted = true
  · rw [if_pos hcompacted]
    exact ⟨s, rfl⟩
  · rw [if_neg hcompacted]
    dsimp only
    rcases hs.usedStrings with hdense | hused
    · rw [if_pos hdense]
      exact ⟨_, rfl⟩
    · rw [Reading.toExcept, fault_of_usedStrings hused]
      by_cases hdense : s.strings.isDense = true
      · rw [if_pos hdense]
        exact ⟨_, rfl⟩
      · rw [if_neg hdense]
        exact ⟨_, rfl⟩

/-- new indices have one byte -/
theorem newIndex_lt_limit {index new : Nat} (hindex : index < StringTable.limit)
    (h : s.strings.newIndex? index = some new) : new < StringTable.limit := by
  rcases hs.usedStrings with hdense | hused
  · rw [StringTable.newIndex?_of_isDense hdense, Option.ite_none_right_eq_some] at h
    rwa [← Option.some.inj h.2]
  · obtain ⟨commands, _, hused⟩ := bind_eq_ok.mp hused
    have hcount : s.strings.indices.length ≤ StringTable.limit := by
      rw [← Except.ok.inj hused]
      exact (List.length_filter_le ..).trans_eq List.length_range
    rw [StringTable.indices, List.length_map] at hcount
    exact Nat.lt_of_lt_of_le (StringTable.newIndex?_lt h) hcount

end

/-! ## textboxes -/

/-- the command at the position is a textbox that names the index, and shows the text -/
def ShowsAt (s : Script) (pos index : Nat) (text : Bytes) : Prop :=
  ∃ c, (pos, c) ∈ s.allCommands.commands ∧ shownString? c = some index ∧ s.string index = .ok text

theorem string_eq_ok {s : Script} {index : Nat} {text : Bytes} :
    s.string index = .ok text ↔ s.strings.get? index = some text := by
  unfold string
  cases s.strings.get? index with
  | none =>
    constructor
    · intro h
      cases h
    · intro h
      cases h
  | some found => rw [Except.ok.injEq, Option.some.injEq]

theorem ShowsAt.string {s : Script} {pos index : Nat} {text : Bytes}
    (h : s.ShowsAt pos index text) : s.string index = .ok text := by
  obtain ⟨_, _, _, htext⟩ := h
  exact htext

/-- a textbox shows one text -/
theorem ShowsAt.unique {s : Script} {pos i j : Nat} {a b : Bytes} (h : s.ShowsAt pos i a)
    (h' : s.ShowsAt pos j b) : a = b := by
  obtain ⟨c, hc, hindex, ha⟩ := h
  obtain ⟨d, hd, hindex', hb⟩ := h'
  obtain rfl : c = d :=
    Except.ok.inj ((commandAt_of_mem hc).2.symm.trans (commandAt_of_mem hd).2)
  obtain rfl : i = j := Option.some.inj (hindex.symm.trans hindex')
  exact Except.ok.inj (ha.symm.trans hb)

/-- strings change, and the code does not -/
theorem ShowsAt.congr {s t : Script} {pos index : Nat} {a b : Bytes} (h : s.ShowsAt pos index a)
    (hpointers : t.pointers = s.pointers) (hstream : t.stream = s.stream)
    (hb : t.strings.get? index = some b) : t.ShowsAt pos index b := by
  obtain ⟨c, hc, hindex, _⟩ := h
  obtain ⟨_, _, hall, _⟩ := congr_code hpointers hstream
  exact ⟨c, hall ▸ hc, hindex, string_eq_ok.mpr hb⟩

/-- **Numbering changes the indices of textboxes, and nothing that they show.** -/
theorem ShowsAt.compactStrings {s t : Script} {pos index : Nat} {text : Bytes} (hs : s.Built)
    (ht : s.compactStrings = .ok t) (h : s.ShowsAt pos index text) :
    ∃ new, s.strings.newIndex? index = some new ∧ t.ShowsAt pos new text := by
  obtain ⟨c, hc, hindex, htext⟩ := h
  have hget := string_eq_ok.mp htext
  obtain ⟨new, hnew⟩ := StringTable.exists_newIndex hget
  have hlt := newIndex_lt_limit hs (shownString?_lt hindex) hnew
  have hwell := hs.wellFormed
  refine ⟨new, hnew, renumbered s.strings c, ?_, shownString?_renumbered hindex hnew hlt, ?_⟩
  · rw [allCommands_of_compactStrings hwell ht]
    exact List.mem_map_of_mem (f := fun a => (a.1, renumbered s.strings a.2)) hc
  · rw [string_eq_ok, (compactStrings_eq_ok ht).2.2.1, StringTable.get?_compact hwell.texts hnew,
      hget]

/-! ## texts that are set -/

/-- The textboxes of the string at `index` show the text, and all others what they did. -/
def Resets (s s' : Script) (index : Nat) (text : Bytes) : Prop :=
  ∀ pos i found, s.ShowsAt pos i found →
    ∃ new, s'.ShowsAt pos new (if i = index then text else found)

section
variable {s : Script} {index : Nat} {text : Bytes} (hs : s.Built)
  (htext : StringTable.terminator ∉ text)
include hs

theorem get?_of_compactStrings {t : Script} (ht : s.compactStrings = .ok t) (i : Nat) :
    t.strings.get? i = s.strings.texts[i]? := by
  have htexts := hs.wellFormed.texts
  rw [(compactStrings_eq_ok ht).2.2.1,
    StringTable.get?_of_isDense (StringTable.isDense_compact htexts), StringTable.texts_compact]

include htext

/-- behind the last of the numbers there is nothing to set -/
theorem setString_eq_error (hindex : s.strings.count ≤ index) :
    s.setString index text = .error (.noSuchString index) := by
  obtain ⟨t, ht⟩ := exists_compactStrings hs
  have hnone : t.strings.get? index = none := by
    rw [get?_of_compactStrings hs ht]
    exact List.getElem?_eq_none ((StringTable.length_texts _).trans_le hindex)
  unfold setString edit
  rw [ht]
  show ((t.strings.set index text >>= fun strings => _) >>= fun t' => _) = _
  rw [StringTable.set_eq_error htext hnone]
  rfl

/-- **The text goes to the string that has been given the index**, whichever had it before. -/
theorem setString_shows (hindex : index < s.strings.count) :
    ∃ s', s.setString index text = .ok s' ∧ ∀ pos i found, s.ShowsAt pos i found →
      ∃ new, s.strings.newIndex? i = some new ∧
        s'.ShowsAt pos new (if new = index then text else found) := by
  obtain ⟨t, ht⟩ := exists_compactStrings hs
  have hsome : t.strings.get? index ≠ none := by
    rw [get?_of_compactStrings hs ht, Ne, List.getElem?_eq_none_iff, StringTable.length_texts]
    exact Nat.not_le_of_lt hindex
  obtain ⟨strings, hset⟩ := StringTable.exists_set htext hsome
  refine ⟨{ t with strings, modified := true }, ?_, fun pos i found hshows => ?_⟩
  · unfold setString edit
    rw [ht]
    show ((t.strings.set index text >>= fun strings => _) >>= fun t' => _) = _
    rw [hset]
    rfl
  · obtain ⟨new, hnew, hseen⟩ := hshows.compactStrings hs ht
    refine ⟨new, hnew, hseen.congr rfl rfl ?_⟩
    rw [StringTable.set_eq_ok hset, string_eq_ok.mp hseen.string]
    rfl

end

/-- each string of a table with gaps is shown somewhere -/
theorem exists_showsAt {s : Script} {index : Nat} {text : Bytes}
    (hused : s.usedStrings = .ok s.strings.indices) (hstring : s.string index = .ok text) :
    ∃ pos, s.ShowsAt pos index text := by
  obtain ⟨new, hnew⟩ := StringTable.exists_newIndex (string_eq_ok.mp hstring)
  have hmem := List.mem_of_getElem? (StringTable.getElem?_indices hnew)
  obtain ⟨⟨pos, c⟩, hc, hindex⟩ := (mem_usedStrings hused index).mp hmem
  exact ⟨pos, c, hc, hindex, hstring⟩

/-- **The string that is set is the one that was read just when its index stays.** -/
theorem setString_resets_iff {s : Script} {index : Nat} {old : Bytes} (hs : s.Built)
    (hstring : s.string index = .ok old) :
    (∀ text, StringTable.terminator ∉ text →
      ∃ s', s.setString index text = .ok s' ∧ s.Resets s' index text) ↔
        s.strings.newIndex? index = some index := by
  constructor
  · intro hall
    rcases hs.usedStrings with hdense | hused
    · obtain ⟨new, hnew⟩ := StringTable.exists_newIndex (string_eq_ok.mp hstring)
      rw [StringTable.newIndex?_of_isDense hdense, Option.ite_none_right_eq_some] at hnew
      rw [StringTable.newIndex?_of_isDense hdense, if_pos hnew.1]
    · -- a textbox shows the string, and a new text would be seen there
      obtain ⟨pos, hshows⟩ := exists_showsAt hused hstring
      obtain ⟨text, htext, hne⟩ : ∃ text, StringTable.terminator ∉ text ∧ text ≠ old := by
        cases old with
        | nil => exact ⟨[1], by decide, by decide⟩
        | cons x old => exact ⟨[], List.not_mem_nil, (List.cons_ne_nil x old).symm⟩
      obtain ⟨s', hset, hresets⟩ := hall text htext
      have hindex : index < s.strings.count := by
        by_contra hindex
        rw [setString_eq_error hs htext (Nat.le_of_not_lt hindex)] at hset
        cases hset
      obtain ⟨s'', hset', hall'⟩ := setString_shows hs htext hindex
      obtain rfl := Except.ok.inj (hset.symm.trans hset')
      obtain ⟨new, hnew, hseen⟩ := hall' pos index old hshows
      obtain ⟨other, hother⟩ := hresets pos index old hshows
      rw [if_pos rfl] at hother
      have hsame := hother.unique hseen
      by_cases heq : new = index
      · rw [hnew, heq]
      · rw [if_neg heq] at hsame
        exact absurd hsame hne
  · intro hstays text htext
    obtain ⟨s', hset, hall⟩ := setString_shows hs htext (StringTable.newIndex?_lt hstays)
    refine ⟨s', hset, fun pos i found hshows => ?_⟩
    obtain ⟨new, hnew, hseen⟩ := hall pos i found hshows
    have hsame : new = index ↔ i = index := by
      constructor
      · rintro rfl
        exact StringTable.newIndex?_inj hnew hstays
      · rintro rfl
        exact Option.some.inj (hnew.symm.trans hstays)
    refine ⟨new, ?_⟩
    rwa [if_congr hsame rfl rfl] at hseen

/-- **What setting a string changes.**  The strings are numbered first, and then the index is taken
for a new one.  If there are not so many strings there is nothing to set, although the string has
been read by that index; else the text goes to the string that has the index now, and all other
textboxes show what they did.  So it goes to the string that has been read, for every text, just
when the index of that string stays. -/
theorem setString_takes_new_index {s : Script} {index : Nat} {old : Bytes} (hs : s.Built)
    (hstring : s.string index = .ok old) :
    (∀ text, StringTable.terminator ∉ text →
      (s.strings.count ≤ index → s.setString index text = .error (.noSuchString index)) ∧
      (index < s.strings.count → ∃ s', s.setString index text = .ok s' ∧
        ∀ pos i found, s.ShowsAt pos i found → ∃ new, s.strings.newIndex? i = some new ∧
          s'.ShowsAt pos new (if new = index then text else found))) ∧
    ((∀ text, StringTable.terminator ∉ text →
      ∃ s', s.setString index text = .ok s' ∧ s.Resets s' index text) ↔
        s.strings.newIndex? index = some index) :=
  ⟨fun _ htext => ⟨setString_eq_error hs htext, setString_shows hs htext⟩,
    setString_resets_iff hs hstring⟩

/-- the strings with the indices 1 and 2 are in use: the text for the first of them goes to the
second one, and for the second one there is no index any more -/
theorem setString_takes_new_index_sparse :
    let layout : Layout := ⟨0x1000, 0, 0, 4, 1, 0, 2, 8, 1, []⟩
    let block : Bytes := [10, 0, 8, 1, 32, 0, 2, 0xD8, 0xB8, 80, 0, 0, 0x45, 21, 0, 0, 0xBB, 1,
      0xBB, 2, 0, 64]
    let data : Bytes := List.replicate 16 0 ++ block ++ List.replicate 44 0 ++
      [88, 0, 90, 0, 0, 0, 0x41, 0, 0x42, 0] ++ List.replicate 36 0
    let space : FreeMap := ⟨128, 0x1000, false, [], by decide, by decide, by decide, by decide⟩
    let image : Image := ⟨data, space, layout⟩
    let s : Script := ⟨List.replicate 16 32, [0xB8, 80, 0, 0, 0xBB, 1, 0xBB, 2, 0],
      ⟨[(1, [0x41]), (2, [0x42])], false, false, none⟩, false⟩
    load image 16 = .ok s ∧ s.Built ∧ s.string 1 = .ok [0x41] ∧ s.string 2 = .ok [0x42] ∧
      s.ShowsAt 36 1 [0x41] ∧ s.ShowsAt 38 2 [0x42] ∧
      (∃ s', s.setString 1 [0x43] = .ok s' ∧ s'.ShowsAt 36 0 [0x41] ∧ s'.ShowsAt 38 1 [0x43]) ∧
      s.setString 2 [0x43] = .error (.noSuchString 2) ∧
      ¬ ∀ text, StringTable.terminator ∉ text →
        ∃ s', s.setString 1 text = .ok s' ∧ s.Resets s' 1 text := by
  intro layout block data space image s
  have hload : load image 16 = .ok s := toOption_eq_some.mp (by decide +kernel)
  have hs : s.Built := .load hload
  have hfirst : s.string 1 = .ok [0x41] := rfl
  have hsecond : s.string 2 = .ok [0x42] := rfl
  have hshows : s.ShowsAt 36 1 [0x41] := ⟨⟨0xBB, [1]⟩, by decide +kernel, by decide +kernel, rfl⟩
  have hshows' : s.ShowsAt 38 2 [0x42] := ⟨⟨0xBB, [2]⟩, by decide +kernel, by decide +kernel, rfl⟩
  have htext : StringTable.terminator ∉ [0x43] := by decide
  obtain ⟨hset, hstays⟩ := setString_takes_new_index hs hfirst
  obtain ⟨s', hdone, hall⟩ := (hset _ htext).2 (by decide)
  refine ⟨hload, hs, hfirst, hsecond, hshows, hshows', ⟨s', hdone, ?_, ?_⟩, ?_, ?_⟩
  · obtain ⟨new, hnew, hseen⟩ := hall 36 1 _ hshows
    obtain rfl : new = 0 := Option.some.inj (hnew.symm.trans (by decide +kernel))
    exact hseen
  · obtain ⟨new, hnew, hseen⟩ := hall 38 2 _ hshows'
    obtain rfl : new = 1 := Option.some.inj (hnew.symm.trans (by decide +kernel))
    exact hseen
  · exact ((setString_takes_new_index hs hsecond).1 _ htext).1 (by decide)
  · rw [hstays]
    decide +kernel

end Script

end Cartridge
