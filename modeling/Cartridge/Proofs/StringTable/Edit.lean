import Cartridge.Proofs.StringTable.Stored

/-!
# String tables and their edits

* `StringTable.WellFormed`   no string holds the terminator, and renumbered strings have the indices
                             `0, 1, 2, …`;
* `StringTable.wellFormed_of_load`   what is loaded is well-formed;
* `StringTable.texts_compact`, `StringTable.get?_compact`, `StringTable.WellFormed.compact`
                             renumbering keeps the strings;
* `StringTable.set_eq_ok`    a new text for a string, and for no other;
* `StringTable.WellFormed.set`, `StringTable.WellFormed.add`, `StringTable.WellFormed.markStored`
                             edits.
-/

namespace Cartridge

namespace StringTable

structure WellFormed (t : StringTable) : Prop where
  clean : ∀ text ∈ t.texts, terminator ∉ text
  dense : t.compacted = true → t.isDense = true

theorem wellFormed_empty : empty.WellFormed where
  clean := by
    intro text h
    cases h
  dense := fun _ => rfl

/-! ## loading -/

theorem clean_of_loadEntries {image : Image} {table bank : Nat} {used : List Nat}
    {next last : Option Nat} {entries : List (Nat × Bytes)}
    (h : loadEntries image table bank used next = .ok (entries, last)) :
    ∀ text ∈ entries.map Prod.snd, terminator ∉ text := by
  induction used generalizing next last entries with
  | nil =>
    cases h
    intro text hmem
    cases hmem
  | cons index used ih =>
    rw [loadEntries] at h
    cases hread : image.data.read? (table + 2 * index) 2 with
    | none =>
      rw [hread] at h
      cases h
    | some pointer =>
      rw [hread] at h
      obtain ⟨text, htext, h⟩ := bind_eq_ok.mp h
      obtain ⟨⟨rest, last'⟩, hrest, h⟩ := bind_eq_ok.mp h
      cases h
      rw [List.map_cons, List.forall_mem_cons]
      exact ⟨(readTerminated_eq_ok.mp htext).1, ih hrest⟩

theorem wellFormed_of_load {image : Image} {table : Nat} {used : List Nat} {t : StringTable}
    (h : load image table used = .ok t) : t.WellFormed := by
  unfold load at h
  cases hlast : used.getLast? with
  | none =>
    rw [hlast] at h
    cases h
    exact wellFormed_empty
  | some last =>
    rw [hlast] at h
    simp only at h
    cases hentries : loadEntries image table (table - table % image.layout.bankSize) used
        (some (table + 2 * (last + 1))) with
    | error fault =>
      rw [hentries] at h
      cases h
    | ok found =>
      obtain ⟨entries, stop⟩ := found
      rw [hentries] at h
      cases h
      exact ⟨clean_of_loadEntries hentries, fun hcompacted => by cases hcompacted⟩

/-! ## renumbering -/

theorem texts_compact (t : StringTable) : t.compact.texts = t.texts := by
  unfold compact
  by_cases h : t.compacted = true
  · rw [if_pos h]
  · rw [if_neg h]
    show (t.texts.zipIdx.map Prod.swap).map Prod.snd = t.texts
    rw [List.map_map]
    exact List.zipIdx_map_fst 0 t.texts

theorem compacted_compact (t : StringTable) : t.compact.compacted = true := by
  unfold compact
  by_cases h : t.compacted = true
  · rw [if_pos h, h]
  · rw [if_neg h]

theorem WellFormed.compact {t : StringTable} (h : t.WellFormed) : t.compact.WellFormed where
  clean := by
    rw [texts_compact]
    exact h.clean
  dense := by
    intro _
    unfold StringTable.compact
    by_cases hcompacted : t.compacted = true
    · rw [if_pos hcompacted]
      exact h.dense hcompacted
    · rw [if_neg hcompacted, isDense_iff]
      show (t.texts.zipIdx.map Prod.swap).map Prod.fst =
        List.range (t.texts.zipIdx.map Prod.swap).length
      rw [List.map_map, List.length_map, List.length_zipIdx, List.range_eq_range']
      exact List.zipIdx_map_snd 0 t.texts

theorem isDense_compact {t : StringTable} (h : t.WellFormed) : t.compact.isDense = true :=
  h.compact.dense t.compacted_compact

/-- each string is found by its new index -/
theorem get?_compact {t : StringTable} (h : t.WellFormed) {index new : Nat}
    (hnew : t.newIndex? index = some new) : t.compact.get? new = t.get? index := by
  rw [get?_of_isDense (isDense_compact h), texts_compact, get?_eq, hnew, Option.bind_some]

/-! ## edits -/

theorem checkText_eq_ok {text : Bytes} (h : checkText text = .ok ()) : terminator ∉ text :=
  (unless_eq_ok.mp h).1

theorem lookup_map_snd (f : Nat → Bytes → Bytes) (entries : List (Nat × Bytes)) (index : Nat) :
    (entries.map fun (i, old) => (i, f i old)).lookup index =
      (entries.lookup index).map (f index) := by
  induction entries with
  | nil => rfl
  | cons entry entries ih =>
    obtain ⟨i, old⟩ := entry
    rw [List.map_cons, List.lookup_cons, List.lookup_cons]
    by_cases hi : index = i
    · rw [hi, beq_self_eq_true]
      rfl
    · rw [beq_eq_false_iff_ne.mpr hi]
      exact ih

/-- a string is set where there is one -/
theorem set_eq_ok {t t' : StringTable} {index : Nat} {text : Bytes}
    (hset : t.set index text = .ok t') (i : Nat) :
    t'.get? i = (t.get? i).map fun old => if i = index then text else old := by
  obtain ⟨_, _, hset⟩ := bind_eq_ok.mp hset
  obtain ⟨_, hset⟩ := unless_throw_eq_ok.mp hset
  cases hset
  exact lookup_map_snd (fun i old => if i = index then text else old) t.entries i

theorem exists_set {t : StringTable} {index : Nat} {text : Bytes} (htext : terminator ∉ text)
    (hindex : t.get? index ≠ none) : ∃ t', t.set index text = .ok t' := by
  refine ⟨_, bind_eq_ok.mpr ⟨(), if_neg htext, unless_throw_eq_ok.mpr ⟨?_, rfl⟩⟩⟩
  rwa [Option.isNone_iff_eq_none]

theorem set_eq_error {t : StringTable} {index : Nat} {text : Bytes} (htext : terminator ∉ text)
    (hindex : t.get? index = none) : t.set index text = .error (.noSuchString index) := by
  have hcheck : checkText text = .ok () := if_neg htext
  rw [set, hcheck, hindex]
  rfl

theorem WellFormed.set {t t' : StringTable} {index : Nat} {text : Bytes} (h : t.WellFormed)
    (hset : t.set index text = .ok t') : t'.WellFormed ∧ t'.compacted = t.compacted := by
  obtain ⟨_, hcheck, hset⟩ := bind_eq_ok.mp hset
  obtain ⟨_, hset⟩ := unless_throw_eq_ok.mp hset
  cases hset
  refine ⟨⟨?_, ?_⟩, rfl⟩
  · intro found hfound
    unfold texts at hfound
    simp only [List.map_map, List.mem_map, Function.comp_apply] at hfound
    obtain ⟨⟨i, old⟩, hentry, rfl⟩ := hfound
    by_cases hi : i = index
    · rw [if_pos hi]
      exact checkText_eq_ok hcheck
    · rw [if_neg hi]
      exact h.clean old (List.mem_map_of_mem hentry)
  · intro hcompacted
    have hdense := isDense_iff.mp (h.dense hcompacted)
    rw [isDense_iff, count, List.length_map, ← count, ← hdense]
    unfold indices
    rw [List.map_map]
    rfl

theorem nextIndex_of_isDense {t : StringTable} (h : t.isDense = true) : t.nextIndex = t.count := by
  rw [nextIndex, isDense_iff.mp h, List.getLast?_range]
  by_cases hcount : t.count = 0
  · rw [if_pos hcount, hcount]
  · rw [if_neg hcount]
    exact Nat.sub_add_cancel (Nat.pos_of_ne_zero hcount)

theorem add_eq_ok {t t' : StringTable} {index : Nat} {text : Bytes}
    (h : t.add text = .ok (index, t')) : terminator ∉ text ∧ index = t.nextIndex ∧
      t' = { t with entries := t.entries ++ [(index, text)], dirty := true } := by
  obtain ⟨_, hcheck, h⟩ := bind_eq_ok.mp h
  obtain ⟨_, h⟩ := unless_throw_eq_ok.mp h
  cases h
  exact ⟨checkText_eq_ok hcheck, rfl, rfl⟩

theorem WellFormed.add {t t' : StringTable} {index : Nat} {text : Bytes} (h : t.WellFormed)
    (hadd : t.add text = .ok (index, t')) : t'.WellFormed ∧ t'.compacted = t.compacted := by
  obtain ⟨hclean, rfl, rfl⟩ := add_eq_ok hadd
  refine ⟨⟨?_, ?_⟩, rfl⟩
  · intro found hfound
    unfold texts at hfound
    rw [List.map_append, List.mem_append] at hfound
    rcases hfound with hfound | hfound
    · exact h.clean found hfound
    · rwa [List.mem_singleton.mp hfound]
  · intro hcompacted
    have hdense := h.dense hcompacted
    rw [isDense_iff, indices, List.map_append, count, List.length_append]
    show t.indices ++ [t.nextIndex] = List.range (t.count + 1)
    rw [isDense_iff.mp hdense, nextIndex_of_isDense hdense, List.range_succ]

theorem WellFormed.markStored {t : StringTable} (h : t.WellFormed) (extent : Range) :
    (t.markStored extent).WellFormed :=
  ⟨h.clean, h.dense⟩

end StringTable

end Cartridge
