import Cartridge.Proofs.Script.Splice

/-!
# The pointer table

* `Script.Bounded`           sixteen pointers an object, all into the stream, and positions of
                             sixteen bits;
* `Script.parse_eq_ok`, `Script.bounded_of_parse`   what is parsed is bounded;
* `Script.parse_toBytes`     a bounded script is read back from its stored form;
* `Script.Bounded.congr`, `Script.Bounded.redirect`   other streams, and other pointers;
* `Script.Bounded.replace`   edits at command boundaries.
-/

namespace Cartridge

namespace Script

structure Bounded (s : Script) : Prop where
  slots : functionsPerObject ∣ s.pointers.length
  objects : s.objectCount ≤ maxObjects
  pointers : ∀ p ∈ s.pointers, s.headerLength ≤ p ∧ p ≤ s.length
  length : s.length ≤ maxLength

theorem Bounded.length_pointers {s : Script} (h : s.Bounded) :
    s.pointers.length = s.objectCount * functionsPerObject :=
  (Nat.div_mul_cancel h.slots).symm

/-- a table of `n` objects in front of the stream -/
theorem bounded_of_objects {s : Script} {n : Nat} (hn : n ≤ maxObjects)
    (hslots : s.pointers.length = n * functionsPerObject)
    (hpointers : ∀ p ∈ s.pointers, n * objectHeader ≤ p ∧ p ≤ n * objectHeader + s.stream.length)
    (hlength : n * objectHeader + s.stream.length ≤ maxLength) : s.Bounded ∧ s.objectCount = n := by
  have hcount : s.objectCount = n := by
    rw [objectCount, hslots]
    exact Nat.mul_div_cancel n (by decide)
  have hheader : s.headerLength = n * objectHeader := by
    rw [headerLength, hslots, functionsPerObject, objectHeader]
    omega
  refine ⟨⟨?_, ?_, ?_, ?_⟩, hcount⟩
  · rw [hslots]
    exact Nat.dvd_mul_left ..
  · rw [hcount]
    exact hn
  · intro p hp
    rw [Script.length, hheader]
    exact hpointers p hp
  · rw [Script.length, hheader]
    exact hlength

theorem Bounded.headerLength_eq {s : Script} (h : s.Bounded) :
    s.headerLength = s.objectCount * objectHeader := by
  rw [headerLength, h.length_pointers, functionsPerObject, objectHeader]
  omega

/-! ## the stored form -/

theorem length_words {n : Nat} {body : Bytes} (h : 2 * n ≤ body.length) :
    (words n body).length = n := by
  induction n generalizing body with
  | zero => rfl
  | succ n ih =>
    match body with
    | [] => exact absurd h (by rw [List.length_nil]; omega)
    | [_] => exact absurd h (by rw [List.length_singleton]; omega)
    | lo :: hi :: rest =>
      rw [List.length_cons, List.length_cons] at h
      rw [words, List.length_cons, ih (by omega)]

theorem words_fields {pointers : List Nat} (h : ∀ p ∈ pointers, p ≤ maxLength) (rest : Bytes) :
    words pointers.length (pointers.flatMap (Bytes.field 2) ++ rest) = pointers := by
  induction pointers with
  | nil => rfl
  | cons p pointers ih =>
    have hp : p < 0x10000 := Nat.lt_succ_of_le (h p (List.mem_cons_self ..))
    have hvalue : Bytes.value (Bytes.field 2 p) = p := by
      rw [Bytes.value_field]
      exact Nat.mod_eq_of_lt hp
    show Bytes.value (Bytes.field 2 p) ::
      words pointers.length (pointers.flatMap (Bytes.field 2) ++ rest) = p :: pointers
    rw [hvalue, ih fun q hq => h q (List.mem_cons_of_mem _ hq)]

theorem length_fields (pointers : List Nat) :
    (pointers.flatMap (Bytes.field 2)).length = 2 * pointers.length := by
  induction pointers with
  | nil => rfl
  | cons p pointers ih =>
    rw [List.flatMap_cons, List.length_append, Bytes.length_field, ih, List.length_cons]
    omega

theorem firstOutside_eq_none {low high : Nat} {pointers : List Nat} :
    firstOutside low high pointers = none ↔ ∀ p ∈ pointers, low ≤ p ∧ p ≤ high := by
  rw [firstOutside, Option.map_eq_none_iff, List.find?_eq_none]
  simp only [Bool.or_eq_true, decide_eq_true_eq, not_or, Nat.not_lt]
  constructor
  · intro h p hp
    obtain ⟨i, hi, rfl⟩ := List.mem_iff_getElem.mp hp
    exact h (pointers[i], i) (List.mem_zipIdx_iff_getElem?.mpr (List.getElem?_eq_getElem hi))
  · intro h entry hentry
    exact h entry.1 (List.mem_of_getElem? (List.mem_zipIdx_iff_getElem?.mp hentry))

theorem parse_eq_ok {bytes : Bytes} {s : Script} (h : parse bytes = .ok s) :
    ∃ count body, bytes = count :: body ∧ count.toNat * objectHeader ≤ body.length ∧
      body.length ≤ maxLength ∧
      s = ⟨words (count.toNat * functionsPerObject) body, body.drop (count.toNat * objectHeader),
        .empty, false⟩ ∧
      ∀ p ∈ s.pointers, count.toNat * objectHeader ≤ p ∧ p ≤ body.length := by
  unfold parse at h
  cases bytes with
  | nil => cases h
  | cons count body =>
    simp only at h
    obtain ⟨htable, h⟩ := unless_eq_ok.mp h
    obtain ⟨hsize, h⟩ := unless_eq_ok.mp h
    cases hfirst : firstOutside (count.toNat * objectHeader) body.length
        (words (count.toNat * functionsPerObject) body) with
    | some found =>
      rw [hfirst] at h
      cases h
    | none =>
      rw [hfirst] at h
      cases h
      exact ⟨count, body, rfl, Nat.le_of_not_lt htable, Nat.le_of_not_lt hsize, rfl,
        firstOutside_eq_none.mp hfirst⟩

theorem bounded_of_parse {bytes : Bytes} {s : Script} (h : parse bytes = .ok s) : s.Bounded := by
  obtain ⟨count, body, _, htable, hsize, rfl, hpointers⟩ := parse_eq_ok h
  have hwords : (words (count.toNat * functionsPerObject) body).length =
      count.toNat * functionsPerObject := by
    apply length_words
    rw [objectHeader] at htable
    rw [functionsPerObject]
    omega
  have hlength : count.toNat * objectHeader +
      (body.drop (count.toNat * objectHeader)).length = body.length := by
    rw [List.length_drop]
    omega
  refine (bounded_of_objects (Nat.le_of_lt_succ count.toNat_lt) hwords ?_ ?_).1
  · rw [hlength]
    exact hpointers
  · rw [hlength]
    exact hsize

/-- **A bounded script is read back from its stored form.** -/
theorem parse_toBytes {s : Script} (h : s.Bounded) :
    parse s.toBytes = .ok ⟨s.pointers, s.stream, .empty, false⟩ := by
  have hcount : (UInt8.ofNat s.objectCount).toNat = s.objectCount := by
    rw [UInt8.toNat_ofNat']
    exact Nat.mod_eq_of_lt (Nat.lt_succ_of_le h.objects)
  have hfields : (s.pointers.flatMap (Bytes.field 2)).length = s.headerLength :=
    length_fields s.pointers
  have hheader : s.objectCount * objectHeader = s.headerLength := by
    rw [headerLength, h.length_pointers, objectHeader, functionsPerObject]
    omega
  have hlength : (s.pointers.flatMap (Bytes.field 2) ++ s.stream).length = s.length := by
    rw [List.length_append, hfields, length]
  have hwords : words (s.objectCount * functionsPerObject)
      (s.pointers.flatMap (Bytes.field 2) ++ s.stream) = s.pointers := by
    rw [← h.length_pointers]
    exact words_fields (fun p hp => Nat.le_trans (h.pointers p hp).2 h.length) s.stream
  have hdrop : (s.pointers.flatMap (Bytes.field 2) ++ s.stream).drop s.headerLength = s.stream :=
    List.drop_left' hfields
  have htable : ¬ s.length < s.headerLength := Nat.not_lt_of_le (Nat.le_add_right ..)
  have hsize : ¬ maxLength < s.length := Nat.not_lt_of_le h.length
  unfold toBytes parse
  simp only [hcount, hheader, hlength, hwords, hdrop, if_neg htable, if_neg hsize,
    firstOutside_eq_none.mpr h.pointers]

/-! ## other streams and pointers -/

theorem Bounded.congr {s s' : Script} (h : s.Bounded) (hpointers : s'.pointers = s.pointers)
    (hstream : s'.stream.length = s.stream.length) : s'.Bounded := by
  have hheader : s'.headerLength = s.headerLength := by rw [headerLength, hpointers, headerLength]
  have hlength : s'.length = s.length := by rw [Script.length, hheader, hstream, Script.length]
  refine ⟨hpointers ▸ h.slots, ?_, ?_, hlength ▸ h.length⟩
  · rw [objectCount, hpointers]
    exact h.objects
  · rw [hpointers, hheader, hlength]
    exact h.pointers

/-- as many pointers as before, all of them into the stream -/
theorem Bounded.withPointers {s : Script} (h : s.Bounded) {pointers : List Nat}
    (hlength : pointers.length = s.pointers.length)
    (hbounds : ∀ p ∈ pointers, s.headerLength ≤ p ∧ p ≤ s.length) :
    ({ s with pointers } : Script).Bounded := by
  have hheader : headerLength { s with pointers } = s.headerLength := by
    rw [headerLength, hlength, headerLength]
  have htotal : Script.length { s with pointers } = s.length := by
    rw [Script.length, hheader, Script.length]
  refine ⟨hlength ▸ h.slots, ?_, ?_, htotal ▸ h.length⟩
  · rw [objectCount, hlength]
    exact h.objects
  · rw [hheader, htotal]
    exact hbounds

end Script

/-! ## splices -/

/-- a reference into `[low, high]` is carried into what that has become -/
theorem Splice.carry_bounds {e : Splice} {low high p : Nat} (hplace : low ≤ e.place)
    (hstop : e.stop ≤ high) (hp : low ≤ p ∧ p ≤ high) :
    low ≤ e.carry p ∧ e.carry p ≤ high - e.removed + e.inserted := by
  have hedge : e.place ≤ e.edge ∧ e.edge ≤ e.place + e.inserted := by
    unfold edge
    cases e.anchor with
    | before => exact ⟨Nat.le_refl _, Nat.le_add_right ..⟩
    | after => exact ⟨Nat.le_add_right .., Nat.le_refl _⟩
  unfold stop at hstop
  unfold carry stop
  by_cases hlt : p < e.place
  · rw [if_pos hlt]
    omega
  · rw [if_neg hlt]
    by_cases hin : p < e.place + e.removed ∨ p = e.place
    · rw [if_pos hin]
      omega
    · rw [if_neg hin]
      obtain ⟨hin, _⟩ := not_or.mp hin
      omega

namespace Script

section
variable {s s' : Script} {place removed : Nat} {code : Bytes} {anchor : Anchor}

theorem Bounded.replace (h : s.Bounded) (hreplace : s.replace place removed code anchor = .ok s') :
    s'.Bounded := by
  obtain ⟨hlow, hhigh, _, _, _, hspliced⟩ := replace_eq_ok hreplace
  obtain ⟨hsize, _⟩ := spliced_eq_ok hspliced
  obtain ⟨hpointers, _, _, hheader⟩ := spliced_frame hspliced
  have hlength := length_replace hreplace
  refine ⟨?_, ?_, ?_, ?_⟩
  · rw [hpointers, List.length_map]
    exact h.slots
  · rw [objectCount, hpointers, List.length_map]
    exact h.objects
  · intro p hp
    rw [hpointers] at hp
    obtain ⟨q, hq, rfl⟩ := List.mem_map.mp hp
    rw [hheader, hlength]
    exact Splice.carry_bounds hlow hhigh (h.pointers q hq)
  · rw [hlength]
    exact hsize

end

end Script

end Cartridge
