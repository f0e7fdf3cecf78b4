import Cartridge.Proofs.FreeMap.Search

/-!
# Segments and sizes

* `FreeMap.chain_segments`       each segment begins where the one before it ends, with the other
                                 class;
* `FreeMap.existsUnique_segment` the segments share out the offsets of the map, and no others;
* `FreeMap.freeBytes_eq`, `FreeMap.usedBytes_eq`   the sizes count the free and the used offsets.
-/

namespace Cartridge

/-- `b` goes on where `a` ends, with the other class -/
def Segment.Continues (a b : Segment) : Prop := b.start = a.stop ∧ b.free ≠ a.free

namespace FreeMap

theorem ascends_cuts {m : FreeMap} : Ascends 0 m.cuts m.size :=
  ⟨List.pairwise_cons.mpr ⟨fun c hc => (m.cuts_inside c hc).1, m.cuts_ascend⟩,
    fun c hc => (m.cuts_inside c hc).2⟩

/-! ## the order of the segments -/

theorem segmentsFrom_eq_cons (start : Nat) (free : Bool) (cuts : List Nat) (size : Nat) :
    ∃ s rest, segmentsFrom start free cuts size = s :: rest ∧ s.start = start ∧ s.free = free := by
  cases cuts with
  | nil => exact ⟨⟨start, size, free⟩, [], rfl, rfl, rfl⟩
  | cons cut cuts => exact ⟨⟨start, cut, free⟩, _, rfl, rfl, rfl⟩

theorem chain_segmentsFrom (start : Nat) (free : Bool) (cuts : List Nat) (size : Nat) :
    (segmentsFrom start free cuts size).IsChain Segment.Continues := by
  induction cuts generalizing start free with
  | nil => exact .singleton _
  | cons cut cuts ih =>
    obtain ⟨s, rest, hsegments, hstart, hfree⟩ := segmentsFrom_eq_cons cut (!free) cuts size
    have hrest := ih cut (!free)
    rw [segmentsFrom, hsegments]
    rw [hsegments] at hrest
    refine List.isChain_cons_cons.mpr ⟨⟨hstart, ?_⟩, hrest⟩
    rw [hfree]
    exact Bool.not_ne_self free

theorem chain_segments (m : FreeMap) : m.segments.IsChain Segment.Continues := by
  unfold segments
  by_cases hzero : m.size = 0
  · rw [if_pos hzero]
    exact .nil
  · rw [if_neg hzero]
    exact chain_segmentsFrom 0 m.firstFree m.cuts m.size

/-! ## one segment for each offset -/

theorem start_lt_stop_of_mem {start size : Nat} {free : Bool} {cuts : List Nat} {s : Segment}
    (hascends : Ascends start cuts size) (hsize : start < size)
    (h : s ∈ segmentsFrom start free cuts size) : s.start < s.stop := by
  induction cuts generalizing start free with
  | nil =>
    rw [segmentsFrom, List.mem_singleton] at h
    subst h
    exact hsize
  | cons cut cuts ih =>
    rw [segmentsFrom] at h
    rcases List.mem_cons.mp h with rfl | h
    · exact hascends.lt_head
    · exact ih hascends.tail (hascends.2 cut (List.mem_cons_self ..)) h

theorem existsUnique_segmentsFrom {start size x : Nat} (free : Bool) {cuts : List Nat}
    (hascends : Ascends start cuts size) (hx : start ≤ x) (hsize : x < size) :
    ∃! s, s ∈ segmentsFrom start free cuts size ∧ s.start ≤ x ∧ x < s.stop := by
  induction cuts generalizing start free with
  | nil =>
    refine ⟨⟨start, size, free⟩, ⟨List.mem_singleton_self _, hx, hsize⟩, ?_⟩
    rintro s ⟨hs, _⟩
    exact List.mem_singleton.mp hs
  | cons cut cuts ih =>
    simp only [segmentsFrom, List.mem_cons]
    by_cases hcut : x < cut
    · -- every later segment begins at the cut or behind it
      refine ⟨⟨start, cut, free⟩, ⟨.inl rfl, hx, hcut⟩, ?_⟩
      rintro s ⟨rfl | hs, hlow, _⟩
      · rfl
      · have := (mem_segmentsFrom hascends.tail hs).1
        omega
    · obtain ⟨s, ⟨hs, hin⟩, hunique⟩ := ih (!free) hascends.tail (Nat.le_of_not_lt hcut)
      refine ⟨s, ⟨.inr hs, hin⟩, ?_⟩
      rintro t ⟨rfl | ht, htin⟩
      · exact absurd htin.2 hcut
      · exact hunique t ⟨ht, htin⟩

/-- **The segments share out the offsets of the map.** -/
theorem existsUnique_segment {m : FreeMap} {x : Nat} :
    (∃! s, s ∈ m.segments ∧ s.start ≤ x ∧ x < s.stop) ↔ x < m.size := by
  constructor
  · rintro ⟨s, ⟨hs, hstart, hstop⟩, _⟩
    exact Nat.lt_of_lt_of_le hstop (isFree_of_mem_segments hs hstart hstop).2
  · intro hx
    have hne : m.size ≠ 0 := by omega
    unfold segments
    rw [if_neg hne]
    exact existsUnique_segmentsFrom m.firstFree ascends_cuts (Nat.zero_le x) hx

theorem start_lt_stop_of_mem_segments {m : FreeMap} {s : Segment} (h : s ∈ m.segments) :
    s.start < s.stop := by
  unfold segments at h
  by_cases hzero : m.size = 0
  · rw [if_pos hzero] at h
    cases h
  · rw [if_neg hzero] at h
    exact start_lt_stop_of_mem ascends_cuts (Nat.pos_of_ne_zero hzero) h

/-! ## sizes -/

/-- the total length of the free segments -/
def freeLength (segments : List Segment) : Nat :=
  ((segments.filter (·.free)).map fun s => s.stop - s.start).foldr (· + ·) 0

theorem freeLength_cons (s : Segment) (rest : List Segment) :
    freeLength (s :: rest) = (if s.free then s.stop - s.start else 0) + freeLength rest := by
  unfold freeLength
  cases hfree : s.free with
  | true => rw [List.filter_cons_of_pos hfree]; rfl
  | false => rw [List.filter_cons_of_neg (by rw [hfree]; decide), if_neg (by decide), Nat.zero_add]

theorem countP_const {p : Nat → Bool} {b : Bool} {start count : Nat}
    (h : ∀ x, start ≤ x → x < start + count → p x = b) :
    (List.range' start count).countP p = if b then count else 0 := by
  have hcongr : (List.range' start count).countP p =
      (List.range' start count).countP fun _ => b := by
    apply List.countP_congr
    intro x hx
    rw [List.mem_range'_1] at hx
    rw [h x hx.1 hx.2]
  rw [hcongr]
  cases b with
  | true => rw [List.countP_true, List.length_range', if_pos rfl]
  | false => rw [List.countP_false, if_neg (by decide), Function.const_apply]

theorem freeLength_segmentsFrom {start size : Nat} (free : Bool) {cuts : List Nat}
    (hascends : Ascends start cuts size) (hsize : start < size) :
    freeLength (segmentsFrom start free cuts size) =
      (List.range' start (size - start)).countP fun x => free ^^ flips cuts x := by
  induction cuts generalizing start free with
  | nil =>
    have hclass : ∀ x, start ≤ x → x < start + (size - start) → (free ^^ flips [] x) = free := by
      intro x _ _
      rw [flips_nil, Bool.xor_false]
    rw [segmentsFrom, freeLength_cons, countP_const hclass]
    exact Nat.add_zero _
  | cons cut cuts ih =>
    have hcut := hascends.lt_head
    have hinside := hascends.2 cut (List.mem_cons_self ..)
    -- up to the cut nothing has changed, and behind it the cut counts for every offset
    have hbefore : ∀ x, start ≤ x → x < start + (cut - start) →
        (free ^^ flips (cut :: cuts) x) = free := by
      intro x _ hx
      rw [flips_of_lt, Bool.xor_false]
      intro c hc
      rcases List.mem_cons.mp hc with rfl | hc
      · omega
      · have := (List.pairwise_cons.mp hascends.tail.1).1 c hc
        omega
    have hbehind : (List.range' cut (size - cut)).countP (fun x => free ^^ flips (cut :: cuts) x) =
        (List.range' cut (size - cut)).countP fun x => (!free) ^^ flips cuts x := by
      apply List.countP_congr
      intro x hx
      rw [List.mem_range'_1] at hx
      rw [flips_cons, decide_eq_true hx.1]
      cases free <;> cases flips cuts x <;> decide
    have hsplit : List.range' start (size - start) =
        List.range' start (cut - start) ++ List.range' cut (size - cut) := by
      have happend := @List.range'_append_1 start (cut - start) (size - cut)
      rw [show start + (cut - start) = cut by omega,
        show cut - start + (size - cut) = size - start by omega] at happend
      exact happend.symm
    rw [segmentsFrom, freeLength_cons, ih (!free) hascends.tail hinside, hsplit,
      List.countP_append, countP_const hbefore, hbehind]

/-- **The size of what is free counts the free offsets.** -/
theorem freeBytes_eq (m : FreeMap) : m.freeBytes = (List.range m.size).countP m.isFree := by
  show freeLength m.segments = _
  unfold segments
  by_cases hzero : m.size = 0
  · rw [if_pos hzero, hzero]
    rfl
  · have hpos : 0 < m.size := Nat.pos_of_ne_zero hzero
    rw [if_neg hzero, freeLength_segmentsFrom m.firstFree ascends_cuts hpos, List.range_eq_range',
      Nat.sub_zero]
    apply List.countP_congr
    intro x hx
    rw [List.mem_range'_1, Nat.zero_add] at hx
    rw [isFree_eq hx.2]

/-- **The size of what is used counts the other offsets.** -/
theorem usedBytes_eq (m : FreeMap) :
    m.usedBytes = (List.range m.size).countP fun x => !m.isFree x := by
  have htotal := List.length_eq_countP_add_countP m.isFree (l := List.range m.size)
  rw [List.length_range, ← freeBytes_eq] at htotal
  have hnot : (List.range m.size).countP (fun x => ¬m.isFree x = true) =
      (List.range m.size).countP fun x => !m.isFree x := by
    apply List.countP_congr
    intro x _
    cases m.isFree x <;> decide
  rw [usedBytes]
  omega

end FreeMap

end Cartridge
