import Cartridge.Proofs.Except
import Cartridge.Proofs.FreeMap.Segments
import Mathlib.Order.Bounds.Basic

/-!
# First fit

The search looks at one place in each segment: the first one at or behind the hint from which the
region does not cross into the next bank.  That is enough, because a free run lies in one segment.

* `FreeMap.stop_of_mem_segments`   a segment ends where the class changes, or with the map;
* `FreeMap.Offers.exists_segment`  a place that is offered lies in one free segment;
* `FreeMap.withinBank_le`          no place in front of the one that is looked at stays in its bank;
* `FreeMap.exists_placeIn`         so a segment with a place for the region has one that is found;
* `FreeMap.findFree_le`            nothing in front of the answer is offered;
* `FreeMap.findFree_first_fit`     **the search gives the first place, and fails just when there is
                                   none.**
-/

namespace Cartridge

namespace FreeMap

/-! ## segments are longest runs -/

theorem stop_of_mem_segmentsFrom {start size : Nat} {free : Bool} {cuts : List Nat} {s : Segment}
    (h : s ∈ segmentsFrom start free cuts size) : s.stop = size ∨ s.stop ∈ cuts := by
  induction cuts generalizing start free with
  | nil =>
    rw [segmentsFrom, List.mem_singleton] at h
    exact .inl (by rw [h])
  | cons cut cuts ih =>
    rw [segmentsFrom] at h
    rcases List.mem_cons.mp h with rfl | h
    · exact .inr (List.mem_cons_self ..)
    · exact (ih h).imp_right (List.mem_cons_of_mem _)

/-- behind a segment the class is another one -/
theorem stop_of_mem_segments {m : FreeMap} {s : Segment} (h : s ∈ m.segments)
    (hstop : s.stop < m.size) : m.isFree s.stop ≠ s.free := by
  have hpos := start_lt_stop_of_mem_segments h
  have hlast := (isFree_of_mem_segments h (x := s.stop - 1) (by omega) (by omega)).1
  have hcut : s.stop ∈ m.cuts := by
    unfold segments at h
    have hsize : m.size ≠ 0 := by omega
    rw [if_neg hsize] at h
    exact (stop_of_mem_segmentsFrom h).resolve_left (Nat.ne_of_lt hstop)
  rw [← hlast]
  exact (mem_cuts.mp hcut).2.2

theorem pairwise_segmentsFrom {start size : Nat} (free : Bool) {cuts : List Nat}
    (hascends : Ascends start cuts size) :
    (segmentsFrom start free cuts size).Pairwise fun a b => a.stop ≤ b.start := by
  induction cuts generalizing start free with
  | nil => exact List.pairwise_singleton ..
  | cons cut cuts ih =>
    rw [segmentsFrom]
    refine List.pairwise_cons.mpr ⟨fun s hs => ?_, ih (!free) hascends.tail⟩
    exact (mem_segmentsFrom hascends.tail hs).1

theorem pairwise_segments (m : FreeMap) :
    m.segments.Pairwise fun a b => a.stop ≤ b.start := by
  unfold segments
  by_cases hzero : m.size = 0
  · rw [if_pos hzero]
    exact .nil
  · rw [if_neg hzero]
    exact pairwise_segmentsFrom m.firstFree ascends_cuts

/-! ## places -/

/-- a run of free offsets does not go on behind the segment in which it begins -/
theorem Offers.exists_segment {m : FreeMap} {size place : Nat} (h : m.Offers size place)
    (hpos : 0 < size) : ∃ s ∈ m.segments, s.free = true ∧ s.start ≤ place ∧ place + size ≤ s.stop := by
  have hinside := h.inside
  obtain ⟨s, ⟨hs, hstart, hstop⟩, _⟩ := existsUnique_segment.mpr (by omega : place < m.size)
  have hfree : s.free = true := by
    rw [← (isFree_of_mem_segments hs hstart hstop).1]
    exact h.free place (Nat.le_refl _) (by omega)
  refine ⟨s, hs, hfree, hstart, ?_⟩
  by_contra hends
  have hclass := stop_of_mem_segments hs (by omega)
  rw [h.free s.stop (by omega) (by omega), hfree] at hclass
  exact hclass rfl

/-- a place in the bank of `first` that is not in front of it has less of the bank behind it -/
theorem withinBank_le {m : FreeMap} {size first place : Nat} (hle : first ≤ place)
    (hbank : place % m.bankSize + size ≤ m.bankSize) : m.withinBank size first ≤ place := by
  unfold withinBank
  by_cases hcross : m.bankSize < first % m.bankSize + size
  · rw [if_pos hcross]
    by_contra hnext
    have hfirst := Nat.div_add_mod' first m.bankSize
    have hplace := Nat.div_add_mod' place m.bankSize
    have hlast : place / m.bankSize < first / m.bankSize + 1 :=
      (Nat.div_lt_iff_lt_mul m.bankSize_pos).mpr (Nat.lt_of_not_le hnext)
    have hsame : place / m.bankSize = first / m.bankSize :=
      Nat.le_antisymm (Nat.le_of_lt_succ hlast) (Nat.div_le_div_right hle)
    rw [hsame] at hplace
    omega
  · rw [if_neg hcross]
    exact hle

/-- where a segment has room, the search finds a place that is not behind it -/
theorem exists_placeIn {m : FreeMap} {size hint place : Nat} {s : Segment} (hpos : 0 < size)
    (hhint : hint ≤ place) (hbank : place % m.bankSize + size ≤ m.bankSize) (hfree : s.free = true)
    (hstart : s.start ≤ place) (hstop : place + size ≤ s.stop) :
    ∃ found ≤ place, m.placeIn size hint s = some found := by
  have hle : m.withinBank size (max s.start hint) ≤ place :=
    withinBank_le (Nat.max_le.mpr ⟨hstart, hhint⟩) hbank
  refine ⟨_, hle, if_pos ?_⟩
  simp only [hfree, Bool.true_and, Bool.and_eq_true, decide_eq_true_eq]
  omega

/-- a place that is found lies in its segment -/
theorem stop_of_placeIn {m : FreeMap} {size hint found : Nat} {s : Segment}
    (h : m.placeIn size hint s = some found) : found + size ≤ s.stop := by
  simp only [placeIn, Option.ite_none_right_eq_some, Option.some.injEq, Bool.and_eq_true,
    decide_eq_true_eq] at h
  obtain ⟨⟨_, hstop⟩, rfl⟩ := h
  exact hstop

/-- **Where something is offered the search finds it**, or what is offered in front of it. -/
theorem findFree_le {m : FreeMap} {size hint place : Nat} (hpos : 0 < size) (hhint : hint ≤ place)
    (h : m.Offers size place) : ∃ found ≤ place, m.findFree size hint = .ok found := by
  obtain ⟨s, hs, hfree, hstart, hstop⟩ := h.exists_segment hpos
  obtain ⟨first, hfirst, hplace⟩ := exists_placeIn hpos hhint h.in_bank hfree hstart hstop
  obtain ⟨found, hfound⟩ := Option.isSome_iff_exists.mp
    (List.findSome?_isSome_iff.mpr ⟨s, hs, Option.isSome_of_mem hplace⟩)
  refine ⟨found, ?_, ?_⟩
  · -- the segment of the answer is that of the place, or one in front of it
    obtain ⟨before, r, behind, hsegments, hr, hnone⟩ := List.findSome?_eq_some_iff.mp hfound
    have hordered := m.pairwise_segments
    rw [hsegments] at hs hordered
    rcases List.mem_append.mp hs with hs | hs
    · rw [hnone s hs] at hplace
      cases hplace
    · rcases List.mem_cons.mp hs with rfl | hs
      · rw [hr] at hplace
        obtain rfl := Option.some.inj hplace
        exact hfirst
      · have hbefore := (List.pairwise_cons.mp (List.pairwise_append.mp hordered).2.1).1 s hs
        have hends := stop_of_placeIn hr
        omega
  · have hinside := h.inside
    have hbank := h.in_bank
    have hzero : ¬ size = 0 := Nat.ne_of_gt hpos
    have hrefused : ¬ (m.bankSize < size ∨ m.size ≤ hint) := by omega
    unfold findFree
    rw [if_neg hzero, if_neg hrefused, hfound]

/-- a region that is not empty is refused for one reason only -/
theorem findFree_eq_error {m : FreeMap} {size hint : Nat} {e : Error} (hpos : 0 < size)
    (h : m.findFree size hint = .error e) : e = .outOfSpace size := by
  have hzero : ¬ size = 0 := Nat.ne_of_gt hpos
  unfold findFree at h
  rw [if_neg hzero] at h
  by_cases hrefused : m.bankSize < size ∨ m.size ≤ hint
  · rw [if_pos hrefused] at h
    cases h
    rfl
  · rw [if_neg hrefused] at h
    cases hfound : m.segments.findSome? (m.placeIn size hint) with
    | none =>
      rw [hfound] at h
      cases h
      rfl
    | some found =>
      rw [hfound] at h
      cases h

/-- **The search is first fit.**  It gives the least place at or behind the hint at which so many
offsets are free, all of them in one bank; without such a place there is no space.  The map is small
enough for the sums of the search to have 64 bits. -/
theorem findFree_first_fit {m : FreeMap} (hm : m.Addressable) {size : Nat} (hint : Nat)
    (h : 0 < size) :
    m.SumsFit ∧
    (∀ place, m.findFree size hint = .ok place ↔
      IsLeast {p | hint ≤ p ∧ m.Offers size p} place) ∧
    (m.findFree size hint = .error (.outOfSpace size) ↔ ∀ p, hint ≤ p → ¬ m.Offers size p) ∧
    ∀ e, m.findFree size hint = .error e → e = .outOfSpace size := by
  have hleast : ∀ {place}, m.findFree size hint = .ok place →
      IsLeast {p | hint ≤ p ∧ m.Offers size p} place := by
    intro place hfound
    refine ⟨⟨le_of_findFree hfound, (offers_of_findFree hfound).2⟩, ?_⟩
    rintro p ⟨hhint, hoffers⟩
    obtain ⟨found, hle, hsame⟩ := findFree_le h hhint hoffers
    rw [hfound] at hsame
    cases hsame
    exact hle
  refine ⟨sumsFit hm, fun place => ⟨hleast, fun hplace => ?_⟩,
    ⟨fun hfails p hhint hoffers => ?_, fun hnone => ?_⟩, fun e => findFree_eq_error h⟩
  · obtain ⟨found, _, hfound⟩ := findFree_le h hplace.1.1 hplace.1.2
    rw [hfound, (hleast hfound).unique hplace]
  · obtain ⟨found, _, hfound⟩ := findFree_le h hhint hoffers
    rw [hfound] at hfails
    cases hfails
  · cases hfound : m.findFree size hint with
    | error e => rw [findFree_eq_error h hfound]
    | ok place =>
      have hplace := (hleast hfound).1
      exact absurd hplace.2 (hnone place hplace.1)

/-- in a free segment that goes on over several banks: a region that does not fit behind the hint
goes to the next bank, and one that is larger than a bank has no place -/
theorem findFree_first_fit_banks :
    let m : FreeMap := ⟨64, 16, false, [12, 60], by decide, by decide, by decide, by decide⟩
    m.Addressable ∧
      0 < 13 ∧ m.findFree 13 20 = .ok 32 ∧ IsLeast {p | 20 ≤ p ∧ m.Offers 13 p} 32 ∧
      0 < 17 ∧ m.findFree 17 0 = .error (.outOfSpace 17) ∧ ∀ p, 0 ≤ p → ¬ m.Offers 17 p := by
  intro m
  have hm : m.Addressable := by decide
  have hfound : m.findFree 13 20 = .ok 32 := toOption_eq_some.mp (by decide +kernel)
  have hfails : m.findFree 17 0 = .error (.outOfSpace 17) := cause?_eq_some.mp (by decide +kernel)
  have hpos : 0 < 13 := by decide
  have hpos' : 0 < 17 := by decide
  exact ⟨hm, hpos, hfound, ((findFree_first_fit hm 20 hpos).2.1 32).mp hfound, hpos', hfails,
    (findFree_first_fit hm 0 hpos').2.2.1.mp hfails⟩

end FreeMap

end Cartridge
