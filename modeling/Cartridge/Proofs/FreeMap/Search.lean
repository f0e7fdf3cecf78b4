import Cartridge.FreeMap.Search
import Cartridge.Proofs.FreeMap.Classes
import Mathlib.Algebra.Group.Nat.Defs

/-!
# What a search finds

* `FreeMap.isFree_of_mem_segments`   every offset of a segment has the class of the segment;
* `FreeMap.Offers`           a place at which so many offsets are free, all in one bank;
* `FreeMap.Addressable`, `FreeMap.sumsFit`   in a map that is not too large no sum of a search
                             leaves 64 bits;
* `FreeMap.offers_of_findFree`   a search gives such a place.
-/

namespace Cartridge

namespace FreeMap

/-! ## segments -/

/-- what `segmentsFrom` is called with: the start and the cuts ascend to the size -/
def Ascends (start : Nat) (cuts : List Nat) (size : Nat) : Prop :=
  (start :: cuts).Pairwise (· < ·) ∧ ∀ c ∈ cuts, c < size

theorem Ascends.tail {start cut size : Nat} {cuts : List Nat}
    (h : Ascends start (cut :: cuts) size) : Ascends cut cuts size :=
  ⟨(List.pairwise_cons.mp h.1).2, fun c hc => h.2 c (List.mem_cons_of_mem _ hc)⟩

theorem Ascends.lt_head {start cut size : Nat} {cuts : List Nat}
    (h : Ascends start (cut :: cuts) size) : start < cut :=
  (List.pairwise_cons.mp h.1).1 cut (List.mem_cons_self ..)

theorem mem_segmentsFrom {start size : Nat} {free : Bool} {cuts : List Nat} {s : Segment}
    (hascends : Ascends start cuts size) (h : s ∈ segmentsFrom start free cuts size) :
    start ≤ s.start ∧ s.stop ≤ size ∧
      ∀ x, s.start ≤ x → x < s.stop → (free ^^ flips cuts x) = s.free := by
  induction cuts generalizing start free with
  | nil =>
    rw [segmentsFrom, List.mem_singleton] at h
    subst h
    refine ⟨Nat.le_refl _, Nat.le_refl _, ?_⟩
    intro x _ _
    rw [flips_nil, Bool.xor_false]
  | cons cut cuts ih =>
    rw [segmentsFrom] at h
    have hcut := hascends.lt_head
    have hrest := hascends.tail
    rcases List.mem_cons.mp h with h | h
    · subst h
      refine ⟨Nat.le_refl _, Nat.le_of_lt (hascends.2 cut (List.mem_cons_self ..)), ?_⟩
      intro x _ hx
      have hfront : flips (cut :: cuts) x = false := by
        apply flips_of_lt
        intro c hc
        rcases List.mem_cons.mp hc with rfl | hc
        · exact hx
        · exact Nat.lt_trans hx ((List.pairwise_cons.mp hrest.1).1 c hc)
      rw [hfront, Bool.xor_false]
    · obtain ⟨hstart, hstop, hclass⟩ := ih hrest h
      refine ⟨by omega, hstop, ?_⟩
      intro x hx hlt
      have hpassed : cut ≤ x := Nat.le_trans hstart hx
      rw [← hclass x hx hlt, flips_cons, decide_eq_true hpassed]
      cases free <;> cases flips cuts x <;> rfl

theorem isFree_of_mem_segments {m : FreeMap} {s : Segment} (h : s ∈ m.segments) {x : Nat}
    (hstart : s.start ≤ x) (hstop : x < s.stop) : m.isFree x = s.free ∧ s.stop ≤ m.size := by
  unfold segments at h
  by_cases hzero : m.size = 0
  · rw [if_pos hzero] at h
    cases h
  · rw [if_neg hzero] at h
    have hascends : Ascends 0 m.cuts m.size := by
      refine ⟨List.pairwise_cons.mpr ⟨fun c hc => (m.cuts_inside c hc).1, m.cuts_ascend⟩, ?_⟩
      exact fun c hc => (m.cuts_inside c hc).2
    obtain ⟨_, hsize, hclass⟩ := mem_segmentsFrom hascends h
    refine ⟨?_, hsize⟩
    rw [isFree_eq (Nat.lt_of_lt_of_le hstop hsize)]
    exact hclass x hstart hstop

/-! ## places -/

/-- at `place` there are `size` free offsets, all in one bank -/
structure Offers (m : FreeMap) (size place : Nat) : Prop where
  inside : place + size ≤ m.size
  in_bank : place % m.bankSize + size ≤ m.bankSize
  free : ∀ x, place ≤ x → x < place + size → m.isFree x = true

/-- the offsets of the map, and of two more banks, have 64 bits -/
def Addressable (m : FreeMap) : Prop := m.size + 2 * m.bankSize ≤ 2 ^ 64

instance (m : FreeMap) : Decidable m.Addressable := inferInstanceAs (Decidable (_ ≤ _))

/-- The sums of a search fit into 64 bits: an offset in its bank with a size, the start of the next
bank, and the end of what is placed.  Searches keep the size of the map and of its banks, so this
goes for the tentative places as well. -/
def SumsFit (m : FreeMap) : Prop :=
  ∀ size ≤ m.bankSize, ∀ first < m.size,
    first % m.bankSize + size < 2 ^ 64 ∧ (first / m.bankSize + 1) * m.bankSize < 2 ^ 64 ∧
      m.withinBank size first + size < 2 ^ 64

theorem sumsFit {m : FreeMap} (h : m.Addressable) : m.SumsFit := by
  intro size hsize first hfirst
  unfold Addressable at h
  have hmod := Nat.mod_le first m.bankSize
  have hnext : (first / m.bankSize + 1) * m.bankSize ≤ first + m.bankSize := by
    rw [Nat.add_mul, Nat.one_mul]
    exact Nat.add_le_add_right (Nat.div_mul_le_self ..) _
  have hplace : m.withinBank size first ≤ first + m.bankSize := by
    unfold withinBank
    split
    · exact hnext
    · exact Nat.le_add_right ..
  omega

theorem withinBank_in_bank {m : FreeMap} {size first : Nat} (h : size ≤ m.bankSize) :
    m.withinBank size first % m.bankSize + size ≤ m.bankSize := by
  unfold withinBank
  by_cases hcross : m.bankSize < first % m.bankSize + size
  · rw [if_pos hcross, Nat.mul_mod_left, Nat.zero_add]
    exact h
  · rw [if_neg hcross]
    exact Nat.le_of_not_lt hcross

/-- **A search gives a place that is free.** -/
theorem offers_of_findFree {m : FreeMap} {size hint place : Nat}
    (h : m.findFree size hint = .ok place) : 0 < size ∧ m.Offers size place := by
  unfold findFree at h
  by_cases hzero : size = 0
  · rw [if_pos hzero] at h
    cases h
  rw [if_neg hzero] at h
  by_cases hrefused : m.bankSize < size ∨ m.size ≤ hint
  · rw [if_pos hrefused] at h
    cases h
  rw [if_neg hrefused] at h
  have hsize : size ≤ m.bankSize := by omega
  cases hfound : m.segments.findSome? (m.placeIn size hint) with
  | none =>
    rw [hfound] at h
    cases h
  | some p =>
    rw [hfound] at h
    cases h
    obtain ⟨s, hs, hplace⟩ := List.exists_of_findSome?_eq_some hfound
    simp only [placeIn, Option.ite_none_right_eq_some, Option.some.injEq, Bool.and_eq_true,
      decide_eq_true_eq] at hplace
    obtain ⟨⟨⟨hfree, _⟩, hend⟩, rfl⟩ := hplace
    have hfirst : s.start ≤ m.withinBank size (max s.start hint) :=
      Nat.le_trans (Nat.le_max_left ..) (m.le_withinBank size _)
    have hclass : ∀ x, m.withinBank size (max s.start hint) ≤ x →
        x < m.withinBank size (max s.start hint) + size → m.isFree x = true ∧ s.stop ≤ m.size := by
      intro x hx hlt
      obtain ⟨hx, hstop⟩ := isFree_of_mem_segments hs (Nat.le_trans hfirst hx)
        (Nat.lt_of_lt_of_le hlt hend)
      exact ⟨hx.trans hfree, hstop⟩
    have hpos : 0 < size := Nat.pos_of_ne_zero hzero
    have hinside := (hclass _ (Nat.le_refl _) (by omega)).2
    exact ⟨hpos, Nat.le_trans hend hinside, withinBank_in_bank hsize,
      fun x hx hlt => (hclass x hx hlt).1⟩

end FreeMap

end Cartridge
