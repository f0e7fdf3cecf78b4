import Cartridge.Proofs.FreeMap.Classes
import Mathlib.Algebra.BigOperators.Group.Multiset.Basic
import Mathlib.Algebra.GroupWithZero.Nat
import Mathlib.Data.Multiset.Sort

/-!
# Sizes shared out among gaps

Whether regions of given sizes can be placed apart in some gaps depends on the lengths of the gaps
alone.  To put the largest region into the first gap with room for it can do harm: the gap may then
be missing for smaller ones that fill it better.  It does none when, of any regions that are
together as large as the largest, some are exactly as large.

* `Packs`                    the sizes can be shared out among the gaps;
* `packs_of_apart`           regions that are apart, each in a gap, share the gaps out;
* `Packs.exchange`           smaller regions in place of one that is as large as all of them;
* `Exchangeable`, `Packs.first_fit`   when the first gap with room may be taken;
* `eachExchangeable_of_length_le_two`, `eachExchangeable_of_dvd`   two regions, or sizes of which each
                             divides the larger ones.
-/

namespace Cartridge

def Range.length (r : Range) : Nat := r.stop - r.start

/-- sizes shared out among gaps of the given lengths, the sizes in a gap no more than its length -/
def Packs : List Nat → Multiset Nat → Prop
  | [], sizes => sizes = 0
  | gap :: gaps, sizes =>
    ∃ here elsewhere, sizes = here + elsewhere ∧ here.sum ≤ gap ∧ Packs gaps elsewhere

/-! ## arrangements -/

/-- ranges that are apart have as many offsets together as they have one by one -/
theorem sum_length_le {rs : List Range} {gap : Range} (hapart : rs.Pairwise Range.Disjoint)
    (hin : ∀ r ∈ rs, gap.start ≤ r.start ∧ r.stop ≤ gap.stop) :
    (rs.map Range.length).sum ≤ gap.length := by
  have hmem : ∀ {r : Range} {x : Nat}, x ∈ List.range' r.start r.length → x ∈ r := by
    intro r x hx
    rw [List.mem_range'_1, Range.length] at hx
    exact ⟨hx.1, by omega⟩
  have hnodup : (rs.flatMap fun r => List.range' r.start r.length).Nodup := by
    refine List.nodup_flatMap.mpr ⟨fun r _ => List.nodup_range', hapart.imp ?_⟩
    exact fun hdisjoint x hx hx' => hdisjoint x (hmem hx) (hmem hx')
  have hsub : (rs.flatMap fun r => List.range' r.start r.length) ⊆
      List.range' gap.start gap.length := by
    intro x hx
    obtain ⟨r, hr, hx⟩ := List.mem_flatMap.mp hx
    obtain ⟨hlow, hhigh⟩ := hmem hx
    have := hin r hr
    rw [List.mem_range'_1, Range.length]
    omega
  have hle := (hnodup.subperm hsub).length_le
  rwa [List.length_flatMap, List.length_range', List.map_congr_left fun r _ =>
    List.length_range'] at hle

/-- **Regions that are apart, each of them in a gap, share the gaps out.** -/
theorem packs_of_apart {gaps rs : List Range} (hapart : rs.Pairwise Range.Disjoint)
    (hin : ∀ r ∈ rs, ∃ gap ∈ gaps, gap.start ≤ r.start ∧ r.stop ≤ gap.stop) :
    Packs (gaps.map Range.length) (rs.map Range.length : List Nat) := by
  induction gaps generalizing rs with
  | nil =>
    cases rs with
    | nil => rfl
    | cons r rs =>
      obtain ⟨gap, hgap, _⟩ := hin r (List.mem_cons_self ..)
      cases hgap
  | cons gap gaps ih =>
    let inside : Range → Bool := fun r => gap.start ≤ r.start ∧ r.stop ≤ gap.stop
    refine ⟨((rs.filter inside).map Range.length : List Nat),
      ((rs.filter fun r => !inside r).map Range.length : List Nat), ?_, ?_, ?_⟩
    · rw [Multiset.coe_add, ← List.map_append]
      exact (Multiset.coe_eq_coe.mpr ((List.filter_append_perm inside rs).map _)).symm
    · rw [Multiset.sum_coe]
      refine sum_length_le (hapart.filter _) fun r hr => ?_
      exact of_decide_eq_true (List.mem_filter.mp hr).2
    · refine ih (hapart.filter _) fun r hr => ?_
      obtain ⟨hr, hout⟩ := List.mem_filter.mp hr
      obtain ⟨other, hother, hends⟩ := hin r hr
      rcases List.mem_cons.mp hother with rfl | hother
      · rw [show inside r = true from decide_eq_true hends] at hout
        cases hout
      · exact ⟨other, hother, hends⟩

/-! ## the first gap with room -/

/-- one of the sizes is here or elsewhere -/
theorem cons_eq_add {size : Nat} {sizes here elsewhere : Multiset Nat}
    (h : size ::ₘ sizes = here + elsewhere) :
    (∃ rest, here = size ::ₘ rest ∧ sizes = rest + elsewhere) ∨
      ∃ rest, elsewhere = size ::ₘ rest ∧ sizes = here + rest := by
  have hmem : size ∈ here + elsewhere := h ▸ Multiset.mem_cons_self size sizes
  rcases Multiset.mem_add.mp hmem with hmem | hmem
  · obtain ⟨rest, rfl⟩ := Multiset.exists_cons_of_mem hmem
    rw [Multiset.cons_add] at h
    exact .inl ⟨rest, rfl, (Multiset.cons_inj_right size).mp h⟩
  · obtain ⟨rest, rfl⟩ := Multiset.exists_cons_of_mem hmem
    rw [Multiset.add_cons] at h
    exact .inr ⟨rest, rfl, (Multiset.cons_inj_right size).mp h⟩

/-- smaller sizes take the place of one that is as large as all of them -/
theorem Packs.exchange {gaps : List Nat} {size : Nat} {sizes smaller : Multiset Nat}
    (h : Packs gaps (size ::ₘ sizes)) (hsum : smaller.sum ≤ size) :
    Packs gaps (smaller + sizes) := by
  induction gaps generalizing sizes with
  | nil => exact absurd h (Multiset.cons_ne_zero)
  | cons gap gaps ih =>
    obtain ⟨here, elsewhere, hsizes, hroom, hrest⟩ := h
    rcases cons_eq_add hsizes with ⟨rest, rfl, rfl⟩ | ⟨rest, rfl, rfl⟩
    · rw [Multiset.sum_cons] at hroom
      refine ⟨smaller + rest, elsewhere, (Multiset.add_assoc ..).symm, ?_, hrest⟩
      rw [Multiset.sum_add]
      omega
    · refine ⟨here, smaller + rest, ?_, hroom, ih hrest⟩
      rw [← Multiset.add_assoc, Multiset.add_comm smaller here, Multiset.add_assoc]

/-- some gap has room for each of the sizes -/
theorem Packs.exists_le {gaps : List Nat} {size : Nat} {sizes : Multiset Nat}
    (h : Packs gaps (size ::ₘ sizes)) : ∃ gap ∈ gaps, size ≤ gap := by
  induction gaps generalizing sizes with
  | nil => exact absurd h (Multiset.cons_ne_zero)
  | cons gap gaps ih =>
    obtain ⟨here, elsewhere, hsizes, hroom, hrest⟩ := h
    rcases cons_eq_add hsizes with ⟨rest, rfl, _⟩ | ⟨rest, rfl, _⟩
    · rw [Multiset.sum_cons] at hroom
      exact ⟨gap, List.mem_cons_self .., by omega⟩
    · obtain ⟨other, hother, hle⟩ := ih hrest
      exact ⟨other, List.mem_cons_of_mem _ hother, hle⟩

/-- of sizes that are together at least as large as `size`, some are together just as large -/
def Exchangeable (size : Nat) (sizes : Multiset Nat) : Prop :=
  ∀ chosen ≤ sizes, size ≤ chosen.sum → ∃ part ≤ chosen, part.sum = size

/-- **The first gap with room for an exchangeable size may be taken.**  What an arrangement has put
there goes where the arrangement has put that size. -/
theorem Packs.first_fit {front back : List Nat} {gap size : Nat} {sizes : Multiset Nat}
    (h : Packs (front ++ gap :: back) (size ::ₘ sizes)) (hfront : ∀ g ∈ front, g < size)
    (hgap : size ≤ gap) (hexchange : Exchangeable size sizes) :
    Packs (front ++ (gap - size) :: back) sizes := by
  induction front generalizing sizes with
  | nil =>
    obtain ⟨here, elsewhere, hsizes, hroom, hrest⟩ := h
    rcases cons_eq_add hsizes with ⟨rest, rfl, rfl⟩ | ⟨rest, rfl, rfl⟩
    · rw [Multiset.sum_cons] at hroom
      exact ⟨rest, elsewhere, rfl, by omega, hrest⟩
    · by_cases hlarge : size ≤ here.sum
      · obtain ⟨part, hpart, hsum⟩ := hexchange here (Multiset.le_add_right ..) hlarge
        obtain ⟨left, rfl⟩ := Multiset.le_iff_exists_add.mp hpart
        rw [Multiset.sum_add] at hroom
        refine ⟨left, part + rest, ?_, by omega, hrest.exchange (Nat.le_of_eq hsum)⟩
        rw [Multiset.add_comm part left, Multiset.add_assoc]
      · refine ⟨0, here + rest, (Multiset.zero_add _).symm, Nat.zero_le _, hrest.exchange ?_⟩
        exact Nat.le_of_not_le hlarge
  | cons g front ih =>
    obtain ⟨here, elsewhere, hsizes, hroom, hrest⟩ := h
    have hsmall := hfront g (List.mem_cons_self ..)
    rcases cons_eq_add hsizes with ⟨rest, rfl, rfl⟩ | ⟨rest, rfl, rfl⟩
    · rw [Multiset.sum_cons] at hroom
      omega
    · refine ⟨here, rest, rfl, hroom, ?_⟩
      exact ih hrest (fun g' hg' => hfront g' (List.mem_cons_of_mem _ hg')) fun chosen hchosen =>
        hexchange chosen (le_trans hchosen (Multiset.le_add_left ..))

/-! ## exchangeable sizes -/

theorem exchangeable_of_card_le_one {size : Nat} {sizes : Multiset Nat} (hcard : sizes.card ≤ 1)
    (hle : ∀ other ∈ sizes, other ≤ size) : Exchangeable size sizes := by
  intro chosen hchosen hsum
  have hcard : chosen.card ≤ 1 := Nat.le_trans (Multiset.card_le_card hchosen) hcard
  rcases Nat.le_one_iff_eq_zero_or_eq_one.mp hcard with hcard | hcard
  · obtain rfl := Multiset.card_eq_zero.mp hcard
    exact ⟨0, le_refl _, (Nat.le_zero.mp hsum).symm⟩
  · obtain ⟨other, rfl⟩ := Multiset.card_eq_one.mp hcard
    have hother := hle other (Multiset.mem_of_le hchosen (Multiset.mem_singleton_self other))
    rw [Multiset.sum_singleton] at hsum
    refine ⟨{other}, le_refl _, ?_⟩
    rw [Multiset.sum_singleton]
    exact Nat.le_antisymm hother hsum

/-- taking one after the other, the largest first, comes out at `total`: what is missing is always a
multiple of the next one -/
theorem exists_sum_eq {sizes : List Nat} {total : Nat} (hdvd : ∀ size ∈ sizes, size ∣ total)
    (hchain : sizes.Pairwise fun a b => b ∣ a) (hsum : total ≤ sizes.sum) :
    ∃ part : List Nat, part.Sublist sizes ∧ part.sum = total := by
  induction sizes generalizing total with
  | nil => exact ⟨[], .slnil, (Nat.le_zero.mp hsum).symm⟩
  | cons size sizes ih =>
    obtain ⟨hfirst, hrest⟩ := List.pairwise_cons.mp hchain
    have hsize := hdvd size (List.mem_cons_self ..)
    rw [List.sum_cons] at hsum
    rcases Nat.eq_zero_or_pos total with rfl | hpos
    · exact ⟨[], List.nil_sublist _, rfl⟩
    · have hle : size ≤ total := Nat.le_of_dvd hpos hsize
      have hmissing : ∀ other ∈ sizes, other ∣ total - size := fun other hother =>
        Nat.dvd_sub (hdvd other (List.mem_cons_of_mem _ hother)) (hfirst other hother)
      obtain ⟨part, hpart, hpartSum⟩ := ih hmissing hrest (by omega)
      refine ⟨size :: part, hpart.cons_cons size, ?_⟩
      rw [List.sum_cons, hpartSum]
      omega

theorem exchangeable_of_dvd {size : Nat} {sizes : Multiset Nat} (hdvd : ∀ a ∈ sizes, a ∣ size)
    (hchain : ∀ a ∈ sizes, ∀ b ∈ sizes, a ≤ b → a ∣ b) : Exchangeable size sizes := by
  intro chosen hchosen hsum
  have hmem : ∀ a ∈ chosen.sort (· ≥ ·), a ∈ sizes := fun a ha =>
    Multiset.mem_of_le hchosen ((Multiset.mem_sort (· ≥ ·)).mp ha)
  have hsorted : (chosen.sort (· ≥ ·)).Pairwise fun a b => b ∣ a :=
    (Multiset.pairwise_sort chosen (· ≥ ·)).imp_of_mem fun ha hb hge =>
      hchain _ (hmem _ hb) _ (hmem _ ha) hge
  have htotal : size ≤ (chosen.sort (· ≥ ·)).sum := by
    rwa [← Multiset.sum_coe, Multiset.sort_eq]
  obtain ⟨part, hpart, hpartSum⟩ := exists_sum_eq (fun a ha => hdvd a (hmem a ha)) hsorted htotal
  refine ⟨part, ?_, ?_⟩
  · rw [← Multiset.sort_eq chosen (· ≥ ·)]
    exact Multiset.coe_le.mpr hpart.subperm
  · rw [Multiset.sum_coe, hpartSum]

/-- each size is exchangeable among those behind it -/
def EachExchangeable : List Nat → Prop
  | [] => True
  | size :: sizes => Exchangeable size sizes ∧ EachExchangeable sizes

theorem eachExchangeable_of_length_le_two {sizes : List Nat} (hlength : sizes.length ≤ 2)
    (hdescends : sizes.Pairwise (· ≥ ·)) : EachExchangeable sizes := by
  induction sizes with
  | nil => trivial
  | cons size sizes ih =>
    obtain ⟨hfirst, hrest⟩ := List.pairwise_cons.mp hdescends
    rw [List.length_cons] at hlength
    exact ⟨exchangeable_of_card_le_one (Nat.le_of_succ_le_succ hlength) hfirst,
      ih (Nat.le_of_succ_le hlength) hrest⟩

theorem eachExchangeable_of_dvd {sizes : List Nat} (hdescends : sizes.Pairwise (· ≥ ·))
    (hchain : ∀ a ∈ sizes, ∀ b ∈ sizes, a ≤ b → a ∣ b) : EachExchangeable sizes := by
  induction sizes with
  | nil => trivial
  | cons size sizes ih =>
    obtain ⟨hfirst, hrest⟩ := List.pairwise_cons.mp hdescends
    have hbehind : ∀ a ∈ sizes, ∀ b ∈ sizes, a ≤ b → a ∣ b := fun a ha b hb =>
      hchain a (List.mem_cons_of_mem _ ha) b (List.mem_cons_of_mem _ hb)
    refine ⟨exchangeable_of_dvd (fun a ha => ?_) hbehind, ih hrest hbehind⟩
    exact hchain a (List.mem_cons_of_mem _ ha) size (List.mem_cons_self ..) (hfirst a ha)

end Cartridge
