import Cartridge.Proofs.FreeMap.FirstFit
import Cartridge.Proofs.FreeMap.Packing
import Cartridge.Proofs.FreeMap.SameBank

/-!
# When a search for several regions fails

The search tries each bank once, with the regions at the first places that are left, the largest
first.  A bank can hold regions that are not found in this way.  For two regions, and for sizes of
which each divides the larger ones, first fit finds a place for all of them wherever there is one.

* `FreeMap.Holds`            a bank has room for regions of some sizes, wherever they are put;
* `FreeMap.FirstFits`        it has room for them at the first places that are left;
* `FreeMap.Reserves.isLeast_iff`, `FreeMap.placeAll_eq_true_iff`   what is found behind tentative
                             marks, and when all the regions are placed;
* `FreeMap.searchBanks_eq_error_iff`   the search fails just when no bank fits them first;
* `FreeMap.Gaps`             what is left of a bank, as ranges with something between them;
* `FreeMap.firstFits_of_packs`   when first fit succeeds in the gaps;
* `FreeMap.findFreeSameBank_eq_error_iff`   **when the search fails.**
-/

namespace Cartridge

namespace FreeMap

/-- regions of these sizes can be placed in the bank, free and apart from each other -/
def Holds (m : FreeMap) (bank : Nat) (sizes : List Nat) : Prop :=
  ∃ offsets : List Nat, offsets.length = sizes.length ∧ m.OffersAll bank (regions offsets sizes)

/-- regions of these sizes can be placed in the bank one after the other, each at the first place
that is left; `taken` are the ranges of the earlier ones -/
def FirstFits (m : FreeMap) (bank : Nat) : List Range → List Nat → Prop
  | _, [] => True
  | taken, size :: sizes => ∃ place,
      IsLeast {p | m.OffersAll bank (⟨p, p + size⟩ :: taken)} place ∧
        m.FirstFits bank (⟨place, place + size⟩ :: taken) sizes

/-! ## one bank -/

section
variable {m m' : FreeMap} {bank : Nat} {taken : List Range} (h : m.Reserves bank taken m')
include h

/-- what is found in the bank, from its start on or from further in front, is the first place that
is left -/
theorem Reserves.isLeast_of_findFree {size hint place : Nat} (hhint : hint ≤ bank * m'.bankSize)
    (hfound : m'.findFree size hint = .ok place) (hbank : place / m'.bankSize = bank) :
    IsLeast {p | m.OffersAll bank (⟨p, p + size⟩ :: taken)} place := by
  obtain ⟨hpos, hoffers⟩ := offers_of_findFree hfound
  refine ⟨h.offersAll_cons_iff.mpr ⟨hpos, hoffers, hbank⟩, fun p hp => ?_⟩
  obtain ⟨_, hother, hin⟩ := h.offersAll_cons_iff.mp hp
  have hbehind := (Nat.le_div_iff_mul_le m'.bankSize_pos).mp (Nat.le_of_eq hin.symm)
  obtain ⟨found, hle, hsame⟩ := findFree_le hpos (Nat.le_trans hhint hbehind) hother
  rw [hfound] at hsame
  cases hsame
  exact hle

/-- the first place that is left is found from the start of the bank on -/
theorem Reserves.findFree_of_isLeast {size place : Nat}
    (hleast : IsLeast {p | m.OffersAll bank (⟨p, p + size⟩ :: taken)} place) :
    m'.findFree size (bank * m'.bankSize) = .ok place ∧ place / m'.bankSize = bank := by
  obtain ⟨hpos, hoffers, hbank⟩ := h.offersAll_cons_iff.mp hleast.1
  have hbehind := (Nat.le_div_iff_mul_le m'.bankSize_pos).mp (Nat.le_of_eq hbank.symm)
  obtain ⟨found, hle, hfound⟩ := findFree_le hpos hbehind hoffers
  have hin : found / m'.bankSize = bank := Nat.le_antisymm (hbank ▸ Nat.div_le_div_right hle)
    ((Nat.le_div_iff_mul_le m'.bankSize_pos).mpr (le_of_findFree hfound))
  have hsame := h.isLeast_of_findFree (Nat.le_refl _) hfound hin
  rw [← hsame.unique hleast]
  exact ⟨hfound, hin⟩

end

/-- **All the regions are placed just when first fit places them.** -/
theorem placeAll_eq_true_iff {m m' : FreeMap} {bank : Nat} {taken : List Range}
    {done : List Placed} {ws : List Wanted} (h : m.Reserves bank taken m') :
    (m'.placeAll bank done ws).1 = .ok true ↔ m.FirstFits bank taken (ws.map Wanted.size) := by
  induction ws generalizing m' taken done with
  | nil => exact ⟨fun _ => trivial, fun _ => rfl⟩
  | cons w ws ih =>
    rw [placeAll, List.map_cons, FirstFits]
    cases hfind : m'.findFree w.size (bank * m'.bankSize) with
    | error e =>
      refine ⟨fun hfails => (by cases hfails), ?_⟩
      rintro ⟨place, hleast, _⟩
      rw [(h.findFree_of_isLeast hleast).1] at hfind
      cases hfind
    | ok place =>
      dsimp only
      by_cases hbank : place / m'.bankSize = bank
      · have hleast := h.isLeast_of_findFree (Nat.le_refl _) hfind hbank
        obtain ⟨m'', hmark, hreserves⟩ := h.cons hfind hbank
        rw [if_neg (not_not.mpr hbank), hmark]
        refine (ih hreserves).trans ⟨fun hrest => ⟨place, hleast, hrest⟩, ?_⟩
        rintro ⟨other, hother, hrest⟩
        rw [hleast.unique hother]
        exact hrest
      · rw [if_pos hbank]
        refine ⟨fun hfails => (by cases hfails), ?_⟩
        rintro ⟨other, hother, _⟩
        obtain ⟨hfound, hin⟩ := h.findFree_of_isLeast hother
        rw [hfind] at hfound
        cases hfound
        exact absurd hin hbank

/-! ## bank after bank -/

/-- the largest region has a place in a bank that the regions fit first -/
theorem FirstFits.exists_offers {m : FreeMap} {bank size : Nat} {sizes : List Nat}
    (h : m.FirstFits bank [] (size :: sizes)) :
    ∃ place, 0 < size ∧ m.Offers size place ∧ place / m.bankSize = bank := by
  obtain ⟨place, hleast, _⟩ := h
  exact ⟨place, (m.reserves_nil bank).offersAll_cons_iff.mp hleast.1⟩

/-- the banks in front of that of the first place do not fit the regions, nor does any when there is
no place -/
theorem not_firstFits_of_findFree {m : FreeMap} {hint bank size : Nat} {sizes : List Nat}
    (hhint : hint ≤ bank * m.bankSize)
    (hfirst : ∀ first, m.findFree size hint = .ok first → bank < first / m.bankSize) :
    ¬ m.FirstFits bank [] (size :: sizes) := by
  intro hfits
  obtain ⟨place, hpos, hoffers, hbank⟩ := hfits.exists_offers
  have hbehind := (Nat.le_div_iff_mul_le m.bankSize_pos).mp (Nat.le_of_eq hbank.symm)
  obtain ⟨first, hle, hfound⟩ := findFree_le hpos (Nat.le_trans hhint hbehind) hoffers
  have hlt := hfirst first hfound
  have hge : first / m.bankSize ≤ place / m.bankSize := Nat.div_le_div_right hle
  omega

/-- a bank is given up just when it does not fit the regions first -/
theorem tryBank_eq_none_iff {m : FreeMap} {hint first : Nat} {largest : Wanted}
    {others : List Wanted} (h : m.findFree largest.size hint = .ok first)
    (hhint : hint ≤ first / m.bankSize * m.bankSize) :
    (m.tryBank first largest others).1 = .ok none ↔
      ¬ m.FirstFits (first / m.bankSize) [] ((largest :: others).map Wanted.size) := by
  have hnothing := m.reserves_nil (first / m.bankSize)
  have hleast := hnothing.isLeast_of_findFree hhint h rfl
  obtain ⟨marked, hmark, hreserves⟩ := hnothing.cons h rfl
  have hfits : (marked.placeAll (first / m.bankSize) [(first, largest)] others).1 = .ok true ↔
      m.FirstFits (first / m.bankSize) [] ((largest :: others).map Wanted.size) := by
    refine (placeAll_eq_true_iff hreserves).trans ⟨fun hrest => ⟨first, hleast, hrest⟩, ?_⟩
    rintro ⟨place, hplace, hrest⟩
    obtain rfl := hleast.unique hplace
    exact hrest
  have hfirst : m.Reserves (first / m.bankSize) ([(first, largest)].map Placed.range) marked :=
    hreserves
  obtain ⟨found, placed, filled, hrun, hplaced, _⟩ := placeAll_reserves hfirst others
  rw [← hfits, hrun]
  unfold tryBank
  rw [hmark]
  simp only [hrun, hplaced.undo]
  cases found with
  | false => exact ⟨fun _ hfound => (by cases hfound), fun _ => rfl⟩
  | true => exact ⟨fun hnone => (by cases hnone), fun hfound => absurd rfl hfound⟩

/-- a search that begins with a bank begins in front of the bank of its answer -/
theorem le_bank_of_aligned {m : FreeMap} {hint first : Nat} (haligned : m.bankSize ∣ hint)
    (h : hint ≤ first) : hint ≤ first / m.bankSize * m.bankSize := by
  obtain ⟨bank, rfl⟩ := haligned
  rw [Nat.mul_comm] at h ⊢
  exact Nat.mul_le_mul_right _ ((Nat.le_div_iff_mul_le m.bankSize_pos).mpr h)

/-- **The search fails just when no bank fits the regions first.** -/
theorem searchBanks_eq_error_iff {m : FreeMap} (sizes : List Nat) {largest : Wanted}
    {others : List Wanted} {hint : Nat} (haligned : m.bankSize ∣ hint) :
    (∃ e, (m.searchBanks sizes largest others hint).1 = .error e) ↔
      ∀ bank, hint ≤ bank * m.bankSize →
        ¬ m.FirstFits bank [] ((largest :: others).map Wanted.size) := by
  fun_induction searchBanks m sizes largest others hint with
  | case1 m hint hend =>
    refine ⟨fun _ bank hbank hfits => ?_, fun _ => ⟨_, rfl⟩⟩
    obtain ⟨place, hpos, hoffers, hin⟩ := hfits.exists_offers
    have hbehind := (Nat.le_div_iff_mul_le m.bankSize_pos).mp (Nat.le_of_eq hin.symm)
    have hinside := hoffers.inside
    omega
  | case2 m hint hend e hfind =>
    refine ⟨fun _ bank hbank => not_firstFits_of_findFree hbank fun first hfirst => ?_,
      fun _ => ⟨e, rfl⟩⟩
    rw [hfind] at hfirst
    cases hfirst
  | case3 m hint hend first hfind e m' htry =>
    obtain ⟨_, hnone | ⟨placed, hsome, _⟩⟩ := tryBank_eq hfind htry
    · cases hnone
    · cases hsome
  | case4 m hint hend first hfind places m' htry =>
    have hhint := le_bank_of_aligned haligned (le_of_findFree hfind)
    have hfits : (m.tryBank first largest others).1 = .ok none ↔ _ :=
      tryBank_eq_none_iff hfind hhint
    rw [htry] at hfits
    constructor
    · rintro ⟨e, hfails⟩
      cases hfails
    · intro hnone
      exact absurd (hfits.mpr (hnone _ hhint)) (by simp)
  | case5 m hint hend first hfind m' htry ih =>
    obtain ⟨rfl, _⟩ := tryBank_eq hfind htry
    have hhint := le_bank_of_aligned haligned (le_of_findFree hfind)
    have hfits : (m'.tryBank first largest others).1 = .ok none ↔ _ :=
      tryBank_eq_none_iff hfind hhint
    rw [htry] at hfits
    refine (ih (Nat.dvd_mul_left ..)).trans ⟨fun hnone bank hbank => ?_, fun hnone bank hbank => ?_⟩
    · rcases Nat.lt_trichotomy bank (first / m'.bankSize) with hlt | rfl | hgt
      · refine not_firstFits_of_findFree hbank fun other hother => ?_
        rw [hfind] at hother
        cases hother
        exact hlt
      · exact hfits.mp rfl
      · exact hnone bank (Nat.mul_le_mul_right _ hgt)
    · have hnext := m'.lt_next_bank first
      have hbehind := le_of_findFree hfind
      exact hnone bank (by omega)

/-! ## what is left of a bank -/

/-- the offsets of the bank that are free and not taken, as ranges that do not touch -/
structure Gaps (m : FreeMap) (bank : Nat) (taken gaps : List Range) : Prop where
  apart : gaps.Pairwise fun g g' => g.stop < g'.start
  mem_iff : ∀ x, (∃ g ∈ gaps, x ∈ g) ↔
    x / m.bankSize = bank ∧ m.isFree x = true ∧ ∀ r ∈ taken, x ∉ r

/-- the free segments, as far as they lie in the bank -/
def freeIn (m : FreeMap) (bank : Nat) : List Range :=
  (m.segments.filter (·.free)).map fun s =>
    ⟨max s.start (bank * m.bankSize), min s.stop ((bank + 1) * m.bankSize)⟩

theorem gaps_freeIn (m : FreeMap) (bank : Nat) : m.Gaps bank [] (m.freeIn bank) where
  apart := by
    refine List.pairwise_map.mpr ((m.pairwise_segments.filter _).imp_of_mem ?_)
    intro a b ha hb hle
    obtain ⟨ha, hafree⟩ := List.mem_filter.mp ha
    obtain ⟨hb, hbfree⟩ := List.mem_filter.mp hb
    have hbpos := start_lt_stop_of_mem_segments hb
    obtain ⟨hbclass, hbsize⟩ := isFree_of_mem_segments hb (Nat.le_refl _) hbpos
    -- two free segments do not touch, for the class changes behind the first one
    have hne : a.stop ≠ b.start := by
      intro hsame
      have hchange := stop_of_mem_segments ha (by omega)
      rw [hsame, hbclass, hbfree, hafree] at hchange
      exact hchange rfl
    show min a.stop _ < max b.start _
    omega
  mem_iff := by
    intro x
    constructor
    · rintro ⟨g, hg, hx⟩
      obtain ⟨s, hs, rfl⟩ := List.mem_map.mp hg
      obtain ⟨hs, hfree⟩ := List.mem_filter.mp hs
      obtain ⟨hlow, hhigh⟩ : max s.start (bank * m.bankSize) ≤ x ∧
        x < min s.stop ((bank + 1) * m.bankSize) := hx
      refine ⟨Nat.div_eq_of_lt_le (by omega) (by omega), ?_, by simp⟩
      rw [(isFree_of_mem_segments hs (by omega) (by omega)).1]
      exact hfree
    · rintro ⟨rfl, hfree, _⟩
      obtain ⟨s, ⟨hs, hstart, hstop⟩, _⟩ := existsUnique_segment.mpr (lt_size_of_isFree hfree)
      have hclass := (isFree_of_mem_segments hs hstart hstop).1
      refine ⟨_, List.mem_map_of_mem (List.mem_filter.mpr ⟨hs, hclass ▸ hfree⟩), ?_⟩
      have hnext := m.lt_next_bank x
      have hbank := Nat.div_mul_le_self x m.bankSize
      show max s.start _ ≤ x ∧ x < min s.stop _
      omega

section
variable {m : FreeMap} {bank : Nat} {taken : List Range}

/-- a range of offsets that are left lies in one gap -/
theorem Gaps.exists_gap {gaps : List Range} (h : m.Gaps bank taken gaps) {r : Range}
    (hfilled : r.start < r.stop) (hleft : ∀ x ∈ r, ∃ g ∈ gaps, x ∈ g) :
    ∃ g ∈ gaps, g.start ≤ r.start ∧ r.stop ≤ g.stop := by
  obtain ⟨g, hg, hstart, hinside⟩ := hleft r.start ⟨Nat.le_refl _, hfilled⟩
  refine ⟨g, hg, hstart, ?_⟩
  by_contra hends
  obtain ⟨g', hg', hstart', hinside'⟩ := hleft g.stop ⟨by omega, by omega⟩
  have hsymm : Std.Symm fun a b : Range => a.stop < b.start ∨ b.stop < a.start :=
    ⟨fun _ _ => Or.symm⟩
  have hne : g ≠ g' := by
    rintro rfl
    omega
  have hapart : gaps.Pairwise fun a b => a.stop < b.start ∨ b.stop < a.start :=
    h.apart.imp Or.inl
  have hends' := hapart.forall hg hg' hne
  omega

theorem Gaps.offersAll_cons_iff {gaps : List Range} (h : m.Gaps bank taken gaps)
    (htaken : m.OffersAll bank taken) {place size : Nat} :
    m.OffersAll bank (⟨place, place + size⟩ :: taken) ↔
      0 < size ∧ ∃ g ∈ gaps, g.start ≤ place ∧ place + size ≤ g.stop := by
  constructor
  · intro hall
    have hr : (⟨place, place + size⟩ : Range) ∈ Range.mk place (place + size) :: taken :=
      List.mem_cons_self ..
    have hfilled : place < place + size := hall.filled _ hr
    have hleft : ∀ x ∈ Range.mk place (place + size), ∃ g ∈ gaps, x ∈ g := by
      intro x hx
      exact (h.mem_iff x).mpr ⟨hall.in_bank _ hr x hx, hall.free _ hr x hx,
        fun r hr' => (List.pairwise_cons.mp hall.apart).1 r hr' x hx⟩
    exact ⟨by omega, h.exists_gap hfilled hleft⟩
  · rintro ⟨hpos, g, hg, hstart, hstop⟩
    have hleft : ∀ x ∈ Range.mk place (place + size),
        x / m.bankSize = bank ∧ m.isFree x = true ∧ ∀ r ∈ taken, x ∉ r := by
      rintro x ⟨hlow, hhigh⟩
      exact (h.mem_iff x).mp ⟨g, hg, Nat.le_trans hstart hlow, Nat.lt_of_lt_of_le hhigh hstop⟩
    exact ⟨List.forall_mem_cons.mpr ⟨Nat.lt_add_of_pos_right hpos, htaken.filled⟩,
      List.forall_mem_cons.mpr ⟨fun x hx => (hleft x hx).1, htaken.in_bank⟩,
      List.forall_mem_cons.mpr ⟨fun x hx => (hleft x hx).2.1, htaken.free⟩,
      List.pairwise_cons.mpr ⟨fun r hr x hx => (hleft x hx).2.2 r hr, htaken.apart⟩⟩

variable {front back : List Range} {g : Range} (h : m.Gaps bank taken (front ++ g :: back))
include h

/-- the first gap with room holds the first place -/
theorem Gaps.isLeast (htaken : m.OffersAll bank taken) {size : Nat} (hpos : 0 < size)
    (hfront : ∀ g' ∈ front, g'.length < size) (hroom : size ≤ g.length) :
    IsLeast {p | m.OffersAll bank (⟨p, p + size⟩ :: taken)} g.start := by
  rw [Range.length] at hroom
  refine ⟨(h.offersAll_cons_iff htaken).mpr ⟨hpos, g, ?_, Nat.le_refl _, by omega⟩, fun p hp => ?_⟩
  · exact List.mem_append_right _ (List.mem_cons_self ..)
  · obtain ⟨_, g', hg', hstart, hstop⟩ := (h.offersAll_cons_iff htaken).mp hp
    rcases List.mem_append.mp hg' with hg' | hg'
    · have hsmall := hfront g' hg'
      rw [Range.length] at hsmall
      omega
    · rcases List.mem_cons.mp hg' with rfl | hg'
      · exact hstart
      · have hbehind := (List.pairwise_cons.mp (List.pairwise_append.mp h.apart).2.1).1 g' hg'
        omega

/-- the start of a gap is taken -/
theorem Gaps.take {size : Nat} (hroom : g.start + size ≤ g.stop) :
    m.Gaps bank (⟨g.start, g.start + size⟩ :: taken)
      (front ++ ⟨g.start + size, g.stop⟩ :: back) := by
  obtain ⟨hfront, hrest, hbefore⟩ := List.pairwise_append.mp h.apart
  obtain ⟨hbehind, hback⟩ := List.pairwise_cons.mp hrest
  refine ⟨?_, fun x => ?_⟩
  · refine List.pairwise_append.mpr ⟨hfront, List.pairwise_cons.mpr ⟨hbehind, hback⟩, ?_⟩
    intro a ha b hb
    rcases List.mem_cons.mp hb with rfl | hb
    · have := hbefore a ha g (List.mem_cons_self ..)
      show a.stop < g.start + size
      omega
    · exact hbefore a ha b (List.mem_cons_of_mem _ hb)
  · have hparts : ∀ part : Range, (∃ g' ∈ front ++ part :: back, x ∈ g') ↔
        (∃ g' ∈ front, x ∈ g') ∨ x ∈ part ∨ ∃ g' ∈ back, x ∈ g' := by
      intro part
      simp only [List.mem_append, List.mem_cons, or_and_right, exists_or, exists_eq_left]
    have hlow : (∃ g' ∈ front, x ∈ g') → x < g.start := by
      rintro ⟨g', hg', hx⟩
      exact Nat.lt_trans hx.2 (hbefore g' hg' g (List.mem_cons_self ..))
    have hhigh : (∃ g' ∈ back, x ∈ g') → g.stop < x := by
      rintro ⟨g', hg', hx⟩
      exact Nat.lt_of_lt_of_le (hbehind g' hg') hx.1
    have hleft : (∃ g' ∈ front ++ ⟨g.start + size, g.stop⟩ :: back, x ∈ g') ↔
        (∃ g' ∈ front ++ g :: back, x ∈ g') ∧ x ∉ Range.mk g.start (g.start + size) := by
      rw [hparts, hparts, Range.mem_iff, Range.mem_iff, Range.mem_iff]
      dsimp only
      constructor
      · rintro (hin | hin | hin)
        · have := hlow hin
          exact ⟨.inl hin, by omega⟩
        · exact ⟨.inr (.inl (by omega)), by omega⟩
        · have := hhigh hin
          exact ⟨.inr (.inr hin), by omega⟩
      · rintro ⟨hin | hin | hin, hout⟩
        · exact .inl hin
        · exact .inr (.inl (by omega))
        · exact .inr (.inr hin)
    rw [hleft, h.mem_iff, List.forall_mem_cons]
    constructor
    · rintro ⟨⟨hbank, hfree, hrest⟩, hout⟩
      exact ⟨hbank, hfree, hout, hrest⟩
    · rintro ⟨hbank, hfree, hout, hrest⟩
      exact ⟨⟨hbank, hfree, hrest⟩, hout⟩

end

/-- **First fit places sizes that can be shared out among the gaps**, each of them exchangeable
among the smaller ones. -/
theorem firstFits_of_packs {m : FreeMap} {bank : Nat} {taken gaps : List Range} {sizes : List Nat}
    (hgaps : m.Gaps bank taken gaps) (htaken : m.OffersAll bank taken)
    (hpos : ∀ size ∈ sizes, 0 < size) (hexchange : EachExchangeable sizes)
    (h : Packs (gaps.map Range.length) sizes) : m.FirstFits bank taken sizes := by
  induction sizes generalizing taken gaps with
  | nil => trivial
  | cons size sizes ih =>
    rw [← Multiset.cons_coe] at h
    obtain ⟨hsize, hrest⟩ := List.forall_mem_cons.mp hpos
    obtain ⟨room, hroom, hle⟩ := h.exists_le
    obtain ⟨wide, hwide, rfl⟩ := List.mem_map.mp hroom
    have hfound : (gaps.find? fun g => size ≤ g.length).isSome :=
      List.find?_isSome.mpr ⟨wide, hwide, decide_eq_true hle⟩
    obtain ⟨g, hfound⟩ := Option.isSome_iff_exists.mp hfound
    obtain ⟨hg, front, back, rfl, hfront⟩ := List.find?_eq_some_iff_append.mp hfound
    have hle : size ≤ g.length := of_decide_eq_true hg
    have hfront : ∀ g' ∈ front, g'.length < size := by simpa using hfront
    have hends : g.start + size ≤ g.stop := by
      rw [Range.length] at hle
      omega
    have hleast := hgaps.isLeast htaken hsize hfront hle
    refine ⟨g.start, hleast, ih (hgaps.take hends) hleast.1 hrest hexchange.2 ?_⟩
    rw [List.map_append, List.map_cons] at h
    have hpacks := h.first_fit (List.forall_mem_map.mpr hfront) hle hexchange.1
    have hshorter : g.length - size = (Range.mk (g.start + size) g.stop).length :=
      Nat.sub_sub ..
    rwa [hshorter, ← List.map_cons, ← List.map_append] at hpacks

/-- an arrangement shares out what is left of its bank -/
theorem FirstFits.of_holds {m : FreeMap} {bank : Nat} {sizes ordered : List Nat}
    (hperm : ordered.Perm sizes) (hexchange : EachExchangeable ordered)
    (h : m.Holds bank sizes) : m.FirstFits bank [] ordered := by
  obtain ⟨offsets, hlength, hoffers⟩ := h
  have hgaps := m.gaps_freeIn bank
  have hsizes := sizes_regions hlength
  have hin : ∀ r ∈ regions offsets sizes, ∃ g ∈ m.freeIn bank, g.start ≤ r.start ∧ r.stop ≤ g.stop :=
    fun r hr => hgaps.exists_gap (hoffers.filled r hr) fun x hx =>
      (hgaps.mem_iff x).mpr ⟨hoffers.in_bank r hr x hx, hoffers.free r hr x hx, by simp⟩
  have hpacks : Packs ((m.freeIn bank).map Range.length) (sizes : Multiset Nat) :=
    hsizes ▸ packs_of_apart hoffers.apart hin
  have hpos : ∀ size ∈ ordered, 0 < size := by
    intro size hsize
    rw [hperm.mem_iff, ← hsizes] at hsize
    obtain ⟨r, hr, rfl⟩ := List.mem_map.mp hsize
    exact Nat.sub_pos_of_lt (hoffers.filled r hr)
  rw [← Multiset.coe_eq_coe.mpr hperm] at hpacks
  exact firstFits_of_packs hgaps (m.offersAll_nil bank) hpos hexchange hpacks

/-! ## the search -/

theorem largestFirst_perm (sizes : List Nat) :
    ((largestFirst sizes).map Wanted.size).Perm sizes := by
  refine ((List.mergeSort_perm _ _).map Wanted.size).trans ?_
  rw [List.map_map]
  exact .of_eq (List.zipIdx_map_fst ..)

theorem largestFirst_descends (sizes : List Nat) :
    ((largestFirst sizes).map Wanted.size).Pairwise (· ≥ ·) := by
  refine List.pairwise_map.mpr ((List.pairwise_mergeSort ?_ ?_ _).imp of_decide_eq_true)
  · intro a b c hab hbc
    exact decide_eq_true (Nat.le_trans (of_decide_eq_true hbc) (of_decide_eq_true hab))
  · intro a b
    simp only [Bool.or_eq_true, decide_eq_true_eq]
    exact Nat.le_total ..

/-- **When a search for several regions fails.**  When it fails, no bank has room for the regions at
the first places that are left, the largest first.  A bank may hold them all the same, but not when
they are no more than two, or each size divides the larger ones.  It fails only then, in a map that
is small enough for the sums of the search to have 64 bits. -/
theorem findFreeSameBank_eq_error_iff (m : FreeMap) (sizes : List Nat) :
    ((∃ e, (m.findFreeSameBank sizes).1 = .error e) →
      (∀ bank, ¬ m.FirstFits bank [] ((largestFirst sizes).map Wanted.size)) ∧
      (sizes.length ≤ 2 ∨ (∀ a ∈ sizes, ∀ b ∈ sizes, a ≤ b → a ∣ b) →
        ∀ bank, ¬ m.Holds bank sizes)) ∧
    (m.Addressable → m.SumsFit ∧
      ((∃ e, (m.findFreeSameBank sizes).1 = .error e) ↔
        ∀ bank, ¬ m.FirstFits bank [] ((largestFirst sizes).map Wanted.size)) ∧
      (sizes.length ≤ 2 ∨ (∀ a ∈ sizes, ∀ b ∈ sizes, a ≤ b → a ∣ b) →
        ((∃ e, (m.findFreeSameBank sizes).1 = .error e) ↔ ∀ bank, ¬ m.Holds bank sizes))) := by
  have hfirst : (∃ e, (m.findFreeSameBank sizes).1 = .error e) ↔
      ∀ bank, ¬ m.FirstFits bank [] ((largestFirst sizes).map Wanted.size) := by
    unfold findFreeSameBank
    cases largestFirst sizes with
    | nil =>
      refine ⟨?_, fun hnone => absurd trivial (hnone 0)⟩
      rintro ⟨e, hfails⟩
      cases hfails
    | cons largest others =>
      refine (searchBanks_eq_error_iff sizes (Nat.dvd_zero _)).trans ?_
      simp only [Nat.zero_le, true_implies]
  have hnone : (∃ e, (m.findFreeSameBank sizes).1 = .error e) →
      sizes.length ≤ 2 ∨ (∀ a ∈ sizes, ∀ b ∈ sizes, a ≤ b → a ∣ b) →
        ∀ bank, ¬ m.Holds bank sizes := by
    intro hfails hsizes bank hholds
    have hperm := largestFirst_perm sizes
    have hdescends := largestFirst_descends sizes
    refine hfirst.mp hfails bank (.of_holds hperm ?_ hholds)
    rcases hsizes with hfew | hchain
    · exact eachExchangeable_of_length_le_two (hperm.length_eq.trans_le hfew) hdescends
    · refine eachExchangeable_of_dvd hdescends fun a ha b hb => ?_
      exact hchain a (hperm.mem_iff.mp ha) b (hperm.mem_iff.mp hb)
  refine ⟨fun hfails => ⟨hfirst.mp hfails, hnone hfails⟩, fun hm => ⟨sumsFit hm, hfirst,
    fun hsizes => ⟨fun hfails => hnone hfails hsizes, fun hnone => ?_⟩⟩⟩
  · cases hfound : (m.findFreeSameBank sizes).1 with
    | error e => exact ⟨e, rfl⟩
    | ok offsets =>
      obtain ⟨hlength, bank, hoffers⟩ := (m.offers_of_findFreeSameBank sizes).2 offsets hfound
      exact absurd ⟨offsets, hlength, hoffers⟩ (hnone bank)

/-- the largest region takes the only gap that holds both of the others; and two regions that no
arrangement places -/
theorem findFreeSameBank_eq_error_crowded :
    let m : FreeMap := ⟨16, 16, true, [6, 8, 12], by decide, by decide, by decide, by decide⟩
    m.Addressable ∧ (m.findFreeSameBank [4, 3, 3]).1 = .error (.noSharedBank [4, 3, 3]) ∧
      (∀ bank, ¬ m.FirstFits bank [] [4, 3, 3]) ∧ m.Holds 0 [4, 3, 3] ∧
      (m.findFreeSameBank [5, 5]).1 = .error (.noSharedBank [5, 5]) ∧
      ∀ bank, ¬ m.Holds bank [5, 5] := by
  intro m
  have hmissed : (m.findFreeSameBank [4, 3, 3]).1 = .error (.noSharedBank [4, 3, 3]) :=
    cause?_eq_some.mp (by subst m; cbv)
  have hrefused : (m.findFreeSameBank [5, 5]).1 = .error (.noSharedBank [5, 5]) :=
    cause?_eq_some.mp (by subst m; cbv)
  have hordered : (largestFirst [4, 3, 3]).map Wanted.size = [4, 3, 3] := by cbv
  have hoffers : m.OffersAll 0 (regions [8, 0, 3] [4, 3, 3]) :=
    ⟨by decide, by decide, by decide, by decide⟩
  have hm : m.Addressable := by decide
  have hfirst := ((findFreeSameBank_eq_error_iff m [4, 3, 3]).2 hm).2.1.mp ⟨_, hmissed⟩
  rw [hordered] at hfirst
  exact ⟨hm, hmissed, hfirst, ⟨[8, 0, 3], rfl, hoffers⟩, hrefused,
    ((findFreeSameBank_eq_error_iff m [5, 5]).1 ⟨_, hrefused⟩).2 (.inl (by decide))⟩

end FreeMap

end Cartridge
