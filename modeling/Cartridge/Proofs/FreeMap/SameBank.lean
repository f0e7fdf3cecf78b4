import Cartridge.Proofs.Except
import Cartridge.Proofs.FreeMap.Search
import Mathlib.Data.List.Pairwise
import Mathlib.Data.List.Permutation

/-!
# What a search for several regions finds

The search marks the places it tries, so that the next region is not put over them, and takes the
marks back before it tries another bank or answers.

* `FreeMap.OffersAll`        ranges that are free, in one bank and apart from each other;
* `FreeMap.Reserves`         a map with such ranges of another map used;
* `FreeMap.Reserves.offersAll_cons_iff`, `FreeMap.Reserves.cons`   one more region fits, is found
                             and marked;
* `FreeMap.OffersAll.reserve`   ranges that are offered can be marked, and
* `FreeMap.Reserves.undo`    **taking the marks back gives the first map**;
* `FreeMap.tryBank_eq`, `FreeMap.searchBanks_offers`   one bank, and bank after bank;
* `FreeMap.regions`          the ranges of an answer, in the order of the request;
* `FreeMap.offers_of_findFreeSameBank`   **the search changes nothing, and offers what it answers;**
* `FreeMap.findFreeSameBank_sound`       the same, said of the places of the answer.
-/

namespace Cartridge

namespace FreeMap

/-! ## regions in one bank -/

structure OffersAll (m : FreeMap) (bank : Nat) (rs : List Range) : Prop where
  filled : ∀ r ∈ rs, r.start < r.stop
  in_bank : ∀ r ∈ rs, ∀ x ∈ r, x / m.bankSize = bank
  free : ∀ r ∈ rs, ∀ x ∈ r, m.isFree x = true
  apart : rs.Pairwise Range.Disjoint

theorem lt_size_of_isFree {m : FreeMap} {x : Nat} (h : m.isFree x = true) : x < m.size := by
  by_contra hsize
  rw [isFree_of_size_le m x (Nat.le_of_not_lt hsize)] at h
  cases h

theorem offersAll_nil (m : FreeMap) (bank : Nat) : m.OffersAll bank [] where
  filled := by simp
  in_bank := by simp
  free := by simp
  apart := .nil

section
variable {m : FreeMap} {bank : Nat} {rs : List Range} (h : m.OffersAll bank rs)
include h

/-- the last offset of a range is free, so it lies inside the map -/
theorem OffersAll.inside : ∀ r ∈ rs, r.stop ≤ m.size := by
  intro r hr
  have hlast : r.stop - 1 ∈ r := by
    have := h.filled r hr
    show r.start ≤ r.stop - 1 ∧ r.stop - 1 < r.stop
    omega
  have := lt_size_of_isFree (h.free r hr _ hlast)
  omega

theorem OffersAll.reverse : m.OffersAll bank rs.reverse where
  filled := fun r hr => h.filled r (List.mem_reverse.mp hr)
  in_bank := fun r hr => h.in_bank r (List.mem_reverse.mp hr)
  free := fun r hr => h.free r (List.mem_reverse.mp hr)
  apart := List.pairwise_reverse.mpr (h.apart.imp Range.Disjoint.symm)

end

theorem div_of_in_bank {m : FreeMap} {size place x : Nat}
    (h : place % m.bankSize + size ≤ m.bankSize) (hx : x ∈ Range.mk place (place + size)) :
    x / m.bankSize = place / m.bankSize := by
  obtain ⟨hlow, hhigh⟩ : place ≤ x ∧ x < place + size := hx
  have hplace := Nat.div_add_mod' place m.bankSize
  refine Nat.div_eq_of_lt_le ?_ ?_
  · omega
  · rw [Nat.succ_mul]
    omega

theorem in_bank_of_div {m : FreeMap} {bank size place : Nat} (hpos : 0 < size)
    (h : ∀ x ∈ Range.mk place (place + size), x / m.bankSize = bank) :
    place % m.bankSize + size ≤ m.bankSize := by
  have hfilled : place < place + size := Nat.lt_add_of_pos_right hpos
  have hfirst := h place ⟨Nat.le_refl _, hfilled⟩
  have hlast := h (place + size - 1)
    ⟨Nat.le_sub_one_of_lt hfilled, Nat.sub_lt (Nat.zero_lt_of_lt hfilled) Nat.one_pos⟩
  have hend := Nat.lt_div_mul_add (a := place + size - 1) m.bankSize_pos
  have hstart := Nat.div_add_mod' place m.bankSize
  rw [hlast] at hend
  rw [hfirst] at hstart
  omega

/-- a place that is offered is a range of its bank -/
theorem Offers.offersAll {m : FreeMap} {size place : Nat} (h : m.Offers size place)
    (hpos : 0 < size) : m.OffersAll (place / m.bankSize) [⟨place, place + size⟩] where
  filled := List.forall_mem_singleton.mpr (Nat.lt_add_of_pos_right hpos)
  in_bank := List.forall_mem_singleton.mpr fun _ hx => div_of_in_bank h.in_bank hx
  free := List.forall_mem_singleton.mpr fun x hx => h.free x hx.1 hx.2
  apart := List.pairwise_singleton ..

/-! ## tentative marks -/

/-- `m'` is `m` with ranges used that `m` offers -/
structure Reserves (m : FreeMap) (bank : Nat) (rs : List Range) (m' : FreeMap) : Prop where
  offers : m.OffersAll bank rs
  size : m'.size = m.size
  bankSize : m'.bankSize = m.bankSize
  isFree : ∀ x, m'.isFree x = true ↔ m.isFree x = true ∧ ∀ r ∈ rs, x ∉ r

theorem reserves_nil (m : FreeMap) (bank : Nat) : m.Reserves bank [] m where
  offers := m.offersAll_nil bank
  size := rfl
  bankSize := rfl
  isFree := by simp

section
variable {m m' : FreeMap} {bank : Nat} {rs : List Range} (h : m.Reserves bank rs m')
include h

theorem Reserves.reverse : m.Reserves bank rs.reverse m' where
  offers := h.offers.reverse
  size := h.size
  bankSize := h.bankSize
  isFree := fun x => by simp only [List.mem_reverse, h.isFree]

/-- one more range can be placed just where the map with the marks has room for it -/
theorem Reserves.offersAll_cons_iff {size place : Nat} :
    m.OffersAll bank (⟨place, place + size⟩ :: rs) ↔
      0 < size ∧ m'.Offers size place ∧ place / m'.bankSize = bank := by
  constructor
  · intro hall
    have hr : (⟨place, place + size⟩ : Range) ∈ Range.mk place (place + size) :: rs :=
      List.mem_cons_self ..
    have hfilled : place < place + size := hall.filled _ hr
    have hfirst := hall.in_bank _ hr place ⟨Nat.le_refl _, hfilled⟩
    have hpos : 0 < size := by omega
    refine ⟨hpos, ⟨?_, ?_, fun x hlow hhigh => ?_⟩, h.bankSize ▸ hfirst⟩
    · rw [h.size]
      exact hall.inside _ hr
    · rw [h.bankSize]
      exact in_bank_of_div hpos (hall.in_bank _ hr)
    · refine (h.isFree x).mpr ⟨hall.free _ hr x ⟨hlow, hhigh⟩, fun r hr => ?_⟩
      exact (List.pairwise_cons.mp hall.apart).1 r hr x ⟨hlow, hhigh⟩
  · rintro ⟨hpos, hoffers, hbank⟩
    have hone := hoffers.offersAll hpos
    have hfree := List.forall_mem_singleton.mp hone.free
    refine ⟨?_, ?_, ?_, ?_⟩
    · exact List.forall_mem_cons.mpr ⟨Nat.lt_add_of_pos_right hpos, h.offers.filled⟩
    · refine List.forall_mem_cons.mpr ⟨fun x hx => ?_, h.offers.in_bank⟩
      rw [← h.bankSize, ← hbank]
      exact List.forall_mem_singleton.mp hone.in_bank x hx
    · exact List.forall_mem_cons.mpr ⟨fun x hx => ((h.isFree x).mp (hfree x hx)).1, h.offers.free⟩
    · refine List.pairwise_cons.mpr ⟨fun r hr x hx => ?_, h.offers.apart⟩
      exact ((h.isFree x).mp (hfree x hx)).2 r hr

/-- what is found behind the marks is apart from them -/
theorem Reserves.cons {size hint place : Nat} (hplace : m'.findFree size hint = .ok place)
    (hbank : place / m'.bankSize = bank) :
    ∃ m'', m'.markUsed ⟨place, place + size⟩ = .ok m'' ∧
      m.Reserves bank (⟨place, place + size⟩ :: rs) m'' := by
  obtain ⟨hpos, hoffers⟩ := offers_of_findFree hplace
  have hfree := List.forall_mem_singleton.mp (hoffers.offersAll hpos).free
  have hstart : place < m'.size := lt_size_of_isFree (hfree place ⟨Nat.le_refl _, by simpa⟩)
  obtain ⟨m'', hmark⟩ := exists_mark (m := m') false (Nat.lt_add_of_pos_right hpos) hstart
  obtain ⟨hsize, hbankSize⟩ := size_of_mark hmark
  refine ⟨m'', hmark, h.offersAll_cons_iff.mpr ⟨hpos, hoffers, hbank⟩, hsize.trans h.size,
    hbankSize.trans h.bankSize, fun x => ?_⟩
  rw [isFree_mark hmark, List.forall_mem_cons]
  by_cases hx : x ∈ Range.mk place (place + size)
  · rw [if_pos ⟨hx, lt_size_of_isFree (hfree x hx)⟩]
    simp [hx]
  · rw [if_neg fun hin => hx hin.1, h.isFree]
    simp [hx]

theorem Reserves.undo : m'.markEach true rs = (.ok (), m) := by
  have hdone : (m'.markEach true rs).1 = .ok () := by
    refine markEach_eq_ok.mpr fun r hr => ⟨h.offers.filled r hr, ?_⟩
    rw [h.size]
    exact Nat.lt_of_lt_of_le (h.offers.filled r hr) (h.offers.inside r hr)
  obtain ⟨hsize, hbankSize⟩ := size_of_markEach m' true rs
  refine Prod.ext hdone (ext_isFree (hsize.trans h.size) (hbankSize.trans h.bankSize) fun x => ?_)
  rw [isFree_markEach hdone]
  by_cases hx : ∃ r ∈ rs, x ∈ r
  · obtain ⟨r, hr, hxr⟩ := hx
    have hfree := h.offers.free r hr x hxr
    rw [if_pos ⟨h.size ▸ lt_size_of_isFree hfree, r, hr, hxr⟩, hfree]
  · rw [if_neg fun hin => hx hin.2]
    have hout : ∀ r ∈ rs, x ∉ r := fun r hr hxr => hx ⟨r, hr, hxr⟩
    have hsame := h.isFree x
    rw [and_iff_left hout] at hsame
    exact Bool.eq_iff_iff.mpr hsame

end

/-- ranges that are offered can all be marked -/
theorem OffersAll.reserve {m : FreeMap} {bank : Nat} {rs : List Range} (h : m.OffersAll bank rs) :
    ∃ m', m.markEach false rs = (.ok (), m') ∧ m.Reserves bank rs m' := by
  have hdone : (m.markEach false rs).1 = .ok () := by
    refine markEach_eq_ok.mpr fun r hr => ⟨h.filled r hr, ?_⟩
    exact Nat.lt_of_lt_of_le (h.filled r hr) (h.inside r hr)
  obtain ⟨hsize, hbankSize⟩ := size_of_markEach m false rs
  refine ⟨_, Prod.ext hdone rfl, h, hsize, hbankSize, fun x => ?_⟩
  rw [isFree_markEach hdone]
  by_cases hx : ∃ r ∈ rs, x ∈ r
  · obtain ⟨r, hr, hxr⟩ := hx
    rw [if_pos ⟨lt_size_of_isFree (h.free r hr x hxr), r, hr, hxr⟩]
    exact ⟨fun hfree => Bool.noConfusion hfree, fun hout => (hout.2 r hr hxr).elim⟩
  · have hout : ∀ r ∈ rs, x ∉ r := fun r hr hxr => hx ⟨r, hr, hxr⟩
    rw [if_neg fun hin => hx hin.2, and_iff_left hout]

/-- the places are kept last first, and answered first to last -/
theorem Reserves.placed {m m' : FreeMap} {bank : Nat} {done : List Placed}
    (h : m.Reserves bank (done.map Placed.range) m') :
    m.Reserves bank (done.reverse.map Placed.range) m' := by
  rw [List.map_reverse]
  exact h.reverse

/-- the regions are placed behind those that are done, as far as there is room -/
theorem placeAll_reserves {m m' : FreeMap} {bank : Nat} {done : List Placed}
    (h : m.Reserves bank (done.map Placed.range) m') (ws : List Wanted) :
    ∃ found placed marked, m'.placeAll bank done ws = (.ok found, placed, marked) ∧
      m.Reserves bank (placed.map Placed.range) marked ∧
      (found = true → placed.map Prod.snd = (done.map Prod.snd).reverse ++ ws) := by
  induction ws generalizing m' done with
  | nil =>
    refine ⟨true, done.reverse, m', rfl, h.placed, fun _ => ?_⟩
    rw [List.map_reverse, List.append_nil]
  | cons w rest ih =>
    rw [placeAll]
    cases hplace : m'.findFree w.size (bank * m'.bankSize) with
    | error e => exact ⟨false, done.reverse, m', rfl, h.placed, fun h => by cases h⟩
    | ok place =>
      simp only
      by_cases hbank : place / m'.bankSize = bank
      · obtain ⟨m'', hmark, hreserves⟩ := h.cons hplace hbank
        have hnext : m.Reserves bank (((place, w) :: done).map Placed.range) m'' := hreserves
        obtain ⟨found, placed, marked, hrun, hplaced, hall⟩ := ih hnext
        rw [if_neg (not_not.mpr hbank), hmark]
        refine ⟨found, placed, marked, hrun, hplaced, fun hfound => ?_⟩
        rw [hall hfound, List.map_cons, List.reverse_cons, List.append_assoc]
        rfl
      · rw [if_pos hbank]
        exact ⟨false, done.reverse, m', rfl, h.placed, fun h => by cases h⟩

/-! ## banks -/

/-- a bank that is tried is left as it was, whether there is room in it or not -/
theorem tryBank_eq {m m' : FreeMap} {hint first : Nat} {largest : Wanted} {others : List Wanted}
    {answer : Except Error (Option (List Nat))} (h : m.findFree largest.size hint = .ok first)
    (htry : m.tryBank first largest others = (answer, m')) :
    m' = m ∧ (answer = .ok none ∨
      ∃ placed, answer = .ok (some (inOrder (others.length + 1) placed)) ∧
        placed.map Prod.snd = largest :: others ∧
        m.OffersAll (first / m.bankSize) (placed.map Placed.range)) := by
  obtain ⟨marked, hmark, hreserves⟩ := (m.reserves_nil (first / m.bankSize)).cons h rfl
  have hfirst : m.Reserves (first / m.bankSize) ([(first, largest)].map Placed.range) marked :=
    hreserves
  obtain ⟨found, placed, filled, hrun, hplaced, hall⟩ := placeAll_reserves hfirst others
  unfold tryBank at htry
  rw [hmark] at htry
  simp only [hrun, hplaced.undo] at htry
  cases htry
  refine ⟨rfl, ?_⟩
  cases found with
  | false => exact .inl rfl
  | true => exact .inr ⟨placed, rfl, hall rfl, hplaced.offers⟩

theorem searchBanks_offers (m : FreeMap) (sizes : List Nat) (largest : Wanted)
    (others : List Wanted) (hint : Nat) :
    (m.searchBanks sizes largest others hint).2 = m ∧
      ∀ offsets, (m.searchBanks sizes largest others hint).1 = .ok offsets →
        ∃ bank placed, offsets = inOrder (others.length + 1) placed ∧
          placed.map Prod.snd = largest :: others ∧ m.OffersAll bank (placed.map Placed.range) := by
  fun_induction searchBanks m sizes largest others hint with
  | case1 m hint hend => exact ⟨rfl, fun offsets h => by cases h⟩
  | case2 m hint hend e hfind => exact ⟨rfl, fun offsets h => by cases h⟩
  | case3 m hint hend first hfind e m' htry =>
    obtain ⟨_, hnone | ⟨placed, hsome, _⟩⟩ := tryBank_eq hfind htry
    · cases hnone
    · cases hsome
  | case4 m hint hend first hfind places m' htry =>
    obtain ⟨rfl, hnone | ⟨placed, hsome, hwanted, hoffers⟩⟩ := tryBank_eq hfind htry
    · cases hnone
    · cases hsome
      refine ⟨rfl, fun offsets h => ?_⟩
      cases h
      exact ⟨_, placed, rfl, hwanted, hoffers⟩
  | case5 m hint hend first hfind m' htry ih =>
    obtain ⟨rfl, _⟩ := tryBank_eq hfind htry
    exact ih

/-! ## the order of the request -/

/-- one range for each size -/
def regions (offsets sizes : List Nat) : List Range :=
  (offsets.zip sizes).map fun (start, size) => ⟨start, start + size⟩

theorem sizes_regions {offsets sizes : List Nat} (h : offsets.length = sizes.length) :
    (regions offsets sizes).map (fun r => r.stop - r.start) = sizes := by
  rw [regions, List.map_map]
  refine (List.map_congr_left fun p _ => ?_).trans (List.map_snd_zip (Nat.le_of_eq h.symm))
  exact Nat.add_sub_cancel_left ..

/-- the range of a slot -/
theorem mem_regions {offsets sizes : List Nat} {slot place size : Nat}
    (hplace : offsets[slot]? = some place) (hsize : sizes[slot]? = some size) :
    ⟨place, place + size⟩ ∈ regions offsets sizes := by
  have hzip : (offsets.zip sizes)[slot]? = some (place, size) :=
    List.getElem?_zip_eq_some.mpr ⟨hplace, hsize⟩
  exact List.mem_map_of_mem (List.mem_of_getElem? hzip)

theorem mem_largestFirst {sizes : List Nat} {w : Wanted} :
    w ∈ largestFirst sizes ↔ sizes[w.slot]? = some w.size := by
  rw [largestFirst, List.mem_mergeSort, List.mem_map]
  constructor
  · rintro ⟨⟨size, slot⟩, hmem, rfl⟩
    exact List.mem_zipIdx_iff_getElem?.mp hmem
  · intro h
    exact ⟨(w.size, w.slot), List.mem_zipIdx_iff_getElem?.mpr h, rfl⟩

theorem length_largestFirst (sizes : List Nat) : (largestFirst sizes).length = sizes.length := by
  rw [largestFirst, List.length_mergeSort, List.length_map, List.length_zipIdx]

/-- a region has one size in the request -/
theorem size_of_slot {sizes : List Nat} {placed : List Placed}
    (h : placed.map Prod.snd = largestFirst sizes) {p : Placed} (hp : p ∈ placed) :
    sizes[p.2.slot]? = some p.2.size :=
  mem_largestFirst.mp (h ▸ List.mem_map_of_mem hp)

theorem getElem?_inOrder {sizes : List Nat} {placed : List Placed}
    (h : placed.map Prod.snd = largestFirst sizes) {slot : Nat} (hslot : slot < sizes.length) :
    ∃ p ∈ placed, p.2.slot = slot ∧ (inOrder sizes.length placed)[slot]? = some p.1 := by
  have hwanted : (⟨sizes[slot], slot⟩ : Wanted) ∈ placed.map Prod.snd :=
    h ▸ mem_largestFirst.mpr (List.getElem?_eq_getElem hslot)
  obtain ⟨p, hp, hw⟩ := List.mem_map.mp hwanted
  have hsome : (placed.find? fun p => p.2.slot = slot).isSome :=
    List.find?_isSome.mpr ⟨p, hp, decide_eq_true (congrArg Wanted.slot hw)⟩
  obtain ⟨q, hq⟩ := Option.isSome_iff_exists.mp hsome
  have hqslot := List.find?_some hq
  refine ⟨q, List.mem_of_find?_eq_some hq, of_decide_eq_true hqslot, ?_⟩
  rw [inOrder, List.getElem?_map, List.getElem?_range hslot, Option.map_some, hq]
  rfl

/-- the range that stands at a slot of the answer is the one that has been placed for it -/
theorem exists_placed {sizes : List Nat} {placed : List Placed}
    (h : placed.map Prod.snd = largestFirst sizes) {slot : Nat} {r : Range}
    (hr : (regions (inOrder sizes.length placed) sizes)[slot]? = some r) :
    ∃ p ∈ placed, p.2.slot = slot ∧ p.range = r := by
  rw [regions, List.getElem?_map, Option.map_eq_some_iff] at hr
  obtain ⟨⟨start, size⟩, hzip, rfl⟩ := hr
  obtain ⟨hstart, hsize⟩ := List.getElem?_zip_eq_some.mp hzip
  obtain ⟨p, hp, hslot, hplace⟩ := getElem?_inOrder h (List.getElem?_eq_some_iff.mp hsize).1
  have hwanted := size_of_slot h hp
  rw [hslot, hsize] at hwanted
  rw [hstart] at hplace
  refine ⟨p, hp, hslot, ?_⟩
  rw [Placed.range, ← Option.some.inj hwanted, ← Option.some.inj hplace]

/-- the order of the answer does not matter for what is offered -/
theorem offersAll_regions {m : FreeMap} {bank : Nat} {sizes : List Nat} {placed : List Placed}
    (hoffers : m.OffersAll bank (placed.map Placed.range))
    (h : placed.map Prod.snd = largestFirst sizes) :
    m.OffersAll bank (regions (inOrder sizes.length placed) sizes) := by
  have hplaced : ∀ r ∈ regions (inOrder sizes.length placed) sizes,
      r ∈ placed.map Placed.range := by
    intro r hr
    obtain ⟨slot, hslot⟩ := List.getElem?_of_mem hr
    obtain ⟨p, hp, _, rfl⟩ := exists_placed h hslot
    exact List.mem_map_of_mem hp
  have hapart := List.pairwise_map.mp hoffers.apart
  have : Std.Symm fun p q : Placed => p.range.Disjoint q.range := ⟨fun _ _ h => h.symm⟩
  constructor
  · exact fun r hr => hoffers.filled r (hplaced r hr)
  · exact fun r hr => hoffers.in_bank r (hplaced r hr)
  · exact fun r hr => hoffers.free r (hplaced r hr)
  · refine List.pairwise_iff_getElem.mpr fun i j hi hj hij => ?_
    obtain ⟨p, hp, hpi, hpr⟩ := exists_placed h (List.getElem?_eq_getElem hi)
    obtain ⟨q, hq, hqj, hqr⟩ := exists_placed h (List.getElem?_eq_getElem hj)
    have hne : p ≠ q := by
      rintro rfl
      omega
    rw [← hpr, ← hqr]
    exact hapart.forall hp hq hne

/-- **The search leaves the map as it was**, and answers with one free place for each size, all in
one bank and apart from each other. -/
theorem offers_of_findFreeSameBank (m : FreeMap) (sizes : List Nat) :
    (m.findFreeSameBank sizes).2 = m ∧
      ∀ offsets, (m.findFreeSameBank sizes).1 = .ok offsets →
        offsets.length = sizes.length ∧ ∃ bank, m.OffersAll bank (regions offsets sizes) := by
  have hlength := length_largestFirst sizes
  unfold findFreeSameBank
  cases hwanted : largestFirst sizes with
  | nil =>
    rw [hwanted] at hlength
    obtain rfl := List.eq_nil_of_length_eq_zero hlength.symm
    refine ⟨rfl, fun offsets h => ?_⟩
    cases h
    exact ⟨rfl, 0, m.offersAll_nil 0⟩
  | cons largest others =>
    rw [hwanted] at hlength
    obtain ⟨hsame, hfound⟩ := searchBanks_offers m sizes largest others 0
    refine ⟨hsame, fun offsets h => ?_⟩
    obtain ⟨bank, placed, rfl, hplaced, hoffers⟩ := hfound offsets h
    rw [show others.length + 1 = sizes.length from hlength]
    refine ⟨?_, bank, offersAll_regions hoffers (hplaced.trans hwanted.symm)⟩
    rw [inOrder, List.length_map, List.length_range]

example : let m : FreeMap := ⟨64, 16, false, [12, 40], by decide, by decide, by decide, by decide⟩
    (m.findFreeSameBank [5, 9]).1.toOption = some [25, 16] := by cbv

/-- **A search for several regions is sound and leaves no trace.**  The map behind it is the one in
front of it, also when the search fails.  When it answers, there is one place for each size, in the
order of the request; every offset of every region is free and in the same bank, and no offset is in
two regions.  The map is small enough for the sums of the search to have 64 bits. -/
theorem findFreeSameBank_sound {m : FreeMap} (hm : m.Addressable) (sizes : List Nat) :
    m.SumsFit ∧ (m.findFreeSameBank sizes).2 = m ∧
      ∀ offsets, (m.findFreeSameBank sizes).1 = .ok offsets →
        offsets.length = sizes.length ∧ (regions offsets sizes).Pairwise Range.Disjoint ∧
          ∃ bank, ∀ slot place size : Nat, offsets[slot]? = some place → sizes[slot]? = some size →
            0 < size ∧ place + size ≤ m.size ∧
              ∀ x, place ≤ x → x < place + size → m.isFree x = true ∧ x / m.bankSize = bank := by
  obtain ⟨hsame, hoffers⟩ := m.offers_of_findFreeSameBank sizes
  refine ⟨sumsFit hm, hsame, fun offsets hfound => ?_⟩
  obtain ⟨hlength, bank, hall⟩ := hoffers offsets hfound
  refine ⟨hlength, hall.apart, bank, fun slot place size hplace hsize => ?_⟩
  have hr := mem_regions hplace hsize
  have hfilled : place < place + size := hall.filled _ hr
  refine ⟨by omega, hall.inside _ hr, fun x hlow hhigh => ?_⟩
  exact ⟨hall.free _ hr x ⟨hlow, hhigh⟩, hall.in_bank _ hr x ⟨hlow, hhigh⟩⟩

/-- the larger region alone has room in the first bank, and both of them in the next one -/
theorem findFreeSameBank_sound_backtracks :
    let m : FreeMap := ⟨64, 16, false, [9, 16, 20, 44], by decide, by decide, by decide, by decide⟩
    m.Addressable ∧ (m.findFreeSameBank [5, 6]).1 = .ok [26, 20] ∧
      (m.findFreeSameBank [5, 6]).2 = m ∧ (regions [26, 20] [5, 6]).Pairwise Range.Disjoint := by
  intro m
  have hm : m.Addressable := by decide
  have hfound : (m.findFreeSameBank [5, 6]).1 = .ok [26, 20] :=
    toOption_eq_some.mp (by subst m; cbv)
  obtain ⟨_, hsame, hsound⟩ := findFreeSameBank_sound hm [5, 6]
  exact ⟨hm, hfound, hsame, (hsound _ hfound).2.1⟩

end FreeMap

end Cartridge
