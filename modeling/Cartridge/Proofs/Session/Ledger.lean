import Cartridge.Proofs.Image
import Cartridge.Session.Ledger

/-!
# What a ledger knows

A ledger that has been kept since an image was taken up says how the free map differs from that of
the image, so the image can be had back.

* `Ledger.Tracks`            the ledger says what has happened to an image: the offsets that are
                             free are those that were, or have been freed, and are not reserved;
* `Ledger.Tracks.release`, `Ledger.Tracks.claim`   every entry keeps it true;
* `Ledger.undo_of_tracks`    undoing gives the image back, also when the last range that was entered
                             has been refused (`Ledger.undo_of_refused`).
-/

namespace Cartridge

namespace Ledger

structure Tracks (ledger : Ledger) (image : Image) : Prop where
  data : ledger.image.data = image.data
  layout : ledger.image.layout = image.layout
  size : ledger.image.space.size = image.space.size
  bankSize : ledger.image.space.bankSize = image.space.bankSize
  freed : ∀ r ∈ ledger.freed,
    r.start < r.stop ∧ r.start < image.space.size ∧ image.space.Used r
  reserved : ∀ r ∈ ledger.reserved,
    r.start < r.stop ∧ r.stop ≤ image.space.size ∧
      ∀ x ∈ r, image.space.isFree x = true ∨ ∃ f ∈ ledger.freed, x ∈ f
  isFree : ∀ x, ledger.image.space.isFree x = true ↔
    (∀ r ∈ ledger.reserved, x ∉ r) ∧
      (image.space.isFree x = true ∨ x < image.space.size ∧ ∃ f ∈ ledger.freed, x ∈ f)

theorem tracks_ofImage (image : Image) : (ofImage image).Tracks image where
  data := rfl
  layout := rfl
  size := rfl
  bankSize := rfl
  freed := by simp [ofImage]
  reserved := by simp [ofImage]
  isFree := by simp [ofImage]

/-! ## entries -/

theorem release_eq_ok {r : Range} {ledger ledger' : Ledger}
    (h : release r ledger = (.ok (), ledger')) :
    ∃ image, ledger.image.free r = .ok image ∧
      ledger' = ⟨image, ledger.freed ++ [r], ledger.reserved⟩ := by
  unfold release at h
  cases hfree : ledger.image.free r with
  | error e => simp [hfree] at h
  | ok image =>
    simp only [hfree, Prod.mk.injEq, true_and] at h
    exact ⟨image, rfl, h.symm⟩

/-- a refused range holds no offset of the map -/
theorem release_eq_error {r : Range} {ledger ledger' : Ledger} {e : Error}
    (h : release r ledger = (.error e, ledger')) :
    ledger' = { ledger with freed := ledger.freed ++ [r] } ∧
      min r.stop ledger.image.space.size ≤ r.start := by
  unfold release at h
  cases hfree : ledger.image.free r with
  | error e =>
    simp only [hfree, Prod.mk.injEq] at h
    refine ⟨h.2.symm, ?_⟩
    by_contra hin
    obtain ⟨space, hmark⟩ : ∃ space, ledger.image.space.mark r.start r.stop true = .ok space :=
      ⟨_, FreeMap.mark_eq_ok.mpr ⟨Nat.lt_of_not_le hin, rfl⟩⟩
    unfold Image.free FreeMap.markFree at hfree
    rw [hmark] at hfree
    cases hfree
  | ok image => simp [hfree] at h

theorem claim_eq_ok {size offset : Nat} {ledger ledger' : Ledger}
    (h : claim size ledger = (.ok offset, ledger')) :
    ∃ image, ledger.image.allocate size = .ok (offset, image) ∧
      ledger' = ⟨image, ledger.freed, ledger.reserved ++ [⟨offset, offset + size⟩]⟩ := by
  unfold claim at h
  cases hallocate : ledger.image.allocate size with
  | error e => simp [hallocate] at h
  | ok found =>
    obtain ⟨place, image⟩ := found
    simp only [hallocate, Prod.mk.injEq, Except.ok.injEq] at h
    obtain ⟨rfl, rfl⟩ := h
    exact ⟨image, rfl, rfl⟩

theorem claim_eq_error {size : Nat} {ledger ledger' : Ledger} {e : Error}
    (h : claim size ledger = (.error e, ledger')) : ledger' = ledger := by
  unfold claim at h
  cases hallocate : ledger.image.allocate size with
  | error e =>
    simp only [hallocate, Prod.mk.injEq] at h
    exact h.2.symm
  | ok found => simp [hallocate] at h

/-! ## keeping track -/

section
variable {image : Image} {ledger ledger' : Ledger}

/-- a used range that has not been freed before can be freed -/
theorem Tracks.release {r : Range} (h : ledger.Tracks image) (hused : image.space.Used r)
    (hfresh : ∀ f ∈ ledger.freed, f.Disjoint r) (hrelease : release r ledger = (.ok (), ledger')) :
    ledger'.Tracks image ∧ ledger'.freed = ledger.freed ++ [r] ∧
      ledger'.reserved = ledger.reserved := by
  obtain ⟨image', hfree, rfl⟩ := release_eq_ok hrelease
  obtain ⟨hdata, hlayout, hsize, hbank, hclass⟩ := Image.free_eq_ok hfree
  have hinside : r.start < min r.stop ledger.image.space.size := by
    obtain ⟨space, hspace, _⟩ := bind_eq_ok.mp hfree
    exact (FreeMap.mark_eq_ok.mp hspace).1
  rw [h.size] at hinside hclass
  refine ⟨⟨hdata.trans h.data, hlayout.trans h.layout, hsize.trans h.size, hbank.trans h.bankSize,
    ?_, ?_, ?_⟩, rfl, rfl⟩
  · intro f hf
    rcases List.mem_append.mp hf with hf | hf
    · exact h.freed f hf
    · rw [List.mem_singleton.mp hf]
      exact ⟨by omega, by omega, hused⟩
  · intro q hq
    obtain ⟨hpos, hstop, hfrom⟩ := h.reserved q hq
    refine ⟨hpos, hstop, ?_⟩
    intro x hx
    rcases hfrom x hx with hx | ⟨f, hf, hx⟩
    · exact .inl hx
    · exact .inr ⟨f, List.mem_append_left _ hf, hx⟩
  · intro x
    show image'.space.isFree x = true ↔ _
    rw [hclass]
    by_cases hx : x ∈ r ∧ x < image.space.size
    · -- a reserved offset was free or has been freed, and those of `r` were used
      have hopen : ∀ q ∈ ledger.reserved, x ∉ q := by
        intro q hq hxq
        rcases (h.reserved q hq).2.2 x hxq with hfree | ⟨f, hf, hxf⟩
        · rw [hused x hx.1] at hfree
          cases hfree
        · exact hfresh f hf x hxf hx.1
      rw [if_pos hx]
      have hmem : r ∈ ledger.freed ++ [r] := List.mem_append_right _ (List.mem_singleton_self r)
      exact iff_of_true rfl ⟨hopen, .inr ⟨hx.2, r, hmem, hx.1⟩⟩
    · rw [if_neg hx, h.isFree]
      refine and_congr_right fun _ => or_congr_right (and_congr_right fun hxsize => ?_)
      simp only [List.mem_append, List.mem_singleton]
      constructor
      · rintro ⟨f, hf, hxf⟩
        exact ⟨f, .inl hf, hxf⟩
      · rintro ⟨f, hf | rfl, hxf⟩
        · exact ⟨f, hf, hxf⟩
        · exact absurd ⟨hxf, hxsize⟩ hx

theorem Tracks.claim {size offset : Nat} (h : ledger.Tracks image)
    (hclaim : claim size ledger = (.ok offset, ledger')) :
    ledger'.Tracks image ∧ ledger'.freed = ledger.freed ∧
      ledger'.reserved = ledger.reserved ++ [⟨offset, offset + size⟩] ∧ 0 < size ∧
      ledger.image.space.Offers size offset := by
  obtain ⟨image', hallocate, rfl⟩ := claim_eq_ok hclaim
  obtain ⟨hpos, hoffers, hdata, hlayout, hsize, hbank, hclass⟩ := Image.allocate_eq_ok hallocate
  refine ⟨⟨hdata.trans h.data, hlayout.trans h.layout, hsize.trans h.size, hbank.trans h.bankSize,
    h.freed, ?_, ?_⟩, rfl, rfl, hpos, hoffers⟩
  · intro q hq
    rcases List.mem_append.mp hq with hq | hq
    · exact h.reserved q hq
    · rw [List.mem_singleton.mp hq]
      have hinside := hoffers.inside
      rw [h.size] at hinside
      refine ⟨Nat.lt_add_of_pos_right hpos, hinside, ?_⟩
      intro x hx
      rcases ((h.isFree x).mp (hoffers.free x hx.1 hx.2)).2 with hfree | ⟨_, hfreed⟩
      · exact .inl hfree
      · exact .inr hfreed
  · intro x
    show image'.space.isFree x = true ↔ _
    rw [hclass]
    by_cases hx : x ∈ Range.mk offset (offset + size)
    · rw [if_pos hx]
      refine iff_of_false (by simp) ?_
      intro hno
      exact hno.1 _ (List.mem_append_right _ (List.mem_singleton_self _)) hx
    · rw [if_neg hx, h.isFree]
      refine and_congr_left ?_
      intro _
      constructor
      · intro hopen q hq
        rcases List.mem_append.mp hq with hq | hq
        · exact hopen q hq
        · rw [List.mem_singleton.mp hq]
          exact hx
      · exact fun hopen q hq => hopen q (List.mem_append_left _ hq)

/-! ## undoing -/

/-- what has been reserved was free or has been freed, so opening the one and closing the other
gives every offset its class back -/
theorem Tracks.isFree_undone (h : ledger.Tracks image) (x : Nat) :
    (if x < image.space.size ∧ ∃ f ∈ ledger.freed, x ∈ f then false
      else if x < image.space.size ∧ ∃ r ∈ ledger.reserved, x ∈ r then true
      else ledger.image.space.isFree x) = image.space.isFree x := by
  by_cases hx : x < image.space.size
  · by_cases hf : ∃ f ∈ ledger.freed, x ∈ f
    · obtain ⟨f, hf, hxf⟩ := hf
      rw [if_pos ⟨hx, f, hf, hxf⟩, (h.freed f hf).2.2 x hxf]
    · rw [if_neg fun hno => hf hno.2]
      by_cases hr : ∃ r ∈ ledger.reserved, x ∈ r
      · obtain ⟨r, hr, hxr⟩ := hr
        rw [if_pos ⟨hx, r, hr, hxr⟩]
        exact (((h.reserved r hr).2.2 x hxr).resolve_right hf).symm
      · rw [if_neg fun hno => hr hno.2, Bool.eq_iff_iff, h.isFree]
        constructor
        · rintro ⟨_, hfree | ⟨_, hno⟩⟩
          · exact hfree
          · exact absurd hno hf
        · intro hfree
          exact ⟨fun r hmem hxr => hr ⟨r, hmem, hxr⟩, .inl hfree⟩
  · have hout : image.space.size ≤ x := Nat.le_of_not_lt hx
    have hout' : ledger.image.space.size ≤ x := h.size ▸ hout
    rw [if_neg fun hno => hx hno.1, if_neg fun hno => hx hno.1,
      FreeMap.isFree_of_size_le _ x hout, FreeMap.isFree_of_size_le _ x hout']

/-- **Undoing gives the image back.** -/
theorem undo_of_tracks (h : ledger.Tracks image) : ledger.undo = image := by
  have hreserved : (ledger.image.space.markEach true ledger.reserved).1 = .ok () := by
    apply FreeMap.markEach_eq_ok.mpr
    intro r hr
    obtain ⟨hpos, hstop, _⟩ := h.reserved r hr
    rw [h.size]
    omega
  obtain ⟨hsize, hbank⟩ := ledger.image.space.size_of_markEach true ledger.reserved
  have hreopened := FreeMap.isFree_markEach hreserved
  unfold undo
  cases hmarks : ledger.image.space.markEach true ledger.reserved with
  | mk result space =>
    rw [hmarks] at hreserved hsize hbank hreopened
    simp only at hreserved hsize hbank hreopened
    subst hreserved
    simp only
    have hfreed : (space.markEach false ledger.freed).1 = .ok () := by
      apply FreeMap.markEach_eq_ok.mpr
      intro r hr
      obtain ⟨hpos, hstart, _⟩ := h.freed r hr
      rw [hsize, h.size]
      exact ⟨hpos, hstart⟩
    obtain ⟨hsize', hbank'⟩ := space.size_of_markEach false ledger.freed
    have hspace : (space.markEach false ledger.freed).2 = image.space := by
      apply FreeMap.ext_isFree
      · exact hsize'.trans (hsize.trans h.size)
      · exact hbank'.trans (hbank.trans h.bankSize)
      · intro x
        rw [FreeMap.isFree_markEach hfreed, hreopened, hsize, h.size]
        exact h.isFree_undone x
    rw [hspace, h.data, h.layout]

/-- a range that was entered and then refused does not count -/
theorem undo_of_refused {r : Range} (h : ledger.Tracks image)
    (hrefused : min r.stop image.space.size ≤ r.start) :
    undo { ledger with freed := ledger.freed ++ [r] } = image := by
  rw [← undo_of_tracks h]
  unfold undo
  cases hmarks : ledger.image.space.markEach true ledger.reserved with
  | mk result space =>
    have hsize := (ledger.image.space.size_of_markEach true ledger.reserved).1
    rw [hmarks] at hsize
    cases result with
    | error e => rfl
    | ok done =>
      simp only
      rw [FreeMap.markEach_append]
      have hsize' := (space.size_of_markEach false ledger.freed).1
      cases hfreed : space.markEach false ledger.freed with
      | mk result' space' =>
        rw [hfreed] at hsize'
        cases result' with
        | error e => rfl
        | ok done' =>
          have hempty : min r.stop space'.size ≤ r.start := by
            rw [hsize', hsize, h.size]
            exact hrefused
          simp only [FreeMap.markEach, FreeMap.mark, dif_pos hempty]

end

end Ledger

end Cartridge
