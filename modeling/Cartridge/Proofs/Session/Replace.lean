import Cartridge.Proofs.Session.Store

/-!
# What a write-back replaces

* `CachedScript.freed`       the ranges that a write-back of a script frees;
* `Staged.Replaces`          what has happened to an image when a write-back has succeeded;
* `Staged.replaces_of_store` it has;
* `Staged.Replaces.outside`, `Staged.Replaces.untouched`   used bytes that were not freed are not
                             taken, and the event pointer aside they stay what they were.
-/

namespace Cartridge

/-- the old block, and the old strings if they were edited -/
def CachedScript.freed (entry : CachedScript) : List Range :=
  Staged.freedStrings entry.script.strings ++ [entry.block]

theorem CachedScript.mem_freed {entry : CachedScript} {f : Range} : f ∈ entry.freed ↔
    entry.script.strings.dirty = true ∧ entry.script.strings.extent = some f ∨ f = entry.block := by
  rw [freed, List.mem_append, List.mem_singleton, Staged.mem_freedStrings]

namespace Staged

/-- the new blocks have been written into free or freed regions of their own, and then the event
pointer has been set -/
structure Replaces (staged : Staged) (entry : CachedScript) (index : Nat) (image image' : Image) :
    Prop where
  layout : image'.layout = image.layout
  size : image.size ≤ image'.size
  space_size : (image.pointerRange index).stop ≤ image.size →
    image'.space.size = image.space.size
  nonempty : ∀ p ∈ staged.placements, p.bytes ≠ []
  taken : ∀ p ∈ staged.placements, ∀ x ∈ p.range,
    image.space.isFree x = true ∨ ∃ f ∈ entry.freed, x ∈ f
  apart : staged.placements.Pairwise fun p q => p.range.Disjoint q.range
  isFree : ∀ x, image'.space.isFree x = true ↔ (∀ p ∈ staged.placements, x ∉ p.range) ∧
    (image.space.isFree x = true ∨ x < image.space.size ∧ ∃ f ∈ entry.freed, x ∈ f)
  inside : ∀ p ∈ staged.placements, p.range.stop ≤ image'.size
  holds : ∀ p ∈ staged.placements, p.range.Disjoint (image.pointerRange index) →
    image'.data.Holds p.offset p.bytes
  out : ∀ x < image.size, (∀ p ∈ staged.placements, x ∉ p.range) → x ∉ image.pointerRange index →
    image.data[x]? = image'.data[x]?
  pointer : image'.eventPointer index = .ok (image'.toAddress staged.body.offset)

/-- blocks that lie inside the free map do not enlarge it -/
theorem space_size_writeAll {image image' : Image} {ps : List Placement}
    (hinside : ∀ p ∈ ps, p.range.stop ≤ image.space.size)
    (h : writeAll image ps = (.ok (), image')) : image'.space.size = image.space.size := by
  induction ps generalizing image with
  | nil =>
    cases h
    rfl
  | cons p ps ih =>
    rw [writeAll] at h
    cases hfirst : image.write p.offset p.bytes .used with
    | error e =>
      rw [hfirst] at h
      cases h
    | ok between =>
      rw [hfirst] at h
      have hsize := Image.space_size_write_of_le hfirst (.inr (hinside p (List.mem_cons_self ..)))
      rw [ih (fun q hq => hsize ▸ hinside q (List.mem_cons_of_mem _ hq)) h, hsize]

/-- **What a successful write-back does to the image.** -/
theorem replaces_of_store {entry : CachedScript} {image image' : Image} {ledger : Ledger}
    {staged : Staged} {index : Nat} (howns : entry.Owns image.space)
    (hreserve : reserve entry.script entry.block (.ofImage image) = (.ok staged, ledger))
    (hstore : staged.store index ledger.image = (.ok (), image')) :
    staged.Replaces entry index image image' := by
  obtain ⟨htracks, hfreed, hreserved, hnonempty, hapart, _⟩ := tracks_of_reserve howns hreserve
  obtain ⟨written, hwrite, hpointer⟩ := store_eq_ok hstore
  obtain ⟨written', hwrite', hwritten⟩ := exists_writeAll_of_reserve howns hreserve
  obtain rfl : written = written' := congrArg Prod.snd (hwrite.symm.trans hwrite')
  obtain ⟨_, _, hslot⟩ := Image.setEventPointer_eq_ok hpointer
  have hlayout : written.layout = image.layout := hwritten.layout.trans htracks.layout
  have hlayout' : image'.layout = image.layout := (Image.layout_write hslot).trans hlayout
  have hbefore : ledger.image.size = image.size := congrArg List.length htracks.data
  have hsize : image.size ≤ written.size := hbefore ▸ hwritten.size
  have hsize' : written.size ≤ image'.size := Image.size_write hslot
  have hslots : written.pointerRange index = image.pointerRange index := by
    rw [Image.pointerRange, hlayout, Image.pointerRange]
  have hfits : ∀ p ∈ staged.placements, p.range.stop ≤ written.size := fun p hp =>
    Bytes.length_of_holds (hwritten.holds p hp) (List.length_pos_of_ne_nil (hnonempty p hp))
  have hregion : ∀ p ∈ staged.placements, p.range.stop ≤ image.space.size ∧ ∀ x ∈ p.range,
      image.space.isFree x = true ∨ ∃ f ∈ entry.freed, x ∈ f := by
    intro p hp
    obtain ⟨_, hstop, hfrom⟩ := htracks.reserved p.range (hreserved ▸ List.mem_map_of_mem hp)
    rw [hfreed] at hfrom
    exact ⟨hstop, hfrom⟩
  constructor
  case layout => exact hlayout'
  case size => exact Nat.le_trans hsize hsize'
  case space_size =>
    intro hinside
    have hplaced : written.space.size = ledger.image.space.size :=
      space_size_writeAll (fun p hp => htracks.size ▸ (hregion p hp).1) hwrite
    have hstop : written.layout.eventPointerTable + 3 * index +
        (Bytes.field 3 (written.toAddress staged.body.offset)).length ≤ written.size := by
      rw [Bytes.length_field, hlayout]
      exact Nat.le_trans hinside hsize
    rw [Image.space_size_write_of_le hslot (.inl hstop), hplaced, htracks.size]
  case nonempty => exact hnonempty
  case taken => exact fun p hp => (hregion p hp).2
  case apart => exact hapart
  case isFree =>
    intro x
    rw [Image.isFree_write_keep hslot, hwritten.isFree, htracks.isFree, hfreed, hreserved,
      List.forall_mem_map]
    constructor
    · rintro ⟨⟨_, hclass⟩, hout⟩
      exact ⟨hout, hclass⟩
    · rintro ⟨hout, hclass⟩
      exact ⟨⟨hout, hclass⟩, hout⟩
  case inside => exact fun p hp => Nat.le_trans (hfits p hp) hsize'
  case holds =>
    intro p hp hdisjoint
    refine (hwritten.holds p hp).congr ?_
    intro x hx hlt
    exact (Image.getElem?_setEventPointer hpointer (Nat.lt_of_lt_of_le hlt (hfits p hp))
      (hslots ▸ hdisjoint x ⟨hx, hlt⟩)).symm
  case out =>
    intro x hx hout hnot
    rw [Image.getElem?_setEventPointer hpointer (Nat.lt_of_lt_of_le hx hsize) (hslots ▸ hnot),
      hwritten.out x (hbefore ▸ hx) hout, htracks.data]
  case pointer =>
    have haddr : image'.toAddress staged.body.offset = written.toAddress staged.body.offset := by
      rw [Image.toAddress, Image.toAddress, hlayout', hlayout]
    rw [haddr]
    exact Image.eventPointer_setEventPointer hpointer

section
variable {staged : Staged} {entry : CachedScript} {index : Nat} {image image' : Image}
  (h : staged.Replaces entry index image image')
include h

/-- a used offset that was not freed is not taken -/
theorem Replaces.outside {x : Nat} (hused : image.space.isFree x = false)
    (hfreed : ∀ f ∈ entry.freed, x ∉ f) : ∀ p ∈ staged.placements, x ∉ p.range := by
  intro p hp hx
  rcases h.taken p hp x hx with hfree | ⟨f, hf, hxf⟩
  · rw [hused] at hfree
    cases hfree
  · exact hfreed f hf hxf

theorem Replaces.used_of_used {x : Nat} (hused : image.space.isFree x = false)
    (hfreed : ∀ f ∈ entry.freed, x ∉ f) : image'.space.isFree x = false := by
  rw [← Bool.not_eq_true, h.isFree, hused]
  rintro ⟨_, hfree | ⟨_, f, hf, hx⟩⟩
  · cases hfree
  · exact hfreed f hf hx

theorem Replaces.used_of_placement {p : Placement} (hp : p ∈ staged.placements) :
    image'.space.Used p.range := by
  intro x hx
  rw [← Bool.not_eq_true, h.isFree]
  exact fun hno => hno.1 p hp hx

/-- **The bytes at used offsets stay**, those aside that are freed and those of the pointer. -/
theorem Replaces.untouched {x : Nat} (hx : x < image.size) (hused : image.space.isFree x = false)
    (hfreed : ∀ f ∈ entry.freed, x ∉ f) (hpointer : x ∉ image.pointerRange index) :
    image.data[x]? = image'.data[x]? :=
  h.out x hx (h.outside hused hfreed) hpointer

end

end Staged

end Cartridge
