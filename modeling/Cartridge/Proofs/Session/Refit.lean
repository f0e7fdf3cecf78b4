import Cartridge.Proofs.FreeMap.FirstFit
import Cartridge.Proofs.Regions
import Cartridge.Proofs.Session.Store

/-!
# Scripts that did not grow

The old block of a script is freed before a place for the new one is looked for, and freed offsets
join what is free around them.  So a script that is no longer than its old block has a place, that
of the old block or one in front of it, however full the image is.

* `CachedScript.Refits`      the compressed script is no longer than the old block, and there are no
                             strings to place;
* `Image.exists_free`, `Image.exists_allocate`   what is freed and handed out;
* `Staged.offers_of_refits`, `Staged.exists_reserve`   such a script is placed;
* `Session.error_of_refits`  what is left to be refused;
* `Session.writeBack_of_refits`   **so it is never refused for want of space.**
-/

namespace Cartridge

/-- The strings are as they are stored, and the script is no longer than its old block, which lies
inside the image and in one bank.  Nothing is said of the other offsets, nor of the class that the
old block has. -/
structure CachedScript.Refits (entry : CachedScript) (image : Image) : Prop where
  clean : entry.script.strings.dirty = false
  inside : entry.block.stop ≤ image.size
  in_bank : ∃ bank, ∀ x ∈ entry.block, x / image.space.bankSize = bank
  shorter : ∃ bytes, Block.compress entry.script.toBytes = .ok bytes ∧
    bytes.length ≤ entry.block.stop - entry.block.start

/-! ## regions -/

namespace Image

theorem exists_free {image : Image} {r : Range} (hpos : r.start < r.stop)
    (hinside : r.start < image.space.size) : ∃ image', image.free r = .ok image' := by
  obtain ⟨space, hmark⟩ := FreeMap.exists_mark true hpos hinside
  refine ⟨{ image with space }, ?_⟩
  show (image.space.mark r.start r.stop true >>= fun space => _) = _
  rw [hmark]
  rfl

/-- where there is a place, it is handed out or one in front of it -/
theorem exists_allocate {image : Image} {size place : Nat} (hpos : 0 < size)
    (h : image.space.Offers size place) :
    ∃ found ≤ place, ∃ image', image.allocate size = .ok (found, image') := by
  obtain ⟨found, hle, hfound⟩ := FreeMap.findFree_le hpos (Nat.zero_le place) h
  have hinside := (FreeMap.offers_of_findFree hfound).2.inside
  obtain ⟨space, hmark⟩ := FreeMap.exists_mark (m := image.space) false
    (Nat.lt_add_of_pos_right hpos : found < found + size) (by omega)
  refine ⟨found, hle, { image with space }, bind_eq_ok.mpr ⟨found, hfound, ?_⟩⟩
  exact bind_eq_ok.mpr ⟨space, hmark, rfl⟩

end Image

/-! ## the place of the script -/

namespace Staged

section
variable {entry : CachedScript} {image : Image} (h : entry.Refits image)
include h

/-- the old block, once it is free, is a place for the script -/
theorem offers_of_refits {freed : Image} {size : Nat} (hstep : image.InStep)
    (hfree : image.free entry.block = .ok freed) (hpos : 0 < size)
    (hfits : size ≤ entry.block.stop - entry.block.start) :
    freed.space.Offers size entry.block.start := by
  obtain ⟨_, _, hsize, hbank, hclass⟩ := Image.free_eq_ok hfree
  obtain ⟨bank, hin⟩ := h.in_bank
  have hinside : entry.block.stop ≤ image.space.size := hstep ▸ h.inside
  have hblock : ∀ x ∈ Range.mk entry.block.start (entry.block.start + size), x ∈ entry.block := by
    intro x hx
    have hlt : x < entry.block.start + size := hx.2
    exact ⟨hx.1, by omega⟩
  refine ⟨by omega, ?_, ?_⟩
  · rw [hbank]
    exact FreeMap.in_bank_of_div hpos fun x hx => hin x (hblock x hx)
  · intro x hlow hhigh
    have hx := hblock x ⟨hlow, hhigh⟩
    rw [hclass, if_pos ⟨hx, Nat.lt_of_lt_of_le hx.2 hinside⟩]

/-- **The script is placed**, and nothing but the free map has changed. -/
theorem exists_reserve (hstep : image.InStep) :
    ∃ place ≤ entry.block.start, ∃ bytes ledger,
      reserve entry.script entry.block (.ofImage image) =
        (.ok ⟨entry.script, none, ⟨place, bytes⟩⟩, ledger) ∧
      ledger.image.layout = image.layout ∧ place < ledger.image.space.size := by
  obtain ⟨bytes, hbytes, hfits⟩ := h.shorter
  obtain ⟨w, hlaid⟩ := Block.laid_of_compress hbytes
  have hpos : 0 < bytes.length := (Block.inside_of_blockLength (hlaid.blockLength [] [])).1
  have hinside : entry.block.stop ≤ image.space.size := hstep ▸ h.inside
  have hfilled : entry.block.start < entry.block.stop := by omega
  obtain ⟨freed, hfree⟩ := Image.exists_free hfilled (Nat.lt_of_lt_of_le hfilled hinside)
  obtain ⟨place, hle, image', hallocate⟩ :=
    Image.exists_allocate hpos (offers_of_refits h hstep hfree hpos hfits)
  obtain ⟨_, hlayout, hsize, _⟩ := Image.free_eq_ok hfree
  obtain ⟨_, _, _, hlayout', hsize', _⟩ := Image.allocate_eq_ok hallocate
  have hstrings : reserveStrings entry.script (.ofImage image) =
      (.ok (entry.script, none), .ofImage image) := by
    rw [reserveStrings, h.clean]
    rfl
  have hrelease : Ledger.release entry.block (.ofImage image) =
      (.ok (), ⟨freed, [entry.block], []⟩) := by
    unfold Ledger.release
    simp only [Ledger.ofImage, hfree, List.nil_append]
  have hclaim : Ledger.claim bytes.length ⟨freed, [entry.block], []⟩ =
      (.ok place, ⟨image', [entry.block], [⟨place, place + bytes.length⟩]⟩) := by
    unfold Ledger.claim
    simp only [hallocate, List.nil_append]
  refine ⟨place, hle, bytes, ⟨image', [entry.block], [⟨place, place + bytes.length⟩]⟩, ?_,
    hlayout'.trans hlayout, ?_⟩
  · unfold reserve reserveBody
    simp only [hstrings, hbytes, hrelease, hclaim]
  · show place < image'.space.size
    omega

end

end Staged

/-! ## write-backs -/

namespace Session

section
variable {s : Session} {location index : Nat} {entry : CachedScript} (hstep : s.image.InStep)
  (hindex : s.eventIndex location = .ok index) (hentry : s.cache.get? index = some entry)
  (h : entry.Refits s.image)
include hstep hindex hentry h

/-- once the script is placed and written, only its event pointer can be refused -/
theorem error_of_refits : ∃ place ≤ entry.block.start, ∀ e, (s.writeBack location).1 = .error e →
    (s.image.layout.eventPointerCount ≤ index ∧ e = .format (.eventPastTable index)) ∨
    (0xFFFFFF < s.image.toAddress place ∧
      e = .argument (.tooWideForField (s.image.toAddress place))) := by
  obtain ⟨place, hle, bytes, ledger, hreserve, hlayout, hinside⟩ := Staged.exists_reserve h hstep
  have hinside : ∀ p ∈ [Placement.mk place bytes], p.offset < ledger.image.space.size :=
    List.forall_mem_singleton.mpr hinside
  obtain ⟨written, hwrite, hwritten⟩ := Staged.exists_writeAll hinside (List.pairwise_singleton ..)
  have hplaced : written.layout = s.image.layout := hwritten.layout.trans hlayout
  refine ⟨place, hle, fun e he => ?_⟩
  have hevent : s.writeBackEvent index = (.error e, (s.writeBack location).2) := by
    rw [← he, writeBack, hindex]
  obtain ⟨_, ⟨_, hfails, _⟩ | ⟨staged, ledger', image, hplace, hstore, _⟩⟩ :=
    writeBackEvent_eq_error hentry hevent
  · rw [hreserve] at hfails
    cases hfails
  · rw [hreserve] at hplace
    cases hplace
    rcases Staged.store_eq_error hstore with hfails | ⟨hdone, hpointer⟩
    · have hfails : Staged.writeAll ledger.image [⟨place, bytes⟩] = (.error e, image) := hfails
      rw [hwrite] at hfails
      cases hfails
    · have hdone : Staged.writeAll ledger.image [⟨place, bytes⟩] = (.ok (), image) := hdone
      rw [hwrite] at hdone
      cases hdone
      rw [Image.setEventPointer_eq_error, Image.toAddress, hplaced] at hpointer
      exact hpointer.imp_right And.right

/-- **A script that did not grow always fits.**  It is never refused for want of space, whatever is
free; and since its place is not behind that of the old block, it is stored wherever the event has a
pointer and the old block an address of 24 bits. -/
theorem writeBack_of_refits :
    (∀ size, (s.writeBack location).1 ≠ .error (.outOfSpace size)) ∧
      (index < s.image.layout.eventPointerCount →
        s.image.toAddress entry.block.start ≤ 0xFFFFFF → (s.writeBack location).1 = .ok ()) := by
  obtain ⟨place, hle, hcause⟩ := error_of_refits hstep hindex hentry h
  refine ⟨fun size hspace => ?_, fun hcount haddress => ?_⟩
  · rcases hcause _ hspace with ⟨_, he⟩ | ⟨_, he⟩
    · cases he
    · cases he
  · cases hresult : (s.writeBack location).1 with
    | ok done => rfl
    | error e =>
      unfold Image.toAddress at haddress
      rcases hcause e hresult with ⟨hpast, _⟩ | ⟨hwide, _⟩
      · omega
      · unfold Image.toAddress at hwide
        omega

end

/-- an image without a free offset, and a script of the same length as before -/
theorem writeBack_of_refits_full :
    let layout : Layout := ⟨16, 0, 0, 4, 1, 0, 2, 4, 1, []⟩
    let space : FreeMap := ⟨29, 16, false, [], by decide, by decide, by decide, by decide⟩
    let data : Bytes := [0, 0, 0, 0, 16, 0, 0] ++ List.replicate 9 0 ++
      [0, 0, 0x45, 0x0C, 0, 8, 1, 32, 0, 2, 0xD8, 0, 0x40]
    let entry : CachedScript :=
      ⟨⟨List.replicate 16 32, [0xB2], ⟨[], true, false, none⟩, true⟩, ⟨16, 29⟩⟩
    let s : Session := ⟨⟨data, space, layout⟩, [(0, entry)]⟩
    s.image.InStep ∧ s.eventIndex 0 = .ok 0 ∧ s.cache.get? 0 = some entry ∧
      entry.script.modified = true ∧ entry.Refits s.image ∧ space.freeBytes = 0 ∧
      (∀ size, (s.writeBack 0).1 ≠ .error (.outOfSpace size)) ∧ (s.writeBack 0).1 = .ok () := by
  intro layout space data entry s
  have hstep : s.image.InStep := rfl
  have hindex : s.eventIndex 0 = .ok 0 := toOption_eq_some.mp (by decide +kernel)
  have hentry : s.cache.get? 0 = some entry := rfl
  have hbytes : Block.compress entry.script.toBytes =
      .ok [0, 0, 0x45, 0x0C, 0, 8, 1, 32, 0, 2, 0xD8, 0xB2, 0x40] :=
    toOption_eq_some.mp (by decide +kernel)
  have hrefits : entry.Refits s.image :=
    ⟨rfl, Nat.le_refl _, ⟨1, by decide⟩, ⟨_, hbytes, by decide⟩⟩
  obtain ⟨hspace, hstored⟩ := writeBack_of_refits hstep hindex hentry hrefits
  exact ⟨hstep, hindex, hentry, rfl, hrefits, by decide +kernel, hspace,
    hstored (by decide) (by decide)⟩

end Session

end Cartridge
