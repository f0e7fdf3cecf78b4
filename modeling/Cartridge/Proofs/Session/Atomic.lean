import Cartridge.Proofs.Session.Store

/-!
# Failed write-backs

A write-back that fails while the blocks are being placed leaves the session as it was.  Once they
have been placed they are also written, and only the event pointer can still be refused: nothing is
undone then.

* `Staged.PointerRefused`        there is no pointer for the event, or its address has no 24 bits;
* `Session.Stranded`             what has happened to the image and to the old block then;
* `Session.writeBack_of_error`   **what a failed write-back leaves behind**;
* `Session.writeBackEvent_atomic`, `Session.writeBack_atomic`   where all addresses have 24 bits,
                                 the session is as it was.
-/

namespace Cartridge

/-- the pointer to the placed script is refused -/
def Staged.PointerRefused (staged : Staged) (index : Nat) (image : Image) : Prop :=
  image.layout.eventPointerCount ≤ index ∨ 0xFFFFFF < image.toAddress staged.body.offset

/-- the old block of a script begins inside the image, at an address of 24 bits -/
def CachedScript.Addressed (entry : CachedScript) (image : Image) : Prop :=
  entry.block.start < entry.block.stop ∧ entry.block.start < image.space.size ∧
    image.toAddress entry.block.start ≤ 0xFFFFFF

namespace Session

/-- the blocks of a script have been placed and written, and its old block has been freed, but the
session still has the script as it was -/
structure Stranded (s s' : Session) (entry : CachedScript) (staged : Staged) : Prop where
  cache : s'.cache = s.cache
  holds : ∀ p ∈ staged.placements, s'.image.data.Holds p.offset p.bytes ∧ s'.image.space.Used p.range
  out : ∀ x < s.image.size, (∀ p ∈ staged.placements, x ∉ p.range) →
    s'.image.data[x]? = s.image.data[x]?
  block : ∀ x ∈ entry.block, x < s.image.space.size → x ∉ staged.body.range →
    s'.image.space.isFree x = true

/-- a stranded script whose old block can be addressed has lost it to the free map -/
theorem Stranded.ne {s s' : Session} {entry : CachedScript} {staged : Staged}
    (h : Stranded s s' entry staged) (howns : entry.Owns s.image.space)
    (haddressed : entry.Addressed s.image)
    (hrefused : 0xFFFFFF < s.image.toAddress staged.body.offset) : s' ≠ s := by
  rintro rfl
  obtain ⟨hpos, hinside, hstart⟩ := haddressed
  have hmem : entry.block.start ∈ entry.block := ⟨Nat.le_refl _, hpos⟩
  have hout : entry.block.start ∉ staged.body.range := by
    intro hin
    have hle : staged.body.offset ≤ entry.block.start := hin.1
    unfold Image.toAddress at hstart hrefused
    omega
  have hfree := h.block _ hmem hinside hout
  rw [howns.block _ hmem] at hfree
  cases hfree

theorem writeBackEvent_of_writeBack {s s' : Session} {location index : Nat}
    {result : Except Error Unit} (hindex : s.eventIndex location = .ok index)
    (h : s.writeBack location = (result, s')) : s.writeBackEvent index = (result, s') := by
  rw [writeBack, hindex] at h
  exact h

section
variable {s s' : Session} {index : Nat} {entry : CachedScript}
  (hentry : s.cache.get? index = some entry) (howns : entry.Owns s.image.space)
include howns

/-- an image with the blocks of a script written, whose old block is free -/
theorem stranded_of_reserve {staged : Staged} {ledger : Ledger} {written : Image}
    (hreserve : Staged.reserve entry.script entry.block (.ofImage s.image) = (.ok staged, ledger))
    (h : Staged.Written ledger.image written staged.placements) :
    Stranded s { s with image := written } entry staged := by
  obtain ⟨htracks, hfreed, hreserved, _, _, hapart⟩ := Staged.tracks_of_reserve howns hreserve
  have hsize : ledger.image.size = s.image.size := congrArg List.length htracks.data
  refine ⟨rfl, ?_, ?_, ?_⟩
  · intro p hp
    refine ⟨h.holds p hp, ?_⟩
    intro x hx
    by_contra hfree
    rw [Bool.not_eq_false, h.isFree] at hfree
    exact hfree.2 p hp hx
  · intro x hx hout
    rw [h.out x (hsize ▸ hx) hout, htracks.data]
  · intro x hx hinside hbody
    have hout : ∀ p ∈ staged.placements, x ∉ p.range := by
      intro p hp
      rcases List.mem_append.mp hp with hp | hp
      · exact fun hxp => hapart p (Option.mem_toList.mp hp) x hxp hx
      · rw [List.mem_singleton.mp hp]
        exact hbody
    rw [h.isFree, htracks.isFree, hfreed, hreserved]
    refine ⟨⟨?_, .inr ⟨hinside, entry.block, ?_, hx⟩⟩, hout⟩
    · intro r hr
      obtain ⟨p, hp, rfl⟩ := List.mem_map.mp hr
      exact hout p hp
    · exact List.mem_append_right _ (List.mem_singleton_self _)

include hentry

theorem writeBackEvent_of_error {e : Error} (h : s.writeBackEvent index = (.error e, s')) :
    (s' = s ∧ ∃ ledger,
      Staged.reserve entry.script entry.block (.ofImage s.image) = (.error e, ledger)) ∨
    ∃ staged ledger,
      Staged.reserve entry.script entry.block (.ofImage s.image) = (.ok staged, ledger) ∧
      staged.PointerRefused index s.image ∧ Stranded s s' entry staged := by
  obtain ⟨_, ⟨ledger, hreserve, rfl⟩ | ⟨staged, ledger, image, hreserve, hstore, rfl⟩⟩ :=
    writeBackEvent_eq_error hentry h
  · refine .inl ⟨?_, ledger, hreserve⟩
    rw [Staged.undo_of_reserve_error howns hreserve]
  · obtain ⟨written, hwrite, hwritten⟩ := Staged.exists_writeAll_of_reserve howns hreserve
    have htracks := (Staged.tracks_of_reserve howns hreserve).1
    have hlayout : written.layout = s.image.layout := hwritten.layout.trans htracks.layout
    rcases Staged.store_eq_error hstore with hfails | ⟨hdone, hpointer⟩
    · rw [hwrite] at hfails
      cases hfails
    · rw [hwrite] at hdone
      cases hdone
      refine .inr ⟨staged, ledger, hreserve, ?_, stranded_of_reserve howns hreserve hwritten⟩
      rw [Image.setEventPointer_eq_error, hlayout] at hpointer
      rcases hpointer with ⟨hindex, _⟩ | ⟨_, haddress, _⟩
      · exact .inl hindex
      · rw [Image.toAddress, hlayout] at haddress
        exact .inr haddress

/-- **What a failed write-back leaves behind.**  Either the blocks could not be placed, and nothing
has changed; or they have been placed and written, and the pointer to them was refused.  Then the
session is not as it was if the event has a pointer and the old block can be addressed. -/
theorem writeBack_of_error {location : Nat} {e : Error} (hindex : s.eventIndex location = .ok index)
    (h : s.writeBack location = (.error e, s')) :
    (s' = s ∧ ∃ ledger,
      Staged.reserve entry.script entry.block (.ofImage s.image) = (.error e, ledger)) ∨
    ∃ staged ledger,
      Staged.reserve entry.script entry.block (.ofImage s.image) = (.ok staged, ledger) ∧
      staged.PointerRefused index s.image ∧ Stranded s s' entry staged ∧
      (index < s.image.layout.eventPointerCount → entry.Addressed s.image → s' ≠ s) := by
  rcases writeBackEvent_of_error hentry howns (writeBackEvent_of_writeBack hindex h) with
    hundone | ⟨staged, ledger, hreserve, hrefused, hstranded⟩
  · exact .inl hundone
  · refine .inr ⟨staged, ledger, hreserve, hrefused, hstranded, ?_⟩
    intro hcount haddressed
    exact hstranded.ne howns haddressed (hrefused.resolve_left (Nat.not_le_of_lt hcount))

end

/-- a script that has outgrown its block, when the only free region lies behind the last address -/
theorem writeBack_of_error_overgrown :
    let layout : Layout := ⟨0x1000, 0xFFFFC0, 0, 4, 1, 0, 2, 4, 1, []⟩
    let space : FreeMap :=
      ⟨128, 0x1000, false, [64], by decide, by decide, by decide, by decide⟩
    let block : Bytes := [0, 0, 0x45, 0x0C, 0, 8, 1, 32, 0, 2, 0xD8, 0, 0x40]
    let data := [0, 0, 0, 0, 0xD0, 0xFF, 0xFF] ++ List.replicate 9 0 ++ block ++ List.replicate 99 0
    let stream : Bytes := [0xB1, 0xB3, 0xB4, 0xB2, 0xAE, 0xAF, 0xB0, 0]
    let entry : CachedScript :=
      ⟨⟨List.replicate 16 32, stream, ⟨[], true, false, none⟩, true⟩, ⟨16, 29⟩⟩
    let s : Session := ⟨⟨data, space, layout⟩, [(0, entry)]⟩
    let e : Error := .argument (.tooWideForField 0x1000000)
    s.cache.get? 0 = some entry ∧ entry.Owns s.image.space ∧ s.eventIndex 0 = .ok 0 ∧
    ∃ s', s.writeBack 0 = (.error e, s') ∧
      ((s' = s ∧ ∃ ledger,
        Staged.reserve entry.script entry.block (.ofImage s.image) = (.error e, ledger)) ∨
      ∃ staged ledger,
        Staged.reserve entry.script entry.block (.ofImage s.image) = (.ok staged, ledger) ∧
        staged.PointerRefused 0 s.image ∧ Stranded s s' entry staged ∧
        (0 < s.image.layout.eventPointerCount → entry.Addressed s.image → s' ≠ s)) := by
  intro layout space block data stream entry s e
  have hentry : s.cache.get? 0 = some entry := rfl
  have hindex : s.eventIndex 0 = .ok 0 := toOption_eq_some.mp (by decide +kernel)
  have howns : entry.Owns s.image.space := by
    have hnone : entry.script.strings.extent = none := rfl
    refine ⟨?_, by simp [hnone], by simp [hnone]⟩
    intro x hx
    have hlt : x < 29 := hx.2
    have hinside : x < space.size := Nat.lt_trans hlt (by decide)
    have hfront : FreeMap.flips space.cuts x = false := by
      apply FreeMap.flips_of_lt
      intro c hc
      rw [List.mem_singleton.mp hc]
      omega
    show space.isFree x = false
    rw [FreeMap.isFree_eq hinside, hfront]
    rfl
  have hfails : (s.writeBack 0).1 = .error e := cause?_eq_some.mp (by decide +kernel)
  have hresult : s.writeBack 0 = (.error e, (s.writeBack 0).2) := Prod.ext hfails rfl
  exact ⟨hentry, howns, hindex, _, hresult, writeBack_of_error hentry howns hindex hresult⟩

section
variable {s s' : Session} {index : Nat} {entry : CachedScript}
  (hentry : s.cache.get? index = some entry) (howns : entry.Owns s.image.space)
include hentry howns

/-- **Where the image ends below the last address, a failure leaves no trace.** -/
theorem writeBackEvent_atomic {e : Error} (hcount : index < s.image.layout.eventPointerCount)
    (haddresses : s.image.toAddress s.image.space.size ≤ 0x1000000)
    (h : s.writeBackEvent index = (.error e, s')) : s' = s := by
  rcases writeBackEvent_of_error hentry howns h with
    ⟨hsame, _⟩ | ⟨staged, ledger, hreserve, hrefused, _⟩
  · exact hsame
  · obtain ⟨htracks, _, hreserved, _⟩ := Staged.tracks_of_reserve howns hreserve
    have hbody : staged.body.range ∈ ledger.reserved := by
      rw [hreserved]
      exact List.mem_map_of_mem (List.mem_append_right _ (List.mem_singleton_self _))
    obtain ⟨hpos, hstop, _⟩ := htracks.reserved _ hbody
    have hinside : staged.body.offset < s.image.space.size := Nat.lt_of_lt_of_le hpos hstop
    unfold Image.toAddress at haddresses
    rcases hrefused with hcount' | haddress
    · omega
    · unfold Image.toAddress at haddress
      omega

theorem writeBack_atomic {location : Nat} {e : Error} (hindex : s.eventIndex location = .ok index)
    (hcount : index < s.image.layout.eventPointerCount)
    (haddresses : s.image.toAddress s.image.space.size ≤ 0x1000000)
    (h : s.writeBack location = (.error e, s')) : s' = s :=
  writeBackEvent_atomic hentry howns hcount haddresses (writeBackEvent_of_writeBack hindex h)

end

end Session

end Cartridge
