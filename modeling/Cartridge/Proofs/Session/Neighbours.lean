import Cartridge.Proofs.Session.Moves
import Cartridge.Proofs.Session.Run

/-!
# Scripts that share strings

The range that is recorded for the strings of a script holds nothing else that this script reads,
but another script may read its strings there too.  When the strings have been edited, the
write-back frees this range, and may write the new blocks over it.

* `Session.Unwritten`        scripts have been loaded and edited, and nothing has been written back;
* `Session.Neighbours`       two scripts whose blocks are apart from each other and from all strings;
* `Session.TakesOver`        a write-back has written over an offset of the old strings;
* `Session.load_of_writeBack`   **otherwise it leaves the other script as it was.**
-/

namespace Cartridge

/-- what is recorded of a stored script holds the blocks that have been placed for it -/
theorem Staged.range_mem_stored {staged : Staged} {p : Placement} (hp : p ∈ staged.placements) :
    p.range ∈ staged.stored.storage.ranges := by
  rcases List.mem_append.mp hp with hp | hp
  · have hstrings : staged.strings = some p := Option.mem_toList.mp hp
    unfold stored CachedScript.storage Storage.ranges
    rw [hstrings]
    exact List.mem_cons_of_mem _ (List.mem_singleton_self _)
  · rw [List.mem_singleton.mp hp]
    exact List.mem_cons_self ..

namespace Session

open Relation

/-! ## before anything is written back -/

/-- the image is as it was, and the loaded scripts have the storage that they were loaded with -/
structure Unwritten (s : Session) (image : Image) : Prop where
  same : s.image = image
  storage : ∀ i entry, s.cache.get? i = some entry →
    ∃ loaded, load image i = .ok loaded ∧ entry.storage = loaded.storage

theorem unwritten_ofImage (image : Image) : (ofImage image).Unwritten image where
  same := rfl
  storage := by
    intro i entry hentry
    cases hentry

section
variable {s s' : Session} {image : Image} (h : s.Unwritten image)
include h

theorem Unwritten.insert {index : Nat} {entry loaded : CachedScript}
    (hload : load image index = .ok loaded) (hsame : entry.storage = loaded.storage) :
    Unwritten { s with cache := s.cache.insert index entry } image where
  same := h.same
  storage := by
    intro i found hfound
    rcases Cache.found_of_insert hfound with ⟨rfl, rfl⟩ | ⟨_, hfound⟩
    · exact ⟨loaded, hload, hsame⟩
    · exact h.storage i found hfound

theorem Unwritten.handle (hstep : Handles s s') : s'.Unwritten image := by
  cases hstep with
  | load _ hload => exact h.insert (h.same ▸ hload) rfl
  | @edit index entry hentry change script happly =>
    obtain ⟨loaded, hload, hsame⟩ := h.storage index entry hentry
    exact h.insert hload ((CachedScript.storage_apply happly).trans hsame)

theorem Unwritten.steps (hsteps : ReflTransGen Handles s s') : s'.Unwritten image := by
  induction hsteps with
  | refl => exact h
  | tail _ hstep ih => exact ih.handle hstep

end

/-! ## two scripts -/

/-- what is read for a script: its event pointer, its block and its strings -/
def reads (image : Image) (index : Nat) (entry : CachedScript) : List Range :=
  image.pointerRange index :: (entry.loadedStorage image).ranges

/-- all that is read for the two scripts is used, and the block of each is apart from what is read
for the other, and from its own strings and event pointer -/
structure Neighbours (image : Image) (i j : Nat) (mine other : CachedScript) : Prop where
  used : ∀ r ∈ reads image i mine ++ reads image j other, image.space.Used r
  mine_apart : ∀ r ∈ mine.script.stringRanges image ++ image.pointerRange i :: reads image j other,
    mine.block.Disjoint r
  other_apart : ∀ r ∈ other.script.stringRanges image ++ image.pointerRange j :: reads image i mine,
    other.block.Disjoint r

/-- the strings of the script have been edited, and the write-back that follows puts one of its new
blocks over an offset of the old strings -/
def TakesOver (s s' : Session) (i x : Nat) : Prop :=
  ∃ entry old stored, s.cache.get? i = some entry ∧ entry.script.strings.dirty = true ∧
    entry.script.strings.extent = some old ∧ x ∈ old ∧ s'.cache.get? i = some stored ∧
    ∃ q ∈ stored.storage.ranges, x ∈ q

/-- the strings of an edited script have been read at what is recorded for them -/
theorem strings_read {image : Image} {i : Nat} {entry mine : CachedScript}
    (hmine : load image i = .ok mine) (hsame : entry.storage = mine.storage) {old : Range}
    (hextent : entry.script.strings.extent = some old) :
    ∀ x ∈ old, ∃ r ∈ mine.script.stringRanges image, x ∈ r := by
  have hwithin := within_of_load hmine
  rw [← hsame] at hwithin
  exact hwithin.strings _ (Option.mem_toList.mpr hextent)

/-- a script changes only where something is written that is read for it -/
theorem load_or_hit {image image' : Image} {i j : Nat} {entry other : CachedScript}
    {staged : Staged} (h : staged.Replaces entry i image image')
    (hother : load image j = .ok other) :
    load image' j = .ok other ∨ ∃ r ∈ reads image j other, ∃ x ∈ r,
      x ∈ image.pointerRange i ∨ ∃ p ∈ staged.placements, x ∈ p.range := by
  obtain ⟨hranges, hpointer⟩ := inside_of_load hother
  have hread : ∀ r ∈ reads image j other, r.stop ≤ image.size :=
    List.forall_mem_cons.mpr ⟨hpointer, hranges⟩
  by_cases hhit : ∃ r ∈ reads image j other, ∃ x ∈ r,
      x ∈ image.pointerRange i ∨ ∃ p ∈ staged.placements, x ∈ p.range
  · exact .inr hhit
  · have hout : ∀ r ∈ reads image j other, ∀ x ∈ r, image.data[x]? = image'.data[x]? := by
      intro r hr x hx
      refine h.out x (Nat.lt_of_lt_of_le hx.2 (hread r hr)) ?_ ?_
      · exact fun p hp hxp => hhit ⟨r, hr, x, hx, .inr ⟨p, hp, hxp⟩⟩
      · exact fun hxi => hhit ⟨r, hr, x, hx, .inl hxi⟩
    exact .inl (load_congr hother h.layout (hout _ (List.mem_cons_self ..))
      fun r hr => hout r (List.mem_cons_of_mem _ hr)).1

section
variable {s s' : Session} {image : Image} {i j : Nat} {mine other : CachedScript}
  (h : Neighbours image i j mine other)
include h

section
variable {entry : CachedScript} (hmine : load image i = .ok mine)
  (hsame : entry.storage = mine.storage)
include hmine hsame

theorem Neighbours.owns : entry.Owns image.space := by
  have hblock : entry.block = mine.block := congrArg Storage.block hsame
  have hread : ∀ {r}, r ∈ (mine.loadedStorage image).ranges → image.space.Used r := fun hr =>
    h.used _ (List.mem_append_left _ (List.mem_cons_of_mem _ hr))
  constructor
  · rw [hblock]
    exact hread (List.mem_cons_self ..)
  · intro old hold x hx
    obtain ⟨r, hr, hxr⟩ := strings_read hmine hsame hold x hx
    exact hread (List.mem_cons_of_mem _ hr) x hxr
  · intro old hold x hxblock hx
    obtain ⟨r, hr, hxr⟩ := strings_read hmine hsame hold x hx
    exact h.mine_apart r (List.mem_append_left _ hr) x (hblock ▸ hxblock) hxr

/-- what is taken of another script has been in the old strings, and is not of its block -/
theorem Neighbours.hit {staged : Staged} {image' : Image}
    (hreplaces : staged.Replaces entry i image image') {r : Range} (hr : r ∈ reads image j other)
    {p : Placement} (hp : p ∈ staged.placements) {x : Nat} (hx : x ∈ r) (hxp : x ∈ p.range) :
    r ∈ image.pointerRange j :: other.script.stringRanges image ∧
      entry.script.strings.dirty = true ∧
      ∃ old, entry.script.strings.extent = some old ∧ x ∈ old := by
  have hblock : entry.block = mine.block := congrArg Storage.block hsame
  rcases hreplaces.taken p hp x hxp with hfree | ⟨f, hf, hxf⟩
  · rw [h.used r (List.mem_append_right _ hr) x hx] at hfree
    cases hfree
  · rcases CachedScript.mem_freed.mp hf with ⟨hdirty, hextent⟩ | rfl
    · refine ⟨?_, hdirty, f, hextent, hxf⟩
      obtain ⟨q, hq, hxq⟩ := strings_read hmine hsame hextent x hxf
      rcases List.mem_cons.mp hr with rfl | hr
      · exact List.mem_cons_self ..
      rcases List.mem_cons.mp hr with rfl | hr
      · have hread : q ∈ reads image i mine :=
          List.mem_cons_of_mem _ (List.mem_cons_of_mem _ hq)
        exact (h.other_apart q (List.mem_append_right _ (List.mem_cons_of_mem _ hread)) x hx
          hxq).elim
      · exact List.mem_cons_of_mem _ hr
    · have hapart := h.mine_apart r (List.mem_append_right _ (List.mem_cons_of_mem _ hr))
      exact (hapart x (hblock ▸ hxf) hx).elim

end

/-- what the event pointer is written over has been read for strings -/
theorem Neighbours.pointer_hit (hne : i ≠ j) {r : Range} (hr : r ∈ reads image j other) {x : Nat}
    (hx : x ∈ r) (hpointer : x ∈ image.pointerRange i) : r ∈ other.script.stringRanges image := by
  rcases List.mem_cons.mp hr with rfl | hr
  · exact (Image.pointerRange_disjoint image hne x hpointer hx).elim
  rcases List.mem_cons.mp hr with rfl | hr
  · have hread : image.pointerRange i ∈ reads image i mine := List.mem_cons_self ..
    exact (h.other_apart _ (List.mem_append_right _ (List.mem_cons_of_mem _ hread)) x hx
      hpointer).elim
  · exact hr

theorem Neighbours.writeBackEvent (hne : i ≠ j) (hs : s.Unwritten image)
    (hmine : load image i = .ok mine) (hother : load image j = .ok other)
    (hdone : s.writeBackEvent i = (.ok (), s')) :
    load s'.image j = .ok other ∨
      (∃ r ∈ other.script.stringRanges image, ∃ x ∈ r, x ∈ image.pointerRange i) ∨
      ∃ r ∈ image.pointerRange j :: other.script.stringRanges image, ∃ x ∈ r,
        TakesOver s s' i x := by
  obtain rfl := hs.same
  rcases stored_of_writeBackEvent hdone with
    rfl | ⟨entry, staged, ledger, image, hentry, hreserve, hstore, rfl⟩
  · exact .inl hother
  obtain ⟨loaded, hloaded, hsame⟩ := hs.storage i entry hentry
  rw [hmine] at hloaded
  cases hloaded
  have hreplaces := Staged.replaces_of_store (h.owns hmine hsame) hreserve hstore
  rcases load_or_hit hreplaces hother with hload | ⟨r, hr, x, hx, hpointer | ⟨p, hp, hxp⟩⟩
  · exact .inl hload
  · exact .inr (.inl ⟨r, h.pointer_hit hne hr hx hpointer, x, hx, hpointer⟩)
  · obtain ⟨hr, hdirty, old, hextent, hxold⟩ := h.hit hmine hsame hreplaces hr hp hx hxp
    exact .inr (.inr ⟨r, hr, x, hx, entry, old, staged.stored, hentry, hdirty, hextent, hxold,
      Cache.get?_insert_self .., p.range, Staged.range_mem_stored hp, hxp⟩)

end

/-- **A write-back leaves the script of another event as it was**, unless its strings lie over the
event pointer that is set, or a new block is written over edited strings that have been shared. -/
theorem load_of_writeBack {image : Image} {steps : List Step} {s' : Session}
    {location i j : Nat} {mine other : CachedScript} (hne : i ≠ j)
    (hsteps : ∀ step ∈ steps, step.writes = false)
    (hindex : (ofImage image).eventIndex location = .ok i)
    (hmine : load image i = .ok mine) (hother : load image j = .ok other)
    (h : Neighbours image i j mine other)
    (hdone : ((ofImage image).after steps).writeBack location = (.ok (), s')) :
    load s'.image j = .ok other ∨
      (∃ r ∈ other.script.stringRanges image, ∃ x ∈ r, x ∈ image.pointerRange i) ∨
      ∃ r ∈ image.pointerRange j :: other.script.stringRanges image, ∃ x ∈ r,
        TakesOver ((ofImage image).after steps) s' i x := by
  have hunwritten := (unwritten_ofImage image).steps (handles_after _ hsteps)
  have hindex' : ((ofImage image).after steps).eventIndex location = .ok i := by
    rw [eventIndex, hunwritten.same]
    exact hindex
  rw [writeBack, hindex'] at hdone
  exact h.writeBackEvent hne hunwritten hmine hother hdone

/-- two scripts with one string table: the text of the second changes with that of the first -/
theorem load_of_writeBack_shared :
    let layout : Layout := ⟨0x1000, 0, 0, 4, 2, 0, 2, 8, 2, []⟩
    let script : Bytes :=
      [10, 0, 8, 1, 32, 0, 2, 0xD8, 0xB8, 80, 0, 0, 0x43, 19, 0, 0, 0xBB, 0, 0, 64]
    let data : Bytes := [0, 0, 0, 0, 1, 0, 0, 0, 16, 0, 0, 36, 0, 0, 0, 0] ++ script ++ script ++
      List.replicate 24 0 ++ [82, 0, 0x41, 0] ++ List.replicate 44 0
    let space : FreeMap := ⟨128, 0x1000, false, [], by decide, by decide, by decide, by decide⟩
    let image : Image := ⟨data, space, layout⟩
    let entry (block : Range) (text : Bytes) : CachedScript :=
      ⟨⟨List.replicate 16 32, [0xB8, 80, 0, 0, 0xBB, 0, 0],
        ⟨[(0, text)], false, false, some ⟨80, 84⟩⟩, false⟩, block⟩
    let mine := entry ⟨16, 36⟩ [0x41]
    let other := entry ⟨36, 56⟩ [0x41]
    let steps : List Session.Step := [.get 1, .edit 0 (.setString 0 [0x42])]
    0 ≠ 1 ∧ (∀ step ∈ steps, step.writes = false) ∧ (ofImage image).eventIndex 0 = .ok 0 ∧
    load image 0 = .ok mine ∧ load image 1 = .ok other ∧ Neighbours image 0 1 mine other ∧
    ∃ s', ((ofImage image).after steps).writeBack 0 = (.ok (), s') ∧
      (load s'.image 1 = .ok other ∨
        (∃ r ∈ other.script.stringRanges image, ∃ x ∈ r, x ∈ image.pointerRange 0) ∨
        ∃ r ∈ image.pointerRange 1 :: other.script.stringRanges image, ∃ x ∈ r,
          TakesOver ((ofImage image).after steps) s' 0 x) ∧
      load s'.image 1 = .ok (entry ⟨36, 56⟩ [0x42]) := by
  intro layout script data space image entry mine other steps
  let s := (ofImage image).after steps
  have hsteps : ∀ step ∈ steps, step.writes = false := by decide
  have hindex : (ofImage image).eventIndex 0 = .ok 0 := toOption_eq_some.mp (by decide +kernel)
  have hmine : load image 0 = .ok mine := toOption_eq_some.mp (by decide +kernel)
  have hother : load image 1 = .ok other := toOption_eq_some.mp (by decide +kernel)
  have hneighbours : Neighbours image 0 1 mine other :=
    ⟨by decide +kernel, by decide +kernel, by decide +kernel⟩
  have hdone : (s.writeBack 0).1 = .ok () := toOption_eq_some.mp (by decide +kernel)
  have hresult : s.writeBack 0 = (.ok (), (s.writeBack 0).2) := by rw [← hdone]
  have hchanged : load (s.writeBack 0).2.image 1 = .ok (entry ⟨36, 56⟩ [0x42]) :=
    toOption_eq_some.mp (by decide +kernel)
  exact ⟨by decide, hsteps, hindex, hmine, hother, hneighbours, _, hresult,
    load_of_writeBack (by decide) hsteps hindex hmine hother hneighbours hresult, hchanged⟩

end Session

end Cartridge
