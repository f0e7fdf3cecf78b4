import Cartridge.Proofs.Script.Built
import Cartridge.Proofs.Session.Storage
import Cartridge.Proofs.Session.Store

/-!
# Reachable sessions

The image of a session and its scripts are open to callers, who may write into the image, keep its
free map as they like, and change a script by any edits or for any other script.

* `Image.Made`               the images that operations on images give;
* `Image.Made.exists_ofBytes`   the bytes of such an image make an image of the same layout;
* `Session.Reachable`        the sessions that runs give;
* `Session.Reachable.made`, `Session.Reachable.built`   what their images and scripts are.
-/

namespace Cartridge

/-! ## images -/

namespace Image

inductive Made : Image → Prop
  | ofBytes {data : Bytes} {layout : Layout} {image : Image}
    (h : Image.ofBytes data layout = .ok image) : Made image
  | write {image image' : Image} {offset : Nat} {bytes : Bytes} {mode : WriteMode}
    (hmade : Made image) (h : image.write offset bytes mode = .ok image') : Made image'
  | withSpace {image : Image} (hmade : Made image) (space : FreeMap) : Made { image with space }

theorem ofBytes_eq_ok {data : Bytes} {layout : Layout} {image : Image} :
    Image.ofBytes data layout = .ok image ↔
      (∀ r ∈ layout.freeRanges, r.start < r.stop ∧ r.start < data.length) ∧
      image = ⟨data, ((FreeMap.ofSize data.length layout.bankSize).markEach true
        layout.freeRanges).2, layout⟩ := by
  have hranges : ((FreeMap.ofSize data.length layout.bankSize).markEach true
      layout.freeRanges).1 = .ok () ↔
      ∀ r ∈ layout.freeRanges, r.start < r.stop ∧ r.start < data.length := FreeMap.markEach_eq_ok
  rw [← hranges]
  unfold Image.ofBytes
  cases (FreeMap.ofSize data.length layout.bankSize).markEach true layout.freeRanges with
  | mk result space =>
    cases result with
    | error e => simp
    | ok done => simp [eq_comm]

theorem Made.freeRanges {image : Image} (h : image.Made) :
    ∀ r ∈ image.layout.freeRanges, r.start < r.stop ∧ r.start < image.size := by
  induction h with
  | ofBytes h =>
    obtain ⟨hranges, rfl⟩ := ofBytes_eq_ok.mp h
    exact hranges
  | write _ h ih =>
    intro r hr
    rw [layout_write h] at hr
    obtain ⟨hpos, hsize⟩ := ih r hr
    exact ⟨hpos, Nat.lt_of_lt_of_le hsize (size_write h)⟩
  | withSpace _ space ih => exact ih

/-- the bytes of an image, or more of them, make an image of its layout -/
theorem Made.exists_ofBytes {image : Image} (h : image.Made) {data : Bytes}
    (hsize : image.size ≤ data.length) :
    ∃ fresh, Image.ofBytes data image.layout = .ok fresh ∧ fresh.data = data ∧
      fresh.layout = image.layout := by
  refine ⟨_, ofBytes_eq_ok.mpr ⟨?_, rfl⟩, rfl, rfl⟩
  intro r hr
  obtain ⟨hpos, hstart⟩ := h.freeRanges r hr
  exact ⟨hpos, Nat.lt_of_lt_of_le hstart hsize⟩

theorem Made.congr {image image' : Image} (h : image.Made) (hdata : image'.data = image.data)
    (hlayout : image'.layout = image.layout) : image'.Made := by
  obtain ⟨data, space, layout⟩ := image'
  cases hdata
  cases hlayout
  exact h.withSpace space

end Image

/-! ## write-backs -/

/-- the computation changes nothing of the image but its free map -/
def Ledgered.MarksOnly {α : Type} (f : Ledgered α) : Prop :=
  ∀ ledger, (f ledger).2.image.data = ledger.image.data ∧
    (f ledger).2.image.layout = ledger.image.layout

theorem Ledger.marksOnly_release (r : Range) : (Ledger.release r).MarksOnly := by
  intro ledger
  cases h : Ledger.release r ledger with
  | mk result ledger' =>
    cases result with
    | error e =>
      obtain ⟨rfl, _⟩ := release_eq_error h
      exact ⟨rfl, rfl⟩
    | ok done =>
      obtain ⟨image, hfree, rfl⟩ := release_eq_ok h
      obtain ⟨hdata, hlayout, _⟩ := Image.free_eq_ok hfree
      exact ⟨hdata, hlayout⟩

theorem Ledger.marksOnly_claim (size : Nat) : (Ledger.claim size).MarksOnly := by
  intro ledger
  cases h : Ledger.claim size ledger with
  | mk result ledger' =>
    cases result with
    | error e =>
      obtain rfl := claim_eq_error h
      exact ⟨rfl, rfl⟩
    | ok offset =>
      obtain ⟨image, hallocate, rfl⟩ := claim_eq_ok h
      obtain ⟨_, _, hdata, hlayout, _⟩ := Image.allocate_eq_ok hallocate
      exact ⟨hdata, hlayout⟩

namespace Staged

theorem marksOnly_releaseStrings (table : StringTable) : (releaseStrings table).MarksOnly := by
  unfold releaseStrings
  cases table.extent with
  | none => exact fun ledger => ⟨rfl, rfl⟩
  | some old => exact Ledger.marksOnly_release old

theorem marksOnly_reserveStrings (script : Script) : (reserveStrings script).MarksOnly := by
  intro ledger
  unfold reserveStrings
  by_cases hdirty : (!script.strings.dirty) = true
  · rw [if_pos hdirty]
    exact ⟨rfl, rfl⟩
  · rw [if_neg hdirty]
    obtain ⟨hdata, hlayout⟩ := marksOnly_releaseStrings script.strings ledger
    cases hrelease : releaseStrings script.strings ledger with
    | mk result released =>
      rw [hrelease] at hdata hlayout
      cases result with
      | error e => exact ⟨hdata, hlayout⟩
      | ok done =>
        obtain ⟨hdata', hlayout'⟩ := Ledger.marksOnly_claim script.strings.blockLength released
        simp only
        cases hclaim : Ledger.claim script.strings.blockLength released with
        | mk result claimed =>
          rw [hclaim] at hdata' hlayout'
          cases result with
          | error e => exact ⟨hdata'.trans hdata, hlayout'.trans hlayout⟩
          | ok offset => exact ⟨hdata'.trans hdata, hlayout'.trans hlayout⟩

theorem marksOnly_reserveBody (script : Script) (old : Range) :
    (reserveBody script old).MarksOnly := by
  intro ledger
  unfold reserveBody
  cases Block.compress script.toBytes with
  | error e => exact ⟨rfl, rfl⟩
  | ok bytes =>
    obtain ⟨hdata, hlayout⟩ := Ledger.marksOnly_release old ledger
    simp only
    cases hrelease : Ledger.release old ledger with
    | mk result released =>
      rw [hrelease] at hdata hlayout
      cases result with
      | error e => exact ⟨hdata, hlayout⟩
      | ok done =>
        obtain ⟨hdata', hlayout'⟩ := Ledger.marksOnly_claim bytes.length released
        simp only
        cases hclaim : Ledger.claim bytes.length released with
        | mk result claimed =>
          rw [hclaim] at hdata' hlayout'
          cases result with
          | error e => exact ⟨hdata'.trans hdata, hlayout'.trans hlayout⟩
          | ok offset => exact ⟨hdata'.trans hdata, hlayout'.trans hlayout⟩

theorem marksOnly_reserve (script : Script) (old : Range) : (reserve script old).MarksOnly := by
  intro ledger
  unfold reserve
  obtain ⟨hdata, hlayout⟩ := marksOnly_reserveStrings script ledger
  cases hstrings : reserveStrings script ledger with
  | mk result between =>
    rw [hstrings] at hdata hlayout
    cases result with
    | error e => exact ⟨hdata, hlayout⟩
    | ok found =>
      obtain ⟨staged, strings⟩ := found
      obtain ⟨hdata', hlayout'⟩ := marksOnly_reserveBody staged old between
      simp only
      cases hbody : reserveBody staged old between with
      | mk result ledger' =>
        rw [hbody] at hdata' hlayout'
        cases result with
        | error e => exact ⟨hdata'.trans hdata, hlayout'.trans hlayout⟩
        | ok body => exact ⟨hdata'.trans hdata, hlayout'.trans hlayout⟩

theorem made_writeAll {image : Image} (h : image.Made) (ps : List Placement) :
    (writeAll image ps).2.Made := by
  induction ps generalizing image with
  | nil => exact h
  | cons p ps ih =>
    rw [writeAll]
    cases hwrite : image.write p.offset p.bytes .used with
    | error e => exact h
    | ok image' => exact ih (h.write hwrite)

theorem made_store {image : Image} (h : image.Made) (staged : Staged) (index : Nat) :
    (staged.store index image).2.Made := by
  have hwritten := made_writeAll h staged.placements
  unfold store
  cases hwrite : writeAll image staged.placements with
  | mk result written =>
    rw [hwrite] at hwritten
    cases result with
    | error e => exact hwritten
    | ok done =>
      simp only
      cases hpointer : written.setEventPointer index (written.toAddress staged.body.offset) with
      | error e => exact hwritten
      | ok image' =>
        obtain ⟨_, _, hslot⟩ := Image.setEventPointer_eq_ok hpointer
        exact hwritten.write hslot

theorem built_reserve {script : Script} {old : Range} {ledger ledger' : Ledger} {staged : Staged}
    (h : script.Built) (hreserve : reserve script old ledger = (.ok staged, ledger')) :
    staged.script.Built := by
  obtain ⟨between, hstrings, _⟩ := reserve_eq_ok hreserve
  rcases reserveStrings_eq_ok hstrings with ⟨_, hsame, _⟩ | ⟨_, _, _, _, _, _, _, hset, _⟩
  · rw [hsame]
    exact h
  · exact h.edit (.setStringTableAddress _) hset

theorem built_stored {staged : Staged} (h : staged.script.Built) : staged.stored.script.Built := by
  unfold stored
  cases staged.strings with
  | none => exact h.clean
  | some p => exact h.stored p.range

end Staged

theorem Ledger.undo_congr (ledger : Ledger) :
    ledger.undo.data = ledger.image.data ∧ ledger.undo.layout = ledger.image.layout := by
  unfold Ledger.undo
  cases ledger.image.space.markEach true ledger.reserved with
  | mk result space =>
    cases result with
    | error e => exact ⟨rfl, rfl⟩
    | ok done => exact ⟨rfl, rfl⟩

/-! ## sessions -/

namespace Cache

theorem mem_insert {cache : Cache} {index : Nat} {entry : CachedScript} {found : Nat × CachedScript}
    (h : found ∈ insert index entry cache) : found = (index, entry) ∨ found ∈ cache := by
  induction cache with
  | nil => exact .inl (List.mem_singleton.mp h)
  | cons old rest ih =>
    obtain ⟨i, old⟩ := old
    rw [insert] at h
    by_cases hlt : index < i
    · rw [if_pos hlt] at h
      exact List.mem_cons.mp h
    · rw [if_neg hlt] at h
      by_cases heq : index = i
      · rw [if_pos heq] at h
        exact (List.mem_cons.mp h).imp_right (List.mem_cons_of_mem _)
      · rw [if_neg heq] at h
        rcases List.mem_cons.mp h with rfl | h
        · exact .inr (List.mem_cons_self ..)
        · exact (ih h).imp_right (List.mem_cons_of_mem _)

theorem mem_of_get? {cache : Cache} {index : Nat} {entry : CachedScript}
    (h : get? cache index = some entry) : (index, entry) ∈ cache := by
  obtain ⟨before, after, rfl, _⟩ := List.lookup_eq_some_iff.mp h
  exact List.mem_append_right _ (List.mem_cons_self ..)

end Cache

namespace Session

/-- what the operations keep: the image has been made, and every loaded script has been built -/
structure Sound (s : Session) : Prop where
  made : s.image.Made
  built : ∀ found ∈ s.cache, found.2.script.Built

theorem Sound.insert {s : Session} (h : s.Sound) {index : Nat} {entry : CachedScript}
    (hbuilt : entry.script.Built) : ∀ found ∈ s.cache.insert index entry, found.2.script.Built := by
  intro found hfound
  rcases Cache.mem_insert hfound with rfl | hfound
  · exact hbuilt
  · exact h.built found hfound

theorem Sound.fetch {s s' : Session} {location index : Nat} {entry : CachedScript} (h : s.Sound)
    (hfetch : s.fetch location = .ok (index, entry, s')) : s'.Sound ∧ entry.script.Built := by
  rcases fetch_eq_ok hfetch with ⟨hfound, rfl⟩ | ⟨_, hload, rfl⟩
  · exact ⟨h, h.built _ (Cache.mem_of_get? hfound)⟩
  · obtain ⟨_, _, _, script, _, _, _, hscript, rfl⟩ := load_eq_ok.mp hload
    have hbuilt : script.Built := .load hscript
    exact ⟨⟨h.made, h.insert hbuilt⟩, hbuilt⟩

theorem Sound.edit {s : Session} (h : s.Sound) {α : Type} (location : Nat)
    {change : Script → Except Error (α × Script)}
    (hchange : ∀ t a t', t.Built → change t = .ok (a, t') → t'.Built) :
    (s.edit location change).2.Sound := by
  unfold Session.edit
  cases hfetch : s.fetch location with
  | error e => exact h
  | ok found =>
    obtain ⟨index, entry, s'⟩ := found
    obtain ⟨hsound, hbuilt⟩ := h.fetch hfetch
    simp only
    cases hdone : change entry.script with
    | error e => exact hsound
    | ok answer =>
      obtain ⟨a, script⟩ := answer
      exact ⟨hsound.made, hsound.insert (hchange _ a script hbuilt hdone)⟩

theorem Sound.writeBackEvent {s : Session} (h : s.Sound) (index : Nat) :
    (s.writeBackEvent index).2.Sound := by
  unfold Session.writeBackEvent
  cases hentry : s.cache.get? index with
  | none => exact h
  | some entry =>
    simp only
    by_cases hmodified : (!entry.script.modified) = true
    · rw [if_pos hmodified]
      exact h
    · rw [if_neg hmodified]
      have hbuilt := h.built _ (Cache.mem_of_get? hentry)
      obtain ⟨hdata, hlayout⟩ :=
        Staged.marksOnly_reserve entry.script entry.block (.ofImage s.image)
      cases hreserve : Staged.reserve entry.script entry.block (.ofImage s.image) with
      | mk result ledger =>
        rw [hreserve] at hdata hlayout
        have hmade : ledger.image.Made := h.made.congr hdata hlayout
        cases result with
        | error e =>
          obtain ⟨hundone, hsame⟩ := ledger.undo_congr
          exact ⟨hmade.congr hundone hsame, h.built⟩
        | ok staged =>
          have hstored := Staged.made_store hmade staged index
          simp only
          cases hstore : staged.store index ledger.image with
          | mk result image =>
            rw [hstore] at hstored
            cases result with
            | error e => exact ⟨hstored, h.built⟩
            | ok done =>
              exact ⟨hstored, h.insert (Staged.built_stored (Staged.built_reserve hbuilt hreserve))⟩

theorem Sound.writeBackEach {s : Session} (h : s.Sound) (indices : List Nat) :
    (s.writeBackEach indices).2.Sound := by
  induction indices generalizing s with
  | nil => exact h
  | cons index rest ih =>
    have hnext := h.writeBackEvent index
    rw [Session.writeBackEach]
    cases hwrite : s.writeBackEvent index with
    | mk result s' =>
      rw [hwrite] at hnext
      cases result with
      | error e => exact hnext
      | ok done => exact ih hnext

/-- the sessions that callers can come to -/
inductive Reachable : Session → Prop
  | start {image : Image} (h : image.Made) : Reachable (.ofImage image)
  | get {s s' : Session} {location : Nat} {script : Script} (hs : Reachable s)
    (h : s.get location = .ok (script, s')) : Reachable s'
  | edit {s : Session} {α : Type} (hs : Reachable s) (location : Nat)
    {change : Script → Except Error (α × Script)}
    (h : ∀ t a t', t.Built → change t = .ok (a, t') → t'.Built) :
    Reachable (s.edit location change).2
  | writeBack {s : Session} (hs : Reachable s) (location : Nat) :
    Reachable (s.writeBack location).2
  | commit {s : Session} (hs : Reachable s) : Reachable s.commit.2
  /-- Any layout is admitted.  In words of 64 bits, a write-back into the other image needs its base
  to be as low as `Image.toAddress_mod` asks. -/
  | withImage {s : Session} (hs : Reachable s) {image : Image} (h : image.Made) :
    Reachable { s with image }

theorem Reachable.sound {s : Session} (h : s.Reachable) : s.Sound := by
  induction h with
  | start h => exact ⟨h, fun found hfound => by cases hfound⟩
  | get _ h ih =>
    obtain ⟨⟨index, entry, s'⟩, hfetch, h⟩ := bind_eq_ok.mp h
    cases h
    exact (ih.fetch hfetch).1
  | edit _ location h ih => exact ih.edit location h
  | @writeBack s _ location ih =>
    unfold Session.writeBack
    cases s.eventIndex location with
    | error e => exact ih
    | ok index => exact ih.writeBackEvent index
  | @commit s _ ih =>
    have hdone := ih.writeBackEach s.cache.modified
    unfold Session.commit
    cases hwrite : s.writeBackEach s.cache.modified with
    | mk result s' =>
      rw [hwrite] at hdone
      cases result with
      | error e => exact hdone
      | ok done => exact hdone
  | withImage _ h ih => exact ⟨h, ih.built⟩

end Session

end Cartridge
