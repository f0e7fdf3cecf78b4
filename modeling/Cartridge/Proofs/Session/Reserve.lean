import Cartridge.Proofs.Session.Ledger
import Cartridge.Proofs.StringTable.Stored
import Cartridge.Session.WriteBack

/-!
# Placing the blocks of a script

* `CachedScript.Owns`            the old blocks of a script are used and do not overlap;
* `Staged.reserve_eq_ok`, `Staged.reserveStrings_eq_ok`, `Staged.reserveBody_eq_ok`   what has
                                 happened when the blocks have been placed;
* `Staged.undo_of_reserve_error` when they could not be placed, undoing gives the image back;
* `Staged.tracks_of_reserve`     when they have been placed, the ledger still tracks the image, and
                                 every block lies in a region of its own.
-/

namespace Cartridge

/-- the old block of a script and its old string block are used, and do not overlap -/
structure CachedScript.Owns (entry : CachedScript) (m : FreeMap) : Prop where
  block : m.Used entry.block
  extent : ∀ old, entry.script.strings.extent = some old → m.Used old
  disjoint : ∀ old, entry.script.strings.extent = some old → entry.block.Disjoint old

namespace Staged

/-! ## the steps -/

theorem reserve_eq_ok {script : Script} {old : Range} {ledger ledger' : Ledger} {staged : Staged}
    (h : reserve script old ledger = (.ok staged, ledger')) : ∃ between,
      reserveStrings script ledger = (.ok (staged.script, staged.strings), between) ∧
      reserveBody staged.script old between = (.ok staged.body, ledger') := by
  unfold reserve at h
  cases hstrings : reserveStrings script ledger with
  | mk result between =>
    rw [hstrings] at h
    cases result with
    | error e => cases h
    | ok found =>
      obtain ⟨script', strings⟩ := found
      cases hbody : reserveBody script' old between with
      | mk result' after =>
        simp only [hbody] at h
        cases result' with
        | error e => cases h
        | ok body =>
          cases h
          exact ⟨between, rfl, hbody⟩

theorem reserveBody_eq_ok {script : Script} {old : Range} {ledger ledger' : Ledger}
    {body : Placement} (h : reserveBody script old ledger = (.ok body, ledger')) :
    Block.compress script.toBytes = .ok body.bytes ∧ ∃ between,
      Ledger.release old ledger = (.ok (), between) ∧
      Ledger.claim body.bytes.length between = (.ok body.offset, ledger') := by
  unfold reserveBody at h
  cases hbytes : Block.compress script.toBytes with
  | error e =>
    simp only [hbytes] at h
    cases h
  | ok bytes =>
    simp only [hbytes] at h
    cases hrelease : Ledger.release old ledger with
    | mk result between =>
      rw [hrelease] at h
      cases result with
      | error e => cases h
      | ok done =>
        simp only at h
        cases hclaim : Ledger.claim bytes.length between with
        | mk result' after =>
          rw [hclaim] at h
          cases result' with
          | error e => cases h
          | ok offset =>
            cases h
            exact ⟨rfl, between, rfl, hclaim⟩

/-- strings that were not edited stay where they are -/
theorem reserveStrings_eq_ok {script script' : Script} {strings : Option Placement}
    {ledger ledger' : Ledger}
    (h : reserveStrings script ledger = (.ok (script', strings), ledger')) :
    (script.strings.dirty = false ∧ script' = script ∧ strings = none ∧ ledger' = ledger) ∨
    (script.strings.dirty = true ∧ ∃ between offset bytes,
      releaseStrings script.strings ledger = (.ok (), between) ∧
      Ledger.claim script.strings.blockLength between = (.ok offset, ledger') ∧
      script.strings.serialize offset ledger'.image.layout.bankSize = .ok bytes ∧
      script.setStringTableAddress (ledger'.image.toAddress offset) = .ok script' ∧
      strings = some ⟨offset, bytes⟩) := by
  unfold reserveStrings at h
  cases hdirty : script.strings.dirty with
  | false =>
    rw [hdirty] at h
    cases h
    exact .inl ⟨rfl, rfl, rfl, rfl⟩
  | true =>
    rw [hdirty] at h
    refine .inr ⟨rfl, ?_⟩
    simp only [Bool.not_true, Bool.false_eq_true, if_false] at h
    cases hrelease : releaseStrings script.strings ledger with
    | mk result between =>
      rw [hrelease] at h
      cases result with
      | error e => cases h
      | ok done =>
        simp only at h
        cases hclaim : Ledger.claim script.strings.blockLength between with
        | mk result' after =>
          rw [hclaim] at h
          cases result' with
          | error e => cases h
          | ok offset =>
            simp only [Prod.mk.injEq] at h
            obtain ⟨hfound, rfl⟩ := h
            obtain ⟨⟨script₁, p⟩, hat, heq⟩ := map_eq_ok.mp hfound
            obtain ⟨bytes, hbytes, hat⟩ := bind_eq_ok.mp hat
            obtain ⟨script₂, hscript, hat⟩ := bind_eq_ok.mp hat
            cases hat
            cases heq
            exact ⟨between, offset, bytes, rfl, hclaim, hbytes, hscript, rfl⟩

/-! ## the ledger -/

section
variable {image : Image} {ledger ledger' : Ledger}

theorem tracks_of_releaseStrings {table : StringTable}
    (hused : ∀ old, table.extent = some old → image.space.Used old)
    (h : releaseStrings table (.ofImage image) = (.ok (), ledger)) :
    ledger.Tracks image ∧ ledger.freed = table.extent.toList ∧ ledger.reserved = [] := by
  unfold releaseStrings at h
  cases hextent : table.extent with
  | none =>
    rw [hextent] at h
    cases h
    exact ⟨Ledger.tracks_ofImage image, rfl, rfl⟩
  | some old =>
    rw [hextent] at h
    obtain ⟨htracks, hfreed, hreserved⟩ := (Ledger.tracks_ofImage image).release
      (hused old hextent) (by simp [Ledger.ofImage]) h
    exact ⟨htracks, hfreed, hreserved⟩

/-- the range that new strings free -/
def freedStrings (table : StringTable) : List Range :=
  if table.dirty then table.extent.toList else []

theorem mem_freedStrings {table : StringTable} {f : Range} :
    f ∈ freedStrings table ↔ table.dirty = true ∧ table.extent = some f := by
  unfold freedStrings
  cases table.dirty with
  | false => simp
  | true => simp

theorem tracks_of_reserveStrings {script script' : Script} {strings : Option Placement}
    (hused : ∀ old, script.strings.extent = some old → image.space.Used old)
    (h : reserveStrings script (.ofImage image) = (.ok (script', strings), ledger)) :
    ledger.Tracks image ∧ ledger.freed = freedStrings script.strings ∧
      ledger.reserved = strings.toList.map Placement.range ∧
      ∀ p, strings = some p → p.bytes ≠ [] := by
  rcases reserveStrings_eq_ok h with ⟨hdirty, _, rfl, rfl⟩ |
    ⟨hdirty, between, offset, bytes, hrelease, hclaim, hbytes, _, rfl⟩
  · refine ⟨Ledger.tracks_ofImage image, ?_, rfl, by simp⟩
    rw [freedStrings, hdirty]
    rfl
  · obtain ⟨htracks, hfreed, hreserved⟩ := tracks_of_releaseStrings hused hrelease
    obtain ⟨htracks', hfreed', hreserved', hpos, _⟩ := htracks.claim hclaim
    have hlength := StringTable.length_of_serialize hbytes
    refine ⟨htracks', ?_, ?_, fun p hp => ?_⟩
    · rw [hfreed', hfreed, freedStrings, hdirty]
      rfl
    · rw [hreserved', hreserved, ← hlength]
      rfl
    · cases hp
      exact List.ne_nil_of_length_pos (hlength ▸ hpos)

theorem undo_of_releaseStrings_error {table : StringTable} {e : Error}
    (h : releaseStrings table (.ofImage image) = (.error e, ledger)) : ledger.undo = image := by
  unfold releaseStrings at h
  cases hextent : table.extent with
  | none =>
    rw [hextent] at h
    cases h
  | some old =>
    rw [hextent] at h
    obtain ⟨rfl, hrefused⟩ := Ledger.release_eq_error h
    exact Ledger.undo_of_refused (Ledger.tracks_ofImage image) hrefused

theorem undo_of_reserveStrings_error {script : Script} {e : Error}
    (hused : ∀ old, script.strings.extent = some old → image.space.Used old)
    (h : reserveStrings script (.ofImage image) = (.error e, ledger)) : ledger.undo = image := by
  unfold reserveStrings at h
  by_cases hdirty : script.strings.dirty = true
  · simp only [hdirty, Bool.not_true, Bool.false_eq_true, if_false] at h
    cases hrelease : releaseStrings script.strings (.ofImage image) with
    | mk result between =>
      rw [hrelease] at h
      cases result with
      | error e' =>
        cases h
        exact undo_of_releaseStrings_error hrelease
      | ok done =>
        obtain ⟨htracks, _, _⟩ := tracks_of_releaseStrings hused hrelease
        simp only at h
        cases hclaim : Ledger.claim script.strings.blockLength between with
        | mk result' after =>
          rw [hclaim] at h
          cases result' with
          | error e' =>
            cases h
            rw [Ledger.claim_eq_error hclaim]
            exact Ledger.undo_of_tracks htracks
          | ok offset =>
            simp only [Prod.mk.injEq] at h
            rw [← h.2]
            exact Ledger.undo_of_tracks (htracks.claim hclaim).1
  · rw [Bool.not_eq_true] at hdirty
    rw [hdirty] at h
    cases h

theorem undo_of_reserveBody_error {script : Script} {old : Range} {e : Error}
    (htracks : ledger.Tracks image) (hused : image.space.Used old)
    (hfresh : ∀ f ∈ ledger.freed, f.Disjoint old)
    (h : reserveBody script old ledger = (.error e, ledger')) : ledger'.undo = image := by
  unfold reserveBody at h
  cases hbytes : Block.compress script.toBytes with
  | error e' =>
    simp only [hbytes] at h
    cases h
    exact Ledger.undo_of_tracks htracks
  | ok bytes =>
    simp only [hbytes] at h
    cases hrelease : Ledger.release old ledger with
    | mk result between =>
      rw [hrelease] at h
      cases result with
      | error e' =>
        cases h
        obtain ⟨rfl, hrefused⟩ := Ledger.release_eq_error hrelease
        rw [htracks.size] at hrefused
        exact Ledger.undo_of_refused htracks hrefused
      | ok done =>
        have htracks' := (htracks.release hused hfresh hrelease).1
        simp only at h
        cases hclaim : Ledger.claim bytes.length between with
        | mk result' after =>
          rw [hclaim] at h
          cases result' with
          | ok offset => cases h
          | error e' =>
            cases h
            rw [Ledger.claim_eq_error hclaim]
            exact Ledger.undo_of_tracks htracks'

section
variable {entry : CachedScript} (howns : entry.Owns image.space)
include howns

theorem disjoint_of_reserveStrings {script : Script} {strings : Option Placement}
    (h : reserveStrings entry.script (.ofImage image) = (.ok (script, strings), ledger)) :
    ∀ f ∈ ledger.freed, f.Disjoint entry.block := by
  intro f hf
  rw [(tracks_of_reserveStrings howns.extent h).2.1] at hf
  exact (howns.disjoint f (mem_freedStrings.mp hf).2).symm

/-- **A failure to place the blocks is undone.** -/
theorem undo_of_reserve_error {e : Error}
    (h : reserve entry.script entry.block (.ofImage image) = (.error e, ledger)) :
    ledger.undo = image := by
  unfold reserve at h
  cases hstrings : reserveStrings entry.script (.ofImage image) with
  | mk result between =>
    rw [hstrings] at h
    cases result with
    | error e' =>
      cases h
      exact undo_of_reserveStrings_error howns.extent hstrings
    | ok found =>
      obtain ⟨script, strings⟩ := found
      have htracks := (tracks_of_reserveStrings howns.extent hstrings).1
      have hfresh := disjoint_of_reserveStrings howns hstrings
      simp only at h
      cases hbody : reserveBody script entry.block between with
      | mk result' after =>
        rw [hbody] at h
        cases result' with
        | ok body => cases h
        | error e' =>
          cases h
          exact undo_of_reserveBody_error htracks howns.block hfresh hbody

/-- **Placed blocks have regions of their own**, and nothing has been freed but the old blocks. -/
theorem tracks_of_reserve {staged : Staged}
    (h : reserve entry.script entry.block (.ofImage image) = (.ok staged, ledger)) :
    ledger.Tracks image ∧ ledger.freed = freedStrings entry.script.strings ++ [entry.block] ∧
      ledger.reserved = staged.placements.map Placement.range ∧
      (∀ p ∈ staged.placements, p.bytes ≠ []) ∧
      (staged.placements.Pairwise fun p q => p.range.Disjoint q.range) ∧
      ∀ p, staged.strings = some p → p.range.Disjoint entry.block := by
  obtain ⟨between, hstrings, hbody⟩ := reserve_eq_ok h
  obtain ⟨htracks, hfreed, hreserved, hnonempty⟩ := tracks_of_reserveStrings howns.extent hstrings
  have hfresh := disjoint_of_reserveStrings howns hstrings
  obtain ⟨_, released, hrelease, hclaim⟩ := reserveBody_eq_ok hbody
  obtain ⟨htracks', hfreed', hreserved'⟩ := htracks.release howns.block hfresh hrelease
  obtain ⟨htracks'', hfreed'', hreserved'', hpos, hoffers⟩ := htracks'.claim hclaim
  refine ⟨htracks'', ?_, ?_, ?_, ?_, ?_⟩
  · rw [hfreed'', hfreed', hfreed]
  · rw [hreserved'', hreserved', hreserved, placements, List.map_append]
    rfl
  · intro p hp
    rcases List.mem_append.mp hp with hp | hp
    · exact hnonempty p (Option.mem_toList.mp hp)
    · rw [List.mem_singleton.mp hp]
      exact List.ne_nil_of_length_pos hpos
  · rw [placements, List.pairwise_append]
    refine ⟨?_, List.pairwise_singleton _ _, ?_⟩
    · cases staged.strings with
      | none => exact .nil
      | some p => exact List.pairwise_singleton _ _
    · -- the body went to offsets that were free while the strings had their region
      intro p hp q hq x hxp hxq
      rw [List.mem_singleton.mp hq] at hxq
      have hopen := ((htracks'.isFree x).mp (hoffers.free x hxq.1 hxq.2)).1
      rw [hreserved', hreserved] at hopen
      exact hopen p.range (List.mem_map_of_mem hp) hxp
  · -- the strings went to offsets that were free while the old block was used
    intro p hp x hxp hxblock
    have hmem : p.range ∈ between.reserved := by
      rw [hreserved]
      exact List.mem_map_of_mem (Option.mem_toList.mpr hp)
    rcases (htracks.reserved p.range hmem).2.2 x hxp with hfree | ⟨f, hf, hxf⟩
    · rw [howns.block x hxblock] at hfree
      cases hfree
    · exact hfresh f hf x hxf hxblock

end

end

end Staged

end Cartridge
