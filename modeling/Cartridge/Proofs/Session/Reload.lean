import Cartridge.Proofs.Script.Decoding
import Cartridge.Proofs.Script.Load
import Cartridge.Proofs.Session.Reachable
import Cartridge.Proofs.Session.Replace
import Cartridge.Proofs.Session.Storage

/-!
# Reloading what has been written back

* `CachedScript.Spares`      a range that a write-back of the script leaves alone;
* `CachedScript.Placed`      the script's blocks and the look-up of its location lie apart;
* `CachedScript.NamesStored` the strings of the script stand where its code says;
* `Session.Fresh`            an image of the bytes that a write-back leaves;
* `Session.Fresh.untouched`, `Session.Fresh.holds`, `Session.Fresh.load`   what is found there;
* `Session.reload_of_writeBack`   a session on these bytes gets the script back.
-/

namespace Cartridge

/-! ## places -/

namespace CachedScript

/-- the range is used, and apart from the old block of the script and its event pointer -/
structure Spares (entry : CachedScript) (image : Image) (index : Nat) (r : Range) : Prop where
  used : image.space.Used r
  block : r.Disjoint entry.block
  pointer : r.Disjoint (image.pointerRange index)

/-- the blocks of the script, its event pointer, and the record that leads to it are used, and apart
from each other -/
structure Placed (entry : CachedScript) (image : Image) (location index : Nat) : Prop
    extends entry.Owns image.space where
  pointer_used : image.space.Used (image.pointerRange index)
  pointer_block : (image.pointerRange index).Disjoint entry.block
  pointer_extent : ∀ old, entry.script.strings.extent = some old →
    (image.pointerRange index).Disjoint old
  records : ∀ r ∈ image.recordRanges location, entry.Spares image index r
  records_extent : ∀ old, entry.script.strings.extent = some old →
    ∀ r ∈ image.recordRanges location, r.Disjoint old

/-- places that follow each other, with nothing free in front of their end -/
theorem placed_in_order {entry : CachedScript} {image : Image} {location index stop : Nat}
    (hused : ∀ x < stop, image.space.isFree x = false)
    (hrecords : ∀ r ∈ image.recordRanges location, r.stop ≤ (image.pointerRange index).start)
    (hpointer : (image.pointerRange index).stop ≤ entry.block.start)
    (hblock : entry.block.start ≤ entry.block.stop ∧ entry.block.stop ≤ stop)
    (hextent : ∀ old, entry.script.strings.extent = some old →
      entry.block.stop ≤ old.start ∧ old.stop ≤ stop) : entry.Placed image location index := by
  have hfront : ∀ r : Range, r.stop ≤ stop → image.space.Used r := fun r hr x hx =>
    hused x (Nat.lt_of_lt_of_le hx.2 hr)
  have hwidth : (image.pointerRange index).start ≤ (image.pointerRange index).stop :=
    Nat.le_add_right ..
  obtain ⟨hpos, hend⟩ := hblock
  refine ⟨⟨hfront _ hend, ?_, ?_⟩, hfront _ (by omega), Range.disjoint_of_le (.inl hpointer), ?_,
    ?_, ?_⟩
  · exact fun old hold => hfront old (hextent old hold).2
  · exact fun old hold => Range.disjoint_of_le (.inl (hextent old hold).1)
  · intro old hold
    have hbehind := (hextent old hold).1
    exact Range.disjoint_of_le (.inl (by omega))
  · intro r hr
    have hbefore := hrecords r hr
    exact ⟨hfront r (by omega), Range.disjoint_of_le (.inl (by omega)),
      Range.disjoint_of_le (.inl hbefore)⟩
  · intro old hold r hr
    have hbehind := (hextent old hold).1
    have hbefore := hrecords r hr
    exact Range.disjoint_of_le (.inl (by omega))

/-- the script has been read for its strings, and names a table in which they stand, on bytes that
a write-back spares -/
def NamesStored (entry : CachedScript) (image : Image) (index : Nat) : Prop :=
  entry.script.HasDecoded ∧ ∃ addr table, entry.script.stringTableAddress = .ok (some addr) ∧
    image.toOffset addr = .ok table ∧
    ∀ i text, entry.script.strings.get? i = some text → ∃ start,
      StringTable.StandsAt image table i start text ∧
      entry.Spares image index (StringTable.slotRange table i) ∧
      entry.Spares image index (StringTable.textRange start text)

end CachedScript

namespace Script

/-- neither strings nor a command that names a table -/
def Stringless (s : Script) : Prop := s.strings.count = 0 ∧ s.stringTableAddress = .ok none

/-- functions begin at commands, and every textbox shows a string of the script -/
structure Resolved (s : Script) : Prop where
  boundaries : ∀ p ∈ s.pointers, s.BoundaryAt p
  shown : ∀ index, s.Shows index → index < s.strings.count

end Script

/-! ## the bytes behind a write-back -/

namespace Session

/-- an image of the bytes that a write-back has left -/
structure Fresh (s : Session) (location index : Nat) (entry : CachedScript) (staged : Staged)
    (fresh : Image) : Prop where
  placed : entry.Placed s.image location index
  reserved : ∃ ledger image,
    Staged.reserve entry.script entry.block (.ofImage s.image) = (.ok staged, ledger) ∧
    staged.store index ledger.image = (.ok (), image) ∧ fresh.data = image.data
  layout : fresh.layout = s.image.layout

section
variable {s : Session} {location index : Nat} {entry : CachedScript} {staged : Staged}
  {fresh : Image} (h : s.Fresh location index entry staged fresh)
include h

theorem Fresh.replaces : ∃ image, staged.Replaces entry index s.image image ∧
    fresh.data = image.data := by
  obtain ⟨ledger, image, hreserve, hstore, hdata⟩ := h.reserved
  exact ⟨image, Staged.replaces_of_store h.placed.toOwns hreserve hstore, hdata⟩

/-- the new blocks cover free bytes and those of the old blocks only -/
theorem Fresh.outside {x : Nat} (hused : s.image.space.isFree x = false) (hblock : x ∉ entry.block)
    (hextent : ∀ old, entry.script.strings.dirty = true →
      entry.script.strings.extent = some old → x ∉ old) :
    ∀ p ∈ staged.placements, x ∉ p.range := by
  obtain ⟨_, hreplaces, _⟩ := h.replaces
  refine hreplaces.outside hused ?_
  intro f hf
  rcases CachedScript.mem_freed.mp hf with ⟨hdirty, hold⟩ | rfl
  · exact hextent f hdirty hold
  · exact hblock

/-- the bytes of a range that is spared are what they were -/
theorem Fresh.untouched {r : Range} (hinside : r.stop ≤ s.image.size)
    (hspares : entry.Spares s.image index r)
    (hextent : ∀ old, entry.script.strings.dirty = true →
      entry.script.strings.extent = some old → r.Disjoint old) :
    ∀ x ∈ r, s.image.data[x]? = fresh.data[x]? := by
  intro x hx
  obtain ⟨_, hreplaces, hdata⟩ := h.replaces
  rw [hdata]
  refine hreplaces.out x (Nat.lt_of_lt_of_le hx.2 hinside) ?_ (hspares.pointer x hx)
  exact h.outside (hspares.used x hx) (hspares.block x hx) fun old hdirty hold =>
    hextent old hdirty hold x hx

/-- the new blocks stand at their places -/
theorem Fresh.holds : ∀ p ∈ staged.placements, fresh.data.Holds p.offset p.bytes := by
  intro p hp
  obtain ⟨_, hreplaces, hdata⟩ := h.replaces
  rw [hdata]
  refine hreplaces.holds p hp ?_
  intro x hx hpointer
  exact h.outside (h.placed.pointer_used x hpointer) (h.placed.pointer_block x hpointer)
    (fun old _ hold => h.placed.pointer_extent old hold x hpointer) p hp hx

/-- the look-up of the location leads to the new block -/
theorem Fresh.lookup (hindex : s.eventIndex location = .ok index) :
    fresh.locationRecord location = s.image.locationRecord location ∧
      fresh.eventPointer index = .ok (fresh.toAddress staged.body.offset) := by
  obtain ⟨image, hreplaces, hdata⟩ := h.replaces
  obtain ⟨record, hrecord, _⟩ := bind_eq_ok.mp hindex
  have hlayout : fresh.layout = image.layout := h.layout.trans hreplaces.layout.symm
  refine ⟨Image.locationRecord_congr h.layout fun r hr => ?_, ?_⟩
  · refine h.untouched (Image.inside_of_locationRecord hrecord r hr) (h.placed.records r hr) ?_
    intro old _ hold
    exact h.placed.records_extent old hold r hr
  · rw [Image.eventPointer_congr hlayout fun x _ => by rw [hdata], hreplaces.pointer,
      Image.toAddress, Image.toAddress, hlayout]

end

/-! ## the script behind a write-back -/

section
variable {s : Session} {location index : Nat} {entry : CachedScript} {staged : Staged}
  {fresh : Image} (h : s.Fresh location index entry staged fresh)
include h

theorem Fresh.body (hbuilt : entry.script.Built) :
    staged.script.Bounded ∧ staged.body.bytes ≠ [] ∧
      Block.compress staged.script.toBytes = .ok staged.body.bytes ∧
      fresh.data.Holds staged.body.offset staged.body.bytes := by
  obtain ⟨ledger, _, hreserve, _, _⟩ := h.reserved
  obtain ⟨_, _, _, hnonempty, _⟩ := Staged.tracks_of_reserve h.placed.toOwns hreserve
  have hmem : staged.body ∈ staged.placements :=
    List.mem_append_right _ (List.mem_singleton_self _)
  obtain ⟨between, _, hbody⟩ := Staged.reserve_eq_ok hreserve
  exact ⟨(Staged.built_reserve hbuilt hreserve).wellFormed.toBounded, hnonempty _ hmem,
    (Staged.reserveBody_eq_ok hbody).1, h.holds _ hmem⟩

/-- strings that stay where they are can be read again -/
theorem Fresh.readable_of_kept (hresolved : entry.script.Resolved)
    (hdense : entry.script.strings.isDense = true) (hdirty : entry.script.strings.dirty = false)
    (hstored : entry.NamesStored s.image index) : Script.Readable fresh entry.script where
  fault := hstored.1.fault_eq_none hresolved.boundaries
  table := by
    obtain ⟨_, addr, table, haddress, htable, hstands⟩ := hstored
    have hkept : ∀ r : Range, ∀ old, entry.script.strings.dirty = true →
        entry.script.strings.extent = some old → r.Disjoint old := by
      intro r old hyes
      rw [hdirty] at hyes
      cases hyes
    refine ⟨addr, table, haddress, ?_, fun i hshows => ?_⟩
    · rw [Image.toOffset, h.layout]
      exact htable
    · have hlt := hresolved.shown i hshows
      rw [← StringTable.length_texts] at hlt
      have hget : entry.script.strings.get? i = some entry.script.strings.texts[i] := by
        rw [StringTable.get?_of_isDense hdense]
        exact List.getElem?_eq_getElem hlt
      obtain ⟨start, hstand, hslot, htext⟩ := hstands i _ hget
      obtain ⟨hslotInside, htextInside⟩ := hstand.inside
      exact ⟨_, start, hget, hstand.congr h.layout (h.untouched hslotInside hslot (hkept _))
        (h.untouched htextInside htext (hkept _))⟩

/-- strings that have been stored anew can be read where the script now says -/
theorem Fresh.readable_of_stored (hwell : entry.script.WellFormed)
    (hresolved : entry.script.Resolved) (hdirty : entry.script.strings.dirty = true) :
    Script.Readable fresh staged.script ∧ staged.script.strings = entry.script.strings.compact := by
  obtain ⟨ledger, _, hreserve, _, _⟩ := h.reserved
  obtain ⟨between, hstrings, _⟩ := Staged.reserve_eq_ok hreserve
  obtain ⟨_, hlayout⟩ := Staged.marksOnly_reserveStrings entry.script (.ofImage s.image)
  rw [hstrings] at hlayout
  have hlayout : between.image.layout = fresh.layout := hlayout.trans h.layout.symm
  rcases Staged.reserveStrings_eq_ok hstrings with ⟨hclean, _⟩ |
    ⟨_, _, offset, bytes, _, _, hserialize, hset, hplacement⟩
  · rw [hdirty] at hclean
    cases hclean
  · have hdense := (StringTable.serialize_eq_ok.mp hserialize).1
    obtain ⟨haddress, hfault, hsame, hshows⟩ := Script.setStringTableAddress_eq_ok hwell.toBounded
      hdense hresolved.boundaries hset
    have hholds : fresh.data.Holds offset bytes := by
      refine h.holds ⟨offset, bytes⟩ ?_
      rw [Staged.placements, hplacement]
      exact List.mem_cons_self ..
    rw [hlayout] at hserialize
    have hto : between.image.toAddress offset = fresh.toAddress offset := by
      rw [Image.toAddress, hlayout, Image.toAddress]
    refine ⟨⟨hfault, _, offset, haddress, ?_, fun i hshown => ?_⟩, hsame⟩
    · rw [hto]
      exact Image.toOffset_toAddress fresh offset
    · have hlt := hresolved.shown i (hshows i hshown)
      rw [← StringTable.length_texts] at hlt
      have htext : entry.script.strings.texts[i]? = some entry.script.strings.texts[i] :=
        List.getElem?_eq_getElem hlt
      have hcompact := hwell.texts.compact.dense (StringTable.compacted_compact _)
      refine ⟨entry.script.strings.texts[i], _, ?_, StringTable.standsAt_of_serialize hserialize
        hholds htext (hwell.texts.clean _ (List.getElem_mem hlt))⟩
      rw [hsame, StringTable.get?_of_isDense hcompact, StringTable.texts_compact]
      exact htext

theorem Fresh.script_of_clean (hdirty : entry.script.strings.dirty = false) :
    staged.script = entry.script := by
  obtain ⟨ledger, _, hreserve, _, _⟩ := h.reserved
  obtain ⟨between, hstrings, _⟩ := Staged.reserve_eq_ok hreserve
  rcases Staged.reserveStrings_eq_ok hstrings with ⟨_, hsame, _⟩ | ⟨hyes, _⟩
  · exact hsame
  · rw [hdirty] at hyes
    cases hyes

/-- a table without strings has no block, so it is not stored -/
theorem Fresh.clean_of_count (hcount : entry.script.strings.count = 0) :
    entry.script.strings.dirty = false := by
  obtain ⟨ledger, _, hreserve, _, _⟩ := h.reserved
  obtain ⟨between, hstrings, _⟩ := Staged.reserve_eq_ok hreserve
  obtain ⟨_, _, _, hnonempty, _⟩ := Staged.tracks_of_reserve h.placed.toOwns hreserve
  rcases Staged.reserveStrings_eq_ok hstrings with ⟨hclean, _⟩ |
    ⟨_, _, offset, bytes, _, _, hserialize, _, hplacement⟩
  · exact hclean
  · have hmem : ⟨offset, bytes⟩ ∈ staged.placements := by
      rw [Staged.placements, hplacement]
      exact List.mem_cons_self ..
    have hlength := StringTable.length_of_serialize hserialize
    rw [StringTable.blockLength_of_count hcount] at hlength
    exact absurd (List.eq_nil_of_length_eq_zero hlength) (hnonempty _ hmem)

/-- the script that is loaded from the new block -/
theorem Fresh.loadScript (hbuilt : entry.script.Built) (hmodified : entry.script.modified = true)
    (hscript : entry.script.Stringless ∨ entry.script.Resolved ∧
      (entry.script.strings.dirty = false → entry.NamesStored s.image index)) : ∃ loaded,
    Script.load fresh staged.body.offset = .ok loaded ∧ loaded.toBytes = staged.script.toBytes ∧
      ∀ i, loaded.Shows i → loaded.string i = staged.script.string i ∧
        staged.script.string i = entry.script.string i := by
  have hwell := hbuilt.wellFormed
  have hdense : entry.script.strings.isDense = true := hwell.texts.dense (hwell.numbered hmodified)
  obtain ⟨hbounded, hne, hcompress, hholds⟩ := h.body hbuilt
  rcases hscript with ⟨hcount, hnone⟩ | ⟨hresolved, hstored⟩
  · have hsame := h.script_of_clean (h.clean_of_count hcount)
    rw [← hsame] at hnone
    refine ⟨staged.script.bare, Script.load_of_bare hbounded hcompress hne hholds hnone, rfl, ?_⟩
    intro i _
    have hempty : entry.script.strings.get? i = none := by
      rw [StringTable.get?, List.eq_nil_of_length_eq_zero hcount]
      rfl
    have hfound : staged.script.bare.strings.get? i = staged.script.strings.get? i := by
      rw [hsame, hempty]
      rfl
    exact ⟨Script.string_congr hfound, by rw [hsame]⟩
  · have hreadable : Script.Readable fresh staged.script ∧
        ∀ i, staged.script.strings.get? i = entry.script.strings.get? i := by
      cases hdirty : entry.script.strings.dirty with
      | false =>
        rw [h.script_of_clean hdirty]
        exact ⟨h.readable_of_kept hresolved hdense hdirty (hstored hdirty), fun _ => rfl⟩
      | true =>
        obtain ⟨hread, hstrings⟩ := h.readable_of_stored hwell hresolved hdirty
        refine ⟨hread, ?_⟩
        intro i
        have hcompact := hwell.texts.compact.dense (StringTable.compacted_compact _)
        rw [hstrings, StringTable.get?_of_isDense hcompact, StringTable.texts_compact,
          StringTable.get?_of_isDense hdense]
    obtain ⟨strings, hload, hshown⟩ :=
      Script.load_of_readable hbounded hcompress hne hholds hreadable.1
    refine ⟨_, hload, rfl, ?_⟩
    intro i hshows
    obtain ⟨_, hall, _⟩ := Script.bare_frame staged.script
    have hshows : staged.script.Shows i := by
      rw [Script.Shows, ← hall]
      exact hshows
    exact ⟨Script.string_congr (hshown i hshows), Script.string_congr (hreadable.2 i)⟩

theorem Fresh.load (hbuilt : entry.script.Built) (hindex : s.eventIndex location = .ok index)
    {loaded : Script} (hload : Script.load fresh staged.body.offset = .ok loaded) :
    (ofImage fresh).get location =
      .ok (loaded, ⟨fresh, [(index, ⟨loaded, staged.body.range⟩)]⟩) := by
  obtain ⟨_, hne, hcompress, hholds⟩ := h.body hbuilt
  obtain ⟨hrecord, hpointer⟩ := h.lookup hindex
  have hlength := (Block.decompress_of_holds hcompress hne hholds).2
  have hentry : Session.load fresh index = .ok ⟨loaded, staged.body.range⟩ :=
    load_eq_ok.mpr ⟨_, _, _, loaded, hpointer, Image.toOffset_toAddress fresh _, hlength, hload, rfl⟩
  have hindex : (ofImage fresh).eventIndex location = .ok index := by
    rw [← hindex, eventIndex, eventIndex]
    show (fresh.locationRecord location >>= fun record => _) = _
    rw [hrecord]
  unfold get fetch
  rw [hindex]
  show ((Session.load fresh index >>= fun entry => _) >>= fun found => _) = _
  rw [hentry]
  rfl

end

theorem stored_frame (staged : Staged) : staged.stored.script.toBytes = staged.script.toBytes ∧
    ∀ i, staged.stored.script.string i = staged.script.string i := by
  unfold Staged.stored
  cases staged.strings with
  | none => exact ⟨rfl, fun i => rfl⟩
  | some p => exact ⟨rfl, fun i => rfl⟩

end Session

end Cartridge
