import Cartridge.Proofs.Block.RoundTrip
import Cartridge.Proofs.Bytes
import Cartridge.Proofs.Script.TableAddress

/-!
# Loading what has been stored

* `Block.decompress_of_holds`   a compressed block is read wherever an image holds it;
* `Script.load_eq_ok`        what is read when a script is loaded;
* `Script.load_of_bare`      a script that names no string table is loaded without strings;
* `Script.Readable`          the strings that the textboxes of a script show stand in an image, in
                             the table that the script names;
* `Script.load_of_readable`  such a script is loaded with these strings.
-/

namespace Cartridge

theorem Block.decompress_of_holds {data bytes block : Bytes} {pos : Nat}
    (hcompress : Block.compress bytes = .ok block) (hne : block ≠ [])
    (hholds : data.Holds pos block) :
    Block.decompress data pos = .ok bytes ∧ Block.blockLength data pos = .ok block.length := by
  obtain ⟨w, hlaid⟩ := Block.laid_of_compress hcompress
  have hpos := List.length_pos_of_ne_nil hne
  have hinside := Bytes.length_of_holds hholds hpos
  have hbefore : (data.take pos).length = pos := by
    rw [List.length_take]
    omega
  have hdata := Bytes.eq_append_of_holds hholds hpos
  have hread := Block.decompress_of_laid hlaid (data.take pos) (data.drop (pos + block.length))
  have hlength := hlaid.blockLength (data.take pos) (data.drop (pos + block.length))
  rw [← hdata, hbefore] at hread hlength
  exact ⟨hread, hlength⟩

namespace Script

/-- the script as its stored form has it, without strings -/
def bare (s : Script) : Script := ⟨s.pointers, s.stream, .empty, false⟩

theorem bare_frame (s : Script) : s.bare.toBytes = s.toBytes ∧ s.bare.allCommands = s.allCommands ∧
    s.bare.stringTableAddress = s.stringTableAddress := by
  obtain ⟨_, _, hall, _, haddress⟩ := congr_code (s := s) (t := s.bare) rfl rfl
  exact ⟨rfl, hall, haddress⟩

theorem string_congr {s t : Script} {index : Nat}
    (h : s.strings.get? index = t.strings.get? index) : s.string index = t.string index := by
  rw [string, h, string]

/-! ## textboxes -/

theorem shownString?_lt {c : Command} {index : Nat} (h : shownString? c = some index) :
    index < StringTable.limit := by
  unfold shownString? at h
  by_cases hkind : c.kind = .textbox
  · rw [if_pos hkind] at h
    cases h
    exact UInt8.toNat_lt _
  · rw [if_neg hkind] at h
    cases h

theorem usedStrings_of_fault {s : Script} (h : s.allCommands.fault = none) :
    ∃ used, s.usedStrings = .ok used ∧ ∀ index, index ∈ used ↔ s.Shows index := by
  have hcommands : s.allCommands.toExcept = .ok s.allCommands.commands := by
    rw [Reading.toExcept, h]
  refine ⟨(List.range StringTable.limit).filter (s.allCommands.commands.filterMap fun entry =>
    shownString? entry.2).contains, ?_, fun index => ?_⟩
  · unfold usedStrings
    rw [hcommands]
    rfl
  · rw [List.mem_filter, List.mem_range, List.contains_iff_mem, List.mem_filterMap]
    constructor
    · exact fun hmem => hmem.2
    · rintro ⟨entry, hentry, hshown⟩
      exact ⟨shownString?_lt hshown, entry, hentry, hshown⟩

theorem fault_of_usedStrings {s : Script} {used : List Nat} (h : s.usedStrings = .ok used) :
    s.allCommands.fault = none := by
  obtain ⟨commands, hcommands, _⟩ := bind_eq_ok.mp h
  cases hfault : s.allCommands.fault with
  | none => rfl
  | some fault =>
    rw [Reading.toExcept, hfault] at hcommands
    cases hcommands

theorem mem_usedStrings {s : Script} {used : List Nat} (h : s.usedStrings = .ok used)
    (index : Nat) : index ∈ used ↔ s.Shows index := by
  obtain ⟨used', hused, hmem⟩ := usedStrings_of_fault (fault_of_usedStrings h)
  obtain rfl := Except.ok.inj (h.symm.trans hused)
  exact hmem index

theorem ascending_of_usedStrings {s : Script} {used : List Nat} (h : s.usedStrings = .ok used) :
    used.Pairwise (· < ·) := by
  obtain ⟨commands, _, h⟩ := bind_eq_ok.mp h
  cases h
  exact List.pairwise_lt_range.filter _

/-! ## loading -/

/-- a script that names a string table is loaded with the strings that it shows -/
theorem load_eq_ok {image : Image} {offset : Nat} {s : Script} :
    load image offset = .ok s ↔ ∃ bytes t, Block.decompress image.data offset = .ok bytes ∧
      parse bytes = .ok t ∧ (t.stringTableAddress = .ok none ∧ s = t ∨
        ∃ addr used table strings, t.stringTableAddress = .ok (some addr) ∧
          t.usedStrings = .ok used ∧ image.toOffset addr = .ok table ∧
          StringTable.load image table used = .ok strings ∧ s = { t with strings }) := by
  unfold load
  simp only [bind_eq_ok]
  constructor
  · rintro ⟨bytes, hbytes, t, hparse, found, haddress, h⟩
    refine ⟨bytes, t, hbytes, hparse, ?_⟩
    cases found with
    | none =>
      cases h
      exact .inl ⟨haddress, rfl⟩
    | some addr =>
      simp only [bind_eq_ok] at h
      obtain ⟨used, hused, table, htable, strings, hstrings, h⟩ := h
      cases h
      exact .inr ⟨addr, used, table, strings, haddress, hused, htable, hstrings, rfl⟩
  · rintro ⟨bytes, t, hbytes, hparse, ⟨haddress, rfl⟩ |
      ⟨addr, used, table, strings, haddress, hused, htable, hstrings, rfl⟩⟩
    · exact ⟨bytes, hbytes, _, hparse, none, haddress, rfl⟩
    · refine ⟨bytes, hbytes, t, hparse, some addr, haddress, ?_⟩
      simp only [bind_eq_ok]
      exact ⟨used, hused, table, htable, strings, hstrings, rfl⟩

/-- the textboxes of the script can be resolved from what the image holds -/
structure Readable (image : Image) (s : Script) : Prop where
  fault : s.allCommands.fault = none
  table : ∃ addr table, s.stringTableAddress = .ok (some addr) ∧ image.toOffset addr = .ok table ∧
    ∀ index, s.Shows index → ∃ text start, s.strings.get? index = some text ∧
      StringTable.StandsAt image table index start text

section
variable {image : Image} {offset : Nat} {s : Script} {block : Bytes} (hbounded : s.Bounded)
  (hcompress : Block.compress s.toBytes = .ok block) (hne : block ≠ [])
  (hholds : image.data.Holds offset block)
include hbounded hcompress hne hholds

theorem load_of_bare (haddress : s.stringTableAddress = .ok none) :
    load image offset = .ok s.bare := by
  have hread := (Block.decompress_of_holds hcompress hne hholds).1
  exact load_eq_ok.mpr ⟨_, _, hread, parse_toBytes hbounded,
    .inl ⟨(bare_frame s).2.2.trans haddress, rfl⟩⟩

theorem load_of_readable (hreadable : Readable image s) : ∃ strings,
    load image offset = .ok { s.bare with strings } ∧
      ∀ index, s.Shows index → strings.get? index = s.strings.get? index := by
  obtain ⟨addr, table, haddress, htable, hstands⟩ := hreadable.table
  have hread := (Block.decompress_of_holds hcompress hne hholds).1
  obtain ⟨_, hall, hsame⟩ := bare_frame s
  have hfault : s.bare.allCommands.fault = none := by
    rw [hall]
    exact hreadable.fault
  obtain ⟨used, hused, hmem⟩ := usedStrings_of_fault hfault
  have hmem : ∀ index, index ∈ used ↔ s.Shows index := by
    intro index
    rw [hmem, Shows, Shows, hall]
  have hentries : ∀ index ∈ used, ∃ start,
      StringTable.StandsAt image table index start ((s.strings.get? index).getD []) := by
    intro index hindex
    obtain ⟨text, start, hget, hstand⟩ := hstands index ((hmem index).mp hindex)
    refine ⟨start, ?_⟩
    rw [hget]
    exact hstand
  obtain ⟨strings, hload, hget⟩ := StringTable.load_of_standsAt hentries
  refine ⟨strings, ?_, fun index hindex => ?_⟩
  · exact load_eq_ok.mpr ⟨_, _, hread, parse_toBytes hbounded,
      .inr ⟨addr, used, table, strings, hsame.trans haddress, hused, htable, hload, rfl⟩⟩
  · obtain ⟨text, start, hshown, _⟩ := hstands index hindex
    rw [hget index ((hmem index).mpr hindex), hshown]
    rfl

end

end Script

end Cartridge
