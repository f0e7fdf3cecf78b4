import Cartridge.Proofs.Script.Renumbering

/-!
# Patched arguments

A patch is put together from the command as it stands before the edit, opcode and all, and the whole
of it is written over the command after the strings have been numbered.  If the command is a textbox
this writes its old index back, unless the patch covers it.

* `Script.Patches`           the command that is patched, and what is written;
* `Script.patches_of_patchArguments`   a patch that succeeds;
* `Script.OnlyPatches`       the stream of the numbered script, but for the bytes of the patch;
* `Script.Patches.only_iff`  nothing else is written just when numbering has left the other bytes of
                             the command;
* `Script.Patches.allCommands`, `Script.Patches.only_iff_renumbered`   the same, said of the commands
                             of the script;
* `Script.patchArguments_changes`   **what a patch changes.**
-/

namespace Cartridge

open Command

namespace Script

/-! ## what is patched -/

/-- The first command with the opcode in `[start, stop)` stands at `pos`; the script is numbered,
which gives `t`, and then the command as it was, patched, is written. -/
structure Patches (s t s' : Script) (start stop pos : Nat) (c : Command) (opcode : UInt8)
    (offset : Nat) (bytes : Bytes) : Prop where
  first : ∃ before behind, (s.commands start stop).commands = before ++ (pos, c) :: behind ∧
    ∀ a ∈ before, a.2.opcode ≠ opcode
  opcode : c.opcode = opcode
  fits : offset + bytes.length ≤ c.args.length
  whole : (patched c offset bytes).IsWhole
  numbered : s.compactStrings = .ok t
  pointers : s'.pointers = s.pointers
  strings : s'.strings = t.strings
  stream : s'.stream = t.stream.overwrite (pos - s.headerLength) (patched c offset bytes).bytes

theorem patches_of_patchArguments {s s' : Script} {object function pos offset : Nat}
    {opcode : UInt8} {bytes : Bytes}
    (h : s.patchArguments object function opcode offset bytes = .ok (pos, s')) :
    ∃ start stop c t, s.functionStart object function = .ok start ∧
      s.functionEnd object function = .ok stop ∧
      Patches s t s' start stop pos c opcode offset bytes := by
  obtain ⟨start, stop, c, t, hstart, hstop, hfind, hat, hfits, hwhole, ht, rfl⟩ :=
    patchArguments_eq_ok h
  obtain ⟨before, found, behind, hcommands, hopcode, hbefore⟩ := findCommand_eq_ok hfind
  have hmem : (pos, found) ∈ (s.commands start stop).commands := by
    rw [hcommands]
    exact List.mem_append_cons_self
  obtain rfl : found = c := Except.ok.inj ((commandAt_of_mem_commands hmem).symm.trans hat)
  refine ⟨start, stop, found, t, hstart, hstop, ?_⟩
  refine
    { first := ⟨before, behind, hcommands, fun a ha hsame =>
        hbefore a ha (List.mem_singleton.mpr hsame)⟩
      opcode := List.mem_singleton.mp hopcode
      fits := hfits
      whole := hwhole
      numbered := ht
      pointers := (compactStrings_eq_ok ht).1
      strings := rfl
      stream := ?_ }
  rw [← (length_of_compactStrings ht).1]

/-! ## bytes -/

theorem bytes_patched (c : Command) (offset : Nat) (bytes : Bytes) :
    (patched c offset bytes).bytes = c.bytes.overwrite (1 + offset) bytes := by
  have hstop : 1 + offset + bytes.length = offset + bytes.length + 1 := by omega
  rw [Bytes.overwrite, hstop, Nat.add_comm 1 offset]
  rfl

/-- the numbered script, with the arguments from `offset` on of the command at `pos` overwritten -/
def OnlyPatches (t s' : Script) (pos offset : Nat) (bytes : Bytes) : Prop :=
  s'.stream = t.stream.overwrite (pos + 1 + offset - t.headerLength) bytes

namespace Patches

variable {s t s' : Script} {start stop pos : Nat} {c : Command} {opcode : UInt8} {offset : Nat}
  {bytes : Bytes} (h : Patches s t s' start stop pos c opcode offset bytes)
include h

theorem mem_commands : (pos, c) ∈ (s.commands start stop).commands := by
  obtain ⟨before, behind, hcommands, _⟩ := h.first
  rw [hcommands]
  exact List.mem_append_cons_self

/-- **Nothing but the patch is written just when numbering has left the other bytes.** -/
theorem only_iff : OnlyPatches t s' pos offset bytes ↔
    ∀ i < c.length, ¬ (1 + offset ≤ i ∧ i < 1 + offset + bytes.length) →
      t.byte? (pos + i) = s.byte? (pos + i) := by
  have hat := commandAt_of_mem_commands h.mem_commands
  obtain ⟨hlow, _, hhigh, _⟩ := commandAt_eq_ok hat
  obtain ⟨hheader, hlength⟩ := length_of_compactStrings h.numbered
  have hpatch : 1 + offset + bytes.length ≤ c.bytes.length := by
    have hfits := h.fits
    rw [length_bytes, Command.length]
    omega
  have hblock : pos - s.headerLength + c.bytes.length ≤ t.stream.length := by
    rw [← hlength, Script.length, hheader] at hhigh
    rw [length_bytes]
    omega
  have hplace : pos + 1 + offset - t.headerLength = pos - s.headerLength + (1 + offset) := by
    rw [hheader]
    omega
  rw [OnlyPatches, h.stream, bytes_patched, hplace,
    Bytes.overwrite_overwrite_iff hpatch hblock]
  refine forall_congr' fun i => forall_congr' fun hi => forall_congr' fun _ => ?_
  have hindex : pos + i - s.headerLength = pos - s.headerLength + i := by omega
  have hbyte : t.byte? (pos + i) = t.stream[pos - s.headerLength + i]? := by
    rw [byte?, hheader, hindex]
  rw [byte?_of_commandAt hat hi, hbyte]

end Patches

/-! ## commands -/

theorem eq_of_bytes {c d : Command} (h : ∀ i : Nat, c.bytes[i]? = d.bytes[i]?) : c = d := by
  obtain ⟨_, _⟩ := c
  obtain ⟨_, _⟩ := d
  obtain ⟨rfl, rfl⟩ := List.cons.inj (List.ext_getElem? h)
  rfl

namespace Patches

variable {s t s' : Script} {start stop pos : Nat} {c : Command} {opcode : UInt8} {offset : Nat}
  {bytes : Bytes} (h : Patches s t s' start stop pos c opcode offset bytes) (hs : s.WellFormed)
  (hstart : s.BoundaryAt start)
include h hstart

theorem mem_allCommands : (pos, c) ∈ s.allCommands.commands := by
  obtain ⟨hle, hlt⟩ := bounds_of_mem_commands h.mem_commands
  have hreaches : s.Reaches start := by
    rcases hstart with hend | hmem
    · omega
    · obtain ⟨⟨p, d⟩, hd, rfl⟩ := List.mem_map.mp hmem
      exact reaches_of_mem hd
  obtain ⟨front, back, hfront, hc, hstream, rfl⟩ := split_of_reaches hreaches h.mem_commands
  exact mem_of_split hfront hc hstream

include hs

theorem mem_numbered : (pos, renumbered s.strings c) ∈ t.allCommands.commands := by
  rw [allCommands_of_compactStrings hs h.numbered]
  exact List.mem_map.mpr ⟨_, h.mem_allCommands hstart, rfl⟩

/-- **The commands behind a patch**: all others are those of the numbered script. -/
theorem allCommands : s'.allCommands = ⟨s.allCommands.commands.map fun a =>
    (a.1, if a.1 = pos then patched c offset bytes else renumbered s.strings a.2),
      s.allCommands.fault⟩ := by
  obtain ⟨_, _, _, hwhole, _⟩ := split_of_mem (h.mem_allCommands hstart)
  obtain ⟨front, back, hfront, hnew, hstream, hpos⟩ := split_of_mem (h.mem_numbered hs hstart)
  have hlength : (patched c offset bytes).length = (renumbered s.strings c).length := by
    rw [length_patched h.fits, length_renumbered _ hwhole]
  have hplace : pos - s.headerLength = (flat front).length := by
    rw [hpos, (length_of_compactStrings h.numbered).1, Nat.add_sub_cancel_left]
  have hheader : s'.headerLength = t.headerLength := by
    rw [(length_of_compactStrings h.numbered).1, headerLength, h.pointers, headerLength]
  have hstream' : s'.stream = flat front ++ ((patched c offset bytes).bytes ++ back) := by
    rw [h.stream, hplace, hstream]
    exact Bytes.overwrite_middle (by rw [length_bytes, length_bytes, hlength]) back
  have hswap := allCommands_swap hfront hnew h.whole hlength hheader hstream hstream'
  rw [← hpos, allCommands_of_compactStrings hs h.numbered, List.map_map, Function.comp_def] at hswap
  rw [hswap]

/-- a textbox gets its old index back if it has a new one and the patch does not cover it -/
theorem only_iff_renumbered : OnlyPatches t s' pos offset bytes ↔
    renumbered s.strings c = c ∨ offset = 0 ∧ bytes ≠ [] := by
  have hmem := h.mem_allCommands hstart
  obtain ⟨_, _, _, hwhole, _⟩ := split_of_mem hmem
  have hlength := length_renumbered s.strings hwhole
  have hbyte : ∀ i < c.length, (t.byte? (pos + i) = s.byte? (pos + i) ↔
      (renumbered s.strings c).bytes[i]? = c.bytes[i]?) := by
    intro i hi
    rw [byte?_of_mem (h.mem_numbered hs hstart) (hlength.symm ▸ hi), byte?_of_mem hmem hi]
  rw [h.only_iff]
  by_cases hcovers : offset = 0 ∧ bytes ≠ []
  · refine ⟨fun _ => .inr hcovers, fun _ i hi hout => (hbyte i hi).mpr ?_⟩
    have hpos := List.length_pos_of_ne_nil hcovers.2
    exact getElem?_renumbered hwhole fun _ => by omega
  · rw [or_iff_left hcovers]
    constructor
    · intro hbytes
      refine eq_of_bytes fun i => ?_
      by_cases hi : i < c.length
      · by_cases hone : i = 1
        · refine (hbyte i hi).mp (hbytes i hi fun hin => hcovers ⟨by omega, ?_⟩)
          exact List.ne_nil_of_length_pos (by omega)
        · exact getElem?_renumbered hwhole fun _ => hone
      · rw [List.getElem?_eq_none (by rw [length_bytes, hlength]; omega),
          List.getElem?_eq_none (by rw [length_bytes]; omega)]
    · intro hsame i hi _
      rw [hbyte i hi, hsame]

end Patches

/-- **What a patch changes.**  The first command with the opcode in the function is patched, of the
script with its strings numbered; pointers and strings stay as that has them.  Nothing else is
written just when numbering has left the other bytes of the command.  If the function begins at a
command, so that the patched one is a command of the script, all other commands are those of the
numbered script, where they were, and nothing else is written just when the patched one has not been
renumbered either, or the patch covers its index.  The end of the patch has 64 bits. -/
theorem patchArguments_changes {s s' : Script} {object function pos offset : Nat} {opcode : UInt8}
    {bytes : Bytes} (hs : s.Built) (_ : offset + bytes.length < 2 ^ 64)
    (h : s.patchArguments object function opcode offset bytes = .ok (pos, s')) :
    ∃ start stop c t, s.functionStart object function = .ok start ∧
      s.functionEnd object function = .ok stop ∧
      Patches s t s' start stop pos c opcode offset bytes ∧
      (OnlyPatches t s' pos offset bytes ↔
        ∀ i < c.length, ¬ (1 + offset ≤ i ∧ i < 1 + offset + bytes.length) →
          t.byte? (pos + i) = s.byte? (pos + i)) ∧
      (s.BoundaryAt start →
        s'.allCommands = ⟨s.allCommands.commands.map fun a =>
          (a.1, if a.1 = pos then patched c offset bytes else renumbered s.strings a.2),
            s.allCommands.fault⟩ ∧
        (OnlyPatches t s' pos offset bytes ↔
          renumbered s.strings c = c ∨ offset = 0 ∧ bytes ≠ [])) := by
  have hwell := hs.wellFormed
  obtain ⟨start, stop, c, t, hstart, hstop, hpatches⟩ := patches_of_patchArguments h
  exact ⟨start, stop, c, t, hstart, hstop, hpatches, hpatches.only_iff, fun hboundary =>
    ⟨hpatches.allCommands hwell hboundary, hpatches.only_iff_renumbered hwell hboundary⟩⟩

/-- the last of three strings is the only one in use, and a box with choices shows it; the patch is
for the second argument, the choices, and the first one gets the old index back -/
theorem patchArguments_changes_sparse :
    let layout : Layout := ⟨0x1000, 0, 0, 4, 1, 0, 2, 8, 1, []⟩
    let block : Bytes :=
      [10, 0, 8, 1, 32, 0, 2, 0xD8, 0xB8, 80, 0, 0, 0x44, 20, 0, 0, 0xC0, 2, 5, 0, 64]
    let data : Bytes := List.replicate 16 0 ++ block ++ List.replicate 47 0 ++
      [88, 0, 0, 0, 0x41, 0] ++ List.replicate 38 0
    let space : FreeMap := ⟨128, 0x1000, false, [], by decide, by decide, by decide, by decide⟩
    let image : Image := ⟨data, space, layout⟩
    let s : Script := ⟨List.replicate 16 32, [0xB8, 80, 0, 0, 0xC0, 2, 5, 0],
      ⟨[(2, [0x41])], false, false, none⟩, false⟩
    let t : Script := ⟨List.replicate 16 32, [0xB8, 80, 0, 0, 0xC0, 0, 5, 0],
      ⟨[(0, [0x41])], true, true, none⟩, false⟩
    let s' : Script := ⟨List.replicate 16 32, [0xB8, 80, 0, 0, 0xC0, 2, 7, 0],
      ⟨[(0, [0x41])], true, true, none⟩, true⟩
    load image 16 = .ok s ∧ s.Built ∧ s.patchArguments 0 0 0xC0 1 [7] = .ok (36, s') ∧
      1 + [(7 : UInt8)].length < 2 ^ 64 ∧ s.compactStrings = .ok t ∧
      Patches s t s' 32 40 36 ⟨0xC0, [2, 5]⟩ 0xC0 1 [7] ∧
      s.BoundaryAt 32 ∧ ¬ OnlyPatches t s' 36 1 [7] := by
  intro layout block data space image s t s'
  have hload : load image 16 = .ok s := toOption_eq_some.mp (by decide +kernel)
  have hs : s.Built := .load hload
  have hpatch : s.patchArguments 0 0 0xC0 1 [7] = .ok (36, s') :=
    toOption_eq_some.mp (by decide +kernel)
  have hend : 1 + [(7 : UInt8)].length < 2 ^ 64 := by decide
  obtain ⟨start, stop, c, t', hstart, hstop, hpatches, _, hboundary⟩ :=
    patchArguments_changes hs hend hpatch
  have hstart' : s.functionStart 0 0 = .ok 32 := toOption_eq_some.mp (by decide +kernel)
  have hstop' : s.functionEnd 0 0 = .ok 40 := toOption_eq_some.mp (by decide +kernel)
  have hat : s.commandAt 36 = .ok ⟨0xC0, [2, 5]⟩ := toOption_eq_some.mp (by decide +kernel)
  have hnumbered : s.compactStrings = .ok t := toOption_eq_some.mp (by decide +kernel)
  obtain rfl : start = 32 := Except.ok.inj (hstart.symm.trans hstart')
  obtain rfl : stop = 40 := Except.ok.inj (hstop.symm.trans hstop')
  obtain rfl : c = ⟨0xC0, [2, 5]⟩ :=
    Except.ok.inj ((commandAt_of_mem_commands hpatches.mem_commands).symm.trans hat)
  obtain rfl : t' = t := Except.ok.inj (hpatches.numbered.symm.trans hnumbered)
  have hfirst : s.BoundaryAt 32 := by decide +kernel
  refine ⟨hload, hs, hpatch, hend, hnumbered, hpatches, hfirst, ?_⟩
  rw [(hboundary hfirst).2]
  decide +kernel

end Script

end Cartridge
