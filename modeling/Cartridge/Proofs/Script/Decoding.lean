import Cartridge.Proofs.Script.Built
import Cartridge.Proofs.Script.Load

/-!
# Scripts that decode

An edit that moves code reads all commands first, so it leaves a script that decodes.  Only a patch
of arguments does not: it reads from the start of a function on, and spoils what comes behind when
that function begins inside a command.

* `Script.Legible`           a script decodes, or a function begins where commands do not lead;
* `ScriptEdit.legible`       an edit keeps a script legible;
* `Script.HasDecoded`        the scripts that come from one that decodes, such as one whose strings
                             have been loaded (`Script.hasDecoded_of_load`);
* `Script.HasDecoded.fault_eq_none`   they still decode if their functions begin at commands.
-/

namespace Cartridge

open Command

namespace Script

/-! ## legible scripts -/

/-- the script decodes, or one of its functions begins where its commands do not lead -/
def Legible (s : Script) : Prop :=
  s.allCommands.fault = none ∨ ∃ p ∈ s.pointers, p < s.length ∧ ¬ s.Reaches p

theorem Legible.fault_eq_none {s : Script} (h : s.Legible)
    (hboundaries : ∀ p ∈ s.pointers, s.BoundaryAt p) : s.allCommands.fault = none := by
  rcases h with h | ⟨p, hp, hlt, hno⟩
  · exact h
  · rcases hboundaries p hp with hend | hmem
    · exact absurd hend (Nat.ne_of_lt hlt)
    · obtain ⟨⟨q, c⟩, hc, rfl⟩ := List.mem_map.mp hmem
      exact absurd (reaches_of_mem hc) hno

theorem Legible.congr {s s' : Script} (h : s.Legible) (hpointers : s'.pointers = s.pointers)
    (hlength : s'.stream.length = s.stream.length)
    (hreaches : ∀ pos, s'.Reaches pos ↔ s.Reaches pos) : s'.Legible := by
  have hsame : s'.length = s.length := by
    rw [length, headerLength, hpointers, hlength, length, headerLength]
  rcases h with h | ⟨p, hp, hlt, hno⟩
  · rw [fault_eq_none_iff] at h
    refine .inl (fault_eq_none_iff.mpr ?_)
    rw [hreaches, hsame]
    exact h
  · refine .inr ⟨p, ?_, ?_, ?_⟩
    · rw [hpointers]
      exact hp
    · rw [hsame]
      exact hlt
    · rw [hreaches]
      exact hno

/-- the strings of a script and its mark do not matter -/
theorem Legible.of_code {s s' : Script} (h : s.Legible) (hpointers : s'.pointers = s.pointers)
    (hstream : s'.stream = s.stream) : s'.Legible := by
  refine h.congr hpointers (congrArg List.length hstream) ?_
  intro pos
  rw [Reaches, Reaches, hstream, headerLength, hpointers, headerLength]

/-! ## edits that move code -/

theorem fault_of_replace {s s' : Script} {place removed : Nat} {code : Bytes} {anchor : Anchor}
    (h : s.replace place removed code anchor = .ok s') : s'.allCommands.fault = none := by
  obtain ⟨_, _, _, _, hcode, hspliced⟩ := replace_eq_ok h
  exact fault_of_spliced hcode hspliced

theorem fault_of_edit {s s' : Script} {change : Script → Except Error Script}
    (hchange : ∀ t t', change t = .ok t' → t'.allCommands.fault = none)
    (h : s.edit change = .ok s') : s'.allCommands.fault = none := by
  obtain ⟨t, _, h⟩ := bind_eq_ok.mp h
  obtain ⟨t', ht', h⟩ := bind_eq_ok.mp h
  cases h
  exact fault_congr (hchange t t' ht') rfl

theorem fault_of_setFunction {s s' : Script} {object function : Nat} {code : Bytes}
    (h : s.setFunction object function code = .ok s') : s'.allCommands.fault = none := by
  obtain ⟨slot, _, h⟩ := bind_eq_ok.mp h
  refine fault_of_edit ?_ h
  intro t t' hchange
  by_cases hempty : t.slotIsEmpty slot = true
  · rw [if_pos hempty] at hchange
    obtain ⟨place, _, hfill⟩ := bind_eq_ok.mp hchange
    obtain ⟨filled, hreplace, hfill⟩ := bind_eq_ok.mp hfill
    cases hfill
    exact fault_congr (fault_of_replace hreplace) rfl
  · rw [if_neg hempty] at hchange
    obtain ⟨stop, _, hreplace⟩ := bind_eq_ok.mp hchange
    exact fault_of_replace hreplace

theorem fault_of_pushObject {s s' : Script} {code : Bytes} {offsets : List Nat} {object : Nat}
    (h : s.editWith (fun t => t.pushObject code offsets) = .ok (object, s')) :
    s'.allCommands.fault = none := by
  obtain ⟨t, _, h⟩ := bind_eq_ok.mp h
  obtain ⟨⟨_, t'⟩, hpush, h⟩ := bind_eq_ok.mp h
  cases h
  obtain ⟨_, hpush⟩ := unless_throw_eq_ok.mp hpush
  obtain ⟨grown, _, hpush⟩ := bind_eq_ok.mp hpush
  obtain ⟨filled, hreplace, hpush⟩ := bind_eq_ok.mp hpush
  cases hpush
  exact fault_congr (fault_of_replace hreplace) rfl

theorem fault_of_appendCopyOf {s s' : Script} {source object : Nat}
    (h : s.appendCopyOf source = .ok (object, s')) : s'.allCommands.fault = none := by
  obtain ⟨_, _, _, _, _, _, _, _, _, hedit⟩ := exists_of_appendCopyOf h
  exact fault_of_pushObject hedit

theorem isWhole_lowered (handle : Nat) {c : Command} (h : c.IsWhole) :
    (lowered handle c).IsWhole := by
  by_cases hkind : c.kind = .objectRef
  · have hfixed : c.IsFixed := ⟨by rw [hkind]; decide, by rw [hkind]; decide⟩
    have hopcode : (lowered handle c).opcode = c.opcode := by
      unfold lowered
      split
      · split
        · rfl
        · rfl
      · rfl
    exact hfixed.isWhole_of_length hopcode (length_lowered handle h) h
  · have hsame : lowered handle c = c := by
      unfold lowered namedHandle?
      rw [if_neg hkind]
    rw [hsame]
    exact h

theorem fault_of_deleteAll {s s' : Script} {entries : List (Nat × Command)}
    (hs : s.allCommands.fault = none) (h : s.deleteAll entries = .ok s') :
    s'.allCommands.fault = none := by
  induction entries generalizing s with
  | nil =>
    cases h
    exact hs
  | cons entry entries ih =>
    obtain ⟨t, hreplace, h⟩ := bind_eq_ok.mp h
    exact ih (fault_of_replace hreplace) h

theorem fault_of_forgetObject {s s' : Script} {object : Nat} (h : s.forgetObject object = .ok s') :
    s'.allCommands.fault = none := by
  obtain ⟨_, _, h⟩ := bind_eq_ok.mp h
  obtain ⟨commands, hcommands, h⟩ := bind_eq_ok.mp h
  obtain ⟨cs, hwhole, _, hbytes⟩ := flatMap_of_toExcept hcommands (lowered (2 * object))
  let lower : Script :=
    { s with stream := commands.flatMap fun entry => (lowered (2 * object) entry.2).bytes }
  have hlowered : ∀ c ∈ cs.map (lowered (2 * object)), c.IsWhole := by
    intro c hc
    obtain ⟨d, hd, rfl⟩ := List.mem_map.mp hc
    exact isWhole_lowered _ (hwhole d hd)
  have hlower : lower.allCommands.fault = none := by
    rw [allCommands_of_flat (s := lower) hlowered hbytes]
  exact fault_of_deleteAll hlower h

theorem fault_of_removeObject {s s' : Script} {object : Nat}
    (h : s.removeObject object = .ok s') : s'.allCommands.fault = none := by
  obtain ⟨start, _, h⟩ := bind_eq_ok.mp h
  obtain ⟨stop, _, h⟩ := bind_eq_ok.mp h
  refine fault_of_edit ?_ h
  intro t t' hchange
  obtain ⟨cut, _, hchange⟩ := bind_eq_ok.mp hchange
  obtain ⟨shrunk, _, hchange⟩ := bind_eq_ok.mp hchange
  exact fault_of_forgetObject hchange

/-! ## renumbering -/

theorem isWhole_renumbered (strings : StringTable) {c : Command} (h : c.IsWhole) :
    (renumbered strings c).IsWhole := by
  by_cases hkind : c.kind = .textbox
  · have hfixed : c.IsFixed := ⟨by rw [hkind]; decide, by rw [hkind]; decide⟩
    exact hfixed.isWhole_of_length (opcode_renumbered strings c) (length_renumbered strings h) h
  · rw [renumbered_of_ne hkind]
    exact h

/-- renumbering leaves the stream, or has read it -/
theorem compactStrings_cases {s t : Script} (h : s.compactStrings = .ok t) :
    (t.stream = s.stream ∧ (s.strings.isDense = true ∨ s.strings.compacted = true)) ∨
      ∃ cs, (∀ c ∈ cs, c.IsWhole) ∧ s.stream = flat cs ∧
        t.stream = flat (cs.map (renumbered s.strings)) := by
  by_cases hdense : s.strings.isDense = true
  · exact .inl ⟨(compactStrings_eq_ok h).2.2.2.2 hdense, .inl hdense⟩
  · unfold compactStrings at h
    by_cases hcompacted : s.strings.compacted = true
    · rw [if_pos hcompacted] at h
      cases h
      exact .inl ⟨rfl, .inr hcompacted⟩
    · rw [if_neg hcompacted] at h
      dsimp only at h
      rw [if_neg hdense] at h
      obtain ⟨commands, hcommands, h⟩ := bind_eq_ok.mp h
      cases h
      exact .inr (flatMap_of_toExcept hcommands (renumbered s.strings))

theorem whole_map_renumbered {strings : StringTable} {cs : List Command}
    (h : ∀ c ∈ cs, c.IsWhole) : ∀ c ∈ cs.map (renumbered strings), c.IsWhole := by
  intro c hc
  obtain ⟨d, hd, rfl⟩ := List.mem_map.mp hc
  exact isWhole_renumbered strings (h d hd)

theorem Legible.compactStrings {s t : Script} (h : s.Legible)
    (hcompact : s.compactStrings = .ok t) : t.Legible := by
  rcases compactStrings_cases hcompact with ⟨hsame, _⟩ | ⟨cs, hwhole, _, hstream⟩
  · exact h.of_code (compactStrings_eq_ok hcompact).1 hsame
  · refine .inl ?_
    rw [allCommands_of_flat (whole_map_renumbered hwhole) hstream]

/-- renumbering moves no command -/
theorem reaches_of_compactStrings {s t : Script} {pos : Nat} (hcompact : s.compactStrings = .ok t)
    (h : t.Reaches pos) : s.Reaches pos := by
  have hheader := (length_of_compactStrings hcompact).1
  rcases compactStrings_cases hcompact with ⟨hsame, _⟩ | ⟨cs, hwhole, hstream, hstream'⟩
  · exact h.congr hheader.symm (by rw [hsame])
  · exact reaches_of_map (fun c hc => isWhole_renumbered _ (hwhole c hc))
      (fun c hc => length_renumbered _ (hwhole c hc)) hwhole hheader hstream hstream' h

/-! ## patches -/

theorem mem_of_functionStart {s : Script} {object function start : Nat}
    (h : s.functionStart object function = .ok start) : start ∈ s.pointers := by
  obtain ⟨slot, hslot, h⟩ := bind_eq_ok.mp h
  cases h
  obtain ⟨hobject, hslot⟩ := unless_eq_ok.mp hslot
  obtain ⟨hfunction, hslot⟩ := unless_eq_ok.mp hslot
  cases hslot
  have hlt : object * functionsPerObject + function < s.pointers.length := by
    rw [objectCount, functionsPerObject] at hobject
    rw [functionsPerObject] at hfunction ⊢
    omega
  rw [pointer, List.getD_eq_getElem?_getD, List.getElem?_eq_getElem hlt, Option.getD_some]
  exact List.getElem_mem hlt

/-- a patch of a command that the commands of the script lead to -/
theorem Legible.patch {s t : Script} {front : List Command} {c c' : Command} {back : Bytes}
    (h : s.Legible) (hcompact : s.compactStrings = .ok t) (hfront : ∀ d ∈ front, d.IsWhole)
    (hc : c.IsWhole) (hc' : c'.IsWhole) (hlength : c'.length = c.length)
    (hstream : s.stream = flat front ++ (c.bytes ++ back)) :
    ({ t with
      stream := t.stream.overwrite (flat front).length c'.bytes, modified := true } :
        Script).Legible := by
  let s' : Script :=
    { t with stream := t.stream.overwrite (flat front).length c'.bytes, modified := true }
  have hpointers : t.pointers = s.pointers := (compactStrings_eq_ok hcompact).1
  rcases compactStrings_cases hcompact with ⟨hsame, _⟩ | ⟨cs, hwhole, hbytes, hbytes'⟩
  · have hpatched : s'.stream = flat front ++ (c'.bytes ++ back) := by
      show t.stream.overwrite (flat front).length c'.bytes = _
      rw [hsame, hstream]
      exact Bytes.overwrite_middle (by rw [length_bytes, length_bytes, hlength]) back
    have hheader : s'.headerLength = s.headerLength := by
      rw [headerLength, headerLength, show s'.pointers = s.pointers from hpointers]
    have hsize : s'.stream.length = s.stream.length := by
      rw [hpatched, hstream, List.length_append, List.length_append, List.length_append,
        List.length_append, length_bytes, length_bytes, hlength]
    exact h.congr hpointers hsize fun pos =>
      reaches_swap hfront hc hc' hlength hheader hstream hpatched
  · -- all commands have been read, so the old command is one of them, and now the new one is
    have hsplit : flat cs ++ [] = flat front ++ (c.bytes ++ back) := by
      rw [List.append_nil, ← hbytes, hstream]
    have hlt : (flat front).length < (flat cs).length := by
      rw [← hbytes, hstream, List.length_append, List.length_append, length_bytes]
      have hpositive := c.length_pos
      omega
    obtain ⟨ds, rfl, _⟩ := exists_append_cons_of_flat hwhole hfront hc hsplit hlt
    let f := renumbered s.strings
    have hwholeFront : ∀ d ∈ front.map f ++ c' :: ds.map f, d.IsWhole := by
      intro d hd
      rcases List.mem_append.mp hd with hd | hd
      · exact whole_map_renumbered hfront d hd
      · rcases List.mem_cons.mp hd with rfl | hd
        · exact hc'
        · exact whole_map_renumbered (fun e he =>
            hwhole e (List.mem_append_right _ (List.mem_cons_of_mem _ he))) d hd
    have hfrontLength : (flat (front.map f)).length = (flat front).length :=
      length_flat_map fun d hd => length_renumbered _ (hfront d hd)
    have hpatched : s'.stream = flat (front.map f ++ c' :: ds.map f) := by
      show t.stream.overwrite (flat front).length c'.bytes = _
      rw [hbytes', List.map_append, List.map_cons, flat_append, flat_cons, ← hfrontLength,
        flat_append, flat_cons]
      refine Bytes.overwrite_middle ?_ _
      rw [length_bytes, length_bytes, hlength]
      exact (length_renumbered _ hc).symm
    refine .inl ?_
    rw [allCommands_of_flat (s := s') hwholeFront hpatched]

/-- a patch behind a function that begins where no commands lead does not help that function -/
theorem Legible.patchArguments {s s' : Script} {object function pos offset : Nat} {opcode : UInt8}
    {bytes : Bytes} (h : s.Legible)
    (hpatch : s.patchArguments object function opcode offset bytes = .ok (pos, s')) :
    s'.Legible := by
  obtain ⟨start, stop, c, t, hstart, _, hfind, hat, hfits, hwhole, hcompact, rfl⟩ :=
    patchArguments_eq_ok hpatch
  have hlength := length_patched hfits
  obtain ⟨before, found, behind, hcommands, _⟩ := findCommand_eq_ok hfind
  have hmem : (pos, found) ∈ (s.commands start stop).commands := by
    rw [hcommands]
    exact List.mem_append_cons_self
  obtain ⟨hpointers, hsize, _⟩ := compactStrings_eq_ok hcompact
  have hheader := (length_of_compactStrings hcompact).1
  by_cases hreaches : s.Reaches start
  · obtain ⟨front, back, hfront, hfound, hstream, rfl⟩ := split_of_reaches hreaches hmem
    rw [commandAt_of_split hfound hstream] at hat
    cases hat
    rw [hheader, Nat.add_sub_cancel_left]
    exact h.patch hcompact hfront hfound hwhole hlength hstream
  · obtain ⟨hle, hlt⟩ := bounds_of_mem_commands hmem
    obtain ⟨hlow, _, hinside, _⟩ := commandAt_eq_ok hat
    let s' : Script :=
      { t with
        stream := t.stream.overwrite (pos - t.headerLength) (patched c offset bytes).bytes
        modified := true }
    have hfits : pos - t.headerLength + (patched c offset bytes).bytes.length ≤
        t.stream.length := by
      rw [length_bytes, hlength, hheader, hsize]
      rw [length] at hinside
      omega
    have hlengthSame : s'.length = s.length := by
      have hstream : s'.stream.length = t.stream.length := Bytes.length_overwrite hfits
      rw [length, hstream, hsize, length, ← hheader]
      rfl
    refine .inr ⟨start, ?_, ?_, ?_⟩
    · show start ∈ t.pointers
      rw [hpointers]
      exact mem_of_functionStart hstart
    · rw [hlengthSame]
      omega
    · intro hreached
      have htake : t.stream.take (start - s'.headerLength) =
          s'.stream.take (start - s'.headerLength) := by
        have hbefore : start - t.headerLength ≤ pos - t.headerLength := by omega
        exact (Bytes.take_overwrite _ hbefore (by omega)).symm
      have hreachedBefore : t.Reaches start := Reaches.congr hreached rfl htake
      exact hreaches (reaches_of_compactStrings hcompact hreachedBefore)

/-! ## strings -/

theorem Legible.addString {s s' : Script} {index : Nat} {text : Bytes} (h : s.Legible)
    (hadd : s.addString text = .ok (index, s')) : s'.Legible := by
  obtain ⟨t, ht, hadd⟩ := bind_eq_ok.mp hadd
  obtain ⟨⟨i, t'⟩, ht', hadd⟩ := bind_eq_ok.mp hadd
  obtain ⟨⟨j, strings⟩, _, ht'⟩ := bind_eq_ok.mp ht'
  cases ht'
  cases hadd
  exact (h.compactStrings ht).of_code rfl rfl

theorem Legible.setString {s s' : Script} {index : Nat} {text : Bytes} (h : s.Legible)
    (hset : s.setString index text = .ok s') : s'.Legible := by
  obtain ⟨t, ht, hset⟩ := bind_eq_ok.mp hset
  obtain ⟨t', ht', hset⟩ := bind_eq_ok.mp hset
  obtain ⟨strings, _, ht'⟩ := bind_eq_ok.mp ht'
  cases ht'
  cases hset
  exact (h.compactStrings ht).of_code rfl rfl

theorem fault_of_code {s s' : Script} (edit : CodeEdit) (h : edit.apply s = .ok s') :
    s'.allCommands.fault = none := by
  cases edit with
  | insert pos code => exact fault_of_edit (fun _ _ => fault_of_replace) h
  | delete pos length => exact fault_of_edit (fun _ _ => fault_of_replace) h
  | replace pos c =>
    obtain ⟨old, _, h⟩ := bind_eq_ok.mp h
    exact fault_of_edit (fun _ _ => fault_of_replace) h

theorem fault_of_newAddress {s s' : Script} {addr : Nat}
    (h : s.setStringTableAddress addr = .ok s') : s'.allCommands.fault = none := by
  obtain ⟨c, _, h⟩ := bind_eq_ok.mp h
  obtain ⟨start, _, h⟩ := bind_eq_ok.mp h
  obtain ⟨found, _, h⟩ := bind_eq_ok.mp h
  cases found with
  | none => exact fault_of_code (.insert start c.bytes) h
  | some pos => exact fault_of_code (.replace pos c) h

end Script

/-- **An edit keeps a script legible.** -/
theorem ScriptEdit.legible {s s' : Script} {edit : ScriptEdit} (h : s.Legible)
    (happly : edit.apply s = .ok s') : s'.Legible := by
  cases edit with
  | code edit => exact .inl (Script.fault_of_code edit happly)
  | setFunction object function body => exact .inl (Script.fault_of_setFunction happly)
  | appendObject =>
    obtain ⟨⟨object, _⟩, hdone, rfl⟩ := map_eq_ok.mp happly
    exact .inl (Script.fault_of_pushObject hdone)
  | appendCopyOf source =>
    obtain ⟨⟨object, _⟩, hdone, rfl⟩ := map_eq_ok.mp happly
    exact .inl (Script.fault_of_appendCopyOf hdone)
  | removeObject object => exact .inl (Script.fault_of_removeObject happly)
  | patchArguments object function opcode offset bytes =>
    obtain ⟨⟨pos, _⟩, hdone, rfl⟩ := map_eq_ok.mp happly
    exact h.patchArguments hdone
  | addString text =>
    obtain ⟨⟨index, _⟩, hdone, rfl⟩ := map_eq_ok.mp happly
    exact h.addString hdone
  | setString index text => exact h.setString happly
  | setStringTableAddress addr => exact .inl (Script.fault_of_newAddress happly)

namespace Script

/-! ## scripts that have decoded -/

/-- edits and write-backs of a script that decoded once -/
inductive HasDecoded : Script → Prop
  | here {s : Script} (h : s.allCommands.fault = none) : HasDecoded s
  | edit {s s' : Script} (hs : HasDecoded s) (edit : ScriptEdit) (h : edit.apply s = .ok s') :
    HasDecoded s'
  | stored {s : Script} (hs : HasDecoded s) (extent : Range) :
    HasDecoded { s with strings := s.strings.markStored extent, modified := false }
  | clean {s : Script} (hs : HasDecoded s) : HasDecoded { s with modified := false }

theorem HasDecoded.legible {s : Script} (h : s.HasDecoded) : s.Legible := by
  induction h with
  | here h => exact .inl h
  | edit _ edit h ih => exact ScriptEdit.legible ih h
  | stored _ extent ih => exact ih.of_code rfl rfl
  | clean _ ih => exact ih.of_code rfl rfl

/-- **What has decoded still decodes if its functions begin at commands.** -/
theorem HasDecoded.fault_eq_none {s : Script} (h : s.HasDecoded)
    (hboundaries : ∀ p ∈ s.pointers, s.BoundaryAt p) : s.allCommands.fault = none :=
  h.legible.fault_eq_none hboundaries

/-- the textboxes of a script are read before its strings are loaded -/
theorem hasDecoded_of_load {image : Image} {offset addr : Nat} {s : Script}
    (h : load image offset = .ok s) (haddress : s.stringTableAddress = .ok (some addr)) :
    s.HasDecoded := by
  obtain ⟨bytes, t, _, _, ⟨hnone, rfl⟩ | ⟨_, used, _, strings, _, hused, _, _, rfl⟩⟩ :=
    load_eq_ok.mp h
  · rw [hnone] at haddress
    cases haddress
  · exact .here (fault_congr (fault_of_usedStrings hused) rfl)

end Script

end Cartridge
