import Cartridge.Proofs.Script.Append
import Cartridge.Proofs.Script.Removal

/-!
# Addresses set again

Once a script names a string table, another address goes into the command that names it.  That
command keeps its place and its length; so nothing moves, and where all pointers and jumps lead to
commands nothing is written but the argument bytes.

* `Script.Aligned`           pointers and jumps lead to commands or to the end;
* `Script.Exchange.boundary_carry`   where a reference to a command or to the end ends up, there is
                             one again;
* `Script.Exchange.aligned`  code without jumps keeps a script aligned;
* `Script.replace_same_length`   a command in place of one of its length;
* `Script.Readdresses`       what another address changes;
* `Script.setStringTableAddress_of_found`, `Script.readdresses_of_found`   a script that names a
                             table can name any other;
* `Script.setStringTableAddress_reads_back`   **an address reads back, and so does every other one
                             that is set after it.**
-/

namespace Cartridge

open Command

namespace Script

/-- pointers and jumps lead to places at which commands begin, or to the end -/
structure Aligned (s : Script) : Prop where
  pointers : ∀ p ∈ s.pointers, s.BoundaryAt p
  targets : ∀ a ∈ s.allCommands.commands, ∀ base target,
    a.2.jump? a.1 = .ok (some (base, target)) → s.BoundaryAt target

/-! ## references that are carried along -/

namespace Exchange

variable {e : Splice} {s s' : Script} {front middle back kept new moved : List Command}
  (h : Exchange e s s' front middle back kept new moved)
include h

theorem boundary_stop : s.BoundaryAt e.stop := by
  have hstop : e.stop = s.headerLength + (flat (front ++ middle)).length := by
    rw [h.stop, h.place, flat_append, List.length_append, Nat.add_assoc]
  rw [hstop]
  exact boundary_of_flat h.whole h.stream

theorem boundary_place : s.BoundaryAt e.place := by
  have hwhole : ∀ c ∈ front ++ (middle ++ back), c.IsWhole := by
    rw [← List.append_assoc]
    exact h.whole
  have hstream : s.stream = flat (front ++ (middle ++ back)) := by
    rw [← List.append_assoc]
    exact h.stream
  rw [h.place]
  exact boundary_of_flat hwhole hstream

/-- references go to commands or to the end, as they did -/
theorem boundary_carry {q : Nat} (hq : s.BoundaryAt q) : s'.BoundaryAt (e.carry q) := by
  have hstop : e.stop = e.place + e.removed := rfl
  unfold Splice.carry
  split
  · next hfront => exact h.boundary_front hq (Nat.le_of_lt hfront)
  · next hfront =>
    split
    · -- both sides of the new code are boundaries
      unfold Splice.edge
      split
      · exact h.boundary_front h.boundary_place (Nat.le_refl _)
      · have hbehind := h.boundary_behind h.boundary_stop (Nat.le_refl _)
        rwa [hstop, Nat.add_sub_cancel] at hbehind
    · next hmiddle => exact h.boundary_behind hq (by omega)

/-- a jump is one of the old ones when the new code has none -/
theorem exists_of_jump (hnew : ∀ c ∈ new, ¬ c.IsJump) {b : Nat × Command}
    (hb : b ∈ s'.allCommands.commands) (hjump : b.2.IsJump) :
    ∃ a ∈ s.allCommands.commands, Carried e.shift e.carry a b := by
  rw [h.allCommands]
  rw [h.allCommands', List.append_assoc] at hb
  rcases List.mem_append.mp hb with hb | hb
  · obtain ⟨a, ha, hcarried⟩ := exists_of_mem_right h.before hb
    exact ⟨a, List.mem_append_left _ (List.mem_append_left _ ha), hcarried⟩
  · rcases List.mem_append.mp hb with hb | hb
    · have hmem := List.mem_map_of_mem (f := Prod.snd) hb
      rw [map_snd_laidFrom] at hmem
      exact absurd hjump (hnew b.2 hmem)
    · obtain ⟨a, ha, hcarried⟩ := exists_of_mem_right h.behind hb
      exact ⟨a, List.mem_append_right _ ha, hcarried⟩

/-- **Code without jumps keeps a script aligned**, and all jumps have targets. -/
theorem aligned (haligned : s.Aligned) (hpointers : s'.pointers = s.pointers.map e.carry)
    (hnew : ∀ c ∈ new, ¬ c.IsJump) : s'.Aligned ∧ s'.HasTargets := by
  have hjumps : ∀ b ∈ s'.allCommands.commands, b.2.IsJump → ∃ base target,
      b.2.jump? b.1 = .ok (some (base, target)) ∧ s'.BoundaryAt target := by
    intro b hb hjump
    obtain ⟨a, ha, hcarried⟩ := h.exists_of_jump hnew hb hjump
    obtain ⟨base, base', target, hold, hends⟩ := hcarried.target (hcarried.isJump_iff.mp hjump)
    exact ⟨base', _, hends, h.boundary_carry (haligned.targets a ha base target hold)⟩
  refine ⟨⟨?_, ?_⟩, ?_⟩
  · intro p hp
    rw [hpointers] at hp
    obtain ⟨q, hq, rfl⟩ := List.mem_map.mp hp
    exact h.boundary_carry (haligned.pointers q hq)
  · intro b hb base target hends
    obtain ⟨_, _, hends', hboundary⟩ := hjumps b hb (isJump_of_ends hends)
    rw [hends] at hends'
    cases hends'
    exact hboundary
  · intro b hb hjump
    obtain ⟨base, target, hends, _⟩ := hjumps b hb hjump
    exact ⟨base, target, hends⟩

end Exchange

/-! ## a command in place of one of its length -/

/-- a command divides the list in front of it and behind it -/
theorem exists_cuts {start pos : Nat} {cs : List Command} {c : Command}
    (h : (pos, c) ∈ laidFrom start cs) : ∃ front back, cs = front ++ c :: back ∧
      CutAt start cs pos front (c :: back) ∧
      CutAt start cs (pos + c.length) (front ++ [c]) back := by
  obtain ⟨front, back, rfl, hpos⟩ := mem_laidFrom_split h
  refine ⟨front, back, rfl, ⟨rfl, hpos⟩, ⟨?_, ?_⟩⟩
  · rw [List.append_assoc, List.singleton_append]
  · rw [hpos, flat_append, List.length_append, length_flat_cons, Nat.add_assoc]
    rfl

/-- bytes do not move when bytes in front of them are replaced by as many -/
theorem shift_eq_self {pos n x : Nat} {anchor : Anchor} (h : x < pos ∨ pos + n ≤ x) :
    Splice.shift ⟨pos, n, n, anchor⟩ x = x := by
  unfold Splice.shift
  dsimp only
  split
  · rfl
  · omega

section
variable {s : Script} (hfault : s.allCommands.fault = none) (haligned : s.Aligned)
  (htargets : s.HasTargets) {pos : Nat} {old : Command}
  (hmem : (pos, old) ∈ s.allCommands.commands)
include hfault hmem

/-- no reference leads into a command -/
theorem carry_of_boundary {q : Nat} (hq : s.BoundaryAt q) :
    Splice.carry ⟨pos, old.length, old.length, .before⟩ q = q := by
  apply carry_eq_self
  rcases Nat.lt_or_ge pos q with hlt | hle
  · exact .inr (boundary_gap hfault hmem hq hlt)
  · exact .inl hle

include haligned htargets

/-- the commands around the one that is replaced keep their distances -/
theorem retarget_around {start : Nat} {cs : List Command} (hwhole : ∀ c ∈ cs, c.IsWhole)
    (hlaid : ∀ a ∈ laidFrom start cs, a ∈ s.allCommands.commands)
    (hout : start + (flat cs).length ≤ pos ∨ pos + old.length ≤ start) :
    List.Forall₂ (fun entry c =>
      Splice.retarget ⟨pos, old.length, old.length, .before⟩ entry.1 entry.2 = .ok c)
      (laidFrom start cs) cs := by
  refine Splice.forall₂_retarget_of_still (n := 0) hwhole ?_ ?_
  · intro m hm
    exact shift_eq_self (by omega)
  · intro a ha hjump
    obtain ⟨base, target, hends⟩ := htargets a (hlaid a ha) hjump
    have hboundary := haligned.targets a (hlaid a ha) base target hends
    exact ⟨base, target, hends, carry_of_boundary hfault hmem hboundary⟩

/-- **A command in place of one of its length**: nothing moves, and no other command changes. -/
theorem replace_same_length (hsize : s.length ≤ maxLength) {c : Command} (hc : c.IsWhole)
    (hlength : c.length = old.length) : s.replace pos old.length c.bytes .before =
      .ok { s with stream := s.stream.overwrite (pos - s.headerLength) c.bytes } := by
  let e : Splice := ⟨pos, old.length, old.length, .before⟩
  have hbytes : c.bytes.length = old.length := by rw [length_bytes, hlength]
  obtain ⟨cs, hwhole, hstream, hall⟩ := flat_of_allCommands hfault
  have hlaid := hmem
  rw [hall] at hlaid
  obtain ⟨front, back, hcs, hplace, hstop⟩ := exists_cuts hlaid
  have hkept := retarget_around hfault haligned htargets hmem (hplace.whole hwhole).1
    (fun a ha => by rw [hall, hplace.laidFrom_eq]; exact List.mem_append_left _ ha)
    (.inl (Nat.le_of_eq hplace.pos_eq.symm))
  have hmoved := retarget_around hfault haligned htargets hmem (hstop.whole hwhole).2
    (fun a ha => by rw [hall, hstop.laidFrom_eq]; exact List.mem_append_right _ ha)
    (.inr (Nat.le_refl _))
  have hfits : s.length - old.length + old.length ≤ maxLength := by
    have hlast := (mem_laidFrom hlaid).2
    rw [← length_of_flat hstream] at hlast
    omega
  have hspliced : s.spliced e c.bytes = .ok _ :=
    spliced_of_retarget hwhole hstream hplace hstop hfits hkept hmoved
  have hpointers : s.pointers.map e.carry = s.pointers :=
    (List.map_congr_left fun p hp =>
      carry_of_boundary hfault hmem (haligned.pointers p hp)).trans (List.map_id _)
  have hpatched : flat front ++ c.bytes ++ flat back =
      s.stream.overwrite (pos - s.headerLength) c.bytes := by
    rw [hstream, hcs, hplace.pos_eq, Nat.add_sub_cancel_left, flat_append, flat_cons,
      Bytes.overwrite_middle (hbytes.trans (length_bytes old).symm), List.append_assoc]
  rw [hpointers, hpatched] at hspliced
  have hflat : flat [c] = c.bytes := List.append_nil _
  rw [← hflat]
  refine replace_of_cutAt hwhole (fun d hd => List.mem_singleton.mp hd ▸ hc) hstream hplace hstop ?_
  rw [hflat, hbytes]
  exact hspliced

end

/-! ## addresses -/

/-- what is found is a command of the script -/
theorem exists_tableCommand {s : Script} (hbounded : s.Bounded)
    (hfault : s.allCommands.fault = none) (haligned : s.Aligned) {pos : Nat}
    (hfound : s.findStringIndex? = .ok (some pos)) :
    s.functionStart 0 0 = .ok (s.pointer 0) ∧
      ∃ c, (pos, c) ∈ s.allCommands.commands ∧ c.opcode = Opcode.stringIndex := by
  have hfind := hfound
  obtain ⟨start, hstart, h⟩ := bind_eq_ok.mp hfound
  obtain ⟨stop, hend, _⟩ := bind_eq_ok.mp h
  obtain ⟨slot, hslot, hend⟩ := bind_eq_ok.mp hend
  obtain ⟨hobjects, rfl⟩ := slot_zero hslot
  obtain ⟨rest, hrest⟩ := pointers_eq_cons hobjects
  have hfirst : s.BoundaryAt (s.pointer 0) :=
    haligned.pointers _ (hrest ▸ List.mem_cons_self ..)
  rw [findStringIndex?_eq hobjects hbounded hfault hfirst hend, Except.ok.injEq,
    Option.map_eq_some_iff] at hfind
  obtain ⟨⟨_, c⟩, hcommand, rfl⟩ := hfind
  obtain ⟨hmem, _, _, hopcode⟩ := tableCommand?_eq_some hcommand
  refine ⟨?_, c, hmem, hopcode⟩
  rw [functionStart, hslot]
  rfl

/-- an address comes from a command -/
theorem exists_found {s : Script} {addr : Nat} (h : s.stringTableAddress = .ok (some addr)) :
    ∃ pos, s.findStringIndex? = .ok (some pos) := by
  unfold stringTableAddress at h
  split at h
  · cases h
  · obtain ⟨found, hfound, h⟩ := bind_eq_ok.mp h
    cases found with
    | none => cases h
    | some pos => exact ⟨pos, hfound⟩

/-- the command that names the table has no target -/
theorem aligned_of_setStringTableAddress {s s' : Script} {addr : Nat} (hs : s.WellFormed)
    (hcompacted : s.strings.compacted = true) (haligned : s.Aligned)
    (h : s.setStringTableAddress addr = .ok s') : s'.Aligned ∧ s'.HasTargets := by
  have hdense := hs.texts.dense hcompacted
  obtain ⟨c, _, place, removed, hopcode, hwhole, _, _, _, hedit, _⟩ :=
    edit_of_setStringTableAddress hs.toBounded hdense haligned.pointers h
  obtain ⟨t, hreplace, rfl⟩ := (edit_eq_ok hcompacted).mp hedit
  obtain ⟨_, _, _, _, _, hspliced⟩ := replace_eq_ok hreplace
  obtain ⟨front, middle, back, kept, new, moved, hflat, hexchange⟩ := exchange_of_replace hreplace
  have hjump : ¬ c.IsJump := by
    rw [IsJump, kind_of_stringIndex hopcode]
    decide
  have hnew : ∀ d ∈ new, ¬ d.IsJump := by
    have hone : [c] = new := flat_inj (by simpa using hwhole)
      (fun d hd => hexchange.whole' d (by simp [hd])) ((List.append_nil _).trans hflat)
    rw [← hone]
    simpa using hjump
  have hexchange' := hexchange.congr (t := { t with modified := true }) rfl rfl
  exact hexchange'.aligned haligned (spliced_frame hspliced).1 hnew

/-- the stored form has the object count in front of the positions -/
theorem toBytes_overwrite (s : Script) (modified : Bool) {pos : Nat} (hpos : s.headerLength ≤ pos)
    (patch : Bytes) : toBytes { s with
      stream := s.stream.overwrite (pos - s.headerLength) patch, modified } =
        s.toBytes.overwrite (pos + 1) patch := by
  have hfront : (UInt8.ofNat s.objectCount :: s.pointers.flatMap (Bytes.field 2)).length =
      s.headerLength + 1 := by
    rw [List.length_cons, length_fields, headerLength]
  have hindex : pos + 1 =
      (UInt8.ofNat s.objectCount :: s.pointers.flatMap (Bytes.field 2)).length +
        (pos - s.headerLength) := by
    rw [hfront]
    omega
  have hstored : s.toBytes =
      (UInt8.ofNat s.objectCount :: s.pointers.flatMap (Bytes.field 2)) ++ s.stream := rfl
  rw [hstored, hindex, Bytes.overwrite_append]
  rfl

/-- Another address in the command at `pos`: of the stored form, in which the object count stands in
front of the positions, its argument bytes are written and nothing else. -/
structure Readdresses (s s' : Script) (pos addr : Nat) : Prop where
  length : s'.length = s.length
  pointers : s'.pointers = s.pointers
  strings : s'.strings = s.strings
  bytes : ∀ i, s'.toBytes[i]? = if pos + 2 ≤ i ∧ i < pos + 5 then
    (Bytes.field 3 addr)[i - (pos + 2)]? else s.toBytes[i]?
  address : s'.stringTableAddress = .ok (some addr)

section
variable {s : Script} (hs : s.WellFormed) (hcompacted : s.strings.compacted = true)
  (hfault : s.allCommands.fault = none) (haligned : s.Aligned) (htargets : s.HasTargets)
  {pos : Nat} (hfound : s.findStringIndex? = .ok (some pos))
include hs hcompacted hfault haligned htargets hfound

/-- the address goes into the command that is found -/
theorem setStringTableAddress_of_found {addr : Nat} (haddr : addr < 2 ^ 24) :
    s.headerLength ≤ pos ∧ pos + 4 ≤ s.length ∧ s.setStringTableAddress addr = .ok { s with
      stream := s.stream.overwrite (pos + 1 - s.headerLength) (Bytes.field 3 addr)
      modified := true } := by
  let c : Command := ⟨Opcode.stringIndex, Bytes.field 3 addr⟩
  obtain ⟨hstart, old, hmem, hopcode⟩ := exists_tableCommand hs.toBounded hfault haligned hfound
  obtain ⟨hold, hat⟩ := commandAt_of_mem hmem
  obtain ⟨hlow, _, hhigh, _⟩ := commandAt_eq_ok hat
  have hc : Command.stringIndex addr = .ok c := if_neg (by rw [maxAddress]; omega)
  have hwhole := isWhole_of_stringIndex hc
  have hfour : old.length = 4 := (isWhole_iff_of_stringIndex hopcode).mp hold
  have hlength : c.length = old.length :=
    ((isWhole_iff_of_stringIndex rfl).mp hwhole).trans hfour.symm
  have hreplace := replace_same_length hfault haligned htargets hmem hs.length hwhole hlength
  -- the opcode is there already
  have hfirst : s.stream[pos - s.headerLength]? = some Opcode.stringIndex := by
    rw [← hopcode]
    exact byte?_of_mem hmem old.length_pos
  have hargs : s.stream.overwrite (pos - s.headerLength) c.bytes =
      s.stream.overwrite (pos + 1 - s.headerLength) (Bytes.field 3 addr) := by
    rw [Nat.sub_add_comm hlow]
    exact Bytes.overwrite_cons hfirst _
  rw [hargs] at hreplace
  have hedit : s.edit (fun s => s.replace pos old.length c.bytes .before) = .ok _ :=
    (edit_eq_ok hcompacted).mpr ⟨_, hreplace, rfl⟩
  refine ⟨hlow, hfour ▸ hhigh, ?_⟩
  exact bind_eq_ok.mpr ⟨c, mapError_eq_ok.mpr hc, bind_eq_ok.mpr ⟨_, hstart,
    bind_eq_ok.mpr ⟨some pos, hfound, bind_eq_ok.mpr ⟨old, hat, hedit⟩⟩⟩⟩

/-- **A script that names a string table can name any other**, and nothing else changes. -/
theorem readdresses_of_found {addr : Nat} (haddr : addr < 2 ^ 24) :
    ∃ s', s.setStringTableAddress addr = .ok s' ∧ Readdresses s s' pos addr := by
  obtain ⟨hlow, hhigh, hset⟩ :=
    setStringTableAddress_of_found hs hcompacted hfault haligned htargets hfound haddr
  have hdense := hs.texts.dense hcompacted
  have haddress := (setStringTableAddress_eq_ok hs.toBounded hdense haligned.pointers hset).1
  have hthree : (Bytes.field 3 addr).length = 3 := Bytes.length_field 3 addr
  have hstream : pos + 1 - s.headerLength + (Bytes.field 3 addr).length ≤ s.stream.length := by
    rw [Script.length] at hhigh
    omega
  have hstored : pos + 1 + 1 + (Bytes.field 3 addr).length ≤ s.toBytes.length := by
    rw [toBytes, List.length_cons, List.length_append, length_fields, ← headerLength]
    rw [Script.length] at hhigh
    omega
  refine ⟨_, hset, ?_⟩
  refine { length := ?_, pointers := rfl, strings := rfl, bytes := ?_, address := haddress }
  · exact congrArg (s.headerLength + ·) (Bytes.length_overwrite hstream)
  · intro i
    rw [toBytes_overwrite s true (Nat.le_succ_of_le hlow), Bytes.getElem?_overwrite hstored, hthree]

end

/-- **An address reads back, and so does every other one that is set after it.**  That one goes into
the command that is found then, and changes its argument bytes and nothing else.  The script stays
aligned, so that this goes on from address to address. -/
theorem setStringTableAddress_reads_back {s s' : Script} {addr : Nat} (hs : s.Built)
    (hcompacted : s.strings.compacted = true) (haligned : s.Aligned)
    (h : s.setStringTableAddress addr = .ok s') :
    s'.stringTableAddress = .ok (some addr) ∧ s'.Aligned ∧
      ∃ pos, s'.findStringIndex? = .ok (some pos) ∧ ∀ b < 2 ^ 24, ∃ s'',
        s'.setStringTableAddress b = .ok s'' ∧ Readdresses s' s'' pos b := by
  have hwell := hs.wellFormed
  have hdense := hwell.texts.dense hcompacted
  have happly : (ScriptEdit.setStringTableAddress addr).apply s = .ok s' := h
  have hs' : s'.Built := .edit hs _ happly
  have hcompacted' : s'.strings.compacted = true :=
    hs'.wellFormed.numbered (ScriptEdit.modified happly)
  obtain ⟨haddress, hfault', _, _⟩ :=
    setStringTableAddress_eq_ok hwell.toBounded hdense haligned.pointers h
  obtain ⟨haligned', htargets'⟩ := aligned_of_setStringTableAddress hwell hcompacted haligned h
  obtain ⟨pos, hfound⟩ := exists_found haddress
  refine ⟨haddress, haligned', pos, hfound, fun b hb => ?_⟩
  exact readdresses_of_found hs'.wellFormed hcompacted' hfault' haligned' htargets' hfound hb

/-- the first command comes behind a jump, which has to reach across it from then on -/
theorem setStringTableAddress_reads_back_jump :
    let strings : StringTable := ⟨[], true, false, none⟩
    let s : Script := ⟨List.replicate 16 34, [0x10, 2, 0xB1, 0], strings, true⟩
    let s' : Script :=
      ⟨List.replicate 16 34, [0x10, 6, 0xB8, 0x34, 0x12, 0xC6, 0xB1, 0], strings, true⟩
    s.Built ∧ s.strings.compacted = true ∧ s.Aligned ∧
      s.setStringTableAddress 0xC61234 = .ok s' ∧
      s'.stringTableAddress = .ok (some 0xC61234) ∧ s'.Aligned ∧
      s'.findStringIndex? = .ok (some 34) ∧ ∃ s'',
        s'.setStringTableAddress 0xC60000 = .ok s'' ∧ Readdresses s' s'' 34 0xC60000 := by
  intro strings s s'
  let s₀ : Script := ⟨List.replicate 16 34, [0x10, 2, 0xB1, 0], .empty, false⟩
  have hparse : parse s₀.toBytes = .ok s₀ := toOption_eq_some.mp (by decide +kernel)
  have hdelete : s₀.delete 34 0 = .ok s := toOption_eq_some.mp (by decide +kernel)
  have hs : s.Built := .edit (.parse hparse) (.code (.delete 34 0)) hdelete
  have hall : s.allCommands = ⟨[(32, jumpForward 2), (34, ⟨0xB1, []⟩), (35, ret)], none⟩ := by
    decide +kernel
  have haligned : s.Aligned := by
    refine ⟨by decide +kernel, ?_⟩
    intro a ha base target hends
    rw [hall] at ha
    have hjump : (jumpForward 2).jump? 32 = .ok (some (33, 35)) :=
      toOption_eq_some.mp (by decide +kernel)
    simp only [List.mem_cons, List.not_mem_nil, or_false] at ha
    rcases ha with rfl | rfl | rfl
    · rw [hjump] at hends
      cases hends
      decide +kernel
    · exact absurd (isJump_of_ends hends) (by decide +kernel)
    · exact absurd (isJump_of_ends hends) (by decide +kernel)
  have hset : s.setStringTableAddress 0xC61234 = .ok s' := toOption_eq_some.mp (by decide +kernel)
  have hfound : s'.findStringIndex? = .ok (some 34) := toOption_eq_some.mp (by decide +kernel)
  obtain ⟨haddress, haligned', pos, hpos, hother⟩ :=
    setStringTableAddress_reads_back hs rfl haligned hset
  rw [hfound] at hpos
  cases hpos
  exact ⟨hs, rfl, haligned, hset, haddress, haligned', hfound, hother 0xC60000 (by decide)⟩

end Script

end Cartridge
