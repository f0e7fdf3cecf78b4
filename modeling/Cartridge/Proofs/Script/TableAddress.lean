import Cartridge.Proofs.Command.Constructed
import Cartridge.Proofs.Script.Reach
import Cartridge.Proofs.Script.WellFormed

/-!
# The address of the string table

* `Script.BoundaryAt`        a position at which a command begins, or the end;
* `Script.Shows`             the strings that textboxes show;
* `Script.commands_of_boundary`   what is read from a boundary on is a part of all commands;
* `Script.stringTableAddress_eq`   the address is that of the first command of its kind in the first
                             function;
* `Script.commands_replace`  the commands when one command has been put in place of others;
* `Script.setStringTableAddress_eq_ok`   an address that is set is read back; the textboxes stay.
-/

namespace Cartridge

open Command

namespace Script

def BoundaryAt (s : Script) (pos : Nat) : Prop :=
  pos = s.length ∨ pos ∈ s.allCommands.commands.map Prod.fst

instance (s : Script) (pos : Nat) : Decidable (s.BoundaryAt pos) :=
  inferInstanceAs (Decidable (_ ∨ _))

theorem cutAt_of_boundary {s : Script} {cs : List Command} {pos : Nat}
    (hwhole : ∀ c ∈ cs, c.IsWhole) (hstream : s.stream = flat cs) (h : s.BoundaryAt pos) :
    ∃ front back, CutAt s.headerLength cs pos front back := by
  apply cutAt_of_mem
  rw [BoundaryAt, length_of_flat hstream, allCommands_of_flat hwhole hstream] at h
  exact h

/-- the string at the index is one that a textbox of the script shows -/
def Shows (s : Script) (index : Nat) : Prop :=
  ∃ entry ∈ s.allCommands.commands, shownString? entry.2 = some index

/-! ## parts of the stream -/

theorem commands_of_boundary {s : Script} {start stop : Nat} (hfault : s.allCommands.fault = none)
    (hstart : s.BoundaryAt start) (hstop : stop ≤ s.length) :
    s.commands start stop =
      ⟨s.allCommands.commands.filter (fun entry => start ≤ entry.1 ∧ entry.1 < stop), none⟩ := by
  obtain ⟨cs, hwhole, hstream, hall⟩ := flat_of_allCommands hfault
  obtain ⟨front, back, hcut⟩ := cutAt_of_boundary hwhole hstream hstart
  have hlow : s.headerLength ≤ start := by
    rw [hcut.pos_eq]
    exact Nat.le_add_right ..
  have hbehind : start - s.headerLength = (flat front).length := by
    rw [hcut.pos_eq]
    exact Nat.add_sub_cancel_left ..
  have hrest : s.stream.drop (start - s.headerLength) = flat back ++ [] := by
    rw [hstream, hcut.eq_append, flat_append, hbehind, List.append_nil]
    exact List.drop_left
  have hlength : s.length = start + (flat back).length := by
    rw [length_of_flat hstream, hcut.eq_append, flat_append, List.length_append, hcut.pos_eq]
    omega
  have hinside : stop - s.headerLength ≤ start - s.headerLength + (flat back).length := by omega
  have hread := readFrom_flat_of_le (hcut.whole hwhole).2 hinside [] []
  have hfilter : (laidFrom s.headerLength cs).filter
      (fun entry => start ≤ entry.1 ∧ entry.1 < stop) =
      (laidFrom start back).filter fun entry => entry.1 < stop := by
    rw [← hcut.filter_ge, List.filter_filter]
    apply List.filter_congr
    intro entry _
    rw [Bool.decide_and, Bool.and_comm]
  have hshift := filter_lt_laidFrom_add s.headerLength (start - s.headerLength) stop back
  rw [Nat.add_sub_cancel' hlow] at hshift
  rw [hall, hfilter, hshift]
  unfold commands
  dsimp only
  rw [Nat.max_eq_left hlow, Nat.min_eq_left hstop, readCommands, hrest, hread]
  rfl

theorem mem_laidFrom_split {start pos : Nat} {cs : List Command} {c : Command}
    (h : (pos, c) ∈ laidFrom start cs) :
    ∃ front back, cs = front ++ c :: back ∧ pos = start + (flat front).length := by
  induction cs generalizing start with
  | nil => cases h
  | cons d cs ih =>
    rw [laidFrom_cons] at h
    rcases List.mem_cons.mp h with h | h
    · cases h
      exact ⟨[], cs, rfl, rfl⟩
    · obtain ⟨front, back, hcs, hpos⟩ := ih h
      refine ⟨d :: front, back, ?_, ?_⟩
      · rw [hcs, List.cons_append]
      · rw [hpos, length_flat_cons, Nat.add_assoc]

/-! ## reading the address -/

/-- the first command in `[start, stop)` that names a string table -/
def tableCommand? (s : Script) (start stop : Nat) : Option (Nat × Command) :=
  s.allCommands.commands.find? fun entry =>
    start ≤ entry.1 ∧ entry.1 < stop ∧ entry.2.opcode = Opcode.stringIndex

theorem tableCommand?_eq_some {s : Script} {start stop : Nat} {entry : Nat × Command}
    (h : s.tableCommand? start stop = some entry) : entry ∈ s.allCommands.commands ∧
      start ≤ entry.1 ∧ entry.1 < stop ∧ entry.2.opcode = Opcode.stringIndex := by
  unfold tableCommand? at h
  have hnamed := List.find?_some h
  simp only [decide_eq_true_eq] at hnamed
  exact ⟨List.mem_of_find?_eq_some h, hnamed⟩

/-- in front of the command that is found there is none of its kind -/
theorem tableCommand?_first {s : Script} {start stop pos : Nat} {c : Command}
    (hfault : s.allCommands.fault = none) (h : s.tableCommand? start stop = some (pos, c))
    {entry : Nat × Command} (hentry : entry ∈ s.allCommands.commands) (hlt : entry.1 < pos)
    (hlow : start ≤ entry.1) : entry.2.opcode ≠ Opcode.stringIndex := by
  intro hopcode
  obtain ⟨hmem, _, hhigh, _⟩ := tableCommand?_eq_some h
  obtain ⟨cs, hwhole, hstream, hall⟩ := flat_of_allCommands hfault
  obtain ⟨front, back, hcut⟩ :=
    cutAt_of_boundary hwhole hstream (.inr (List.mem_map.mpr ⟨(pos, c), hmem, rfl⟩))
  have hbefore : entry ∈ laidFrom s.headerLength front := by
    rw [hall] at hentry
    rw [← hcut.filter_lt]
    exact List.mem_filter.mpr ⟨hentry, decide_eq_true hlt⟩
  rw [tableCommand?, hall, hcut.laidFrom_eq, List.find?_append] at h
  cases hearlier : (laidFrom s.headerLength front).find? (fun entry =>
      start ≤ entry.1 ∧ entry.1 < stop ∧ entry.2.opcode = Opcode.stringIndex) with
  | none =>
    have hnot := List.find?_eq_none.mp hearlier entry hbefore
    exact hnot (decide_eq_true ⟨hlow, Nat.lt_trans hlt hhigh, hopcode⟩)
  | some earlier =>
    rw [hearlier] at h
    cases h
    have hends := (mem_laidFrom (List.mem_of_find?_eq_some hearlier)).2
    have hpositive := c.length_pos
    rw [← hcut.pos_eq] at hends
    omega

theorem slot_zero {s : Script} {slot : Nat} (h : s.slot 0 0 = .ok slot) :
    0 < s.objectCount ∧ slot = 0 := by
  obtain ⟨hobjects, h⟩ := unless_eq_ok.mp h
  obtain ⟨_, h⟩ := unless_eq_ok.mp h
  cases h
  exact ⟨Nat.lt_of_not_le hobjects, rfl⟩

theorem slot_of_pos {s : Script} (h : 0 < s.objectCount) : s.slot 0 0 = .ok 0 := by
  rw [slot, if_neg (Nat.not_le_of_lt h), if_neg (by decide)]
  rfl

theorem slotEnd_bounds {s : Script} (h : s.Bounded) {slot stop : Nat}
    (hend : s.slotEnd slot = .ok stop) : s.pointer slot ≤ stop ∧ stop ≤ s.length := by
  obtain ⟨hle, hend⟩ := unless_eq_ok.mp hend
  cases hend
  refine ⟨Nat.le_of_not_lt hle, ?_⟩
  cases hfind : (s.pointers.drop (slot + 1)).find? (· != s.pointer slot) with
  | none => exact Nat.le_refl _
  | some q => exact (h.pointers q (List.mem_of_mem_drop (List.mem_of_find?_eq_some hfind))).2

section
variable {s : Script} {stop : Nat} (hobjects : 0 < s.objectCount) (hbounded : s.Bounded)
  (hfault : s.allCommands.fault = none) (hstart : s.BoundaryAt (s.pointer 0))
  (hend : s.slotEnd 0 = .ok stop)
include hobjects hbounded hfault hstart hend

theorem findStringIndex?_eq :
    s.findStringIndex? = .ok ((s.tableCommand? (s.pointer 0) stop).map Prod.fst) := by
  have hstop := (slotEnd_bounds hbounded hend).2
  have hfind : (s.commands (s.pointer 0) stop).find?
      (fun c => [Opcode.stringIndex].contains c.opcode) =
      .ok (s.tableCommand? (s.pointer 0) stop) := by
    rw [commands_of_boundary hfault hstart hstop]
    have hsame : s.allCommands.commands.find? (fun entry =>
        decide (decide (s.pointer 0 ≤ entry.1 ∧ entry.1 < stop) = true ∧
          [Opcode.stringIndex].contains entry.2.opcode = true)) =
        s.tableCommand? (s.pointer 0) stop := by
      unfold tableCommand?
      congr 1
      funext entry
      simp [and_assoc]
    unfold Reading.find?
    dsimp only
    rw [List.find?_filter, hsame]
    cases s.tableCommand? (s.pointer 0) stop with
    | none => rfl
    | some entry => rfl
  unfold findStringIndex? functionStart functionEnd findCommand?
  rw [slot_of_pos hobjects]
  show (s.slotEnd 0 >>= fun stop => _) = _
  rw [hend]
  show (Prod.fst <$> ·) <$> (s.commands (s.pointer 0) stop).find? _ = _
  rw [hfind]
  rfl

theorem stringTableAddress_eq :
    s.stringTableAddress = .ok ((s.tableCommand? (s.pointer 0) stop).map fun entry =>
      Bytes.value (entry.2.args.take 3)) := by
  unfold stringTableAddress
  rw [if_neg (Nat.ne_of_gt hobjects), findStringIndex?_eq hobjects hbounded hfault hstart hend]
  cases hfound : s.tableCommand? (s.pointer 0) stop with
  | none => rfl
  | some entry =>
    obtain ⟨pos, c⟩ := entry
    have hc := (commandAt_of_mem (List.mem_of_find?_eq_some hfound)).2
    show (s.commandAt pos >>= fun c => _) = _
    rw [hc]
    rfl

end

/-! ## replaced code -/

/-- behind a command the next boundary is its end -/
theorem boundary_gap {s : Script} {pos q : Nat} {c : Command} (hfault : s.allCommands.fault = none)
    (hc : (pos, c) ∈ s.allCommands.commands) (hq : s.BoundaryAt q) (hlt : pos < q) :
    pos + c.length ≤ q := by
  obtain ⟨cs, hwhole, hstream, hall⟩ := flat_of_allCommands hfault
  rw [hall] at hc
  rw [BoundaryAt, hall, length_of_flat hstream] at hq
  rcases hq with rfl | hq
  · exact (mem_laidFrom hc).2
  · obtain ⟨front, back, hcs, hpos⟩ := mem_laidFrom_split hc
    obtain ⟨⟨q', d⟩, hd, rfl⟩ := List.mem_map.mp hq
    rw [hcs, laidFrom_append, laidFrom_cons, ← hpos] at hd
    rcases List.mem_append.mp hd with hd | hd
    · have hend := (mem_laidFrom hd).2
      have hpositive := d.length_pos
      rw [← hpos] at hend
      have hlt : pos < q' := hlt
      omega
    · rcases List.mem_cons.mp hd with hd | hd
      · cases hd
        exact absurd hlt (Nat.lt_irrefl _)
      · exact (mem_laidFrom hd).1

section
variable {t t' : Script} {place removed : Nat} {c : Command} (hc : c.IsWhole)
  (h : t.replace place removed c.bytes .before = .ok t')
include hc h

/-- the commands when a range has given way to one command -/
theorem commands_replace : ∃ kept moved, t.allCommands.fault = none ∧
    t'.allCommands = ⟨kept ++ (place, c) :: moved, none⟩ ∧
    List.Forall₂ (Carried (Splice.shift ⟨place, removed, c.length, .before⟩)
        (Splice.carry ⟨place, removed, c.length, .before⟩))
      (t.allCommands.commands.filter fun entry => entry.1 < place) kept ∧
    List.Forall₂ (Carried (Splice.shift ⟨place, removed, c.length, .before⟩)
        (Splice.carry ⟨place, removed, c.length, .before⟩))
      (t.allCommands.commands.filter fun entry => place + removed ≤ entry.1) moved := by
  let e : Splice := ⟨place, removed, c.length, .before⟩
  obtain ⟨_, _, hplace, hstop, _, hspliced⟩ := replace_eq_ok h
  obtain ⟨_, hfault, _⟩ := spliced_eq_ok hspliced
  obtain ⟨cs, hwhole, hstream, hall⟩ := flat_of_allCommands hfault
  obtain ⟨front, front', hfront⟩ := cutAt_of_checkBoundary hwhole hstream hplace
  obtain ⟨back', back, hback⟩ := cutAt_of_checkBoundary hwhole hstream hstop
  have hfront : CutAt t.headerLength cs e.place front front' := hfront
  have hback : CutAt t.headerLength cs e.stop back' back := hback
  have hflat : flat [c] = c.bytes := List.append_nil _
  have hspliced : t.spliced e (flat [c]) = .ok t' := by
    rw [hflat]
    exact hspliced
  have hinserted : e.inserted = (flat [c]).length := by rw [hflat, length_bytes]
  obtain ⟨kept, moved, hcommands, hkept, hmoved⟩ := commands_spliced hwhole
    (fun d hd => by rw [List.mem_singleton.mp hd]; exact hc) hstream hfront hback hinserted hspliced
  refine ⟨kept, moved, hfault, ?_, ?_, ?_⟩
  · rw [hcommands, List.append_assoc]
    rfl
  · rw [hall, hfront.filter_lt]
    exact hkept
  · rw [hall, show place + removed = e.stop from rfl, hback.filter_ge]
    exact hmoved

/-- the new command stands on a boundary -/
theorem boundary_place : t'.BoundaryAt place := by
  obtain ⟨kept, moved, _, hall, _, _⟩ := commands_replace hc h
  rw [BoundaryAt, hall]
  refine .inr (List.mem_map.mpr ⟨(place, c), ?_, rfl⟩)
  exact List.mem_append_right _ (List.mem_cons_self ..)

/-- boundaries in front of the new command are still there -/
theorem boundary_replace {q : Nat} (hq : t.BoundaryAt q) (hle : q ≤ place) : t'.BoundaryAt q := by
  rcases Nat.eq_or_lt_of_le hle with rfl | hlt
  · exact boundary_place hc h
  · obtain ⟨kept, moved, _, hall, hkept, _⟩ := commands_replace hc h
    obtain ⟨_, hinside, _⟩ := replace_eq_ok h
    rcases hq with rfl | hq
    · omega
    · obtain ⟨old, hold, rfl⟩ := List.mem_map.mp hq
      obtain ⟨new, hnew, hR⟩ := exists_of_mem_left hkept
        (List.mem_filter.mpr ⟨hold, decide_eq_true hlt⟩)
      have hposition : new.1 = old.1 := hR.position.trans (if_pos hlt)
      rw [BoundaryAt, hall]
      exact .inr (List.mem_map.mpr ⟨new, List.mem_append_left _ hnew, hposition⟩)

/-- no textbox is new, and none shows another string than before -/
theorem shows_replace (hplain : c.kind ≠ .textbox) {index : Nat} (hshows : t'.Shows index) :
    t.Shows index := by
  obtain ⟨entry, hentry, hshown⟩ := hshows
  obtain ⟨kept, moved, _, hall, hkept, hmoved⟩ := commands_replace hc h
  have hcarried : ∀ {move follow : Nat → Nat} {old : Nat × Command}, Carried move follow old entry →
      shownString? old.2 = some index := by
    intro move follow old hold
    have hkind : entry.2.kind = old.2.kind := congrArg (fun o => (Opcode.info o).kind) hold.opcode
    unfold shownString? at hshown ⊢
    by_cases htextbox : old.2.kind = .textbox
    · have hjump : ¬ old.2.IsJump := by
        rw [IsJump, htextbox]
        decide
      rw [if_pos (hkind.trans htextbox), hold.args hjump] at hshown
      rw [if_pos htextbox]
      exact hshown
    · rw [hkind, if_neg htextbox] at hshown
      cases hshown
  rw [hall] at hentry
  rcases List.mem_append.mp hentry with hentry | hentry
  · obtain ⟨old, hold, hR⟩ := exists_of_mem_right hkept hentry
    exact ⟨old, List.mem_of_mem_filter hold, hcarried hR⟩
  · rcases List.mem_cons.mp hentry with rfl | hentry
    · rw [shownString?, if_neg hplain] at hshown
      cases hshown
    · obtain ⟨old, hold, hR⟩ := exists_of_mem_right hmoved hentry
      exact ⟨old, List.mem_of_mem_filter hold, hcarried hR⟩

/-- the new command names the table if it is the first in the first function that does -/
theorem stringTableAddress_replace {stop : Nat} (hobjects : 0 < t'.objectCount)
    (hbounded : t'.Bounded) (hstart : t'.BoundaryAt (t'.pointer 0))
    (hend : t'.slotEnd 0 = .ok stop) (hopcode : c.opcode = Opcode.stringIndex)
    (hinside : t'.pointer 0 ≤ place ∧ place < stop)
    (hfirst : ∀ entry ∈ t.allCommands.commands, entry.1 < place → t'.pointer 0 ≤ entry.1 →
      entry.2.opcode ≠ Opcode.stringIndex) :
    t'.stringTableAddress = .ok (some (Bytes.value (c.args.take 3))) := by
  obtain ⟨kept, moved, _, hall, hkept, _⟩ := commands_replace hc h
  have hfault : t'.allCommands.fault = none := by rw [hall]
  have hnone : kept.find? (fun entry =>
      t'.pointer 0 ≤ entry.1 ∧ entry.1 < stop ∧ entry.2.opcode = Opcode.stringIndex) = none := by
    rw [List.find?_eq_none]
    intro entry hentry hnamed
    obtain ⟨hlow, _, hnamed⟩ := of_decide_eq_true hnamed
    obtain ⟨old, hold, hR⟩ := exists_of_mem_right hkept hentry
    obtain ⟨hold, hlt⟩ := List.mem_filter.mp hold
    have hlt : old.1 < place := of_decide_eq_true hlt
    have hpos : entry.1 = old.1 := hR.position.trans (if_pos hlt)
    rw [hpos] at hlow
    exact hfirst old hold hlt hlow (hR.opcode ▸ hnamed)
  have hfound : t'.tableCommand? (t'.pointer 0) stop = some (place, c) := by
    rw [tableCommand?, hall, List.find?_append, hnone, Option.none_or, List.find?_cons]
    have hnamed : decide (t'.pointer 0 ≤ place ∧ place < stop ∧ c.opcode = Opcode.stringIndex) =
        true := decide_eq_true ⟨hinside.1, hinside.2, hopcode⟩
    rw [hnamed]
  rw [stringTableAddress_eq hobjects hbounded hfault hstart hend, hfound]
  rfl

end

/-! ## setting the address -/

theorem info_stringIndex : Opcode.info Opcode.stringIndex = ⟨"StringIndex", 4, .stringIndex⟩ := by
  decide +kernel

theorem kind_of_stringIndex {c : Command} (h : c.opcode = Opcode.stringIndex) :
    c.kind = .stringIndex := by
  rw [kind, info, h, info_stringIndex]

theorem isWhole_iff_of_stringIndex {c : Command} (h : c.opcode = Opcode.stringIndex) :
    c.IsWhole ↔ c.length = 4 := by
  have hkind := kind_of_stringIndex h
  have hfixed : c.IsFixed := ⟨by rw [hkind]; decide, by rw [hkind]; decide⟩
  rw [isWhole_iff_of_isFixed hfixed, h, info_stringIndex]
  exact eq_comm

theorem stringIndex_eq_ok {addr : Nat} {c : Command} (h : Command.stringIndex addr = .ok c) :
    c.opcode = Opcode.stringIndex ∧ c.IsWhole ∧ Bytes.value (c.args.take 3) = addr := by
  have hwhole := isWhole_of_stringIndex h
  obtain ⟨haddr, h⟩ := unless_eq_ok.mp h
  cases h
  refine ⟨rfl, hwhole, ?_⟩
  show Bytes.value ((Bytes.field 3 addr).take 3) = addr
  rw [List.take_of_length_le (Nat.le_of_eq (Bytes.length_field 3 addr)), Bytes.value_field]
  exact Nat.mod_eq_of_lt (Nat.lt_succ_of_le (Nat.le_of_not_lt haddr))

theorem pointers_eq_cons {s : Script} (h : 0 < s.objectCount) :
    ∃ rest, s.pointers = s.pointer 0 :: rest := by
  unfold pointer
  cases hp : s.pointers with
  | nil =>
    rw [objectCount, hp] at h
    exact absurd h (by decide)
  | cons p rest => exact ⟨rest, rfl⟩

theorem objectCount_replace {s s' : Script} {place removed : Nat} {code : Bytes} {anchor : Anchor}
    (h : s.replace place removed code anchor = .ok s') : s'.objectCount = s.objectCount := by
  obtain ⟨_, _, _, _, _, hspliced⟩ := replace_eq_ok h
  rw [objectCount, (spliced_frame hspliced).1, List.length_map, objectCount]

theorem slotEnd_zero_eq_ok {s : Script} {p stop : Nat} {rest : List Nat}
    (h : s.pointers = p :: rest) :
    s.slotEnd 0 = .ok stop ↔ stop = (rest.find? (· != p)).getD s.length ∧ p ≤ stop := by
  unfold slotEnd pointer
  rw [h]
  show (if (rest.find? (· != p)).getD s.length < p then _ else _) = _ ↔ _
  rw [unless_eq_ok, Except.ok.injEq, Nat.not_lt]
  constructor
  · rintro ⟨hle, rfl⟩
    exact ⟨rfl, hle⟩
  · rintro ⟨rfl, hle⟩
    exact ⟨hle, rfl⟩

/-- where a reference ends up when code comes at a place without any going -/
theorem carry_insert (place inserted x : Nat) :
    Splice.carry ⟨place, 0, inserted, .before⟩ x = if x ≤ place then x else x + inserted := by
  unfold Splice.carry Splice.stop Splice.edge
  dsimp only
  by_cases hlt : x < place
  · rw [if_pos hlt, if_pos (Nat.le_of_lt hlt)]
  · rw [if_neg hlt]
    by_cases heq : x = place
    · rw [if_pos (.inr heq), if_pos (Nat.le_of_eq heq), heq]
    · rw [if_neg (by omega), if_neg (by omega)]
      rfl

/-- a reference stays when bytes are replaced by as many, unless it leads between them -/
theorem carry_eq_self {pos n x : Nat} (h : x ≤ pos ∨ pos + n ≤ x) :
    Splice.carry ⟨pos, n, n, .before⟩ x = x := by
  unfold Splice.carry Splice.stop Splice.edge
  dsimp only
  by_cases hlt : x < pos
  · rw [if_pos hlt]
  · rw [if_neg hlt]
    by_cases heq : x = pos
    · rw [if_pos (.inr heq), heq]
    · rw [if_neg (by omega)]
      omega

/-- the first function still starts in front of code that comes at its start, and ends behind it -/
theorem slotEnd_of_insert {t t' : Script} {n stop : Nat} (hn : 0 < n)
    (hobjects : 0 < t.objectCount) (hend : t.slotEnd 0 = .ok stop)
    (hlength : t'.length = t.length + n)
    (hpointers : t'.pointers = t.pointers.map (Splice.carry ⟨t.pointer 0, 0, n, .before⟩)) :
    t'.pointer 0 = t.pointer 0 ∧ ∃ stop', t'.slotEnd 0 = .ok stop' ∧ t.pointer 0 < stop' := by
  let e : Splice := ⟨t.pointer 0, 0, n, .before⟩
  obtain ⟨rest, hrest⟩ := pointers_eq_cons hobjects
  have hcarry : ∀ x, e.carry x = if x ≤ t.pointer 0 then x else x + n := carry_insert _ _
  have hstays : e.carry (t.pointer 0) = t.pointer 0 := by
    rw [hcarry, if_pos (Nat.le_refl _)]
  have hcons : t'.pointers = t.pointer 0 :: rest.map e.carry := by
    rw [hpointers, hrest, List.map_cons, hstays]
  -- a pointer is that of the first function after the insertion iff it was before
  have hfind : (rest.map e.carry).find? (· != t.pointer 0) =
      (rest.find? (· != t.pointer 0)).map e.carry := by
    have hsame : ((· != t.pointer 0) ∘ e.carry) = (· != t.pointer 0) := by
      funext q
      show (e.carry q != t.pointer 0) = (q != t.pointer 0)
      rw [Bool.eq_iff_iff, bne_iff_ne, bne_iff_ne, hcarry]
      by_cases hq : q ≤ t.pointer 0
      · rw [if_pos hq]
      · rw [if_neg hq]
        omega
    rw [List.find?_map, hsame]
  obtain ⟨hstop, hle⟩ := (slotEnd_zero_eq_ok hrest).mp hend
  refine ⟨by rw [pointer, hcons, List.getD_cons_zero], ?_⟩
  cases hother : rest.find? (· != t.pointer 0) with
  | none =>
    rw [hother] at hstop hfind
    have hstop : stop = t.length := hstop
    refine ⟨t'.length, (slotEnd_zero_eq_ok hcons).mpr ⟨?_, ?_⟩, ?_⟩
    · rw [hfind]
      rfl
    · omega
    · omega
  | some q =>
    rw [hother] at hstop hfind
    have hstop : stop = q := hstop
    have hne : q ≠ t.pointer 0 := by simpa using List.find?_some hother
    have hmoved : e.carry q = q + n := by
      rw [hcarry, if_neg (by omega)]
    refine ⟨e.carry q, (slotEnd_zero_eq_ok hcons).mpr ⟨?_, ?_⟩, ?_⟩
    · rw [hfind]
      rfl
    · omega
    · omega

section
variable {t t' : Script} {c : Command} {stop : Nat} (hbounded : t.Bounded)
  (hobjects : 0 < t.objectCount) (hboundaries : ∀ p ∈ t.pointers, t.BoundaryAt p) (hc : c.IsWhole)
  (hopcode : c.opcode = Opcode.stringIndex) (hend : t.slotEnd 0 = .ok stop)
include hbounded hobjects hc hopcode hend

/-- a new command at the start of the first function -/
theorem stringTableAddress_of_insert (h : t.replace (t.pointer 0) 0 c.bytes .before = .ok t') :
    t'.stringTableAddress = .ok (some (Bytes.value (c.args.take 3))) := by
  obtain ⟨_, _, _, _, _, hspliced⟩ := replace_eq_ok h
  have hlength : t'.length = t.length + c.length := length_replace h
  have hpointers := (spliced_frame hspliced).1
  obtain ⟨hpointer, stop', hend', hlt⟩ :=
    slotEnd_of_insert c.length_pos hobjects hend hlength hpointers
  have hobjects' : 0 < t'.objectCount := by
    rw [objectCount_replace h]
    exact hobjects
  have hstart : t'.BoundaryAt (t'.pointer 0) := by
    rw [hpointer]
    exact boundary_place hc h
  have hinside : t'.pointer 0 ≤ t.pointer 0 ∧ t.pointer 0 < stop' := ⟨Nat.le_of_eq hpointer, hlt⟩
  refine stringTableAddress_replace hc h hobjects' (hbounded.replace h) hstart hend' hopcode
    hinside ?_
  intro entry _ hbefore hlow
  rw [hpointer] at hlow
  exact absurd hbefore (Nat.not_lt_of_le hlow)

include hboundaries in
/-- another address in the command that has one -/
theorem stringTableAddress_of_replace {pos : Nat} {old : Command}
    (hfound : t.tableCommand? (t.pointer 0) stop = some (pos, old))
    (h : t.replace pos old.length c.bytes .before = .ok t') :
    t'.stringTableAddress = .ok (some (Bytes.value (c.args.take 3))) := by
  obtain ⟨_, _, hfault, _⟩ := commands_replace hc h
  obtain ⟨_, hfits, _, _, _, hspliced⟩ := replace_eq_ok h
  obtain ⟨hmem, hlow, hhigh, hnamed⟩ := tableCommand?_eq_some hfound
  have holdWhole := (commandAt_of_mem hmem).1
  have hsize : old.length = c.length :=
    ((isWhole_iff_of_stringIndex hnamed).mp holdWhole).trans
      ((isWhole_iff_of_stringIndex hopcode).mp hc).symm
  have hlength : t'.length = t.length := by
    rw [length_replace h, length_bytes, ← hsize]
    omega
  -- no pointer leads into the command, and what stands behind it does not move
  have hpointers : t'.pointers = t.pointers := by
    rw [(spliced_frame hspliced).1]
    refine (List.map_congr_left ?_).trans (List.map_id _)
    intro q hq
    show Splice.carry ⟨pos, old.length, c.bytes.length, .before⟩ q = q
    rw [length_bytes, ← hsize]
    apply carry_eq_self
    rcases Nat.lt_or_ge pos q with hlt | hle
    · exact .inr (boundary_gap hfault hmem (hboundaries q hq) hlt)
    · exact .inl hle
  have hpointer : t'.pointer 0 = t.pointer 0 := by rw [pointer, hpointers, pointer]
  have hend' : t'.slotEnd 0 = .ok stop := by
    rw [← hend, slotEnd, slotEnd, hpointer, hpointers, hlength]
  have hobjects' : 0 < t'.objectCount := by
    rw [objectCount_replace h]
    exact hobjects
  have hstart : t'.BoundaryAt (t'.pointer 0) := by
    obtain ⟨rest, hrest⟩ := pointers_eq_cons hobjects
    rw [hpointer]
    exact boundary_replace hc h (hboundaries _ (hrest ▸ List.mem_cons_self ..)) hlow
  have hinside : t'.pointer 0 ≤ pos ∧ pos < stop := by
    rw [hpointer]
    exact ⟨hlow, hhigh⟩
  refine stringTableAddress_replace hc h hobjects' (hbounded.replace h) hstart hend' hopcode
    hinside ?_
  intro entry hentry hlt hafter
  rw [hpointer] at hafter
  exact tableCommand?_first hfault hfound hentry hlt hafter

end

/-- an edit of dense strings changes nothing of the code before its change -/
theorem edit_of_isDense {s s' : Script} {change : Script → Except Error Script}
    (hdense : s.strings.isDense = true) (h : s.edit change = .ok s') :
    ∃ t t', t.pointers = s.pointers ∧ t.stream = s.stream ∧ t.strings = s.strings.compact ∧
      change t = .ok t' ∧ s' = { t' with modified := true } := by
  obtain ⟨t, ht, h⟩ := bind_eq_ok.mp h
  obtain ⟨t', ht', h⟩ := bind_eq_ok.mp h
  cases h
  obtain ⟨hpointers, _, hstrings, _, hstream⟩ := compactStrings_eq_ok ht
  exact ⟨t, t', hpointers, hstream hdense, hstrings, ht', rfl⟩

/-- what reads only the pointers and the stream -/
theorem congr_code {s t : Script} (hpointers : t.pointers = s.pointers)
    (hstream : t.stream = s.stream) : t.length = s.length ∧ t.objectCount = s.objectCount ∧
      t.allCommands = s.allCommands ∧ t.slotEnd 0 = s.slotEnd 0 ∧
      t.stringTableAddress = s.stringTableAddress := by
  obtain ⟨pointers, stream, strings, modified⟩ := s
  obtain ⟨_, _, _, _⟩ := t
  cases hpointers
  cases hstream
  exact ⟨rfl, rfl, rfl, rfl, rfl⟩

/-- an address is set only in code that decodes -/
theorem fault_of_setStringTableAddress {s s' : Script} {addr : Nat}
    (hdense : s.strings.isDense = true) (h : s.setStringTableAddress addr = .ok s') :
    s.allCommands.fault = none := by
  have hreplaced : ∀ {place removed : Nat} {code : Bytes},
      s.edit (fun t => t.replace place removed code .before) = .ok s' →
        s.allCommands.fault = none := by
    intro place removed code hedit
    obtain ⟨t, t', hpointers, hstream, _, hreplace, _⟩ := edit_of_isDense hdense hedit
    obtain ⟨_, _, _, _, _, hspliced⟩ := replace_eq_ok hreplace
    obtain ⟨_, _, hall, _⟩ := congr_code hpointers hstream
    rw [← hall]
    exact (spliced_eq_ok hspliced).2.1
  obtain ⟨c, _, h⟩ := bind_eq_ok.mp h
  obtain ⟨start, _, h⟩ := bind_eq_ok.mp h
  obtain ⟨found, _, h⟩ := bind_eq_ok.mp h
  cases found with
  | none => exact hreplaced h
  | some pos =>
    obtain ⟨old, _, h⟩ := bind_eq_ok.mp h
    exact hreplaced h

section
variable {s s' : Script} {addr : Nat} (hbounded : s.Bounded) (hdense : s.strings.isDense = true)
  (hboundaries : ∀ p ∈ s.pointers, s.BoundaryAt p) (h : s.setStringTableAddress addr = .ok s')
include hbounded hdense hboundaries h

/-- the address goes into the command that has one, or into a new one at the start -/
theorem edit_of_setStringTableAddress : ∃ (c : Command) (stop place removed : Nat),
    c.opcode = Opcode.stringIndex ∧ c.IsWhole ∧ Bytes.value (c.args.take 3) = addr ∧
      0 < s.objectCount ∧ s.slotEnd 0 = .ok stop ∧
      s.edit (fun t => t.replace place removed c.bytes .before) = .ok s' ∧
      ((place = s.pointer 0 ∧ removed = 0) ∨
        ∃ old, s.tableCommand? (s.pointer 0) stop = some (place, old) ∧ removed = old.length) := by
  have hfault := fault_of_setStringTableAddress hdense h
  obtain ⟨c, hc, h⟩ := bind_eq_ok.mp h
  obtain ⟨hopcode, hwhole, hvalue⟩ := stringIndex_eq_ok (mapError_eq_ok.mp hc)
  obtain ⟨start, hstart, h⟩ := bind_eq_ok.mp h
  obtain ⟨found, hfound, h⟩ := bind_eq_ok.mp h
  obtain ⟨slot, hslot, hstart⟩ := bind_eq_ok.mp hstart
  obtain ⟨hobjects, rfl⟩ := slot_zero hslot
  have hstart : s.pointer 0 = start := Except.ok.inj hstart
  obtain ⟨_, _, hfind⟩ := bind_eq_ok.mp hfound
  obtain ⟨stop, hend, _⟩ := bind_eq_ok.mp hfind
  obtain ⟨slot, hslot, hend⟩ := bind_eq_ok.mp hend
  obtain ⟨_, rfl⟩ := slot_zero hslot
  obtain ⟨rest, hrest⟩ := pointers_eq_cons hobjects
  have hfirst : s.BoundaryAt (s.pointer 0) := hboundaries _ (hrest ▸ List.mem_cons_self ..)
  rw [findStringIndex?_eq hobjects hbounded hfault hfirst hend] at hfound
  cases hcommand : s.tableCommand? (s.pointer 0) stop with
  | none =>
    rw [hcommand] at hfound
    cases hfound
    exact ⟨c, stop, start, 0, hopcode, hwhole, hvalue, hobjects, hend, h, .inl ⟨hstart.symm, rfl⟩⟩
  | some entry =>
    obtain ⟨pos, old⟩ := entry
    rw [hcommand] at hfound
    cases hfound
    obtain ⟨old', hold, h⟩ := bind_eq_ok.mp h
    have hat := (commandAt_of_mem (tableCommand?_eq_some hcommand).1).2
    rw [hat] at hold
    cases hold
    exact ⟨c, stop, pos, old.length, hopcode, hwhole, hvalue, hobjects, hend, h,
      .inr ⟨old, hcommand, rfl⟩⟩

/-- **An address that is set is read back**, and the textboxes show what they did. -/
theorem setStringTableAddress_eq_ok :
    s'.stringTableAddress = .ok (some addr) ∧ s'.allCommands.fault = none ∧
      s'.strings = s.strings.compact ∧ ∀ index, s'.Shows index → s.Shows index := by
  obtain ⟨c, stop, place, removed, hopcode, hwhole, hvalue, hobjects, hend, hedit, hcase⟩ :=
    edit_of_setStringTableAddress hbounded hdense hboundaries h
  obtain ⟨t, t', hpointers, hstream, hstrings, hreplace, rfl⟩ := edit_of_isDense hdense hedit
  obtain ⟨hlength, hcount, hall, hslotEnd, _⟩ := congr_code hpointers hstream
  have hpointer : t.pointer 0 = s.pointer 0 := by rw [pointer, hpointers, pointer]
  have htBounded : t.Bounded := hbounded.congr hpointers (congrArg List.length hstream)
  have htObjects : 0 < t.objectCount := hcount ▸ hobjects
  have htEnd : t.slotEnd 0 = .ok stop := hslotEnd.trans hend
  have hplain : c.kind ≠ .textbox := by
    rw [kind_of_stringIndex hopcode]
    decide
  obtain ⟨kept, moved, _, hnew, _, _⟩ := commands_replace hwhole hreplace
  refine ⟨?_, ?_, ?_, ?_⟩
  · show t'.stringTableAddress = .ok (some addr)
    rw [← hvalue]
    rcases hcase with ⟨rfl, rfl⟩ | ⟨old, hold, rfl⟩
    · rw [← hpointer] at hreplace
      exact stringTableAddress_of_insert htBounded htObjects hwhole hopcode htEnd hreplace
    · refine stringTableAddress_of_replace htBounded htObjects ?_ hwhole hopcode htEnd ?_ hreplace
      · intro p hp
        rw [hpointers] at hp
        rw [BoundaryAt, hlength, hall]
        exact hboundaries p hp
      · rw [tableCommand?, hall, hpointer]
        exact hold
  · show t'.allCommands.fault = none
    rw [hnew]
  · exact (strings_replace hreplace).trans hstrings
  · intro index hshows
    have hshows : t.Shows index := shows_replace hwhole hreplace hplain hshows
    rwa [Shows, hall] at hshows

end

end Script

end Cartridge
