import Cartridge.Proofs.Script.Append
import Cartridge.Proofs.Script.Extent
import Cartridge.Proofs.Script.Removal

/-!
# Objects that are withdrawn

An object that has been appended is removed again.  Its code is behind all other code and its
pointers are behind all other pointers, so that each of the two steps of the append is taken back by
one step of the removal, wherever jumps lead: those that do not leave the table have not moved, and
all others have moved with their commands.  No command names the object, for there was none when
they were written.

* `Script.replace_appended`  new code at the end goes;
* `Splice.carry_table_back`, `Script.shrinkTable_of_growTable`   the pointers of the object go;
* `Script.forgetObject_of_unnamed`   an object that is not named leaves nothing behind;
* `Script.remove_appended`   **removing an object that has been appended**.
-/

namespace Cartridge

open Command

namespace Script

/-! ## the code -/

/-- what has been put behind all other code can be removed again -/
theorem replace_appended {s filled t : Script} {code : Bytes} (hlength : s.length ≤ maxLength)
    (h : s.replace s.length 0 code .before = .ok filled) (hheader : t.headerLength = s.headerLength)
    (hstream : t.stream = filled.stream) :
    ∃ r, t.replace s.length code.length [] .before = .ok r ∧ r.stream = s.stream := by
  obtain ⟨_, _, _, _, _, hspliced⟩ := replace_eq_ok h
  obtain ⟨front, middle, back, kept, new, moved, _, hexchange⟩ := exchange_of_replace h
  have hexchange := hexchange.congr (hheader.trans (spliced_frame hspliced).2.2.2.symm) hstream
  obtain rfl : middle = [] := eq_nil_of_flat hexchange.removed_eq.symm
  exact (hexchange.replace_back_iff hlength).mpr fun x _ =>
    (Splice.undo_carry_iff rfl x).mpr (Splice.not_collapses_insert _ _ x)

end Script

/-! ## the pointers -/

/-- where the table has grown it shrinks again -/
theorem Splice.carry_table_back (place n x : Nat) :
    carry ⟨place, n, 0, .before⟩ (carry ⟨place, 0, n, .after⟩ x) = x := by
  by_cases hfront : x < place
  · have hstays : carry ⟨place, 0, n, .after⟩ x = x := if_pos hfront
    rw [hstays]
    exact if_pos hfront
  · rw [Script.carry_after (Nat.le_of_not_lt hfront), carry_delete, closed]
    omega

namespace Script

theorem shrinkTable_of_growTable {s grown t : Script} (hbounded : s.Bounded)
    (hgrow : s.growTable = .ok grown) (hstream : t.stream = grown.stream)
    (hslots : t.pointers.length = s.pointers.length + functionsPerObject)
    (hpointers : t.pointers.take s.pointers.length = s.pointers.map (· + objectHeader)) :
    t.shrinkTable s.objectCount = .ok { t with pointers := s.pointers, stream := s.stream } := by
  obtain ⟨r, hresize, hgrown⟩ := bind_eq_ok.mp hgrow
  obtain ⟨_, _, cs, moved, hwhole, hold, hmoved, rfl⟩ := exists_of_resize hresize
  have hnew : t.stream = flat moved := by
    rw [hstream]
    cases hgrown
    rfl
  have hheader : t.headerLength = s.headerLength + objectHeader := by
    rw [headerLength, hslots, headerLength, Nat.mul_add]
    rfl
  have hplace : s.objectCount * objectHeader = s.headerLength := hbounded.headerLength_eq.symm
  let grow : Splice := ⟨s.headerLength, 0, objectHeader, .after⟩
  let shrink : Splice := ⟨s.headerLength, objectHeader, 0, .before⟩
  have hgrows : ∀ n < (flat cs).length,
      grow.shift (s.headerLength + n) = t.headerLength + n := fun n _ =>
    hheader ▸ grow.shift_stop_add n
  have hshrinks : ∀ n < (flat cs).length,
      shrink.shift (t.headerLength + n) = s.headerLength + n := fun n _ =>
    hheader ▸ shrink.shift_stop_add n
  obtain ⟨hwhole', hlength, hcarried⟩ := Splice.carried_of_retarget hwhole hgrows hmoved
  have hback := (Splice.retarget_back_iff hshrinks hcarried).mpr fun _ _ _ target _ =>
    Splice.carry_table_back s.headerLength objectHeader target
  have hsize : t.length - objectHeader + 0 ≤ maxLength := by
    have hbound := hbounded.length
    rw [length, hold] at hbound
    rw [length, hheader, hnew, hlength]
    omega
  have hshrunk := resize_of_retarget (Nat.le_of_eq hheader.symm) hsize hwhole' hnew hback
  have hkept : (t.pointers.map shrink.carry).take (s.objectCount * functionsPerObject) =
      s.pointers := by
    rw [← List.map_take, ← hbounded.length_pointers, hpointers, List.map_map]
    refine (List.map_congr_left fun p hp => ?_).trans (List.map_id _)
    rw [Function.comp_apply, ← carry_after (hbounded.pointers p hp).1]
    exact Splice.carry_table_back ..
  have hgone : (t.pointers.map shrink.carry).drop ((s.objectCount + 1) * functionsPerObject) = [] := by
    rw [List.drop_eq_nil_iff, List.length_map, hslots, hbounded.length_pointers, Nat.succ_mul]
  rw [shrinkTable, hplace]
  refine bind_eq_ok.mpr ⟨_, hshrunk, ?_⟩
  show Except.ok { t with
    pointers := (t.pointers.map shrink.carry).take (s.objectCount * functionsPerObject) ++
      (t.pointers.map shrink.carry).drop ((s.objectCount + 1) * functionsPerObject)
    stream := flat cs } = _
  rw [hkept, hgone, List.append_nil, hold]

/-! ## the commands that name the object -/

theorem checkHandles_of_even {entries : List (Nat × Command)}
    (h : ∀ a ∈ entries, ∀ handle, namedHandle? a.2 = some handle → handle % 2 = 0) :
    checkHandles entries = .ok () := by
  induction entries with
  | nil => exact checkHandles_nil
  | cons entry entries ih =>
    obtain ⟨hfirst, hrest⟩ := List.forall_mem_cons.mp h
    rw [checkHandles_cons]
    cases hnamed : namedHandle? entry.2 with
    | none => exact ih hrest
    | some handle => exact unless_eq_ok.mpr ⟨not_not.mpr (hfirst handle hnamed), ih hrest⟩

/-- an object that is not named, with no other object behind it, leaves nothing behind -/
theorem forgetObject_of_unnamed {s : Script} {object : Nat} (hfault : s.allCommands.fault = none)
    (hhandles : ∀ a ∈ s.allCommands.commands, ∀ handle, namedHandle? a.2 = some handle →
      handle % 2 = 0 ∧ handle < 2 * object) : s.forgetObject object = .ok s := by
  obtain ⟨cs, _, hstream, hall⟩ := flat_of_allCommands hfault
  have hcheck : checkHandles s.allCommands.commands = .ok () :=
    checkHandles_of_even fun a ha handle hnamed => (hhandles a ha handle hnamed).1
  have hread : s.allCommands.toExcept = .ok s.allCommands.commands := by
    rw [Reading.toExcept, hfault]
  have hsame : (s.allCommands.commands.flatMap fun a => (lowered (2 * object) a.2).bytes) =
      s.stream := by
    have hlowered : ∀ a ∈ s.allCommands.commands, (lowered (2 * object) a.2).bytes = a.2.bytes := by
      intro a ha
      unfold lowered
      cases hnamed : namedHandle? a.2 with
      | none => rfl
      | some handle =>
        dsimp only
        rw [if_neg (Nat.not_lt_of_lt (hhandles a ha handle hnamed).2)]
    rw [List.flatMap_congr hlowered, ← List.flatMap_map Prod.snd, hall, map_snd_laidFrom, hstream]
    rfl
  have hnamed : (s.allCommands.commands.filter fun a => namedHandle? a.2 = some (2 * object)) = [] := by
    rw [List.filter_eq_nil_iff]
    intro a ha hnamed
    exact absurd (hhandles a ha _ (of_decide_eq_true hnamed)).2 (Nat.lt_irrefl _)
  refine bind_eq_ok.mpr ⟨(), hcheck, bind_eq_ok.mpr ⟨_, hread, ?_⟩⟩
  show deleteAll { s with stream := s.allCommands.commands.flatMap fun a =>
    (lowered (2 * object) a.2).bytes } (s.allCommands.commands.filter fun a =>
      namedHandle? a.2 = some (2 * object)).reverse = .ok s
  rw [hsame, hnamed]
  rfl

/-! ## the edits -/

/-- the two steps of an append taken back, the last one first -/
theorem remove_pushed {s r : Script} {object : Nat} {code : Bytes} {offsets : List Nat}
    (hbounded : s.Bounded) (hoffsets : offsets.length = functionsPerObject)
    (h : s.pushObject code offsets = .ok (object, r)) :
    ∃ cut, ({ r with modified := true } : Script).replace (s.length + objectHeader) code.length []
        .before = .ok cut ∧
      cut.shrinkTable object = .ok { s with modified := true } := by
  obtain ⟨rfl, happends⟩ := appends_of_pushObject hbounded hoffsets h
  have hsame := strings_pushObject h
  obtain ⟨hlimit, h⟩ := unless_throw_eq_ok.mp h
  obtain ⟨grown, hgrow, h⟩ := bind_eq_ok.mp h
  obtain ⟨filled, hreplace, h⟩ := bind_eq_ok.mp h
  have hstream : ({ r with modified := true } : Script).stream = filled.stream := by
    cases h
    rfl
  obtain ⟨hheader, hlength, _⟩ := growTable_eq_ok hgrow hbounded
  have hgrown := (hbounded.growTable (Nat.lt_of_not_le hlimit) hgrow).1
  obtain ⟨cut, hcut, hcutStream⟩ := replace_appended hgrown.length hreplace
    (happends.marked.header.trans hheader.symm) hstream
  rw [hlength] at hcut
  obtain ⟨_, _, _, _, _, hspliced⟩ := replace_eq_ok hcut
  obtain ⟨hpointers, hstrings, hmodified, _⟩ := spliced_frame hspliced
  have hslots : cut.pointers.length = s.pointers.length + functionsPerObject := by
    rw [hpointers, List.length_map, happends.marked.pointers, List.length_append, List.length_map,
      List.length_map, hoffsets]
  have hkept : cut.pointers.take s.pointers.length = s.pointers.map (· + objectHeader) := by
    rw [hpointers, happends.marked.pointers, List.map_append, List.map_map,
      List.take_left' (List.length_map ..)]
    refine List.map_congr_left fun p hp => ?_
    have hinside := Nat.add_le_add_right (hbounded.pointers p hp).2 objectHeader
    exact (Splice.carry_eq_follow rfl _).trans (if_pos hinside)
  have hshrunk := shrinkTable_of_growTable hbounded hgrow hcutStream hslots hkept
  rw [hstrings, hmodified, hsame] at hshrunk
  exact ⟨cut, hcut, hshrunk⟩

/-- **Removing an object that has been appended** gives the script as it was, when no command names
an object that it does not have. -/
theorem remove_appended {s s' : Script} {object : Nat} (hs : s.Built)
    (hcompacted : s.strings.compacted = true)
    (hhandles : ∀ a ∈ s.allCommands.commands, ∀ handle, namedHandle? a.2 = some handle →
      handle % 2 = 0 ∧ handle < 2 * s.objectCount)
    (h : s.appendObject = .ok (object, s') ∨ ∃ source, s.appendCopyOf source = .ok (object, s')) :
    ∃ s'', s'.removeObject object = .ok s'' ∧ s''.toBytes = s.toBytes ∧
      s'' = { s with modified := true } := by
  have hpushed : ∃ code offsets r, offsets.length = functionsPerObject ∧ offsets[0]? = some 0 ∧
      s.pushObject code offsets = .ok (object, r) ∧ s' = { r with modified := true } := by
    rcases h with h | ⟨source, h⟩
    · obtain ⟨r, hr, hs'⟩ := (appendObject_eq_ok hcompacted).mp h
      exact ⟨_, _, r, rfl, rfl, hr, hs'⟩
    · obtain ⟨_, _, code, offsets, r, _, _, _, hoffsets, hfirst, hr, hs'⟩ :=
        exists_pushed_of_appendCopyOf hcompacted h
      exact ⟨code, offsets, r, hoffsets, hfirst, hr, hs'⟩
  obtain ⟨code, offsets, r, hoffsets, hfirst, hpush, rfl⟩ := hpushed
  have hbounded := hs.wellFormed.toBounded
  obtain ⟨rfl, happends⟩ := appends_of_pushObject hbounded hoffsets hpush
  have hstart := happends.marked.functionStart_new hbounded hoffsets hfirst
  have hstop := happends.marked.objectEnd_new hbounded hoffsets hfirst
  have hnumbered : ({ r with modified := true } : Script).strings.compacted = true := by
    show r.strings.compacted = true
    rwa [strings_pushObject hpush]
  obtain ⟨cut, hcut, hshrunk⟩ := remove_pushed hbounded hoffsets hpush
  have hforget : ({ s with modified := true } : Script).forgetObject s.objectCount =
      .ok { s with modified := true } := forgetObject_of_unnamed happends.fault hhandles
  rw [← Nat.add_sub_cancel_left (n := s.length + objectHeader) (m := code.length)] at hcut
  exact ⟨{ s with modified := true }, bind_eq_ok.mpr ⟨_, hstart, bind_eq_ok.mpr ⟨_, hstop,
    (edit_eq_ok hnumbered).mpr ⟨_, bind_eq_ok.mpr ⟨cut, hcut,
      bind_eq_ok.mpr ⟨_, hshrunk, hforget⟩⟩, rfl⟩⟩⟩, toBytes_congr rfl rfl, rfl⟩

/-- a jump into the table, a command that names the object, and a jump beyond the end -/
theorem remove_appended_jumps :
    let strings : StringTable := ⟨[], true, false, none⟩
    let s : Script := ⟨List.replicate 16 32, [0x11, 20, 0x7C, 0, 0x10, 5, 0], strings, true⟩
    let s' : Script := ⟨List.replicate 16 64 ++ 71 :: List.replicate 15 72,
      [0x11, 52, 0x7C, 0, 0x10, 7, 0, 0, 0], strings, true⟩
    s.Built ∧ s.strings.compacted = true ∧ s.appendObject = .ok (1, s') ∧
      ∃ s'', s'.removeObject 1 = .ok s'' ∧ s''.toBytes = s.toBytes ∧
        s'' = { s with modified := true } := by
  intro strings s s'
  let s₀ : Script := ⟨List.replicate 16 32, [0x11, 20, 0x7C, 0, 0x10, 5, 0], .empty, false⟩
  have hparse : parse s₀.toBytes = .ok s₀ := toOption_eq_some.mp (by decide +kernel)
  have hdelete : s₀.delete 32 0 = .ok s := toOption_eq_some.mp (by decide +kernel)
  have hs : s.Built := .edit (.parse hparse) (.code (.delete 32 0)) hdelete
  have hhandles : ∀ a ∈ s.allCommands.commands, ∀ handle ∈ namedHandle? a.2,
      handle % 2 = 0 ∧ handle < 2 * s.objectCount := by decide +kernel
  have happend : s.appendObject = .ok (1, s') := toOption_eq_some.mp (by decide +kernel)
  exact ⟨hs, rfl, happend, remove_appended hs rfl hhandles (.inl happend)⟩

end Script

end Cartridge
