import Cartridge.Proofs.Script.Built

/-!
# Where the strings of an edited script are

Edits change the strings of a script and the code that names their table, but not the range that is
recorded for them: that is left to the write-back.

* `Script.strings_pushObject`, `Script.strings_shrinkTable`, `Script.strings_forgetObject`
                             objects come and go without the strings;
* `ScriptEdit.extent_apply`  **no edit changes the recorded range of the strings**.
-/

namespace Cartridge

theorem StringTable.extent_compact (t : StringTable) : t.compact.extent = t.extent := by
  unfold compact
  by_cases h : t.compacted = true
  · rw [if_pos h]
  · rw [if_neg h]

namespace Script

/-! ## objects -/

theorem strings_pushObject {s s' : Script} {code : Bytes} {offsets : List Nat} {object : Nat}
    (h : s.pushObject code offsets = .ok (object, s')) : s'.strings = s.strings := by
  obtain ⟨_, h⟩ := unless_throw_eq_ok.mp h
  obtain ⟨grown, hgrow, h⟩ := bind_eq_ok.mp h
  obtain ⟨replaced, hreplace, h⟩ := bind_eq_ok.mp h
  obtain ⟨resized, hresize, hgrow⟩ := bind_eq_ok.mp hgrow
  cases h
  cases hgrow
  exact (strings_replace hreplace).trans (resize_eq_ok hresize).2.2.2.1

theorem strings_shrinkTable {s s' : Script} {object : Nat} (h : s.shrinkTable object = .ok s') :
    s'.strings = s.strings := by
  obtain ⟨resized, hresize, h⟩ := bind_eq_ok.mp h
  cases h
  exact (resize_eq_ok hresize).2.2.2.1

theorem strings_deleteAll {s s' : Script} {entries : List (Nat × Command)}
    (h : s.deleteAll entries = .ok s') : s'.strings = s.strings := by
  induction entries generalizing s with
  | nil =>
    cases h
    rfl
  | cons entry entries ih =>
    obtain ⟨t, hreplace, h⟩ := bind_eq_ok.mp h
    exact (ih h).trans (strings_replace hreplace)

theorem strings_forgetObject {s s' : Script} {object : Nat} (h : s.forgetObject object = .ok s') :
    s'.strings = s.strings := by
  obtain ⟨_, _, h⟩ := bind_eq_ok.mp h
  obtain ⟨commands, _, h⟩ := bind_eq_ok.mp h
  let lower : Script :=
    { s with stream := commands.flatMap fun entry => (lowered (2 * object) entry.2).bytes }
  have hlower : s'.strings = lower.strings := strings_deleteAll h
  exact hlower

/-! ## edits in general -/

section
variable {s s' : Script}

theorem extent_editWith {α : Type} {change : Script → Except Error (α × Script)} {a : α}
    (hchange : ∀ t t' b, change t = .ok (b, t') → t'.strings.extent = t.strings.extent)
    (h : s.editWith change = .ok (a, s')) : s'.strings.extent = s.strings.extent := by
  obtain ⟨t, hcompact, h⟩ := bind_eq_ok.mp h
  obtain ⟨⟨b, t'⟩, ht', h⟩ := bind_eq_ok.mp h
  cases h
  obtain ⟨_, _, hstrings, _⟩ := compactStrings_eq_ok hcompact
  show t'.strings.extent = s.strings.extent
  rw [hchange t t' a ht', hstrings, StringTable.extent_compact]

theorem extent_edit {change : Script → Except Error Script}
    (hchange : ∀ t t', change t = .ok t' → t'.strings.extent = t.strings.extent)
    (h : s.edit change = .ok s') : s'.strings.extent = s.strings.extent := by
  obtain ⟨t, hcompact, h⟩ := bind_eq_ok.mp h
  obtain ⟨t', ht', h⟩ := bind_eq_ok.mp h
  cases h
  obtain ⟨_, _, hstrings, _⟩ := compactStrings_eq_ok hcompact
  show t'.strings.extent = s.strings.extent
  rw [hchange t t' ht', hstrings, StringTable.extent_compact]

/-- an edit that replaces code -/
theorem extent_replace {place removed : Nat} {code : Bytes} {anchor : Anchor}
    (h : s.edit (fun t => t.replace place removed code anchor) = .ok s') :
    s'.strings.extent = s.strings.extent :=
  extent_edit (fun _ _ hreplace => by rw [strings_replace hreplace]) h

end

/-! ## each edit -/

section
variable {s s' : Script}

theorem extent_setFunction {object function : Nat} {code : Bytes}
    (h : s.setFunction object function code = .ok s') : s'.strings.extent = s.strings.extent := by
  obtain ⟨slot, _, h⟩ := bind_eq_ok.mp h
  refine extent_edit ?_ h
  intro t t' hchange
  by_cases hempty : t.slotIsEmpty slot = true
  · rw [if_pos hempty] at hchange
    obtain ⟨place, _, hchange⟩ := bind_eq_ok.mp hchange
    obtain ⟨filled, hreplace, hchange⟩ := bind_eq_ok.mp hchange
    cases hchange
    show filled.strings.extent = t.strings.extent
    rw [strings_replace hreplace]
  · rw [if_neg hempty] at hchange
    obtain ⟨stop, _, hreplace⟩ := bind_eq_ok.mp hchange
    rw [strings_replace hreplace]

theorem extent_appendCopyOf {source object : Nat} (h : s.appendCopyOf source = .ok (object, s')) :
    s'.strings.extent = s.strings.extent := by
  obtain ⟨_, _, _, _, _, _, _, _, _, hedit⟩ := exists_of_appendCopyOf h
  exact extent_editWith (fun _ _ _ hpush => by rw [strings_pushObject hpush]) hedit

theorem extent_removeObject {object : Nat} (h : s.removeObject object = .ok s') :
    s'.strings.extent = s.strings.extent := by
  obtain ⟨start, _, h⟩ := bind_eq_ok.mp h
  obtain ⟨stop, _, h⟩ := bind_eq_ok.mp h
  refine extent_edit ?_ h
  intro t t' hchange
  obtain ⟨cut, hcut, hchange⟩ := bind_eq_ok.mp hchange
  obtain ⟨shrunk, hshrunk, hchange⟩ := bind_eq_ok.mp hchange
  rw [strings_forgetObject hchange, strings_shrinkTable hshrunk, strings_replace hcut]

theorem extent_patchArguments {object function pos offset : Nat} {opcode : UInt8} {bytes : Bytes}
    (h : s.patchArguments object function opcode offset bytes = .ok (pos, s')) :
    s'.strings.extent = s.strings.extent := by
  obtain ⟨_, _, _, t, _, _, _, _, _, _, hcompact, rfl⟩ := patchArguments_eq_ok h
  obtain ⟨_, _, hstrings, _⟩ := compactStrings_eq_ok hcompact
  show t.strings.extent = s.strings.extent
  rw [hstrings, StringTable.extent_compact]

theorem extent_addString {index : Nat} {text : Bytes} (h : s.addString text = .ok (index, s')) :
    s'.strings.extent = s.strings.extent := by
  refine extent_editWith ?_ h
  intro t t' i hchange
  obtain ⟨⟨j, strings⟩, hadd, hchange⟩ := bind_eq_ok.mp hchange
  obtain ⟨_, _, rfl⟩ := StringTable.add_eq_ok hadd
  cases hchange
  rfl

theorem extent_setString {index : Nat} {text : Bytes} (h : s.setString index text = .ok s') :
    s'.strings.extent = s.strings.extent := by
  refine extent_edit ?_ h
  intro t t' hchange
  obtain ⟨strings, hset, hchange⟩ := bind_eq_ok.mp hchange
  obtain ⟨_, _, hset⟩ := bind_eq_ok.mp hset
  obtain ⟨_, hset⟩ := unless_throw_eq_ok.mp hset
  cases hset
  cases hchange
  rfl

theorem extent_setStringTableAddress {addr : Nat} (h : s.setStringTableAddress addr = .ok s') :
    s'.strings.extent = s.strings.extent := by
  obtain ⟨c, _, h⟩ := bind_eq_ok.mp h
  obtain ⟨start, _, h⟩ := bind_eq_ok.mp h
  obtain ⟨found, _, h⟩ := bind_eq_ok.mp h
  cases found with
  | none => exact extent_replace h
  | some pos =>
    obtain ⟨old, _, h⟩ := bind_eq_ok.mp h
    exact extent_replace h

end

end Script

namespace ScriptEdit

theorem extent_code {s s' : Script} {edit : CodeEdit} (h : edit.apply s = .ok s') :
    s'.strings.extent = s.strings.extent := by
  cases edit with
  | insert pos code => exact Script.extent_replace h
  | delete pos length => exact Script.extent_replace h
  | replace pos c =>
    obtain ⟨old, _, h⟩ := bind_eq_ok.mp h
    exact Script.extent_replace h

/-- **No edit changes the recorded range of the strings.** -/
theorem extent_apply {s s' : Script} {edit : ScriptEdit} (h : edit.apply s = .ok s') :
    s'.strings.extent = s.strings.extent := by
  cases edit with
  | code edit => exact extent_code h
  | setFunction object function body => exact Script.extent_setFunction h
  | appendObject =>
    obtain ⟨⟨object, _⟩, hdone, rfl⟩ := map_eq_ok.mp h
    exact Script.extent_editWith (fun _ _ _ hpush => by rw [Script.strings_pushObject hpush]) hdone
  | appendCopyOf source =>
    obtain ⟨⟨object, _⟩, hdone, rfl⟩ := map_eq_ok.mp h
    exact Script.extent_appendCopyOf hdone
  | removeObject object => exact Script.extent_removeObject h
  | patchArguments object function opcode offset bytes =>
    obtain ⟨⟨pos, _⟩, hdone, rfl⟩ := map_eq_ok.mp h
    exact Script.extent_patchArguments hdone
  | addString text =>
    obtain ⟨⟨index, _⟩, hdone, rfl⟩ := map_eq_ok.mp h
    exact Script.extent_addString hdone
  | setString index text => exact Script.extent_setString h
  | setStringTableAddress addr => exact Script.extent_setStringTableAddress h

end ScriptEdit

end Cartridge
