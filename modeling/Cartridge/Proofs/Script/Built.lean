import Cartridge.Proofs.Script.CodeEdit
import Cartridge.Proofs.Script.Objects

/-!
# Scripts that can be built

* `ScriptEdit`               the edits of a script, their answers aside;
* `Script.Built`             the scripts that parsing, loading, edits and write-backs give;
* `ScriptEdit.wellFormed`    one edit keeps a script well-formed;
* `ScriptEdit.modified`      and marks it, so that its strings have been numbered;
* `Script.Built.wellFormed`  so all of these scripts are.
-/

namespace Cartridge

inductive ScriptEdit where
  | code (edit : CodeEdit)
  | setFunction (object function : Nat) (body : Bytes)
  | appendObject
  | appendCopyOf (source : Nat)
  | removeObject (object : Nat)
  | patchArguments (object function : Nat) (opcode : UInt8) (offset : Nat) (bytes : Bytes)
  | addString (text : Bytes)
  | setString (index : Nat) (text : Bytes)
  | setStringTableAddress (addr : Nat)
  deriving DecidableEq, Repr

namespace ScriptEdit

def apply (s : Script) : ScriptEdit → Except Error Script
  | code edit => edit.apply s
  | setFunction object function body => s.setFunction object function body
  | appendObject => s.appendObject.map Prod.snd
  | appendCopyOf source => (s.appendCopyOf source).map Prod.snd
  | removeObject object => s.removeObject object
  | patchArguments object function opcode offset bytes =>
    (s.patchArguments object function opcode offset bytes).map Prod.snd
  | addString text => (s.addString text).map Prod.snd
  | setString index text => s.setString index text
  | setStringTableAddress addr => s.setStringTableAddress addr

theorem wellFormed_of_code {s s' : Script} {edit : CodeEdit} (h : s.WellFormed)
    (happly : edit.apply s = .ok s') : s'.WellFormed := by
  cases edit with
  | insert pos code => exact h.replace happly
  | delete pos length => exact h.replace happly
  | replace pos c =>
    obtain ⟨old, _, happly⟩ := bind_eq_ok.mp happly
    exact h.replace happly

/-- **An edit keeps a script well-formed.** -/
theorem wellFormed {s s' : Script} {edit : ScriptEdit} (h : s.WellFormed)
    (happly : edit.apply s = .ok s') : s'.WellFormed := by
  cases edit with
  | code edit => exact wellFormed_of_code h happly
  | setFunction object function body => exact h.setFunction happly
  | appendObject =>
    obtain ⟨⟨object, _⟩, hdone, rfl⟩ := map_eq_ok.mp happly
    exact h.appendObject hdone
  | appendCopyOf source =>
    obtain ⟨⟨object, _⟩, hdone, rfl⟩ := map_eq_ok.mp happly
    exact h.appendCopyOf hdone
  | removeObject object => exact h.removeObject happly
  | patchArguments object function opcode offset bytes =>
    obtain ⟨⟨pos, _⟩, hdone, rfl⟩ := map_eq_ok.mp happly
    exact h.patchArguments hdone
  | addString text =>
    obtain ⟨⟨index, _⟩, hdone, rfl⟩ := map_eq_ok.mp happly
    exact h.addString hdone
  | setString index text => exact h.setString happly
  | setStringTableAddress addr => exact h.setStringTableAddress happly

end ScriptEdit

/-! ## the mark -/

namespace Script

theorem modified_of_edit {s s' : Script} {change : Script → Except Error Script}
    (h : s.edit change = .ok s') : s'.modified = true := by
  obtain ⟨_, _, _, _, rfl⟩ := exists_of_edit h
  rfl

theorem modified_of_editWith {α : Type} {s s' : Script} {a : α}
    {change : Script → Except Error (α × Script)} (h : s.editWith change = .ok (a, s')) :
    s'.modified = true := by
  obtain ⟨_, _, _, _, rfl⟩ := exists_of_editWith h
  rfl

end Script

theorem CodeEdit.modified {s s' : Script} (edit : CodeEdit) (h : edit.apply s = .ok s') :
    s'.modified = true := by
  cases edit with
  | insert pos code => exact Script.modified_of_edit h
  | delete pos length => exact Script.modified_of_edit h
  | replace pos c =>
    obtain ⟨old, _, h⟩ := bind_eq_ok.mp h
    exact Script.modified_of_edit h

/-- an edit marks the script -/
theorem ScriptEdit.modified {s s' : Script} {edit : ScriptEdit} (h : edit.apply s = .ok s') :
    s'.modified = true := by
  cases edit with
  | code edit => exact edit.modified h
  | setFunction object function body =>
    obtain ⟨slot, _, h⟩ := bind_eq_ok.mp h
    exact Script.modified_of_edit h
  | appendObject =>
    obtain ⟨⟨object, _⟩, hdone, rfl⟩ := map_eq_ok.mp h
    exact Script.modified_of_editWith hdone
  | appendCopyOf source =>
    obtain ⟨⟨object, _⟩, hdone, rfl⟩ := map_eq_ok.mp h
    obtain ⟨_, _, _, _, _, _, _, _, _, hedit⟩ := Script.exists_of_appendCopyOf hdone
    exact Script.modified_of_editWith hedit
  | removeObject object =>
    obtain ⟨start, _, h⟩ := bind_eq_ok.mp h
    obtain ⟨stop, _, h⟩ := bind_eq_ok.mp h
    exact Script.modified_of_edit h
  | patchArguments object function opcode offset bytes =>
    obtain ⟨⟨pos, _⟩, hdone, rfl⟩ := map_eq_ok.mp h
    obtain ⟨_, _, _, _, _, _, _, _, _, _, _, rfl⟩ := Script.patchArguments_eq_ok hdone
    rfl
  | addString text =>
    obtain ⟨⟨index, _⟩, hdone, rfl⟩ := map_eq_ok.mp h
    exact Script.modified_of_editWith hdone
  | setString index text => exact Script.modified_of_edit h
  | setStringTableAddress addr =>
    obtain ⟨c, _, h⟩ := bind_eq_ok.mp h
    obtain ⟨start, _, h⟩ := bind_eq_ok.mp h
    obtain ⟨found, _, h⟩ := bind_eq_ok.mp h
    cases found with
    | none => exact CodeEdit.modified (.insert start c.bytes) h
    | some pos => exact CodeEdit.modified (.replace pos c) h

/-! ## built scripts -/

namespace Script

/-- a write-back sets where the strings are, if it stored them, and clears the mark -/
inductive Built : Script → Prop
  | parse {bytes : Bytes} {s : Script} (h : parse bytes = .ok s) : Built s
  | load {image : Image} {offset : Nat} {s : Script} (h : load image offset = .ok s) : Built s
  | edit {s s' : Script} (hs : Built s) (edit : ScriptEdit) (h : edit.apply s = .ok s') : Built s'
  | stored {s : Script} (hs : Built s) (extent : Range) :
    Built { s with strings := s.strings.markStored extent, modified := false }
  | clean {s : Script} (hs : Built s) : Built { s with modified := false }

theorem Built.wellFormed {s : Script} (h : s.Built) : s.WellFormed := by
  induction h with
  | parse h => exact wellFormed_of_parse h
  | load h => exact wellFormed_of_load h
  | edit _ edit h ih => exact edit.wellFormed ih h
  | stored _ extent ih =>
    exact ⟨ih.toBounded.congr rfl rfl, ih.texts.markStored extent, fun h => by cases h⟩
  | clean _ ih => exact ⟨ih.toBounded.congr rfl rfl, ih.texts, fun h => by cases h⟩

end Script

end Cartridge
