import Cartridge.Proofs.Script.Splice
import Cartridge.Script.Edit

/-!
# Edits of the code

Insertion, deletion and replacement act on the list of commands: those in front of the edit and
those behind it stay, carried along, and the commands of the new code stand between them.

* `CodeEdit`             an edit of the code, and its splice;
* `Splice.follow`        where a reference ends up: one to the place itself, or into the removed
                         bytes, goes to the place;
* `Script.exists_of_edit`, `CodeEdit.exists_of_apply`   an edit numbers the strings and then makes
                         its change;
* `CodeEdit.apply_eq_ok` a script whose strings have their numbers is spliced, and nothing more;
* `Splice.ActsOn`, `CodeEdit.actsOn_of_apply`   what that does to the list of commands.
-/

namespace Cartridge

open Command

inductive CodeEdit where
  | insert (pos : Nat) (code : Bytes)
  | delete (pos length : Nat)
  | replace (pos : Nat) (c : Command)
  deriving DecidableEq, Repr

namespace CodeEdit

def apply (s : Script) : CodeEdit → Except Error Script
  | insert pos code => s.insert pos code
  | delete pos length => s.delete pos length
  | replace pos c => s.replaceCommand pos c

/-- the code that is supplied -/
def code : CodeEdit → Bytes
  | insert _ code => code
  | delete .. => []
  | replace _ c => c.bytes

def place : CodeEdit → Nat
  | insert pos _ => pos
  | delete pos _ => pos
  | replace pos _ => pos

/-- how many bytes go; of a replacement those of the command at its position -/
def removed (s : Script) : CodeEdit → Nat
  | insert .. => 0
  | delete _ length => length
  | replace pos _ =>
    match s.commandAt pos with
    | .ok old => old.length
    | .error _ => 0

def splice (s : Script) (edit : CodeEdit) : Splice :=
  ⟨edit.place, edit.removed s, edit.code.length, .before⟩

end CodeEdit

/-! ## references -/

def Splice.follow (e : Splice) (x : Nat) : Nat :=
  if x ≤ e.place then x
  else if x < e.place + e.removed then e.place
  else x - e.removed + e.inserted

theorem Splice.carry_eq_follow {e : Splice} (h : e.anchor = .before) (x : Nat) :
    e.carry x = e.follow x := by
  have hedge : e.edge = e.place := by rw [edge, h]
  rw [carry, follow, hedge, stop]
  by_cases hlt : x < e.place
  · rw [if_pos hlt, if_pos (Nat.le_of_lt hlt)]
  · rw [if_neg hlt]
    by_cases heq : x = e.place
    · rw [if_pos (.inr heq), if_pos (Nat.le_of_eq heq), heq]
    · have hgt : ¬ x ≤ e.place := by omega
      rw [if_neg hgt]
      by_cases hin : x < e.place + e.removed
      · rw [if_pos (.inl hin), if_pos hin]
      · rw [if_neg (not_or.mpr ⟨hin, heq⟩), if_neg hin]

/-- **What an edit does to the list of commands.**  `kept` are the commands in front of the place
and `moved` those behind the removed bytes, each carried along; the commands of the new code stand
between them, and pointers end up where references do. -/
def Splice.ActsOn (e : Splice) (code : Bytes) (s s' : Script) : Prop :=
  ∃ old new kept moved, s.allCommands = ⟨old, none⟩ ∧ readAll code = ⟨new, none⟩ ∧
    s'.allCommands = ⟨kept ++ new.map (fun (pos, c) => (e.place + pos, c)) ++ moved, none⟩ ∧
    List.Forall₂ (Carried e.shift e.follow) (old.filter fun entry => entry.1 < e.place) kept ∧
    List.Forall₂ (Carried e.shift e.follow)
      (old.filter fun entry => e.place + e.removed ≤ entry.1) moved ∧
    s'.pointers = s.pointers.map e.follow

/-! ## the edited script -/

namespace Script

theorem compactStrings_of_compacted {s : Script} (h : s.strings.compacted = true) :
    s.compactStrings = .ok s := by
  rw [compactStrings, if_pos h]
  rfl

/-- a script whose strings have their numbers is changed and marked, and nothing more -/
theorem edit_eq_ok {s s' : Script} {change : Script → Except Error Script}
    (hcompacted : s.strings.compacted = true) :
    s.edit change = .ok s' ↔ ∃ t, change s = .ok t ∧ s' = { t with modified := true } := by
  rw [edit, compactStrings_of_compacted hcompacted]
  show (change s >>= fun t => .ok { t with modified := true }) = .ok s' ↔ _
  rw [bind_eq_ok]
  constructor
  · rintro ⟨t, ht, h⟩
    exact ⟨t, ht, (Except.ok.inj h).symm⟩
  · rintro ⟨t, ht, rfl⟩
    exact ⟨t, ht, rfl⟩

/-- what is changed is the script whose strings have been numbered -/
theorem exists_of_edit {s s' : Script} {change : Script → Except Error Script}
    (h : s.edit change = .ok s') :
    ∃ t r, s.compactStrings = .ok t ∧ change t = .ok r ∧ s' = { r with modified := true } := by
  obtain ⟨t, ht, h⟩ := bind_eq_ok.mp h
  obtain ⟨r, hr, h⟩ := bind_eq_ok.mp h
  exact ⟨t, r, ht, hr, (Except.ok.inj h).symm⟩

theorem exists_of_editWith {α : Type} {s s' : Script} {a : α}
    {change : Script → Except Error (α × Script)} (h : s.editWith change = .ok (a, s')) :
    ∃ t r, s.compactStrings = .ok t ∧ change t = .ok (a, r) ∧ s' = { r with modified := true } := by
  obtain ⟨t, ht, h⟩ := bind_eq_ok.mp h
  obtain ⟨⟨b, r⟩, hr, h⟩ := bind_eq_ok.mp h
  cases h
  exact ⟨t, r, ht, hr, rfl⟩

/-- the same of an edit with an answer -/
theorem editWith_eq_ok {α : Type} {s s' : Script} {a : α}
    {change : Script → Except Error (α × Script)} (hcompacted : s.strings.compacted = true) :
    s.editWith change = .ok (a, s') ↔
      ∃ r, change s = .ok (a, r) ∧ s' = { r with modified := true } := by
  constructor
  · intro h
    obtain ⟨t, r, ht, hr, rfl⟩ := exists_of_editWith h
    rw [compactStrings_of_compacted hcompacted] at ht
    cases ht
    exact ⟨r, hr, rfl⟩
  · rintro ⟨r, hr, rfl⟩
    exact bind_eq_ok.mpr ⟨s, compactStrings_of_compacted hcompacted,
      bind_eq_ok.mpr ⟨(a, r), hr, rfl⟩⟩

end Script

namespace CodeEdit

/-- a replacement looks for its command before the strings are numbered -/
theorem exists_of_apply {s s' : Script} {edit : CodeEdit} (h : edit.apply s = .ok s') :
    ∃ t r, s.compactStrings = .ok t ∧
      t.replace edit.place (edit.removed s) edit.code .before = .ok r ∧
      s' = { r with modified := true } := by
  cases edit with
  | insert pos code => exact Script.exists_of_edit h
  | delete pos length => exact Script.exists_of_edit h
  | replace pos c =>
    obtain ⟨old, hold, h⟩ := bind_eq_ok.mp h
    have hremoved : removed s (replace pos c) = old.length := by
      rw [removed, hold]
    rw [hremoved]
    exact Script.exists_of_edit h

theorem apply_eq_ok {s s' : Script} {edit : CodeEdit} (hcompacted : s.strings.compacted = true)
    (h : edit.apply s = .ok s') :
    ∃ t, s.replace edit.place (edit.removed s) edit.code .before = .ok t ∧
      s' = { t with modified := true } := by
  obtain ⟨t, r, ht, hreplace, rfl⟩ := exists_of_apply h
  rw [Script.compactStrings_of_compacted hcompacted] at ht
  cases ht
  exact ⟨r, hreplace, rfl⟩

/-- **Edits act on the list of commands.** -/
theorem actsOn_of_apply {s s' : Script} {edit : CodeEdit} (hcompacted : s.strings.compacted = true)
    (h : edit.apply s = .ok s') : (edit.splice s).ActsOn edit.code s s' := by
  let e := edit.splice s
  obtain ⟨t, ht, rfl⟩ := apply_eq_ok hcompacted h
  obtain ⟨_, _, hplace, hstop, hcode, hspliced⟩ := Script.replace_eq_ok ht
  obtain ⟨_, hfault, _, _, _, _, hpointers⟩ := Script.spliced_eq_ok hspliced
  obtain ⟨old, hold, hstream, holdCommands⟩ := Script.flat_of_allCommands hfault
  obtain ⟨new, hnew, hflat, hnewCommands⟩ := flat_of_readAll hcode
  obtain ⟨front, front', hfront⟩ := Script.cutAt_of_checkBoundary hold hstream hplace
  obtain ⟨back', back, hback⟩ := Script.cutAt_of_checkBoundary hold hstream hstop
  have hspliced : s.spliced e (flat new) = .ok t := by
    rw [← hflat]
    exact hspliced
  have hinserted : e.inserted = (flat new).length := congrArg List.length hflat
  have hfront : CutAt s.headerLength old e.place front front' := hfront
  have hback : CutAt s.headerLength old e.stop back' back := hback
  obtain ⟨kept, moved, hcommands, hkept, hmoved⟩ :=
    Script.commands_spliced hold hnew hstream hfront hback hinserted hspliced
  have hfollow : ∀ x, e.carry x = e.follow x := Splice.carry_eq_follow rfl
  refine ⟨laidFrom s.headerLength old, laidFrom 0 new, kept, moved, holdCommands, hnewCommands,
    ?_, ?_, ?_, ?_⟩
  · rw [map_add_laidFrom, Nat.add_zero]
    exact hcommands
  · rw [hfront.filter_lt]
    exact hkept.imp fun _ _ hcarried => hcarried.mono rfl hfollow
  · rw [show e.place + e.removed = e.stop from rfl, hback.filter_ge]
    exact hmoved.imp fun _ _ hcarried => hcarried.mono rfl hfollow
  · rw [hpointers]
    exact List.map_congr_left fun x _ => hfollow x

/-- a command between a jump and its target lengthens the jump -/
theorem actsOn_of_apply_insert :
    let strings : StringTable := ⟨[], true, false, none⟩
    let s : Script := ⟨List.replicate 15 32 ++ [35], [0x10, 2, 0xB1, 0, 0x11, 2], strings, false⟩
    let s' : Script :=
      ⟨List.replicate 15 32 ++ [36], [0x10, 3, 0xB9, 0xB1, 0, 0x11, 2], strings, true⟩
    let edit := CodeEdit.insert 34 [0xB9]
    s.strings.compacted = true ∧ edit.apply s = .ok s' ∧
      (edit.splice s).ActsOn edit.code s s' := by
  intro strings s s' edit
  have hcompacted : s.strings.compacted = true := rfl
  have happly : edit.apply s = .ok s' := toOption_eq_some.mp (by decide +kernel)
  exact ⟨hcompacted, happly, actsOn_of_apply hcompacted happly⟩

end CodeEdit

end Cartridge
