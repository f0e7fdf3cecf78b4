import Cartridge.Proofs.Script.Built
import Mathlib.Logic.Relation

/-!
# The order of the pointers

A function ends where the next one begins, so the pointers should not decrease along the table.
Every edit carries them along by monotone splices, and new pointers come behind the old ones.

* `Script.Ordered`           no pointer is less than one in front of it;
* `Splice.carry_mono`        references keep their order under a splice;
* `Script.Ordered.replace`, `Script.Ordered.pushObject`, `Script.Ordered.shrinkTable`   the changes
                             that edits are made of;
* `Script.Edited`            the edits of callers, except that of a whole function;
* `Script.ordered_of_edits`  **a run of them keeps the order**, over the whole table.
-/

namespace Cartridge

open Relation

theorem Splice.carry_mono (e : Splice) {x y : Nat} (h : x ≤ y) : e.carry x ≤ e.carry y := by
  have hedge : e.place ≤ e.edge ∧ e.edge ≤ e.place + e.inserted := by
    unfold edge
    cases e.anchor with
    | before => exact ⟨Nat.le_refl _, Nat.le_add_right ..⟩
    | after => exact ⟨Nat.le_add_right .., Nat.le_refl _⟩
  unfold carry stop
  by_cases hx : x < e.place
  · -- what stays in front of the place stays in front of its edge
    rw [if_pos hx]
    by_cases hy : y < e.place
    · rw [if_pos hy]
      exact h
    · rw [if_neg hy]
      by_cases hin : y < e.place + e.removed ∨ y = e.place
      · rw [if_pos hin]
        omega
      · rw [if_neg hin]
        omega
  · have hy : ¬ y < e.place := by omega
    rw [if_neg hx, if_neg hy]
    by_cases hin : y < e.place + e.removed ∨ y = e.place
    · have hinx : x < e.place + e.removed ∨ x = e.place := by omega
      rw [if_pos hin, if_pos hinx]
    · rw [if_neg hin]
      by_cases hinx : x < e.place + e.removed ∨ x = e.place
      · rw [if_pos hinx]
        omega
      · rw [if_neg hinx]
        omega

namespace Script

def Ordered (s : Script) : Prop := s.pointers.Pairwise (· ≤ ·)

instance (s : Script) : Decidable s.Ordered :=
  inferInstanceAs (Decidable (s.pointers.Pairwise (· ≤ ·)))

/-! ## changes of the pointers -/

theorem Ordered.congr {s s' : Script} (h : s.Ordered) (hpointers : s'.pointers = s.pointers) :
    s'.Ordered := by
  rw [Ordered, hpointers]
  exact h

theorem Ordered.carried {s s' : Script} (h : s.Ordered) (e : Splice)
    (hpointers : s'.pointers = s.pointers.map e.carry) : s'.Ordered := by
  rw [Ordered, hpointers]
  exact h.map e.carry fun _ _ hle => e.carry_mono hle

theorem Ordered.replace {s s' : Script} {place removed : Nat} {code : Bytes} {anchor : Anchor}
    (h : s.Ordered) (hreplace : s.replace place removed code anchor = .ok s') : s'.Ordered := by
  obtain ⟨_, _, _, _, _, hspliced⟩ := replace_eq_ok hreplace
  exact h.carried _ (spliced_frame hspliced).1

theorem Ordered.deleteAll {s s' : Script} {entries : List (Nat × Command)} (h : s.Ordered)
    (hdelete : s.deleteAll entries = .ok s') : s'.Ordered := by
  induction entries generalizing s with
  | nil =>
    cases hdelete
    exact h
  | cons entry entries ih =>
    obtain ⟨t, hreplace, hdelete⟩ := bind_eq_ok.mp hdelete
    exact ih (h.replace hreplace) hdelete

theorem Ordered.forgetObject {s s' : Script} {object : Nat} (h : s.Ordered)
    (hforget : s.forgetObject object = .ok s') : s'.Ordered := by
  obtain ⟨_, _, hforget⟩ := bind_eq_ok.mp hforget
  obtain ⟨commands, _, hforget⟩ := bind_eq_ok.mp hforget
  have hlower : Ordered { s with
      stream := commands.flatMap fun entry => (lowered (2 * object) entry.2).bytes } := h.congr rfl
  exact hlower.deleteAll hforget

theorem Ordered.shrinkTable {s s' : Script} {object : Nat} (h : s.Ordered)
    (hshrink : s.shrinkTable object = .ok s') : s'.Ordered := by
  obtain ⟨t, hresize, hshrink⟩ := bind_eq_ok.mp hshrink
  cases hshrink
  obtain ⟨_, _, hpointers, _⟩ := resize_eq_ok hresize
  refine List.Pairwise.sublist ?_ (h.carried _ hpointers)
  -- the pointers of the object are left out between the others
  have hle : object * functionsPerObject ≤ (object + 1) * functionsPerObject :=
    Nat.mul_le_mul_right _ (Nat.le_succ object)
  have hcut := (List.Sublist.refl (t.pointers.take (object * functionsPerObject))).append
    (List.drop_sublist_drop_left t.pointers hle)
  rwa [List.take_append_drop] at hcut

/-- the pointers of the new object are the last ones, and none of the others is behind its code -/
theorem Ordered.pushObject {s s' : Script} {code : Bytes} {offsets : List Nat} {object : Nat}
    (h : s.Ordered) (hbounded : s.Bounded) (hoffsets : offsets.Pairwise (· ≤ ·))
    (hpush : s.pushObject code offsets = .ok (object, s')) : s'.Ordered := by
  obtain ⟨hobjects, hpush⟩ := unless_throw_eq_ok.mp hpush
  obtain ⟨grown, hgrow, hpush⟩ := bind_eq_ok.mp hpush
  obtain ⟨t, hreplace, hpush⟩ := bind_eq_ok.mp hpush
  cases hpush
  obtain ⟨hgrown, _⟩ := hbounded.growTable (Nat.lt_of_not_le hobjects) hgrow
  obtain ⟨_, _, _, _, _, hspliced⟩ := replace_eq_ok hreplace
  -- the code goes to the end, so no reference moves
  have hstays : t.pointers = grown.pointers := by
    have hstay : ∀ p ∈ grown.pointers,
        Splice.carry ⟨grown.length, 0, code.length, .before⟩ p = id p := by
      intro p hp
      exact (Splice.carry_eq_follow rfl p).trans (if_pos (hgrown.pointers p hp).2)
    rw [(spliced_frame hspliced).1, List.map_congr_left hstay, List.map_id]
  obtain ⟨resized, hresize, hgrow⟩ := bind_eq_ok.mp hgrow
  cases hgrow
  obtain ⟨_, _, hpointers, _⟩ := resize_eq_ok hresize
  have hold : t.pointers.take (s.objectCount * functionsPerObject) = resized.pointers := by
    rw [hstays]
    refine List.take_left' ?_
    rw [hpointers, List.length_map, hbounded.length_pointers]
  refine List.pairwise_append.mpr ⟨?_, ?_, ?_⟩
  · rw [hold]
    exact h.carried _ hpointers
  · exact hoffsets.map _ fun _ _ hle => Nat.add_le_add_left hle _
  · intro p hp q hq
    obtain ⟨offset, _, rfl⟩ := List.mem_map.mp hq
    rw [hstays] at hp
    exact Nat.le_trans (hgrown.pointers p (List.mem_of_mem_take hp)).2 (Nat.le_add_right ..)

/-! ## edits -/

/-- the pointer of a function stands inside the table -/
theorem functionStart_eq_ok {s : Script} {object function p : Nat}
    (h : s.functionStart object function = .ok p) :
    p = s.pointer (object * functionsPerObject + function) ∧
      object * functionsPerObject + function < s.pointers.length := by
  obtain ⟨slot, hslot, h⟩ := bind_eq_ok.mp h
  obtain ⟨hobject, hslot⟩ := unless_eq_ok.mp hslot
  obtain ⟨hfunction, hslot⟩ := unless_eq_ok.mp hslot
  cases hslot
  cases h
  refine ⟨rfl, ?_⟩
  have htable := Nat.div_mul_le_self s.pointers.length functionsPerObject
  rw [objectCount] at hobject
  rw [functionsPerObject] at hobject hfunction htable ⊢
  omega

section
variable {s s' : Script} (h : s.Ordered)
include h

theorem Ordered.edit {change : Script → Except Error Script}
    (hchange : ∀ t t', t.Ordered → change t = .ok t' → t'.Ordered)
    (hedit : s.edit change = .ok s') : s'.Ordered := by
  obtain ⟨t, ht, hedit⟩ := bind_eq_ok.mp hedit
  obtain ⟨t', ht', hedit⟩ := bind_eq_ok.mp hedit
  cases hedit
  exact hchange t t' (h.congr (compactStrings_eq_ok ht).1) ht'

theorem Ordered.editWith {α : Type} {change : Script → Except Error (α × Script)} {a : α}
    (hbounded : s.Bounded)
    (hchange : ∀ t b t', t.Ordered → t.Bounded → change t = .ok (b, t') → t'.Ordered)
    (hedit : s.editWith change = .ok (a, s')) : s'.Ordered := by
  obtain ⟨t, ht, hedit⟩ := bind_eq_ok.mp hedit
  obtain ⟨⟨b, t'⟩, ht', hedit⟩ := bind_eq_ok.mp hedit
  cases hedit
  obtain ⟨hpointers, hstream, _⟩ := compactStrings_eq_ok ht
  exact hchange t a t' (h.congr hpointers) (hbounded.congr hpointers hstream) ht'

/-- an edit that replaces code -/
theorem Ordered.replaceCode {place removed : Nat} {code : Bytes} {anchor : Anchor}
    (hedit : s.edit (fun t => t.replace place removed code anchor) = .ok s') : s'.Ordered :=
  h.edit (fun _ _ ht hreplace => ht.replace hreplace) hedit

theorem Ordered.appendObject {object : Nat} (hbounded : s.Bounded)
    (happend : s.appendObject = .ok (object, s')) : s'.Ordered := by
  refine h.editWith hbounded ?_ happend
  intro t number t' ht hbounded hpush
  have hoffsets : (0 :: List.replicate (functionsPerObject - 1) 1).Pairwise (· ≤ ·) := by decide
  exact ht.pushObject hbounded hoffsets hpush

theorem Ordered.pointer_le {i j : Nat} (hle : i ≤ j) (hj : j < s.pointers.length) :
    s.pointer i ≤ s.pointer j := by
  have hi : i < s.pointers.length := Nat.lt_of_le_of_lt hle hj
  have hpointer : ∀ k (hk : k < s.pointers.length), s.pointer k = s.pointers[k] := by
    intro k hk
    rw [pointer, List.getD_eq_getElem?_getD, List.getElem?_eq_getElem hk, Option.getD_some]
  rw [hpointer i hi, hpointer j hj]
  rcases Nat.lt_or_eq_of_le hle with hlt | rfl
  · exact List.pairwise_iff_getElem.mp h i j hi hj hlt
  · exact Nat.le_refl _

/-- functions that stand in the order of the table begin in that order inside their object -/
theorem Ordered.offsetsIn {object start stop : Nat} {offsets : List Nat}
    (hoffsets : s.offsetsIn object start stop = .ok offsets) : offsets.Pairwise (· ≤ ·) := by
  refine pairwise_of_forall₂ (mapM_eq_ok.mp hoffsets) List.pairwise_lt_range ?_
  intro f g x y hlt hx hy
  obtain ⟨p, hp, hx⟩ := bind_eq_ok.mp hx
  obtain ⟨_, hx⟩ := unless_throw_eq_ok.mp hx
  obtain ⟨q, hq, hy⟩ := bind_eq_ok.mp hy
  obtain ⟨_, hy⟩ := unless_throw_eq_ok.mp hy
  have hx : p - start = x := Except.ok.inj hx
  have hy : q - start = y := Except.ok.inj hy
  obtain ⟨rfl, _⟩ := functionStart_eq_ok hp
  obtain ⟨rfl, hinside⟩ := functionStart_eq_ok hq
  have hle := h.pointer_le (Nat.add_le_add_left (Nat.le_of_lt hlt) _) hinside
  omega

theorem Ordered.appendCopyOf {source object : Nat} (hbounded : s.Bounded)
    (happend : s.appendCopyOf source = .ok (object, s')) : s'.Ordered := by
  obtain ⟨_, _, _, _, _, _, hoffsets, _, _, hedit⟩ := exists_of_appendCopyOf happend
  refine h.editWith hbounded ?_ hedit
  intro t number t' ht hbounded hpush
  exact ht.pushObject hbounded (h.offsetsIn hoffsets) hpush

theorem Ordered.removeObject {object : Nat} (hremove : s.removeObject object = .ok s') :
    s'.Ordered := by
  obtain ⟨start, _, hremove⟩ := bind_eq_ok.mp hremove
  obtain ⟨stop, _, hremove⟩ := bind_eq_ok.mp hremove
  refine h.edit ?_ hremove
  intro t t' ht hchange
  obtain ⟨cut, hcut, hchange⟩ := bind_eq_ok.mp hchange
  obtain ⟨shrunk, hshrunk, hchange⟩ := bind_eq_ok.mp hchange
  exact ((ht.replace hcut).shrinkTable hshrunk).forgetObject hchange

end

/-! ## runs of edits -/

/-- an edit that has been made.  That of a whole function is left out: a function without code gets
its code behind that of a later object which shares the same code -/
inductive Edited : Script → Script → Prop
  | insert {s s' : Script} {pos : Nat} {code : Bytes} (h : s.insert pos code = .ok s') :
    Edited s s'
  | insertCommand {s s' : Script} {pos : Nat} {c : Command} (h : s.insertCommand pos c = .ok s') :
    Edited s s'
  | delete {s s' : Script} {pos length : Nat} (h : s.delete pos length = .ok s') : Edited s s'
  | deleteCommand {s s' : Script} {pos : Nat} (h : s.deleteCommand pos = .ok s') : Edited s s'
  | replaceCommand {s s' : Script} {pos : Nat} {c : Command}
    (h : s.replaceCommand pos c = .ok s') : Edited s s'
  | appendObject {s s' : Script} {object : Nat} (h : s.appendObject = .ok (object, s')) :
    Edited s s'
  | appendCopyOf {s s' : Script} {source object : Nat}
    (h : s.appendCopyOf source = .ok (object, s')) : Edited s s'
  | removeObject {s s' : Script} {object : Nat} (h : s.removeObject object = .ok s') : Edited s s'
  | patchArguments {s s' : Script} {object function pos offset : Nat} {opcode : UInt8}
    {bytes : Bytes} (h : s.patchArguments object function opcode offset bytes = .ok (pos, s')) :
    Edited s s'
  | addString {s s' : Script} {index : Nat} {text : Bytes}
    (h : s.addString text = .ok (index, s')) : Edited s s'
  | setString {s s' : Script} {index : Nat} {text : Bytes} (h : s.setString index text = .ok s') :
    Edited s s'

theorem Edited.apply {s s' : Script} (h : Edited s s') : ∃ edit : ScriptEdit,
    edit.apply s = .ok s' := by
  cases h with
  | @insert pos code h => exact ⟨.code (.insert pos code), h⟩
  | @insertCommand pos c h => exact ⟨.code (.insert pos c.bytes), h⟩
  | @delete pos length h => exact ⟨.code (.delete pos length), h⟩
  | @deleteCommand pos h =>
    obtain ⟨c, _, h⟩ := bind_eq_ok.mp h
    exact ⟨.code (.delete pos c.length), h⟩
  | @replaceCommand pos c h => exact ⟨.code (.replace pos c), h⟩
  | appendObject h => exact ⟨.appendObject, map_eq_ok.mpr ⟨_, h, rfl⟩⟩
  | @appendCopyOf source _ h => exact ⟨.appendCopyOf source, map_eq_ok.mpr ⟨_, h, rfl⟩⟩
  | @removeObject object h => exact ⟨.removeObject object, h⟩
  | @patchArguments object function _ offset opcode bytes h =>
    exact ⟨.patchArguments object function opcode offset bytes, map_eq_ok.mpr ⟨_, h, rfl⟩⟩
  | @addString _ text h => exact ⟨.addString text, map_eq_ok.mpr ⟨_, h, rfl⟩⟩
  | @setString index text h => exact ⟨.setString index text, h⟩

theorem Edited.built {s s' : Script} (h : Edited s s') (hs : s.Built) : s'.Built := by
  obtain ⟨edit, happly⟩ := h.apply
  exact hs.edit edit happly

/-- **One edit keeps the order of the pointers.** -/
theorem Edited.ordered {s s' : Script} (h : Edited s s') (hs : s.Ordered) (hbounded : s.Bounded) :
    s'.Ordered := by
  cases h with
  | insert h => exact hs.replaceCode h
  | insertCommand h => exact hs.replaceCode h
  | delete h => exact hs.replaceCode h
  | deleteCommand h =>
    obtain ⟨c, _, h⟩ := bind_eq_ok.mp h
    exact hs.replaceCode h
  | replaceCommand h =>
    obtain ⟨old, _, h⟩ := bind_eq_ok.mp h
    exact hs.replaceCode h
  | appendObject h => exact hs.appendObject hbounded h
  | appendCopyOf h => exact hs.appendCopyOf hbounded h
  | removeObject h => exact hs.removeObject h
  | patchArguments h =>
    obtain ⟨_, _, _, t, _, _, _, _, _, _, ht, rfl⟩ := patchArguments_eq_ok h
    exact hs.congr (compactStrings_eq_ok ht).1
  | addString h =>
    refine hs.editWith hbounded ?_ h
    intro t index t' ht _ hadd
    obtain ⟨_, _, hadd⟩ := bind_eq_ok.mp hadd
    cases hadd
    exact ht.congr rfl
  | setString h =>
    refine hs.edit ?_ h
    intro t t' ht hset
    obtain ⟨_, _, hset⟩ := bind_eq_ok.mp hset
    cases hset
    exact ht.congr rfl

/-- **Pointers keep their order.**  Whatever such edits a script has gone through, its pointers do
not decrease if they did not before, and all of them lead into the stream or to its end. -/
theorem ordered_of_edits {s s' : Script} (hs : s.Built) (hordered : s.Ordered)
    (h : ReflTransGen Edited s s') :
    s'.pointers.Pairwise (· ≤ ·) ∧ ∀ p ∈ s'.pointers, s'.headerLength ≤ p ∧ p ≤ s'.length := by
  have hboth : s'.Built ∧ s'.Ordered := by
    induction h with
    | refl => exact ⟨hs, hordered⟩
    | tail _ hstep ih => exact ⟨hstep.built ih.1, hstep.ordered ih.2 ih.1.wellFormed.toBounded⟩
  exact ⟨hboth.2, hboth.1.wellFormed.pointers⟩

/-- code at the start of an object, a copy of that object, and the object removed, with the command
in front of it that names it -/
theorem ordered_of_edits_removed :
    let strings : StringTable := ⟨[], true, false, none⟩
    let s : Script := ⟨64 :: (List.replicate 15 66 ++ List.replicate 16 67), [0x7C, 2, 0, 0],
      .empty, false⟩
    let s' : Script := ⟨List.replicate 16 64 ++ List.replicate 16 65, [0, 0xB9, 0], strings, true⟩
    s.Built ∧ s.Ordered ∧ ReflTransGen Edited s s' ∧
      s'.pointers.Pairwise (· ≤ ·) ∧ ∀ p ∈ s'.pointers, s'.headerLength ≤ p ∧ p ≤ s'.length := by
  intro strings s s'
  let s₁ : Script := ⟨64 :: (List.replicate 15 66 ++ List.replicate 16 67), [0x7C, 2, 0, 0xB9, 0],
    strings, true⟩
  let s₂ : Script := ⟨96 :: (List.replicate 15 98 ++ List.replicate 16 99 ++
    List.replicate 16 101), [0x7C, 2, 0, 0xB9, 0, 0xB9, 0], strings, true⟩
  have hparse : parse s.toBytes = .ok s := toOption_eq_some.mp (by decide +kernel)
  have hs : s.Built := .parse hparse
  have hordered : s.Ordered := by decide
  have hinsert : s.insert 67 [0xB9] = .ok s₁ := toOption_eq_some.mp (by decide +kernel)
  have hcopy : s₁.appendCopyOf 1 = .ok (2, s₂) := toOption_eq_some.mp (by decide +kernel)
  have hremove : s₂.removeObject 1 = .ok s' := toOption_eq_some.mp (by decide +kernel)
  have hedits : ReflTransGen Edited s s' :=
    .head (.insert hinsert) (.head (.appendCopyOf hcopy) (.single (.removeObject hremove)))
  exact ⟨hs, hordered, hedits, ordered_of_edits hs hordered hedits⟩

end Script

end Cartridge
