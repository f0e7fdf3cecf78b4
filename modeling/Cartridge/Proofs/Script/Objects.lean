import Cartridge.Proofs.Script.WellFormed
import Cartridge.Script.Object

/-!
# Objects and the pointer table

Objects come and go with their pointers, so the table grows and shrinks by whole objects while the
stream behind it keeps its length.

* `Script.resize_eq_ok`      what a change of the table's size leaves;
* `Script.Bounded.growTable`, `Script.Bounded.shrinkTable`   one object more, one object less;
* `Script.Bounded.pushObject`, `Script.Bounded.forgetObject`   code behind the others, and
                             references to an object that is gone;
* `Script.exists_of_appendCopyOf`   what a copy is made of;
* `Script.WellFormed.appendObject`, `Script.WellFormed.appendCopyOf`,
  `Script.WellFormed.removeObject`   the edits.
-/

namespace Cartridge

open Command

namespace Script

/-! ## the size of the table -/

theorem resize_eq_ok {s s' : Script} {place removed inserted : Nat} {anchor : Anchor}
    (h : s.resize place removed inserted anchor = .ok s') :
    place + removed ≤ s.headerLength ∧ s.length - removed + inserted ≤ maxLength ∧
      s'.pointers = s.pointers.map (Splice.carry ⟨place, removed, inserted, anchor⟩) ∧
      s'.strings = s.strings ∧ s'.stream.length = s.stream.length := by
  obtain ⟨hinside, hsize, cs, moved, hwhole, hstream, hmoved, rfl⟩ := exists_of_resize h
  refine ⟨hinside, hsize, rfl, rfl, ?_⟩
  rw [hstream]
  exact Splice.length_of_retarget hwhole hmoved

/-- a pointer into the stream is carried with it when the table in front of it grows or shrinks -/
theorem carry_behind {place removed inserted p : Nat} (h : place + removed ≤ p)
    (hne : place < place + removed) (anchor : Anchor) :
    Splice.carry ⟨place, removed, inserted, anchor⟩ p = p - removed + inserted := by
  unfold Splice.carry Splice.stop
  dsimp only
  rw [if_neg (by omega), if_neg (by omega)]

theorem carry_after {place inserted p : Nat} (h : place ≤ p) :
    Splice.carry ⟨place, 0, inserted, .after⟩ p = p + inserted := by
  unfold Splice.carry Splice.stop Splice.edge
  dsimp only
  rw [if_neg (by omega)]
  by_cases hp : p < place + 0 ∨ p = place
  · rw [if_pos hp]
    omega
  · rw [if_neg hp]
    rfl

/-! ## one object more -/

theorem Bounded.growTable {s s' : Script} (h : s.Bounded) (hobjects : s.objectCount < maxObjects)
    (hgrow : s.growTable = .ok s') :
    s'.Bounded ∧ s'.objectCount = s.objectCount + 1 ∧ s'.strings = s.strings := by
  obtain ⟨t, hresize, hgrow⟩ := bind_eq_ok.mp hgrow
  cases hgrow
  obtain ⟨_, hsize, hpointers, hstrings, hstream⟩ := resize_eq_ok hresize
  have htable := h.headerLength_eq
  have hheader : (s.objectCount + 1) * objectHeader = s.headerLength + objectHeader := by
    rw [Nat.succ_mul, htable]
  have hsame : t.length = s.headerLength + s.stream.length := by
    rw [Script.length, hstream, headerLength, hpointers, List.length_map, headerLength]
  rw [Script.length] at hsize
  refine and_assoc.mp ⟨bounded_of_objects hobjects ?_ ?_ ?_, hstrings⟩
  · rw [List.length_append, List.length_replicate, hpointers, List.length_map, h.length_pointers,
      Nat.succ_mul]
  · intro p hp
    rw [hheader, hstream]
    rcases List.mem_append.mp hp with hp | hp
    · rw [hpointers] at hp
      obtain ⟨q, hq, rfl⟩ := List.mem_map.mp hp
      obtain ⟨hlow, hhigh⟩ := h.pointers q hq
      rw [Script.length] at hhigh
      rw [carry_after hlow]
      omega
    · rw [(List.mem_replicate.mp hp).2, hsame]
      omega
  · rw [hheader, hstream]
    omega

/-- functions that begin inside the new code or right behind it -/
theorem Bounded.pushObject {s s' : Script} {code : Bytes} {offsets : List Nat} {object : Nat}
    (h : s.Bounded) (hoffsets : offsets.length = functionsPerObject)
    (hfit : ∀ offset ∈ offsets, offset ≤ code.length)
    (hpush : s.pushObject code offsets = .ok (object, s')) :
    s'.Bounded ∧ s'.strings = s.strings := by
  obtain ⟨hobjects, hpush⟩ := unless_throw_eq_ok.mp hpush
  obtain ⟨grown, hgrow, hpush⟩ := bind_eq_ok.mp hpush
  obtain ⟨t, hreplace, hpush⟩ := bind_eq_ok.mp hpush
  cases hpush
  obtain ⟨hgrown, hcount, hstrings⟩ := h.growTable (Nat.lt_of_not_le hobjects) hgrow
  obtain ⟨hlow, _, _, _, _, hspliced⟩ := replace_eq_ok hreplace
  obtain ⟨hpointers, hkept, _, hheader⟩ := spliced_frame hspliced
  have hlength := length_replace hreplace
  have hreplaced := hgrown.replace hreplace
  have hslots : t.pointers.length = (s.objectCount + 1) * functionsPerObject := by
    rw [hpointers, List.length_map, hgrown.length_pointers, hcount]
  have hstringsNew : t.strings = s.strings := hkept.trans hstrings
  refine ⟨hreplaced.withPointers ?_ ?_, hstringsNew⟩
  · rw [List.length_append, List.length_take, List.length_map, hoffsets, hslots, Nat.succ_mul]
    omega
  · intro p hp
    rcases List.mem_append.mp hp with hp | hp
    · exact hreplaced.pointers p (List.mem_of_mem_take hp)
    · obtain ⟨offset, hoffset, rfl⟩ := List.mem_map.mp hp
      have hle := hfit offset hoffset
      rw [hlength, hheader]
      omega

theorem WellFormed.appendObject {s s' : Script} {object : Nat} (h : s.WellFormed)
    (happend : s.appendObject = .ok (object, s')) : s'.WellFormed := by
  refine h.editWith ?_ happend
  intro t t' number ht hcompacted hpush
  have hfit : ∀ offset ∈ 0 :: List.replicate (functionsPerObject - 1) 1,
      offset ≤ (Command.ret.bytes ++ Command.ret.bytes).length := by decide
  obtain ⟨hbounded, hstrings⟩ := ht.toBounded.pushObject rfl hfit hpush
  exact ht.keeps hcompacted hbounded hstrings

theorem offsetsIn_eq_ok {s : Script} {object start stop : Nat} {offsets : List Nat}
    (h : s.offsetsIn object start stop = .ok offsets) :
    offsets.length = functionsPerObject ∧ ∀ offset ∈ offsets, offset ≤ stop - start := by
  have hall := mapM_eq_ok.mp h
  refine ⟨hall.length_eq.symm.trans List.length_range, ?_⟩
  intro offset hoffset
  obtain ⟨function, _, hstep⟩ := exists_of_mem_right hall hoffset
  obtain ⟨p, _, hstep⟩ := bind_eq_ok.mp hstep
  obtain ⟨hinside, hstep⟩ := unless_throw_eq_ok.mp hstep
  have hoffset : p - start = offset := Except.ok.inj hstep
  omega

theorem bytes_eq_ok {s : Script} {start stop : Nat} {code : Bytes}
    (h : s.bytes start stop = .ok code) : code.length = stop - start := by
  obtain ⟨hinside, h⟩ := unless_eq_ok.mp h
  cases h
  rw [List.length_take, List.length_drop]
  rw [length] at hinside
  omega

/-- what is copied is read in front of the edit -/
theorem exists_of_appendCopyOf {s s' : Script} {source copy : Nat}
    (h : s.appendCopyOf source = .ok (copy, s')) :
    ∃ start stop offsets code, s.objectStart source = .ok start ∧ s.objectEnd source = .ok stop ∧
      s.offsetsIn source start stop = .ok offsets ∧
      checkJumpsStay source start stop (s.commands start stop).commands = .ok () ∧
      s.bytes start stop = .ok code ∧
      (s.editWith fun t => t.pushObject code offsets) = .ok (copy, s') := by
  obtain ⟨start, hstart, h⟩ := bind_eq_ok.mp h
  obtain ⟨stop, hstop, h⟩ := bind_eq_ok.mp h
  obtain ⟨offsets, hoffsets, h⟩ := bind_eq_ok.mp h
  obtain ⟨_, hjumps, h⟩ := bind_eq_ok.mp h
  cases hreading : (s.commands start stop).fault with
  | some fault =>
    rw [hreading] at h
    cases h
  | none =>
    rw [hreading] at h
    obtain ⟨code, hcode, hedit⟩ := bind_eq_ok.mp h
    exact ⟨start, stop, offsets, code, hstart, hstop, hoffsets, hjumps, hcode, hedit⟩

theorem WellFormed.appendCopyOf {s s' : Script} {source object : Nat} (h : s.WellFormed)
    (happend : s.appendCopyOf source = .ok (object, s')) : s'.WellFormed := by
  obtain ⟨start, stop, offsets, code, _, _, hoffsets, _, hcode, hedit⟩ :=
    exists_of_appendCopyOf happend
  obtain ⟨hlength, hinside⟩ := offsetsIn_eq_ok hoffsets
  have hfit : ∀ offset ∈ offsets, offset ≤ code.length := by
    rw [bytes_eq_ok hcode]
    exact hinside
  refine h.editWith ?_ hedit
  intro t t' number ht hcompacted hpush
  obtain ⟨hbounded, hstrings⟩ := ht.toBounded.pushObject hlength hfit hpush
  exact ht.keeps hcompacted hbounded hstrings

/-! ## one object less -/

theorem Bounded.shrinkTable {s s' : Script} {object : Nat} (h : s.Bounded)
    (hshrink : s.shrinkTable object = .ok s') : s'.Bounded ∧ s'.strings = s.strings := by
  obtain ⟨t, hresize, hshrink⟩ := bind_eq_ok.mp hshrink
  cases hshrink
  obtain ⟨hinside, hsize, hpointers, hstrings, hstream⟩ := resize_eq_ok hresize
  have htable := h.headerLength_eq
  have hslots := h.length_pointers
  have hobject : object < s.objectCount := by
    rw [htable, ← Nat.succ_mul] at hinside
    exact Nat.le_of_mul_le_mul_right hinside (by decide)
  have hheader : (s.objectCount - 1) * objectHeader = s.headerLength - objectHeader := by
    rw [Nat.sub_mul, htable, Nat.one_mul]
  have hcount : s.objectCount - 1 ≤ maxObjects := Nat.le_trans (Nat.sub_le ..) h.objects
  have hat : object * objectHeader + objectHeader ≤ s.headerLength := hinside
  rw [Script.length] at hsize
  refine ⟨(bounded_of_objects hcount ?_ ?_ ?_).1, hstrings⟩
  · rw [List.length_append, List.length_take, List.length_drop, hpointers, List.length_map, hslots,
      functionsPerObject]
    omega
  · intro p hp
    rw [hheader, hstream]
    have hp : p ∈ t.pointers := by
      rcases List.mem_append.mp hp with hp | hp
      · exact List.mem_of_mem_take hp
      · exact List.mem_of_mem_drop hp
    rw [hpointers] at hp
    obtain ⟨q, hq, rfl⟩ := List.mem_map.mp hp
    obtain ⟨hlow, hhigh⟩ := h.pointers q hq
    rw [Script.length] at hhigh
    rw [carry_behind (Nat.le_trans hinside hlow) (Nat.lt_add_of_pos_right (by decide))]
    omega
  · rw [hheader, hstream]
    omega

theorem length_lowered (handle : Nat) {c : Command} (h : c.IsWhole) :
    (lowered handle c).length = c.length := by
  unfold lowered namedHandle?
  by_cases hkind : c.kind = .objectRef
  · have hfixed : c.IsFixed := ⟨by rw [hkind]; decide, by rw [hkind]; decide⟩
    have hargs : c.args ≠ [] := Command.args_ne_nil h hfixed (by rw [hkind]; decide)
    rw [if_pos hkind]
    dsimp only
    by_cases hlt : handle < (c.args.headD 0).toNat
    · have hpos := List.length_pos_of_ne_nil hargs
      rw [if_pos hlt]
      simp only [Command.length, List.length_cons, List.length_tail]
      omega
    · rw [if_neg hlt]
  · rw [if_neg hkind]

theorem Bounded.deleteAll {s s' : Script} {entries : List (Nat × Command)} (h : s.Bounded)
    (hdelete : s.deleteAll entries = .ok s') : s'.Bounded ∧ s'.strings = s.strings := by
  induction entries generalizing s with
  | nil =>
    cases hdelete
    exact ⟨h, rfl⟩
  | cons entry entries ih =>
    obtain ⟨t, hreplace, hdelete⟩ := bind_eq_ok.mp hdelete
    obtain ⟨hbounded, hstrings⟩ := ih (h.replace hreplace) hdelete
    exact ⟨hbounded, hstrings.trans (strings_replace hreplace)⟩

theorem Bounded.forgetObject {s s' : Script} {object : Nat} (h : s.Bounded)
    (hforget : s.forgetObject object = .ok s') : s'.Bounded ∧ s'.strings = s.strings := by
  obtain ⟨_, _, hforget⟩ := bind_eq_ok.mp hforget
  obtain ⟨commands, hcommands, hforget⟩ := bind_eq_ok.mp hforget
  let lower : Script :=
    { s with stream := commands.flatMap fun entry => (lowered (2 * object) entry.2).bytes }
  have hlower : lower.Bounded :=
    h.congr rfl (length_stream_of_toExcept hcommands fun c hc => length_lowered (2 * object) hc)
  exact hlower.deleteAll hforget

theorem WellFormed.removeObject {s s' : Script} {object : Nat} (h : s.WellFormed)
    (hremove : s.removeObject object = .ok s') : s'.WellFormed := by
  obtain ⟨start, _, hremove⟩ := bind_eq_ok.mp hremove
  obtain ⟨stop, _, hremove⟩ := bind_eq_ok.mp hremove
  refine h.edit ?_ hremove
  intro t t' ht hcompacted hchange
  obtain ⟨cut, hcut, hchange⟩ := bind_eq_ok.mp hchange
  obtain ⟨shrunk, hshrunk, hchange⟩ := bind_eq_ok.mp hchange
  obtain ⟨hbounded, hstrings⟩ := (ht.toBounded.replace hcut).shrinkTable hshrunk
  obtain ⟨hforgotten, hsame⟩ := hbounded.forgetObject hchange
  exact ht.keeps hcompacted hforgotten (hsame.trans (hstrings.trans (strings_replace hcut)))

end Script

end Cartridge
