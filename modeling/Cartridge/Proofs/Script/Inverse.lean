import Cartridge.Proofs.Script.Built
import Cartridge.Proofs.Script.Carried

/-!
# Edits taken back

The bytes that an edit has put in are removed again, and those that it removed are put back.  That
gives the old script just when no reference has collapsed onto the place of the edit: one that did
cannot be told from a reference to the place itself.

* `Splice.undo`, `Splice.Collapses`   the edit that takes another one back, and the references that
                              it does not bring back (`Splice.undo_carry_iff`);
* `Splice.retarget_back_iff`  when a run of commands gets its old distances again;
* `Script.OutsideTarget`      the targets of the jumps that an edit leaves;
* `Script.Exchange.replace_back_iff`   when an exchange can be taken back;
* `Script.delete_inserted`    an insertion always can;
* `Script.insert_deleted_iff` a deletion only if no reference collapses.
-/

namespace Cartridge

open Command

/-! ## references there and back -/

namespace Splice

/-- the edit that takes this one back -/
def undo (e : Splice) : Splice := ⟨e.place, e.inserted, e.removed, .before⟩

/-- a reference to `x` ends up at the place of the edit, though `x` lies behind the place -/
def Collapses (e : Splice) (x : Nat) : Prop :=
  e.place < x ∧ (x < e.stop ∨ x = e.stop ∧ e.inserted = 0)

theorem undo_carry_iff {e : Splice} (hanchor : e.anchor = .before) (x : Nat) :
    e.undo.carry (e.carry x) = x ↔ ¬ e.Collapses x := by
  rw [carry_eq_follow hanchor, carry_eq_follow rfl]
  unfold follow undo Collapses stop
  dsimp only
  by_cases hfront : x ≤ e.place
  · rw [if_pos hfront, if_pos hfront]
    omega
  · rw [if_neg hfront]
    by_cases hin : x < e.place + e.removed
    · rw [if_pos hin, if_pos (Nat.le_refl _)]
      omega
    · rw [if_neg hin]
      by_cases hplace : x - e.removed + e.inserted ≤ e.place
      · rw [if_pos hplace]
        omega
      · rw [if_neg hplace, if_neg (by omega)]
        omega

theorem not_collapses_insert (pos n x : Nat) : ¬ Collapses ⟨pos, 0, n, .before⟩ x := by
  unfold Collapses stop
  dsimp only
  omega

theorem collapses_delete_iff {pos length x : Nat} :
    Collapses ⟨pos, length, 0, .before⟩ x ↔ pos < x ∧ x ≤ pos + length := by
  unfold Collapses stop
  dsimp only
  omega

/-! ## jumps there and back -/

/-- a jump has the distance between its ends, and from its base reaches nothing else by it -/
theorem newDistance_eq_distance_iff {p base target : Nat} {c : Command}
    (hold : c.jump? p = .ok (some (base, target))) (q x : Nat) :
    newDistance q c.kind base x = .ok c.distance ↔ x = target := by
  obtain ⟨_, hends⟩ := jump?_eq_some.mp hold
  constructor
  · intro hn
    obtain ⟨_, hforward, hback⟩ := newDistance_eq_ok hn
    rcases hends with ⟨hkind, htarget⟩ | ⟨hkind, htarget⟩
    · have := hforward hkind
      omega
    · have := hback (by rw [hkind]; decide)
      omega
  · rintro rfl
    refine newDistance_of_ends q ?_ ?_ ?_
    · exact Nat.le_of_lt_succ (c.args.getLastD 0).toNat_lt
    · intro hforward
      rcases hends with hends | hends
      · exact hends.2
      · rw [hends.1] at hforward
        cases hforward
    · intro hback
      rcases hends with hends | hends
      · exact absurd hends.1 hback
      · exact hends.2

section
variable {e : Splice} {move follow : Nat → Nat}

/-- a jump that has been carried along is the old one but for its distance -/
theorem withDistance_of_carried {a b : Nat × Command} (h : Carried move follow a b)
    (hjump : a.2.IsJump) : b.2.withDistance a.2.distance = a.2 := by
  obtain ⟨others, x, y, ha, hb⟩ := h.jumpArgs hjump
  refine congrArg₂ Command.mk h.opcode ?_
  rw [distance, ha, hb, List.getLastD_concat, List.dropLast_concat, UInt8.ofNat_toNat]

/-- A jump gets its old distance again when its target comes back. -/
theorem retarget_back {p q : Nat} {c d : Command} (h : Carried move follow (p, c) (q, d))
    (hbase : e.shift (q + c.length - 1) = p + c.length - 1) :
    e.retarget q d = .ok c ↔
      ∀ base target, c.jump? p = .ok (some (base, target)) → e.carry (follow target) = target := by
  by_cases hjump : c.IsJump
  · obtain ⟨base, base', target, hold, hnew⟩ := h.target hjump
    have hretarget : e.retarget q d =
        (newDistance q c.kind base (e.carry (follow target))).map d.withDistance := by
      have hkind : d.kind = c.kind := h.kind_eq
      have hlength : d.length = c.length := h.length_eq
      have hbaseNew : base' = q + c.length - 1 := by rw [(jump?_eq_some.mp hnew).1, hlength]
      have hbaseOld : base = p + c.length - 1 := (jump?_eq_some.mp hold).1
      unfold retarget
      rw [hnew, hkind]
      dsimp only
      rw [hbaseNew, hbase, hbaseOld]
    rw [hretarget, map_eq_ok]
    constructor
    · rintro ⟨n, hn, hd⟩ base₁ target₁ hold₁
      rw [hold] at hold₁
      cases hold₁
      obtain ⟨hbyte, _⟩ := newDistance_eq_ok hn
      have hdistance : c.distance = n := by rw [← hd, distance_withDistance d hbyte]
      rw [← hdistance] at hn
      exact (newDistance_eq_distance_iff hold q _).mp hn
    · intro hall
      exact ⟨c.distance, (newDistance_eq_distance_iff hold q _).mpr (hall base target hold),
        withDistance_of_carried h hjump⟩
  · have hsame : d = c := congrArg₂ Command.mk h.opcode (h.args hjump)
    have hnone : c.jump? p = .ok none := jump?_eq_none.mpr hjump
    have hretarget : e.retarget q d = .ok c := by
      unfold retarget
      rw [hsame, jump?_eq_none.mpr hjump]
    rw [hretarget, hnone]
    exact ⟨fun _ _ _ h => (by cases h), fun _ => rfl⟩

/-- commands that lie one behind the other, there and back -/
theorem retarget_back_iff {cs ds : List Command} {start start' : Nat}
    (hshift : ∀ n < (flat cs).length, e.shift (start' + n) = start + n)
    (h : List.Forall₂ (Carried move follow) (laidFrom start cs) (laidFrom start' ds)) :
    List.Forall₂ (fun entry c => e.retarget entry.1 entry.2 = .ok c) (laidFrom start' ds) cs ↔
      ∀ a ∈ laidFrom start cs, ∀ base target,
        a.2.jump? a.1 = .ok (some (base, target)) → e.carry (follow target) = target := by
  induction cs generalizing start start' ds with
  | nil =>
    cases ds with
    | nil => simp [laidFrom_nil]
    | cons d ds => cases h
  | cons c cs ih =>
    cases ds with
    | nil => cases h
    | cons d ds =>
      rw [laidFrom_cons, laidFrom_cons] at h
      obtain ⟨hfirst, hrest⟩ := List.forall₂_cons.mp h
      have hlength : d.length = c.length := hfirst.length_eq
      have hpositive := c.length_pos
      rw [length_flat_cons] at hshift
      have hbase : e.shift (start' + c.length - 1) = start + c.length - 1 := by
        have hlast := hshift (c.length - 1) (by omega)
        rwa [← Nat.add_sub_assoc hpositive, ← Nat.add_sub_assoc hpositive] at hlast
      have hbehind : ∀ n < (flat cs).length,
          e.shift (start' + c.length + n) = start + c.length + n := by
        intro n hn
        rw [Nat.add_assoc, Nat.add_assoc]
        exact hshift (c.length + n) (by omega)
      rw [hlength] at hrest
      rw [laidFrom_cons, laidFrom_cons, List.forall₂_cons, List.forall_mem_cons, hlength]
      exact and_congr (retarget_back hfirst hbase) (ih hbehind hrest)

end

end Splice

/-! ## exchanges there and back -/

namespace Script

/-- a jump that begins outside `[start, stop)` leads to `x` -/
def OutsideTarget (s : Script) (start stop x : Nat) : Prop :=
  ∃ pos c base, (pos, c) ∈ s.allCommands.commands ∧ (pos < start ∨ stop ≤ pos) ∧
    c.jump? pos = .ok (some (base, x))

namespace Exchange

variable {e : Splice} {s s' : Script} {front middle back kept new moved : List Command}
  (h : Exchange e s s' front middle back kept new moved)
include h

/-- the removed code is what stood in the script -/
theorem bytes_middle : s.bytes e.place e.stop = .ok (flat middle) := by
  have hends := h.stop
  have hinside : ¬ (e.place < s.headerLength ∨ e.stop < e.place ∨ s.length < e.stop) := by
    rw [h.length_eq, h.place]
    rw [h.place] at hends
    omega
  have hdrop : e.place - s.headerLength = (flat front).length := by
    rw [h.place, Nat.add_sub_cancel_left]
  rw [Script.bytes, if_neg hinside, hdrop, h.stream, flat_append, flat_append, List.append_assoc,
    List.drop_left, h.stop, Nat.add_sub_cancel_left, List.take_left]

/-- the commands outside the exchange are those in front and those behind -/
theorem forall_outsideTarget_iff {P : Nat → Prop} :
    (∀ x, s.OutsideTarget e.place e.stop x → P x) ↔
      (∀ a ∈ laidFrom s.headerLength front, ∀ base target,
        a.2.jump? a.1 = .ok (some (base, target)) → P target) ∧
      ∀ a ∈ laidFrom e.stop back, ∀ base target,
        a.2.jump? a.1 = .ok (some (base, target)) → P target := by
  rw [← h.filter_front, ← h.filter_behind]
  simp only [List.mem_filter, decide_eq_true_eq]
  constructor
  · intro hall
    exact ⟨fun a ha base target hold => hall target ⟨a.1, a.2, base, ha.1, .inl ha.2, hold⟩,
      fun a ha base target hold => hall target ⟨a.1, a.2, base, ha.1, .inr ha.2, hold⟩⟩
  · rintro ⟨hfront, hbehind⟩ x ⟨pos, c, base, hmem, hpos | hpos, hold⟩
    · exact hfront (pos, c) ⟨hmem, hpos⟩ base x hold
    · exact hbehind (pos, c) ⟨hmem, hpos⟩ base x hold

/-- the edit that takes the exchange back, as a replacement -/
theorem undo_eq : e.undo = ⟨e.place, e.inserted, (flat middle).length, .before⟩ :=
  congrArg (Splice.mk e.place e.inserted · .before) h.removed_eq

theorem cutAt_place : CutAt s'.headerLength (kept ++ new ++ moved) e.undo.place kept
    (new ++ moved) :=
  ⟨List.append_assoc .., h.header ▸ h.place_eq⟩

theorem cutAt_stop : CutAt s'.headerLength (kept ++ new ++ moved) e.undo.stop (kept ++ new)
    moved := by
  refine ⟨rfl, ?_⟩
  rw [Splice.stop, Splice.undo, h.header, h.place_eq, h.inserted, flat_append, List.length_append,
    Nat.add_assoc]

/-- nothing moves in front of the place -/
theorem shift_front : ∀ n < (flat front).length,
    e.undo.shift (s.headerLength + n) = s.headerLength + n := by
  intro n hn
  have hlt : s.headerLength + n < e.place := by
    rw [h.place]
    omega
  exact if_pos hlt

/-- commands around the old code that give the old stream are the old ones -/
theorem eq_of_stream {first last : List Command} (hfirst : ∀ c ∈ first, c.IsWhole)
    (hlast : ∀ c ∈ last, c.IsWhole) (hlength : (flat first).length = (flat front).length)
    (hstream : flat first ++ flat middle ++ flat last = s.stream) :
    first = front ∧ last = back := by
  rw [h.stream, flat_append, flat_append, List.append_assoc, List.append_assoc] at hstream
  obtain ⟨hfront, hrest⟩ := List.append_inj hstream hlength
  have hwhole := h.whole
  simp only [List.forall_mem_append] at hwhole
  exact ⟨flat_inj hfirst hwhole.1.1 hfront,
    flat_inj hlast hwhole.2 (List.append_cancel_left hrest)⟩

/-- The old code can be put back, with the old distances around it, when every jump around it finds
its old target again. -/
theorem replace_back_iff (hlength : s.length ≤ maxLength) :
    (∃ t, s'.replace e.place e.inserted (flat middle) .before = .ok t ∧ t.stream = s.stream) ↔
      ∀ x, s.OutsideTarget e.place e.stop x → e.undo.carry (e.carry x) = x := by
  have hmoves : ∀ n < (flat back).length, e.undo.shift (e.undo.stop + n) = e.stop + n :=
    fun n _ => e.undo.shift_stop_add n
  rw [h.forall_outsideTarget_iff, ← Splice.retarget_back_iff h.shift_front h.before,
    ← Splice.retarget_back_iff hmoves h.behind]
  constructor
  · rintro ⟨t, hreplace, hsame⟩
    obtain ⟨_, _, _, _, _, hspliced⟩ := replace_eq_ok hreplace
    rw [← h.undo_eq] at hspliced
    obtain ⟨first, last, hfirst, hlast, rfl⟩ :=
      parts_of_spliced h.whole' h.stream' h.cutAt_place h.cutAt_stop hspliced
    rw [h.header] at hfirst
    obtain ⟨hfirstWhole, hfirstLength, _⟩ := Splice.carried_of_retarget
      (h.cutAt_place.whole h.whole').1 (h.length_kept ▸ h.shift_front) hfirst
    obtain ⟨hlastWhole, _, _⟩ := Splice.carried_of_retarget
      (h.cutAt_stop.whole h.whole').2 (h.length_moved ▸ hmoves) hlast
    obtain ⟨rfl, rfl⟩ := h.eq_of_stream hfirstWhole hlastWhole
      (hfirstLength.trans h.length_kept) hsame
    exact ⟨hfirst, hlast⟩
  · rintro ⟨hfront, hback⟩
    have hsize : s'.length - e.undo.removed + e.undo.inserted ≤ maxLength := by
      have hends : s'.length - e.inserted + e.removed = s.length := by
        rw [h.length_eq', h.length_eq, Splice.stop]
        omega
      exact Nat.le_trans (Nat.le_of_eq hends) hlength
    rw [← h.header] at hfront
    have hspliced : s'.spliced e.undo (flat middle) = _ :=
      spliced_of_retarget h.whole' h.stream' h.cutAt_place h.cutAt_stop hsize hfront hback
    rw [h.undo_eq] at hspliced
    have hwhole := h.whole
    simp only [List.forall_mem_append] at hwhole
    refine ⟨_, replace_of_cutAt h.whole' hwhole.1.2 h.stream' h.cutAt_place h.cutAt_stop hspliced,
      ?_⟩
    rw [h.stream, flat_append, flat_append]

/-- **When an exchange can be taken back**: no pointer, and no jump around it, has collapsed onto
its place. -/
theorem restored_iff (hanchor : e.anchor = .before) (hlength : s.length ≤ maxLength)
    (hpointers : s'.pointers = s.pointers.map e.carry) :
    (∃ t, s'.replace e.place e.inserted (flat middle) .before = .ok t ∧
      t.pointers = s.pointers ∧ t.stream = s.stream) ↔
      ∀ x, x ∈ s.pointers ∨ s.OutsideTarget e.place e.stop x → ¬ e.Collapses x := by
  have hsame : ∀ t, s'.replace e.place e.inserted (flat middle) .before = .ok t →
      (t.pointers = s.pointers ↔ ∀ p ∈ s.pointers, e.undo.carry (e.carry p) = p) := by
    intro t ht
    obtain ⟨_, _, _, _, _, hspliced⟩ := replace_eq_ok ht
    rw [← h.undo_eq] at hspliced
    rw [(spliced_frame hspliced).1, hpointers, List.map_map]
    conv_lhs => rhs; rw [← List.map_id s.pointers]
    exact List.map_inj_left
  simp only [← Splice.undo_carry_iff hanchor]
  constructor
  · rintro ⟨t, ht, hpointers, hstream⟩ x (hx | hx)
    · exact (hsame t ht).mp hpointers x hx
    · exact (h.replace_back_iff hlength).mp ⟨t, ht, hstream⟩ x hx
  · intro hall
    obtain ⟨t, ht, hstream⟩ := (h.replace_back_iff hlength).mpr fun x hx => hall x (.inr hx)
    exact ⟨t, ht, (hsame t ht).mpr fun p hp => hall p (.inl hp), hstream⟩

end Exchange

/-! ## insertions and deletions -/

theorem toBytes_congr {s s' : Script} (hpointers : s.pointers = s'.pointers)
    (hstream : s.stream = s'.stream) : s.toBytes = s'.toBytes := by
  rw [toBytes, objectCount, hpointers, hstream, toBytes, objectCount]

/-- the stored form tells bounded scripts apart -/
theorem toBytes_eq_iff {s s' : Script} (h : s.Bounded) (h' : s'.Bounded) :
    s.toBytes = s'.toBytes ↔ s.pointers = s'.pointers ∧ s.stream = s'.stream := by
  constructor
  · intro hbytes
    have hparse := parse_toBytes h
    rw [hbytes, parse_toBytes h'] at hparse
    injection hparse with hparse
    injection hparse with hpointers hstream
    exact ⟨hpointers.symm, hstream.symm⟩
  · rintro ⟨hpointers, hstream⟩
    exact toBytes_congr hpointers hstream

/-- **What has been inserted can be deleted, which restores the script.**  The mark that it was
edited is all that is left of the two edits. -/
theorem delete_inserted {s s' : Script} {pos : Nat} {code : Bytes}
    (hcompacted : s.strings.compacted = true) (h : s.insert pos code = .ok s') :
    ∃ s'', s'.delete pos code.length = .ok s'' ∧ s''.toBytes = s.toBytes ∧
      s'' = { s with modified := true } := by
  obtain ⟨t, ht, rfl⟩ := (edit_eq_ok hcompacted).mp h
  obtain ⟨_, _, _, _, _, hspliced⟩ := replace_eq_ok ht
  obtain ⟨hsize, _⟩ := spliced_eq_ok hspliced
  obtain ⟨hpointers, hstrings, _⟩ := spliced_frame hspliced
  obtain ⟨front, middle, back, kept, new, moved, _, hexchange⟩ := exchange_of_replace ht
  let marked : Script := { t with modified := true }
  have hmarked : Exchange _ s marked _ _ _ _ _ _ := hexchange.congr rfl rfl
  have hcompacted' : marked.strings.compacted = true := hstrings ▸ hcompacted
  have hlength : s.length ≤ maxLength := Nat.le_trans (Nat.le_add_right ..) hsize
  obtain ⟨u, hu, hpointersBack, hstream⟩ := (hmarked.restored_iff rfl hlength hpointers).mpr
    fun x _ => Splice.not_collapses_insert pos code.length x
  obtain ⟨_, _, _, _, _, hsplicedBack⟩ := replace_eq_ok hu
  obtain ⟨_, hstringsBack, _⟩ := spliced_frame hsplicedBack
  have hnothing : middle = [] := eq_nil_of_flat hexchange.removed_eq.symm
  rw [hnothing] at hu
  have hdelete : marked.delete pos code.length = .ok { u with modified := true } :=
    (edit_eq_ok hcompacted').mpr ⟨u, hu, rfl⟩
  refine ⟨_, hdelete, toBytes_congr hpointersBack hstream, ?_⟩
  rw [hpointersBack, hstream, hstringsBack.trans hstrings]

/-- a jump where a pointer and two other jumps lead to -/
theorem delete_inserted_jump :
    let strings : StringTable := ⟨[], true, false, none⟩
    let s : Script := ⟨List.replicate 15 32 ++ [35], [0x10, 2, 0xB1, 0, 0x11, 2], strings, false⟩
    let s' : Script :=
      ⟨List.replicate 15 32 ++ [35], [0x10, 2, 0xB1, 0x10, 1, 0, 0x11, 4], strings, true⟩
    s.strings.compacted = true ∧ s.insert 35 [0x10, 1] = .ok s' ∧
      ∃ s'', s'.delete 35 2 = .ok s'' ∧ s''.toBytes = s.toBytes ∧
        s'' = { s with modified := true } := by
  intro strings s s'
  have hinsert : s.insert 35 [0x10, 1] = .ok s' := toOption_eq_some.mp (by decide +kernel)
  exact ⟨rfl, hinsert, delete_inserted rfl hinsert⟩

/-- **When what has been deleted can be inserted again, restoring the script**: just when no pointer
and no jump around the deleted bytes leads behind their place, up to their end. -/
theorem insert_deleted_iff {s s' : Script} {pos length : Nat} (hs : s.Built)
    (hcompacted : s.strings.compacted = true) (h : s.delete pos length = .ok s') :
    ∃ code, s.bytes pos (pos + length) = .ok code ∧
      ((∃ s'', s'.insert pos code = .ok s'' ∧ s''.toBytes = s.toBytes) ↔
        ∀ x, x ∈ s.pointers ∨ s.OutsideTarget pos (pos + length) x →
          ¬ (pos < x ∧ x ≤ pos + length)) := by
  have hbounded := hs.wellFormed.toBounded
  obtain ⟨t, ht, rfl⟩ := (edit_eq_ok hcompacted).mp h
  obtain ⟨_, _, _, _, _, hspliced⟩ := replace_eq_ok ht
  obtain ⟨hpointers, hstrings, _⟩ := spliced_frame hspliced
  obtain ⟨front, middle, back, kept, new, moved, _, hexchange⟩ := exchange_of_replace ht
  let marked : Script := { t with modified := true }
  have hmarked : Exchange ⟨pos, length, 0, .before⟩ s marked _ _ _ _ _ _ :=
    hexchange.congr rfl rfl
  have hcompacted' : marked.strings.compacted = true := hstrings ▸ hcompacted
  have hboundedMarked : marked.Bounded := (hbounded.replace ht).congr rfl rfl
  refine ⟨flat middle, hexchange.bytes_middle, ?_⟩
  have hrestored := hmarked.restored_iff rfl hbounded.length hpointers
  simp only [Splice.collapses_delete_iff] at hrestored
  refine Iff.trans ?_ hrestored
  constructor
  · rintro ⟨s'', hinsert, hbytes⟩
    obtain ⟨u, hu, rfl⟩ := (edit_eq_ok hcompacted').mp hinsert
    have hboundedBack : Bounded { u with modified := true } :=
      (hboundedMarked.replace hu).congr rfl rfl
    exact ⟨u, hu, (toBytes_eq_iff hboundedBack hbounded).mp hbytes⟩
  · rintro ⟨u, hu, hpointersBack, hstream⟩
    have hinsert : marked.insert pos (flat middle) = .ok { u with modified := true } :=
      (edit_eq_ok hcompacted').mpr ⟨u, hu, rfl⟩
    exact ⟨_, hinsert, toBytes_congr hpointersBack hstream⟩

/-- a command behind the target of two jumps comes back, and one in front of it does not -/
theorem insert_deleted_around_target :
    let strings : StringTable := ⟨[], true, false, none⟩
    let s : Script := ⟨List.replicate 15 32 ++ [35], [0x10, 2, 0xB1, 0, 0x11, 2], strings, true⟩
    let behind : Script := ⟨List.replicate 15 32 ++ [35], [0x10, 2, 0xB1, 0x11, 1], strings, true⟩
    let front : Script := ⟨List.replicate 15 32 ++ [34], [0x10, 1, 0, 0x11, 2], strings, true⟩
    s.Built ∧ s.strings.compacted = true ∧
      s.delete 35 1 = .ok behind ∧ s.bytes 35 36 = .ok [0] ∧
      (∃ s'', behind.insert 35 [0] = .ok s'' ∧ s''.toBytes = s.toBytes) ∧
      s.delete 34 1 = .ok front ∧ s.bytes 34 35 = .ok [0xB1] ∧
      ¬ ∃ s'', front.insert 34 [0xB1] = .ok s'' ∧ s''.toBytes = s.toBytes := by
  intro strings s behind front
  let s₀ : Script := ⟨List.replicate 15 32 ++ [35], [0x10, 2, 0xB1, 0, 0x11, 2], .empty, false⟩
  have hparse : parse s₀.toBytes = .ok s₀ := toOption_eq_some.mp (by decide +kernel)
  have hnumber : s₀.delete 32 0 = .ok s := toOption_eq_some.mp (by decide +kernel)
  have hs : s.Built := .edit (.parse hparse) (.code (.delete 32 0)) hnumber
  have hpointers : ∀ p ∈ s.pointers, ¬ (35 < p ∧ p ≤ 36) := by decide +kernel
  have htargets : ∀ a ∈ s.allCommands.commands, ∀ ends ∈ (a.2.jump? a.1).toOption.join,
      ¬ (35 < ends.2 ∧ ends.2 ≤ 36) := by decide +kernel
  have hbehind : s.delete 35 1 = .ok behind := toOption_eq_some.mp (by decide +kernel)
  have hbehindBytes : s.bytes 35 36 = .ok [0] := toOption_eq_some.mp (by decide +kernel)
  have hfront : s.delete 34 1 = .ok front := toOption_eq_some.mp (by decide +kernel)
  have hfrontBytes : s.bytes 34 35 = .ok [0xB1] := toOption_eq_some.mp (by decide +kernel)
  obtain ⟨code, hcode, hrestored⟩ := insert_deleted_iff hs rfl hbehind
  obtain rfl : code = [0] := Except.ok.inj (hcode.symm.trans hbehindBytes)
  obtain ⟨code', hcode', hlost⟩ := insert_deleted_iff hs rfl hfront
  obtain rfl : code' = [0xB1] := Except.ok.inj (hcode'.symm.trans hfrontBytes)
  refine ⟨hs, rfl, hbehind, hbehindBytes, hrestored.mpr ?_, hfront, hfrontBytes, ?_⟩
  · rintro x (hx | ⟨pos, c, base, hmem, _, hends⟩)
    · exact hpointers x hx
    · exact htargets (pos, c) hmem (base, x) (by rw [hends]; rfl)
  · intro hback
    have hpointer : 35 ∈ s.pointers := by decide
    exact hlost.mp hback 35 (.inl hpointer) (by decide)

end Script

end Cartridge
