import Cartridge.Proofs.Script.Carried
import Cartridge.Proofs.Script.Order

/-!
# Functions that share code

Equal pointers say which functions share their code, and the first later pointer that differs says
where that code ends.

* `Script.slotEnd_pred`      code that is shared has one end;
* `Script.EndsAt`            where the code of a slot ends, as a property of the pointers;
* `Script.Ordered.slotEnd_eq_ok`   in an ordered table every slot has such an end;
* `Script.Ordered.mem_sharers`   the slots that get new code together with an empty one;
* `Script.Follows`, `Script.Refilled`   new code for a slot and for those that follow it, and what
                             becomes of the other pointers;
* `Script.Refilled.ordered`, `Script.Refilled.endsAt_of_front`, …   the order of the table, and the
                             ends of all functions.
-/

namespace Cartridge

/-- a run of numbers of which all up to `u` satisfy `p` -/
theorem mem_takeWhile_range' {p : Nat → Bool} {a n u : Nat} (hle : a ≤ u) (hlt : u < a + n)
    (hp : ∀ v, a ≤ v → v ≤ u → p v = true) : u ∈ (List.range' a n).takeWhile p := by
  induction n generalizing a with
  | zero => omega
  | succ n ih =>
    rw [List.range'_succ, List.takeWhile_cons_of_pos (hp a (Nat.le_refl _) hle)]
    rcases Nat.eq_or_lt_of_le hle with rfl | hlt'
    · exact List.mem_cons_self ..
    · refine List.mem_cons_of_mem _ (ih hlt' (by omega) ?_)
      exact fun v hv => hp v (Nat.le_of_succ_le hv)

namespace Script

/-! ## single pointers -/

theorem functionsPerObject_pos : 0 < functionsPerObject := by decide

theorem getElem?_pointers {s : Script} {u : Nat} (h : u < s.pointers.length) :
    s.pointers[u]? = some (s.pointer u) := by
  rw [pointer, List.getD_eq_getElem?_getD, List.getElem?_eq_getElem h, Option.getD_some]

theorem pointer_eq_getElem {s : Script} {u : Nat} (h : u < s.pointers.length) :
    s.pointer u = s.pointers[u] := by
  have hread := getElem?_pointers h
  rw [List.getElem?_eq_getElem h] at hread
  exact (Option.some.inj hread).symm

theorem pointer_mem {s : Script} {u : Nat} (h : u < s.pointers.length) :
    s.pointer u ∈ s.pointers :=
  List.mem_of_getElem? (getElem?_pointers h)

theorem ordered_of_pointer {s : Script}
    (h : ∀ u v, u < v → v < s.pointers.length → s.pointer u ≤ s.pointer v) : s.Ordered := by
  rw [Ordered, List.pairwise_iff_getElem]
  intro u v hu hv hlt
  have hle := h u v hlt hv
  rwa [pointer_eq_getElem hu, pointer_eq_getElem hv] at hle

/-- an empty slot has the pointer of the one in front of it -/
theorem pointer_pred_of_empty {s : Script} {slot : Nat} (h : s.slotIsEmpty slot = true) :
    0 < slot ∧ s.pointer (slot - 1) = s.pointer slot := by
  rw [slotIsEmpty, Bool.and_eq_true] at h
  obtain ⟨hfirst, hsame⟩ := h
  refine ⟨Nat.pos_of_ne_zero fun hzero => ?_, (beq_iff_eq.mp hsame).symm⟩
  rw [hzero] at hfirst
  exact absurd hfirst (by decide)

/-- so its code ends where that one's does -/
theorem slotEnd_pred {s : Script} {slot : Nat} (hslot : slot < s.pointers.length)
    (hempty : s.slotIsEmpty slot = true) : s.slotEnd (slot - 1) = s.slotEnd slot := by
  obtain ⟨hpos, hsame⟩ := pointer_pred_of_empty hempty
  have hdrop : s.pointers.drop (slot - 1 + 1) =
      s.pointer slot :: s.pointers.drop (slot + 1) := by
    rw [Nat.sub_add_cancel hpos, List.drop_eq_getElem_cons hslot, pointer_eq_getElem hslot]
  have hskip : (s.pointer slot :: s.pointers.drop (slot + 1)).find? (· != s.pointer slot) =
      (s.pointers.drop (slot + 1)).find? (· != s.pointer slot) := by
    refine List.find?_cons_of_neg ?_
    rw [bne_self_eq_false]
    exact Bool.false_ne_true
  unfold slotEnd
  dsimp only
  rw [hdrop, hsame, hskip]

theorem slotEnd_congr {s t : Script} (h : t.pointers = s.pointers) (hlength : t.length = s.length)
    (slot : Nat) : t.slotEnd slot = s.slotEnd slot := by
  unfold slotEnd pointer
  rw [h, hlength]

/-- a function of the script has its slot in the table -/
theorem slot_of_lt {s : Script} {object function : Nat} (hobject : object < s.objectCount)
    (hfunction : function < functionsPerObject) :
    s.slot object function = .ok (object * functionsPerObject + function) := by
  rw [slot, if_neg (Nat.not_le_of_lt hobject), if_neg (Nat.not_le_of_lt hfunction)]

theorem slot_eq_ok {s : Script} {object function slot : Nat} (h : s.slot object function = .ok slot) :
    object < s.objectCount ∧ function < functionsPerObject ∧
      slot = object * functionsPerObject + function := by
  obtain ⟨hobject, h⟩ := unless_eq_ok.mp h
  obtain ⟨hfunction, h⟩ := unless_eq_ok.mp h
  cases h
  exact ⟨Nat.lt_of_not_le hobject, Nat.lt_of_not_le hfunction, rfl⟩

theorem Bounded.slot_lt {s : Script} (h : s.Bounded) {object function : Nat}
    (hobject : object < s.objectCount) (hfunction : function < functionsPerObject) :
    object * functionsPerObject + function < s.pointers.length := by
  rw [h.length_pointers]
  rw [functionsPerObject] at hfunction ⊢
  omega

/-- the table has the slots of whole objects -/
theorem Bounded.objectSlots_le {s : Script} (h : s.Bounded) {slot : Nat}
    (hslot : slot < s.pointers.length) :
    (slot / functionsPerObject + 1) * functionsPerObject ≤ s.pointers.length := by
  rw [h.length_pointers] at hslot ⊢
  exact Nat.mul_le_mul_right _ (Nat.div_lt_of_lt_mul (by rwa [Nat.mul_comm]))

theorem functionStart_of_lt {s : Script} {object function : Nat} (hobject : object < s.objectCount)
    (hfunction : function < functionsPerObject) :
    s.functionStart object function =
      .ok (s.pointer (object * functionsPerObject + function)) := by
  rw [functionStart, slot_of_lt hobject hfunction]
  rfl

theorem lt_of_functionStart {s : Script} {object function p : Nat}
    (h : s.functionStart object function = .ok p) :
    object < s.objectCount ∧ function < functionsPerObject := by
  obtain ⟨_, hslot, _⟩ := bind_eq_ok.mp h
  obtain ⟨hobject, hfunction, _⟩ := slot_eq_ok hslot
  exact ⟨hobject, hfunction⟩

/-- an object ends where the next one begins, or with the stream -/
theorem objectEnd_eq_ok {s : Script} {object stop : Nat} :
    s.objectEnd object = .ok stop ↔ ∃ start, s.objectStart object = .ok start ∧ start ≤ stop ∧
      if object + 1 < s.objectCount then s.objectStart (object + 1) = .ok stop
      else stop = s.length := by
  -- the check in front of the answer
  have hcheck : ∀ {x : Except Error Nat} {start : Nat}, (x >>= fun stop' =>
      if stop' < start then throw (.format (.objectReversed object stop' start)) >>=
        fun _ : Unit => pure stop' else pure stop') = .ok stop ↔ start ≤ stop ∧ x = .ok stop := by
    intro x start
    rw [bind_eq_ok]
    constructor
    · rintro ⟨stop', hx, h⟩
      obtain ⟨hle, h⟩ := unless_throw_eq_ok.mp h
      cases h
      exact ⟨Nat.le_of_not_lt hle, hx⟩
    · rintro ⟨hle, hx⟩
      exact ⟨stop, hx, unless_throw_eq_ok.mpr ⟨Nat.not_lt_of_le hle, rfl⟩⟩
  unfold objectEnd
  rw [bind_eq_ok]
  refine exists_congr fun start => and_congr_right fun _ => ?_
  by_cases hnext : object + 1 < s.objectCount
  · rw [if_pos hnext, if_pos hnext]
    exact hcheck
  · rw [if_neg hnext, if_neg hnext]
    refine hcheck.trans (and_congr_right fun _ => ?_)
    rw [Except.ok.injEq, eq_comm]

theorem objectStart_le {s : Script} {object start stop : Nat}
    (hstart : s.objectStart object = .ok start) (hstop : s.objectEnd object = .ok stop) :
    object < s.objectCount ∧ start ≤ stop := by
  obtain ⟨start', hstart', hle, _⟩ := objectEnd_eq_ok.mp hstop
  rw [hstart] at hstart'
  cases hstart'
  exact ⟨(lt_of_functionStart hstart).1, hle⟩

/-! ## ends -/

/-- the code of the slot ends where the next pointer begins, or with the stream -/
structure EndsAt (s : Script) (slot stop : Nat) : Prop where
  later : ∀ u, slot < u → u < s.pointers.length →
    s.pointer u = s.pointer slot ∨ stop ≤ s.pointer u
  next : (stop = s.length ∧ s.pointer slot ≤ stop ∧
      ∀ u, slot < u → u < s.pointers.length → s.pointer u = s.pointer slot) ∨
    ∃ u, slot < u ∧ u < s.pointers.length ∧ s.pointer u = stop ∧ s.pointer slot < stop

theorem EndsAt.le {s : Script} {slot stop : Nat} (h : s.EndsAt slot stop) :
    s.pointer slot ≤ stop := by
  rcases h.next with ⟨_, hle, _⟩ | ⟨_, _, _, _, hlt⟩
  · exact hle
  · exact Nat.le_of_lt hlt

theorem EndsAt.le_length {s : Script} {slot stop : Nat} (h : s.EndsAt slot stop)
    (hbounded : s.Bounded) : stop ≤ s.length := by
  rcases h.next with ⟨hstop, _, _⟩ | ⟨u, _, hu, hstop, _⟩
  · exact Nat.le_of_eq hstop
  · exact hstop ▸ (hbounded.pointers _ (pointer_mem hu)).2

theorem EndsAt.unique {s : Script} {slot a b : Nat} (ha : s.EndsAt slot a) (hb : s.EndsAt slot b) :
    a = b := by
  rcases ha.next with ⟨haend, _, haall⟩ | ⟨u, hu, hulen, hua, halt⟩
  · rcases hb.next with ⟨hbend, _, _⟩ | ⟨v, hv, hvlen, hvb, hblt⟩
    · rw [haend, hbend]
    · have hsame := haall v hv hvlen
      omega
  · rcases hb.next with ⟨_, _, hball⟩ | ⟨v, hv, hvlen, hvb, hblt⟩
    · have hsame := hball u hu hulen
      omega
    · have hau := ha.later v hv hvlen
      have hbv := hb.later u hu hulen
      omega

section
variable {s : Script} (h : s.Ordered)
include h

/-- slots with one pointer have one end -/
theorem Ordered.endsAt_congr {u v stop : Nat} (hu : u < s.pointers.length)
    (hv : v < s.pointers.length) (hsame : s.pointer u = s.pointer v) (hends : s.EndsAt u stop) :
    s.EndsAt v stop where
  later := by
    intro w hw hwlen
    rcases Nat.lt_or_ge u w with huw | hwu
    · rw [← hsame]
      exact hends.later w huw hwlen
    · -- between two slots with one pointer there is no other
      have hvw := h.pointer_le (Nat.le_of_lt hw) hwlen
      have hwu := h.pointer_le hwu hu
      exact .inl (by omega)
  next := by
    rcases hends.next with ⟨hstop, hle, hall⟩ | ⟨w, hw, hwlen, hstop, hlt⟩
    · refine .inl ⟨hstop, hsame ▸ hle, fun w hw hwlen => ?_⟩
      rcases Nat.lt_or_ge u w with huw | hwu
      · rw [hall w huw hwlen, hsame]
      · have hvw := h.pointer_le (Nat.le_of_lt hw) hwlen
        have hwu := h.pointer_le hwu hu
        omega
    · refine .inr ⟨w, Nat.lt_of_not_le fun hwv => ?_, hwlen, hstop, hsame ▸ hlt⟩
      have hle := h.pointer_le hwv hv
      omega

/-- a later code begins behind the end -/
theorem Ordered.stop_le {slot stop u : Nat} (hends : s.EndsAt slot stop)
    (hslot : slot < s.pointers.length) (hu : u < s.pointers.length)
    (hlt : s.pointer slot < s.pointer u) : stop ≤ s.pointer u := by
  have hafter : slot < u := Nat.lt_of_not_le fun hge => by
    have hle := h.pointer_le hge hslot
    omega
  rcases hends.later u hafter hu with hsame | hstop
  · omega
  · exact hstop

theorem Ordered.endsAt_of_slotEnd {slot stop : Nat} (hend : s.slotEnd slot = .ok stop) :
    s.EndsAt slot stop := by
  obtain ⟨hle, hend⟩ := unless_eq_ok.mp hend
  have hdrop : ∀ u, slot < u → u < s.pointers.length →
      (s.pointers.drop (slot + 1))[u - (slot + 1)]? = some (s.pointer u) := by
    intro u hu hulen
    rw [List.getElem?_drop, Nat.add_sub_cancel' hu, getElem?_pointers hulen]
  cases hfind : (s.pointers.drop (slot + 1)).find? (· != s.pointer slot) with
  | none =>
    rw [hfind] at hle hend
    have hstop : s.length = stop := Except.ok.inj hend
    have hall : ∀ u, slot < u → u < s.pointers.length → s.pointer u = s.pointer slot := by
      intro u hu hulen
      have hnot := List.find?_eq_none.mp hfind _ (List.mem_of_getElem? (hdrop u hu hulen))
      simpa using hnot
    exact ⟨fun u hu hulen => .inl (hall u hu hulen), .inl ⟨hstop.symm,
      hstop ▸ Nat.le_of_not_lt hle, hall⟩⟩
  | some q =>
    rw [hfind] at hle hend
    have hstop : q = stop := Except.ok.inj hend
    subst hstop
    obtain ⟨hdiffers, i, hi, hq, hbefore⟩ := List.find?_eq_some_iff_getElem.mp hfind
    rw [List.length_drop] at hi
    have hnext : s.pointer (slot + 1 + i) = q := by
      have hread := hdrop (slot + 1 + i) (by omega) (by omega)
      rw [Nat.add_sub_cancel_left, List.getElem?_eq_getElem (by rw [List.length_drop]; omega),
        hq] at hread
      exact (Option.some.inj hread).symm
    have hne : q ≠ s.pointer slot := by simpa using hdiffers
    have hlow : s.pointer slot ≤ q := Nat.le_of_not_lt hle
    refine ⟨?_, .inr ⟨slot + 1 + i, by omega, by omega, hnext, by omega⟩⟩
    intro u hu hulen
    rcases Nat.lt_or_ge u (slot + 1 + i) with hearly | hlate
    · have hsame := hbefore (u - (slot + 1)) (by omega)
      have hread := hdrop u hu hulen
      rw [List.getElem?_eq_getElem (by rw [List.length_drop]; omega)] at hread
      rw [Option.some.inj hread] at hsame
      exact .inl (by simpa using hsame)
    · exact .inr (hnext ▸ h.pointer_le hlate hulen)

theorem Ordered.exists_slotEnd (hbounded : s.Bounded) {slot : Nat}
    (hslot : slot < s.pointers.length) : ∃ stop, s.slotEnd slot = .ok stop := by
  refine ⟨_, if_neg (Nat.not_lt_of_le ?_)⟩
  cases hfind : (s.pointers.drop (slot + 1)).find? (· != s.pointer slot) with
  | none => exact (hbounded.pointers _ (pointer_mem hslot)).2
  | some q =>
    obtain ⟨i, hi, rfl⟩ := List.mem_iff_getElem.mp (List.mem_of_find?_eq_some hfind)
    rw [List.length_drop] at hi
    have hlen : slot + 1 + i < s.pointers.length := by omega
    rw [Option.getD_some, List.getElem_drop, ← pointer_eq_getElem hlen]
    exact h.pointer_le (by omega) hlen

/-- **In an ordered table every slot has an end.** -/
theorem Ordered.slotEnd_eq_ok (hbounded : s.Bounded) {slot stop : Nat}
    (hslot : slot < s.pointers.length) : s.slotEnd slot = .ok stop ↔ s.EndsAt slot stop := by
  refine ⟨h.endsAt_of_slotEnd, fun hends => ?_⟩
  obtain ⟨stop', hstop'⟩ := h.exists_slotEnd hbounded hslot
  rw [hstop', (h.endsAt_of_slotEnd hstop').unique hends]

/-- the slots from an empty one on that share its code, as far as its object reaches -/
theorem Ordered.mem_sharers {slot u : Nat}
    (htable : (slot / functionsPerObject + 1) * functionsPerObject ≤ s.pointers.length) :
    u ∈ s.sharers slot ↔ slot ≤ u ∧ u < (slot / functionsPerObject + 1) * functionsPerObject ∧
      s.pointer u = s.pointer slot := by
  unfold sharers
  dsimp only
  constructor
  · intro hmem
    have hsame := List.all_eq_true.mp List.all_takeWhile u hmem
    have hrange := List.mem_range'_1.mp ((List.takeWhile_sublist _).mem hmem)
    exact ⟨hrange.1, by omega, by simpa using hsame⟩
  · rintro ⟨hle, hlt, hsame⟩
    refine mem_takeWhile_range' hle (by omega) fun v hv hvu => ?_
    have hlow := h.pointer_le hv (by omega)
    have hhigh := h.pointer_le hvu (by omega)
    exact beq_iff_eq.mpr (by omega)

theorem Ordered.self_mem_sharers {slot : Nat}
    (htable : (slot / functionsPerObject + 1) * functionsPerObject ≤ s.pointers.length) :
    slot ∈ s.sharers slot :=
  (h.mem_sharers htable).mpr ⟨Nat.le_refl _, by rw [functionsPerObject]; omega, rfl⟩

end

/-- code that begins in front of the end of the stream is not empty -/
theorem EndsAt.lt {s : Script} {slot stop : Nat} (h : s.EndsAt slot stop)
    (hinside : s.pointer slot < s.length) : s.pointer slot < stop := by
  rcases h.next with ⟨hstop, _, _⟩ | ⟨_, _, _, _, hlt⟩
  · exact hstop ▸ hinside
  · exact hlt

/-! ## new code -/

/-- the slot gets the code that is set for the other one: both share their code, and a slot without
code of its own is followed by later ones only -/
def Follows (s : Script) (slot u : Nat) : Prop :=
  s.pointer u = s.pointer slot ∧ (s.slotIsEmpty slot = true → slot ≤ u)

instance (s : Script) (slot u : Nat) : Decidable (s.Follows slot u) :=
  inferInstanceAs (Decidable (_ ∧ _))

/-- a slot with a pointer up to that of the slot, and which does not follow it, is in front -/
theorem Ordered.lt_of_not_follows {s : Script} {slot u : Nat} (h : s.Ordered)
    (hu : u < s.pointers.length) (hle : s.pointer u ≤ s.pointer slot)
    (hnot : ¬ s.Follows slot u) : u < slot := by
  refine Nat.lt_of_not_le fun hge => hnot ⟨?_, fun _ => hge⟩
  exact Nat.le_antisymm hle (h.pointer_le hge hu)

/-- no function in front of one in its object follows it: if both have one pointer then so have all
between them, and the later one is empty -/
theorem Ordered.not_follows_of_lt {s : Script} (h : s.Ordered) {object function g : Nat}
    (hslot : object * functionsPerObject + function < s.pointers.length)
    (hfunction : function < functionsPerObject) (hg : g < function) :
    ¬ s.Follows (object * functionsPerObject + function) (object * functionsPerObject + g) := by
  rintro ⟨hsame, hempty⟩
  have hbefore : object * functionsPerObject + g ≤ object * functionsPerObject + function - 1 := by
    omega
  have hlast := Nat.sub_le (object * functionsPerObject + function) 1
  have hlow := h.pointer_le hbefore (Nat.lt_of_le_of_lt hlast hslot)
  have hhigh := h.pointer_le hlast hslot
  have hslotEmpty : s.slotIsEmpty (object * functionsPerObject + function) = true := by
    rw [slotIsEmpty, Bool.and_eq_true]
    refine ⟨bne_iff_ne.mpr ?_, beq_iff_eq.mpr (by omega)⟩
    rw [functionsPerObject] at hfunction ⊢
    omega
  have hle := hempty hslotEmpty
  omega

/-- The slot and those that follow it have new code at `e.place`, which takes the place of the old
code or, if the slot had none, stands behind the code that it shared.  The other pointers stay or
move with what they point to. -/
structure Refilled (e : Splice) (s s' : Script) (slot : Nat) : Prop where
  slot_lt : slot < s.pointers.length
  slots : s'.pointers.length = s.pointers.length
  length : s'.length = s.length - e.removed + e.inserted
  inserted : 0 < e.inserted
  ends : s.EndsAt slot e.stop
  place : e.place = if s.slotIsEmpty slot then e.stop else s.pointer slot
  inside : s.slotIsEmpty slot = true → s.pointer slot < e.stop
  follows : ∀ u < s.pointers.length, s.Follows slot u → s'.pointer u = e.place
  front : ∀ u < s.pointers.length, s.pointer u ≤ s.pointer slot → ¬ s.Follows slot u →
    s'.pointer u = s.pointer u
  behind : ∀ u < s.pointers.length, s.pointer slot < s.pointer u →
    s'.pointer u = s.pointer u - e.removed + e.inserted

namespace Refilled

variable {e : Splice} {s s' : Script} {slot : Nat} (h : Refilled e s s' slot) (hs : s.Ordered)
include h

theorem pointer_le_place : s.pointer slot ≤ e.place := by
  have hends := h.ends.le
  rw [h.place]
  cases s.slotIsEmpty slot with
  | true => exact hends
  | false => exact Nat.le_refl _

include hs

theorem ordered : s'.Ordered := by
  refine ordered_of_pointer fun u v huv hv => ?_
  rw [h.slots] at hv
  have hu : u < s.pointers.length := Nat.lt_trans huv hv
  have hle := hs.pointer_le (Nat.le_of_lt huv) hv
  have hplace := h.pointer_le_place
  have hstop : e.stop = e.place + e.removed := rfl
  by_cases hubehind : s.pointer slot < s.pointer u
  · have hustop := hs.stop_le h.ends h.slot_lt hu hubehind
    rw [h.behind u hu hubehind, h.behind v hv (by omega)]
    omega
  · by_cases hvbehind : s.pointer slot < s.pointer v
    · have hvstop := hs.stop_le h.ends h.slot_lt hv hvbehind
      rw [h.behind v hv hvbehind]
      by_cases hfollows : s.Follows slot u
      · rw [h.follows u hu hfollows]
        omega
      · rw [h.front u hu (by omega) hfollows]
        omega
    · by_cases hfollows : s.Follows slot v
      · rw [h.follows v hv hfollows]
        by_cases hufollows : s.Follows slot u
        · exact Nat.le_of_eq (h.follows u hu hufollows)
        · rw [h.front u hu (by omega) hufollows]
          omega
      · -- in front of a slot that stays there are only such
        have hbefore := hs.lt_of_not_follows hv (by omega) hfollows
        have hufollows : ¬ s.Follows slot u := by
          rintro ⟨hsame, hempty⟩
          refine hfollows ⟨by omega, fun hslot => ?_⟩
          have hge := hempty hslot
          omega
        rw [h.front u hu (by omega) hufollows, h.front v hv (by omega) hfollows]
        exact hle

/-! ## the ends of the functions -/

theorem endsAt_of_follows {u : Nat} (hu : u < s.pointers.length) (hfollows : s.Follows slot u) :
    s'.EndsAt u (e.place + e.inserted) := by
  have hends : s.EndsAt u e.stop := hs.endsAt_congr h.slot_lt hu hfollows.1.symm h.ends
  have hstop : e.stop = e.place + e.removed := rfl
  have hinserted := h.inserted
  have hplace := h.follows u hu hfollows
  have hshares : ∀ v, u < v → v < s.pointers.length → s.pointer v = s.pointer u →
      s'.pointer v = e.place := by
    intro v hv hvlen hsame
    exact h.follows v hvlen ⟨hsame.trans hfollows.1,
      fun hempty => Nat.le_of_lt (Nat.lt_of_le_of_lt (hfollows.2 hempty) hv)⟩
  refine ⟨fun v hv hvlen => ?_, ?_⟩
  · rw [h.slots] at hvlen
    by_cases hsame : s.pointer v = s.pointer u
    · exact .inl ((hshares v hv hvlen hsame).trans hplace.symm)
    · have hle := hs.pointer_le (Nat.le_of_lt hv) hvlen
      have hlt : s.pointer slot < s.pointer v := by
        have hsameSlot := hfollows.1
        omega
      have hbehind := hs.stop_le h.ends h.slot_lt hvlen hlt
      rw [h.behind v hvlen hlt]
      exact .inr (by omega)
  · rw [hplace, h.length, h.slots]
    rcases hends.next with ⟨hend, _, hall⟩ | ⟨v, hv, hvlen, hvstop, hlt⟩
    · exact .inl ⟨by omega, by omega, fun v hv hvlen => hshares v hv hvlen (hall v hv hvlen)⟩
    · have hlt : s.pointer slot < s.pointer v := by
        have hsameSlot := hfollows.1
        omega
      refine .inr ⟨v, hv, hvlen, ?_, by omega⟩
      rw [h.behind v hvlen hlt]
      omega

theorem endsAt_of_behind {u stop : Nat} (hu : u < s.pointers.length)
    (hlt : s.pointer slot < s.pointer u) (hends : s.EndsAt u stop) :
    s'.EndsAt u (stop - e.removed + e.inserted) := by
  have hstop : e.stop = e.place + e.removed := rfl
  have hustop := hs.stop_le h.ends h.slot_lt hu hlt
  have hle := hends.le
  have hmoves : ∀ v, u < v → v < s.pointers.length →
      s.pointer u ≤ s.pointer v ∧ s'.pointer v = s.pointer v - e.removed + e.inserted := by
    intro v hv hvlen
    have hmono := hs.pointer_le (Nat.le_of_lt hv) hvlen
    exact ⟨hmono, h.behind v hvlen (by omega)⟩
  refine ⟨fun v hv hvlen => ?_, ?_⟩
  · rw [h.slots] at hvlen
    obtain ⟨_, hmove⟩ := hmoves v hv hvlen
    rw [hmove, h.behind u hu hlt]
    rcases hends.later v hv hvlen with hsame | hafter
    · exact .inl (by rw [hsame])
    · exact .inr (by omega)
  · rw [h.behind u hu hlt, h.length, h.slots]
    rcases hends.next with ⟨hend, _, hall⟩ | ⟨v, hv, hvlen, hvstop, hbefore⟩
    · refine .inl ⟨by omega, by omega, fun v hv hvlen => ?_⟩
      rw [(hmoves v hv hvlen).2, hall v hv hvlen]
    · refine .inr ⟨v, hv, hvlen, ?_, by omega⟩
      rw [(hmoves v hv hvlen).2, hvstop]

section
variable {u stop : Nat} (hu : u < s.pointers.length) (hle : s.pointer u ≤ s.pointer slot)
  (hnot : ¬ s.Follows slot u) (hends : s.EndsAt u stop)
include hu hnot hends

/-- a function that the slot has shared its code with ends where the new code begins -/
theorem stop_eq_of_shared (hsame : s.pointer u = s.pointer slot) :
    s.slotIsEmpty slot = true ∧ stop = e.place := by
  have hempty : s.slotIsEmpty slot = true := by
    by_contra hfull
    exact hnot ⟨hsame, fun hempty => absurd hempty hfull⟩
  refine ⟨hempty, ?_⟩
  rw [h.place, if_pos hempty]
  exact hends.unique (hs.endsAt_congr h.slot_lt hu hsame.symm h.ends)

include hle

theorem stop_le_place : stop ≤ e.place := by
  rcases hends.later slot (hs.lt_of_not_follows hu hle hnot) h.slot_lt with hsame | hafter
  · exact Nat.le_of_eq (h.stop_eq_of_shared hs hu hnot hends hsame.symm).2
  · exact Nat.le_trans hafter h.pointer_le_place

/-- behind a function in front, a pointer still says where it ends -/
theorem exists_pointer_eq_stop : ∃ v, u < v ∧ v < s.pointers.length ∧ s'.pointer v = stop := by
  have hbefore := hs.lt_of_not_follows hu hle hnot
  have hslot := h.follows slot h.slot_lt ⟨rfl, fun _ => Nat.le_refl _⟩
  by_cases hsame : s.pointer u = s.pointer slot
  · -- the slot has moved away from the code that it shared
    have hend := (h.stop_eq_of_shared hs hu hnot hends hsame).2
    exact ⟨slot, hbefore, h.slot_lt, hslot.trans hend.symm⟩
  · have hafter : stop ≤ s.pointer slot := by
      rcases hends.later slot hbefore h.slot_lt with hsame' | hafter
      · exact absurd hsame'.symm hsame
      · exact hafter
    rcases hends.next with ⟨_, _, hall⟩ | ⟨v, hv, hvlen, hvstop, hlt⟩
    · exact absurd (hall slot hbefore h.slot_lt).symm hsame
    · rcases Nat.eq_or_lt_of_le hafter with hatSlot | hfirst
      · -- the next function is the slot, or the one in front that it shares its code with
        cases hempty : s.slotIsEmpty slot with
        | false =>
          refine ⟨slot, hbefore, h.slot_lt, ?_⟩
          rw [hslot, h.place, hempty, if_neg Bool.false_ne_true, hatSlot]
        | true =>
          obtain ⟨hpos, hprevious⟩ := pointer_pred_of_empty hempty
          have hne : u ≠ slot - 1 := fun heq => hsame (by rw [heq, hprevious])
          have hlen : slot - 1 < s.pointers.length :=
            Nat.lt_of_le_of_lt (Nat.sub_le ..) h.slot_lt
          have hstays : ¬ s.Follows slot (slot - 1) := fun hfollows => by
            have hge := hfollows.2 hempty
            omega
          refine ⟨slot - 1, by omega, hlen, ?_⟩
          rw [h.front (slot - 1) hlen (Nat.le_of_eq hprevious) hstays, hprevious, hatSlot]
      · have hstays : ¬ s.Follows slot v := fun hfollows => by
          have hpointer := hfollows.1
          omega
        exact ⟨v, hv, hvlen, by rw [h.front v hvlen (by omega) hstays, hvstop]⟩

/-- a function in front keeps its end, or ends where the new code begins -/
theorem endsAt_of_front : s'.EndsAt u stop := by
  have hplace := h.stop_le_place hs hu hle hnot hends
  have hstop : e.stop = e.place + e.removed := rfl
  have hstays := h.front u hu hle hnot
  refine ⟨fun v hv hvlen => ?_, ?_⟩
  · rw [h.slots] at hvlen
    rw [hstays]
    by_cases hfollows : s.Follows slot v
    · rw [h.follows v hvlen hfollows]
      exact .inr hplace
    · by_cases hbehind : s.pointer slot < s.pointer v
      · have hvstop := hs.stop_le h.ends h.slot_lt hvlen hbehind
        rw [h.behind v hvlen hbehind]
        exact .inr (by omega)
      · rw [h.front v hvlen (Nat.le_of_not_lt hbehind) hfollows]
        exact hends.later v hv hvlen
  · obtain ⟨v, hv, hvlen, hvstop⟩ := h.exists_pointer_eq_stop hs hu hle hnot hends
    refine .inr ⟨v, hv, h.slots ▸ hvlen, hvstop, hstays ▸ ?_⟩
    rcases hends.next with ⟨_, _, hall⟩ | ⟨_, _, _, _, hlt⟩
    · have hsame := hall slot (hs.lt_of_not_follows hu hle hnot) h.slot_lt
      obtain ⟨hempty, hend⟩ := h.stop_eq_of_shared hs hu hnot hends hsame.symm
      have hinside := h.inside hempty
      rw [h.place, if_pos hempty] at hend
      omega
    · exact hlt

end

end Refilled

end Script

end Cartridge
