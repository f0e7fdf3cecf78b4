import Cartridge.Proofs.Script.Slots

/-!
# New code for a function

A function with code of its own gets the new code in place of the old one.  One without gets it
behind the code that it shares, and the functions behind it that share this code follow it.  Where
that code ends is read from the pointers, so the place is wrong when a later object shares the
code, or when there is no code behind the pointer.

* `Script.slotSplice`, `Script.Misplaced`   where new code goes, and when that is the wrong place;
* `Script.Filled`            the pointers when the code has been put behind that of others;
* `Script.SetsSlot`, `Script.setsSlot_of_setFunction`   what becomes of the code and of the
                             pointers;
* `Script.KeepsFunction`     a function that keeps its code;
* `Script.setFunction_leaves_others`   **the order of the pointers, the function itself, and the
                             other objects**;
* `Splice.reach`, `Script.setFunction_in_object`   **the other functions of the object, and jumps**.
-/

namespace Cartridge

open Command

/-! ## what jumps reach -/

/-- where a target ends up: one in the removed bytes goes to the place -/
def Splice.reach (e : Splice) (x : Nat) : Nat :=
  if e.place ≤ x ∧ x < e.stop then e.place else e.shift x

theorem Splice.carry_eq_reach {e : Splice}
    (h : e.anchor = .after ∧ e.removed = 0 ∨ e.anchor = .before ∧ 0 < e.removed) (x : Nat) :
    e.carry x = e.reach x := by
  have hstop : e.stop = e.place + e.removed := rfl
  rcases h with ⟨hanchor, hremoved⟩ | ⟨hanchor, hremoved⟩
  · have hedge : e.edge = e.place + e.inserted := by rw [edge, hanchor]
    have hnone : ¬ (e.place ≤ x ∧ x < e.stop) := by omega
    rw [carry, reach, if_neg hnone, shift, hedge]
    by_cases hx : x < e.place
    · rw [if_pos hx, if_pos hx]
    · rw [if_neg hx, if_neg hx]
      by_cases hin : x < e.stop ∨ x = e.place
      · rw [if_pos hin]
        omega
      · rw [if_neg hin]
  · have hedge : e.edge = e.place := by rw [edge, hanchor]
    rw [carry, reach, shift, hedge]
    by_cases hx : x < e.place
    · rw [if_pos hx, if_neg (by omega), if_pos hx]
    · rw [if_neg hx]
      by_cases hin : x < e.stop
      · rw [if_pos (.inl hin), if_pos ⟨Nat.le_of_not_lt hx, hin⟩]
      · rw [if_neg (by omega), if_neg (by omega), if_neg hx]

namespace Script

/-! ## where the code goes -/

/-- the edit that sets the code of a slot, of which the code ends at `stop` -/
def slotSplice (s : Script) (slot stop : Nat) (code : Bytes) : Splice :=
  if s.slotIsEmpty slot then ⟨stop, 0, code.length, .after⟩
  else ⟨s.pointer slot, stop - s.pointer slot, code.length, .before⟩

theorem slotSplice_congr {s t : Script} (h : t.pointers = s.pointers) (slot stop : Nat)
    (code : Bytes) : t.slotSplice slot stop code = s.slotSplice slot stop code := by
  unfold slotSplice slotIsEmpty pointer
  rw [h]

/-- code for the slot goes behind code that a later object has as well, or behind no code at all -/
def Misplaced (s : Script) (slot : Nat) : Prop :=
  s.slotIsEmpty slot = true ∧ (s.pointer slot = s.length ∨
    ∃ t < s.pointers.length, (slot / functionsPerObject + 1) * functionsPerObject ≤ t ∧
      s.pointer t = s.pointer slot)

instance (s : Script) (slot : Nat) : Decidable (s.Misplaced slot) :=
  inferInstanceAs (Decidable (_ ∧ _))

theorem setFunction_eq_ok {s s' : Script} {object function : Nat} {code : Bytes}
    (hcompacted : s.strings.compacted = true) (h : s.setFunction object function code = .ok s') :
    object < s.objectCount ∧ function < functionsPerObject ∧
      ∃ t, s' = { t with modified := true } ∧
        (if s.slotIsEmpty (object * functionsPerObject + function) then
          s.fillSlot (object * functionsPerObject + function) code
        else s.replaceSlot (object * functionsPerObject + function) code) = .ok t := by
  obtain ⟨slot, hslot, h⟩ := bind_eq_ok.mp h
  obtain ⟨hobject, hfunction, rfl⟩ := slot_eq_ok hslot
  obtain ⟨t, ht, rfl⟩ := (edit_eq_ok hcompacted).mp h
  exact ⟨hobject, hfunction, t, rfl, ht⟩

theorem slotSplice_anchor {s : Script} {slot stop : Nat} (code : Bytes)
    (h : s.pointer slot < stop) :
    (s.slotSplice slot stop code).anchor = .after ∧ (s.slotSplice slot stop code).removed = 0 ∨
      (s.slotSplice slot stop code).anchor = .before ∧
        0 < (s.slotSplice slot stop code).removed := by
  rw [slotSplice]
  by_cases hempty : s.slotIsEmpty slot = true
  · rw [if_pos hempty]
    exact .inl ⟨rfl, rfl⟩
  · rw [if_neg hempty]
    exact .inr ⟨rfl, Nat.sub_pos_of_lt h⟩

theorem pointer_redirect {s : Script} {slots : List Nat} {pos u : Nat}
    (hu : u < s.pointers.length) :
    (s.redirect slots pos).pointer u = if u ∈ slots then pos else s.pointer u := by
  have hlen : u < (s.redirect slots pos).pointers.length := by
    rw [redirect, List.length_mapIdx]
    exact hu
  rw [pointer_eq_getElem hlen, pointer_eq_getElem hu]
  exact List.getElem_mapIdx

theorem headerLength_redirect (s : Script) (slots : List Nat) (pos : Nat) :
    (s.redirect slots pos).headerLength = s.headerLength := by
  rw [headerLength, redirect, List.length_mapIdx, headerLength]

/-- the code of the slot is that of the one in front of it, and ends where that one's does -/
theorem exists_of_fillSlot {s t : Script} {slot : Nat} {code : Bytes}
    (hslot : slot < s.pointers.length) (hempty : s.slotIsEmpty slot = true)
    (h : s.fillSlot slot code = .ok t) :
    ∃ stop filled, s.slotEnd slot = .ok stop ∧ s.replace stop 0 code .after = .ok filled ∧
      t = filled.redirect (s.sharers slot) stop := by
  obtain ⟨stop, hstop, h⟩ := bind_eq_ok.mp h
  obtain ⟨filled, hreplace, h⟩ := bind_eq_ok.mp h
  rw [slotEnd_pred hslot hempty] at hstop
  exact ⟨stop, filled, hstop, hreplace, (Except.ok.inj h).symm⟩

/-- The pointers when code of `n` bytes has been put at `stop`, behind that of an empty slot. -/
structure Filled (s t : Script) (slot stop n : Nat) : Prop where
  ends : s.EndsAt slot stop
  slots : t.pointers.length = s.pointers.length
  length : t.length = s.length + n
  pointer : ∀ u < s.pointers.length, t.pointer u =
    if u ∈ s.sharers slot then stop
    else if s.pointer u < stop then s.pointer u else s.pointer u + n

section
variable {s t : Script} {slot : Nat} {code : Bytes}

theorem fillSlot_eq_ok (hordered : s.Ordered) (hslot : slot < s.pointers.length)
    (hempty : s.slotIsEmpty slot = true) (h : s.fillSlot slot code = .ok t) :
    ∃ stop, Filled s { t with modified := true } slot stop code.length ∧
      ∃ front middle back kept new moved, code = flat new ∧
        Exchange ⟨stop, 0, code.length, .after⟩ s { t with modified := true }
          front middle back kept new moved := by
  obtain ⟨stop, filled, hend, hreplace, rfl⟩ := exists_of_fillSlot hslot hempty h
  have hends := hordered.endsAt_of_slotEnd hend
  obtain ⟨_, _, _, _, _, hspliced⟩ := replace_eq_ok hreplace
  have hpointers := (spliced_frame hspliced).1
  have hslots : filled.pointers.length = s.pointers.length := by
    rw [hpointers, List.length_map]
  have hredirected : (filled.redirect (s.sharers slot) stop).pointers.length =
      filled.pointers.length := List.length_mapIdx
  have hheader := headerLength_redirect filled (s.sharers slot) stop
  obtain ⟨front, middle, back, kept, new, moved, hcode, hexchange⟩ := exchange_of_replace hreplace
  refine ⟨stop, ⟨hends, hredirected.trans hslots, ?_, fun u hu => ?_⟩,
    front, middle, back, kept, new, moved, hcode, hexchange.congr hheader rfl⟩
  · have hlength := length_replace hreplace
    show headerLength (filled.redirect (s.sharers slot) stop) + filled.stream.length = _
    rw [hheader]
    exact hlength
  · have hcarried : filled.pointer u = Splice.carry ⟨stop, 0, code.length, .after⟩ (s.pointer u) := by
      rw [pointer_eq_getElem (hslots ▸ hu), pointer_eq_getElem hu]
      simp only [hpointers, List.getElem_map]
    show (filled.redirect (s.sharers slot) stop).pointer u = _
    rw [pointer_redirect (hslots ▸ hu), hcarried]
    by_cases hshares : u ∈ s.sharers slot
    · rw [if_pos hshares, if_pos hshares]
    · rw [if_neg hshares, if_neg hshares]
      by_cases hlt : s.pointer u < stop
      · rw [if_pos hlt]
        exact if_pos hlt
      · rw [if_neg hlt]
        exact carry_after (Nat.le_of_not_lt hlt)

namespace Filled

variable {stop n : Nat} (h : Filled s t slot stop n) (hordered : s.Ordered) (hbounded : s.Bounded)
  (hslot : slot < s.pointers.length) (hempty : s.slotIsEmpty slot = true) (hpos : 0 < n)
include h hordered hbounded hslot hempty hpos

/-- new code in the wrong place is in front of older code with a pointer further on -/
theorem not_ordered (hmisplaced : s.Misplaced slot) : ¬ t.Ordered := by
  intro hordered'
  have hsharers := fun u => hordered.mem_sharers (u := u) (hbounded.objectSlots_le hslot)
  have hself : slot ∈ s.sharers slot := hordered.self_mem_sharers (hbounded.objectSlots_le hslot)
  have hslotAt : t.pointer slot = stop := by
    rw [h.pointer slot hslot, if_pos hself]
  have hle := h.ends.le
  by_cases hinside : s.pointer slot < stop
  · -- a later object shares the code, and its pointers stay in front of the new code
    have hstop := h.ends.le_length hbounded
    obtain hend | ⟨u, hu, hlater, hsame⟩ := hmisplaced.2
    · omega
    · have hnot : u ∉ s.sharers slot := fun hmem => by
        have hobject := ((hsharers u).mp hmem).2.1
        omega
      have hstays : t.pointer u = s.pointer u := by
        rw [h.pointer u hu, if_neg hnot, if_pos (by omega)]
      have hafter : slot < u := by
        have hbefore := ((hsharers slot).mp hself).2.1
        omega
      have hmono := hordered'.pointer_le (Nat.le_of_lt hafter) (h.slots ▸ hu)
      omega
  · -- the functions in front are behind the new code
    obtain ⟨_, hsame⟩ := pointer_pred_of_empty hempty
    have hnot : slot - 1 ∉ s.sharers slot := fun hmem => by
      have hfirst := ((hsharers (slot - 1)).mp hmem).1
      omega
    have hmoves : t.pointer (slot - 1) = s.pointer (slot - 1) + n := by
      rw [h.pointer (slot - 1) (by omega), if_neg hnot, if_neg (by omega)]
    have hmono := hordered'.pointer_le (Nat.sub_le slot 1) (h.slots ▸ hslot)
    omega

theorem refilled (hplaced : ¬ s.Misplaced slot) : Refilled ⟨stop, 0, n, .after⟩ s t slot := by
  have hsharers := fun u => hordered.mem_sharers (u := u) (hbounded.objectSlots_le hslot)
  have hinside : s.pointer slot < stop := by
    refine h.ends.lt (Nat.lt_of_le_of_ne ?_ fun hend => hplaced ⟨hempty, .inl hend⟩)
    exact (hbounded.pointers _ (pointer_mem hslot)).2
  have hshares : ∀ u < s.pointers.length, u ∈ s.sharers slot ↔ s.Follows slot u := by
    intro u hu
    rw [hsharers u]
    constructor
    · rintro ⟨hge, _, hsame⟩
      exact ⟨hsame, fun _ => hge⟩
    · rintro ⟨hsame, hge⟩
      refine ⟨hge hempty, Nat.lt_of_not_le fun hlater => ?_, hsame⟩
      exact hplaced ⟨hempty, .inr ⟨u, hu, hlater, hsame⟩⟩
  refine
    { slot_lt := hslot
      slots := h.slots
      length := h.length
      inserted := hpos
      ends := h.ends
      place := by rw [if_pos hempty]; rfl
      inside := fun _ => hinside
      follows := ?_
      front := ?_
      behind := ?_ }
  · intro u hu hfollows
    exact (h.pointer u hu).trans (if_pos ((hshares u hu).mpr hfollows))
  · intro u hu hlow hnot
    have hnot : u ∉ s.sharers slot := fun hmem => hnot ((hshares u hu).mp hmem)
    refine (h.pointer u hu).trans ?_
    rw [if_neg hnot, if_pos (Nat.lt_of_le_of_lt hlow hinside)]
  · intro u hu hlt
    have hnot : u ∉ s.sharers slot := fun hmem => by
      have hsame := ((hsharers u).mp hmem).2.2
      omega
    have hbehind := hordered.stop_le h.ends hslot hu hlt
    refine (h.pointer u hu).trans ?_
    rw [if_neg hnot, if_neg (Nat.not_lt_of_le hbehind)]
    rfl

end Filled

/-- the pointers when code has been put in place of that of a slot -/
theorem replaceSlot_eq_ok (hordered : s.Ordered) (h : s.replaceSlot slot code = .ok t) :
    ∃ stop, s.EndsAt slot stop ∧ t.pointers.length = s.pointers.length ∧
      t.length = s.length - (stop - s.pointer slot) + code.length ∧
      (∃ front middle back kept new moved, code = flat new ∧
        Exchange ⟨s.pointer slot, stop - s.pointer slot, code.length, .before⟩ s t
          front middle back kept new moved) ∧
      ∀ u < s.pointers.length, t.pointer u =
        Splice.follow ⟨s.pointer slot, stop - s.pointer slot, code.length, .before⟩
          (s.pointer u) := by
  obtain ⟨stop, hend, hreplace⟩ := bind_eq_ok.mp h
  obtain ⟨_, _, _, _, _, hspliced⟩ := replace_eq_ok hreplace
  have hpointers := (spliced_frame hspliced).1
  have hslots : t.pointers.length = s.pointers.length := by
    rw [hpointers, List.length_map]
  refine ⟨stop, hordered.endsAt_of_slotEnd hend, hslots, length_replace hreplace,
    exchange_of_replace hreplace, fun u hu => ?_⟩
  rw [pointer_eq_getElem (hslots ▸ hu), pointer_eq_getElem hu]
  simp only [hpointers, List.getElem_map]
  exact Splice.carry_eq_follow rfl _

/-- What an edit does that sets the code of a slot. -/
structure SetsSlot (s s' : Script) (slot stop : Nat) (code : Bytes) : Prop where
  ends : s.EndsAt slot stop
  exchange : ∃ front middle back kept new moved, code = flat new ∧
    Exchange (s.slotSplice slot stop code) s s' front middle back kept new moved
  misplaced : s.Misplaced slot → ¬ s'.Ordered
  refilled : ¬ s.Misplaced slot → Refilled (s.slotSplice slot stop code) s s' slot

section
variable (hordered : s.Ordered) (hslot : slot < s.pointers.length) (hcode : code ≠ [])
include hordered hslot hcode

theorem setsSlot_of_fillSlot (hbounded : s.Bounded) (hempty : s.slotIsEmpty slot = true)
    (h : s.fillSlot slot code = .ok t) :
    ∃ stop, SetsSlot s { t with modified := true } slot stop code := by
  obtain ⟨stop, hfilled, hexchange⟩ := fillSlot_eq_ok hordered hslot hempty h
  have hsplice : s.slotSplice slot stop code = ⟨stop, 0, code.length, .after⟩ := if_pos hempty
  have hpos : 0 < code.length := List.length_pos_of_ne_nil hcode
  refine ⟨stop, hfilled.ends, ?_, ?_, ?_⟩
  · rw [hsplice]
    exact hexchange
  · exact hfilled.not_ordered hordered hbounded hslot hempty hpos
  · rw [hsplice]
    exact hfilled.refilled hordered hbounded hslot hempty hpos

theorem setsSlot_of_replaceSlot (hfull : s.slotIsEmpty slot = false)
    (h : s.replaceSlot slot code = .ok t) :
    ∃ stop, SetsSlot s { t with modified := true } slot stop code := by
  obtain ⟨stop, hends, hslots, hlength, ⟨front, middle, back, kept, new, moved, hflat, hexchange⟩,
    hpointer⟩ := replaceSlot_eq_ok hordered h
  have hne : ¬ s.slotIsEmpty slot = true := by
    rw [hfull]
    exact Bool.false_ne_true
  have hsplice : s.slotSplice slot stop code =
      ⟨s.pointer slot, stop - s.pointer slot, code.length, .before⟩ := if_neg hne
  have hstop : s.pointer slot + (stop - s.pointer slot) = stop := Nat.add_sub_cancel' hends.le
  refine ⟨stop, hends, ?_, fun hmisplaced => absurd hmisplaced.1 hne, fun _ => ?_⟩
  · rw [hsplice]
    exact ⟨front, middle, back, kept, new, moved, hflat, hexchange.congr rfl rfl⟩
  · rw [hsplice]
    refine
      { slot_lt := hslot
        slots := hslots
        length := hlength
        inserted := List.length_pos_of_ne_nil hcode
        ends := by rw [Splice.stop, hstop]; exact hends
        place := by rw [if_neg hne]
        inside := fun hempty => absurd hempty hne
        follows := ?_
        front := ?_
        behind := ?_ }
    · rintro u hu ⟨hsame, _⟩
      refine (hpointer u hu).trans ?_
      rw [hsame]
      exact if_pos (Nat.le_refl _)
    · intro u hu hlow _
      exact (hpointer u hu).trans (if_pos hlow)
    · intro u hu hlt
      have hbehind := hordered.stop_le hends hslot hu hlt
      refine (hpointer u hu).trans ?_
      rw [Splice.follow, if_neg (Nat.not_le_of_lt hlt), if_neg]
      rw [hstop]
      exact Nat.not_lt_of_le hbehind

end

end

/-! ## the edit as a whole -/

section
variable {s s' : Script} {object function : Nat} {code : Bytes}

theorem setsSlot_of_setFunction (hordered : s.Ordered) (hbounded : s.Bounded)
    (hcompacted : s.strings.compacted = true) (hcode : code ≠ [])
    (h : s.setFunction object function code = .ok s') :
    ∃ stop, SetsSlot s s' (object * functionsPerObject + function) stop code := by
  obtain ⟨hobject, hfunction, t, rfl, ht⟩ := setFunction_eq_ok hcompacted h
  have hslot := hbounded.slot_lt hobject hfunction
  cases hempty : s.slotIsEmpty (object * functionsPerObject + function) with
  | true =>
    rw [if_pos hempty] at ht
    exact setsSlot_of_fillSlot hordered hslot hcode hbounded hempty ht
  | false =>
    rw [if_neg (by rw [hempty]; exact Bool.false_ne_true)] at ht
    exact setsSlot_of_replaceSlot hordered hslot hcode hempty ht

/-- What is kept of a function: where it is in both scripts, and its code. -/
def KeepsFunction (e : Splice) (s s' : Script) (object function : Nat) : Prop :=
  ∃ start stop start' stop', s.functionStart object function = .ok start ∧
    s.functionEnd object function = .ok stop ∧ s'.functionStart object function = .ok start' ∧
    s'.functionEnd object function = .ok stop' ∧ KeepsCode e s s' start stop start' stop'

end

section
variable {e : Splice} {s s' : Script} {slot : Nat} {front middle back kept new moved : List Command}
  (hrefilled : Refilled e s s' slot) (hexchange : Exchange e s s' front middle back kept new moved)
  (hordered : s.Ordered) (hbounded' : s'.Bounded)
include hrefilled hexchange hordered hbounded'

/-- the slot itself and those that follow it have the new code -/
theorem function_of_follows {object function : Nat} (hobject : object < s.objectCount)
    (hfunction : function < functionsPerObject) (hbounded : s.Bounded)
    (hfollows : s.Follows slot (object * functionsPerObject + function)) :
    s'.function object function = .ok (flat new) := by
  have hu := hbounded.slot_lt hobject hfunction
  have hobject' : object < s'.objectCount := by
    rw [objectCount, hrefilled.slots]
    exact hobject
  have hend := ((hrefilled.ordered hordered).slotEnd_eq_ok hbounded' (hrefilled.slots ▸ hu)).mpr
    (hrefilled.endsAt_of_follows hordered hu hfollows)
  rw [Script.function, functionStart, functionEnd, slot_of_lt hobject' hfunction]
  show (s'.slotEnd _ >>= fun stop => s'.bytes (s'.pointer _) stop) = _
  rw [hend, hrefilled.follows _ hu hfollows]
  exact hexchange.bytes_new

/-- the other functions keep their code -/
theorem keepsFunction_of_not_follows {object function : Nat} (hobject : object < s.objectCount)
    (hfunction : function < functionsPerObject) (hbounded : s.Bounded)
    (hnot : ¬ s.Follows slot (object * functionsPerObject + function)) :
    KeepsFunction e s s' object function := by
  have hu := hbounded.slot_lt hobject hfunction
  have hobject' : object < s'.objectCount := by
    rw [objectCount, hrefilled.slots]
    exact hobject
  obtain ⟨stop, hend⟩ := hordered.exists_slotEnd hbounded hu
  have hends := hordered.endsAt_of_slotEnd hend
  have hlow := (hbounded.pointers _ (pointer_mem hu)).1
  have hkept : ∃ stop', s'.EndsAt (object * functionsPerObject + function) stop' ∧
      KeepsCode e s s' (s.pointer (object * functionsPerObject + function)) stop
        (s'.pointer (object * functionsPerObject + function)) stop' := by
    by_cases hlt : s.pointer slot < s.pointer (object * functionsPerObject + function)
    · refine ⟨_, hrefilled.endsAt_of_behind hordered hu hlt hends, ?_⟩
      rw [hrefilled.behind _ hu hlt]
      exact hexchange.keepsCode_behind (hordered.stop_le hrefilled.ends hrefilled.slot_lt hu hlt)
        hends.le (hends.le_length hbounded)
    · have hle := Nat.le_of_not_lt hlt
      have hplace := hrefilled.stop_le_place hordered hu hle hnot hends
      refine ⟨stop, hrefilled.endsAt_of_front hordered hu hle hnot hends, ?_⟩
      rw [hrefilled.front _ hu hle hnot]
      exact hexchange.keepsCode_front hlow hends.le hplace
  obtain ⟨stop', hends', hcode⟩ := hkept
  have hend' := ((hrefilled.ordered hordered).slotEnd_eq_ok hbounded' (hrefilled.slots ▸ hu)).mpr
    hends'
  refine ⟨_, stop, _, stop', ?_, ?_, ?_, ?_, hcode⟩
  · rw [functionStart, slot_of_lt hobject hfunction]
    rfl
  · rw [functionEnd, slot_of_lt hobject hfunction]
    exact hend
  · rw [functionStart, slot_of_lt hobject' hfunction]
    rfl
  · rw [functionEnd, slot_of_lt hobject' hfunction]
    exact hend'

end

/-! ## other objects -/

/-- **Setting a function leaves the other objects alone**, unless its place is wrong; then the
pointers decrease.  A function whose code begins where that of others begins has it in common with
them, in whatever object they are. -/
theorem setFunction_leaves_others {s s' : Script} {object function : Nat} {code : Bytes}
    (hs : s.Built) (hordered : s.Ordered) (hcompacted : s.strings.compacted = true)
    (hcode : code ≠ []) (h : s.setFunction object function code = .ok s') :
    (s'.Ordered ↔ ¬ s.Misplaced (object * functionsPerObject + function)) ∧
    (s'.Ordered → s'.function object function = .ok code ∧
      ∃ stop, s.functionEnd object function = .ok stop ∧
        ∀ other f, other ≠ object → other < s.objectCount → f < functionsPerObject →
          if s.Follows (object * functionsPerObject + function) (other * functionsPerObject + f)
          then s'.function other f = .ok code
          else KeepsFunction (s.slotSplice (object * functionsPerObject + function) stop code)
            s s' other f) := by
  have hbounded := hs.wellFormed.toBounded
  have hbounded' := (hs.edit (.setFunction object function code) h).wellFormed.toBounded
  obtain ⟨hobject, hfunction, _⟩ := setFunction_eq_ok hcompacted h
  have hslot := hbounded.slot_lt hobject hfunction
  obtain ⟨stop, hsets⟩ := setsSlot_of_setFunction hordered hbounded hcompacted hcode h
  have hplaced : s'.Ordered ↔ ¬ s.Misplaced (object * functionsPerObject + function) :=
    ⟨fun hkept hmisplaced => hsets.misplaced hmisplaced hkept,
      fun hplaced => (hsets.refilled hplaced).ordered hordered⟩
  refine ⟨hplaced, fun hkept => ?_⟩
  have hrefilled := hsets.refilled (hplaced.mp hkept)
  obtain ⟨front, middle, back, kept, new, moved, rfl, hexchange⟩ := hsets.exchange
  refine ⟨?_, stop, ?_, fun other f _ hother hf => ?_⟩
  · exact function_of_follows hrefilled hexchange hordered hbounded' hobject hfunction hbounded
      ⟨rfl, fun _ => Nat.le_refl _⟩
  · rw [functionEnd, slot_of_lt hobject hfunction]
    exact (hordered.slotEnd_eq_ok hbounded hslot).mpr hsets.ends
  · by_cases hfollows :
      s.Follows (object * functionsPerObject + function) (other * functionsPerObject + f)
    · rw [if_pos hfollows]
      exact function_of_follows hrefilled hexchange hordered hbounded' hother hf hbounded hfollows
    · rw [if_neg hfollows]
      exact keepsFunction_of_not_follows hrefilled hexchange hordered hbounded' hother hf hbounded
        hfollows

/-- two objects that have one code between them: code for a function of the second one has its
place, and code for one of the first one has not -/
theorem setFunction_leaves_others_shared :
    let strings : StringTable := ⟨[], true, false, none⟩
    let s : Script := ⟨List.replicate 32 64, [0], strings, true⟩
    let first : Script := ⟨64 :: (List.replicate 15 65 ++ List.replicate 16 64), [0, 0xB2],
      strings, true⟩
    let second : Script := ⟨List.replicate 17 64 ++ List.replicate 15 65, [0, 0xB2], strings, true⟩
    s.Built ∧ s.Ordered ∧ s.strings.compacted = true ∧
      s.setFunction 0 1 [0xB2] = .ok first ∧ ¬ first.Ordered ∧
      s.setFunction 1 1 [0xB2] = .ok second ∧ second.Ordered ∧
      second.function 1 1 = .ok [0xB2] ∧
      KeepsFunction ⟨65, 0, 1, .after⟩ s second 0 0 := by
  intro strings s first second
  let s₀ : Script := ⟨List.replicate 32 64, [0], .empty, false⟩
  have hparse : parse s₀.toBytes = .ok s₀ := toOption_eq_some.mp (by decide +kernel)
  have hdelete : s₀.delete 64 0 = .ok s := toOption_eq_some.mp (by decide +kernel)
  have hs : s.Built := .edit (.parse hparse) (.code (.delete 64 0)) hdelete
  have hordered : s.Ordered := by decide
  have hfirst : s.setFunction 0 1 [0xB2] = .ok first := toOption_eq_some.mp (by decide +kernel)
  have hsecond : s.setFunction 1 1 [0xB2] = .ok second := toOption_eq_some.mp (by decide +kernel)
  have hmisplaced : s.Misplaced 1 := by decide +kernel
  have hplaced : ¬ s.Misplaced 17 := by decide +kernel
  have hleft := setFunction_leaves_others hs hordered rfl (List.cons_ne_nil _ _) hfirst
  obtain ⟨hiff, hleft'⟩ := setFunction_leaves_others hs hordered rfl (List.cons_ne_nil _ _) hsecond
  have hkept := hiff.mpr hplaced
  obtain ⟨hfunction, stop, hend, hothers⟩ := hleft' hkept
  have hstop : s.functionEnd 1 1 = .ok 65 := toOption_eq_some.mp (by decide +kernel)
  rw [hstop] at hend
  cases hend
  have hother := hothers 0 0 (by decide) (by decide) (by decide)
  rw [if_neg (by decide)] at hother
  exact ⟨hs, hordered, rfl, hfirst, fun hkept => hleft.1.mp hkept hmisplaced, hsecond, hkept,
    hfunction, hother⟩

/-! ## the object itself -/

/-- in front of the end of its object a slot has code, and shares it with no later object -/
theorem Ordered.not_misplaced {s : Script} {object function stop : Nat} (h : s.Ordered)
    (hbounded : s.Bounded) (hfunction : function < functionsPerObject)
    (hend : s.objectEnd object = .ok stop)
    (hinside : s.pointer (object * functionsPerObject + function) < stop) :
    s.pointer (object * functionsPerObject + function) < s.length ∧
      ¬ s.Misplaced (object * functionsPerObject + function) := by
  have hdiv : (object * functionsPerObject + function) / functionsPerObject = object := by
    rw [functionsPerObject] at hfunction ⊢
    omega
  have hbefore : s.pointer (object * functionsPerObject + function) < s.length ∧
      ∀ t < s.pointers.length, (object + 1) * functionsPerObject ≤ t → stop ≤ s.pointer t := by
    obtain ⟨_, _, _, hend⟩ := objectEnd_eq_ok.mp hend
    by_cases hnext : object + 1 < s.objectCount
    · rw [if_pos hnext] at hend
      obtain ⟨rfl, _⟩ := functionStart_eq_ok hend
      have hslot := hbounded.slot_lt hnext functionsPerObject_pos
      refine ⟨Nat.lt_of_lt_of_le hinside (hbounded.pointers _ (pointer_mem hslot)).2, ?_⟩
      exact fun t ht hle => h.pointer_le hle ht
    · rw [if_neg hnext] at hend
      refine ⟨hend ▸ hinside, fun t ht hle => ?_⟩
      rw [hbounded.length_pointers] at ht
      have hcount := Nat.mul_le_mul_right functionsPerObject (Nat.le_of_not_lt hnext)
      omega
  refine ⟨hbefore.1, ?_⟩
  rintro ⟨_, hend | ⟨t, ht, hlater, hsame⟩⟩
  · omega
  · rw [hdiv] at hlater
    have hbehind := hbefore.2 t ht hlater
    omega

/-- the commands around the new code are carried along, and their jumps reach what they reached -/
def CarriesAround (e : Splice) (s s' : Script) (code : Bytes) : Prop :=
  ∃ kept new moved, s.allCommands.fault = none ∧ readAll code = ⟨new, none⟩ ∧
    s'.allCommands = ⟨kept ++ new.map (fun (pos, c) => (e.place + pos, c)) ++ moved, none⟩ ∧
    List.Forall₂ (Carried e.shift e.reach)
      (s.allCommands.commands.filter fun entry => entry.1 < e.place) kept ∧
    List.Forall₂ (Carried e.shift e.reach)
      (s.allCommands.commands.filter fun entry => e.stop ≤ entry.1) moved

theorem Exchange.carriesAround {e : Splice} {s s' : Script}
    {front middle back kept new moved : List Command}
    (h : Exchange e s s' front middle back kept new moved)
    (hanchor : e.anchor = .after ∧ e.removed = 0 ∨ e.anchor = .before ∧ 0 < e.removed) :
    CarriesAround e s s' (flat new) := by
  have hnew : ∀ c ∈ new, c.IsWhole := fun c hc =>
    h.whole' c (List.mem_append_left _ (List.mem_append_right _ hc))
  have hreach := Splice.carry_eq_reach hanchor
  refine ⟨laidFrom s.headerLength kept, laidFrom 0 new, laidFrom (e.place + e.inserted) moved,
    by rw [h.allCommands], readAll_flat hnew, ?_, ?_, ?_⟩
  · rw [map_add_laidFrom, Nat.add_zero]
    exact h.allCommands'
  · rw [h.filter_front]
    exact h.before.imp fun _ _ hcarried => hcarried.mono rfl hreach
  · rw [h.filter_behind]
    exact h.behind.imp fun _ _ hcarried => hcarried.mono rfl hreach

/-- **Setting a function of an object with code in front of its end.**  The functions from it on
that began with it have the new code, those in front of it and those that began behind it keep
theirs, and jumps reach what they reached. -/
theorem setFunction_in_object {s s' : Script} {object function start stop : Nat} {code : Bytes}
    (hs : s.Built) (hordered : s.Ordered) (hcompacted : s.strings.compacted = true)
    (hcode : code ≠ []) (hstart : s.functionStart object function = .ok start)
    (hend : s.objectEnd object = .ok stop) (hinside : start < stop)
    (h : s.setFunction object function code = .ok s') :
    ∃ old e, s.functionEnd object function = .ok old ∧
      e = s.slotSplice (object * functionsPerObject + function) old code ∧
      (∀ g, function ≤ g → s.functionStart object g = .ok start →
        s'.function object g = .ok code) ∧
      (∀ g < function, KeepsFunction e s s' object g) ∧
      (∀ g p, s.functionStart object g = .ok p → start < p → KeepsFunction e s s' object g) ∧
      CarriesAround e s s' code := by
  have hbounded := hs.wellFormed.toBounded
  have hbounded' := (hs.edit (.setFunction object function code) h).wellFormed.toBounded
  obtain ⟨hobject, hfunction, _⟩ := setFunction_eq_ok hcompacted h
  have hslot := hbounded.slot_lt hobject hfunction
  obtain ⟨rfl, _⟩ := functionStart_eq_ok hstart
  obtain ⟨hlength, hplaced⟩ := hordered.not_misplaced hbounded hfunction hend hinside
  obtain ⟨old, hsets⟩ := setsSlot_of_setFunction hordered hbounded hcompacted hcode h
  have hrefilled := hsets.refilled hplaced
  obtain ⟨front, middle, back, kept, new, moved, rfl, hexchange⟩ := hsets.exchange
  have hkeeps : ∀ g < functionsPerObject,
      ¬ s.Follows (object * functionsPerObject + function) (object * functionsPerObject + g) →
      KeepsFunction (s.slotSplice (object * functionsPerObject + function) old (flat new))
        s s' object g :=
    fun g hg hnot => keepsFunction_of_not_follows hrefilled hexchange hordered hbounded' hobject hg
      hbounded hnot
  refine ⟨old, _, ?_, rfl, fun g hg hsame => ?_, fun g hg => ?_, fun g p hp hlt => ?_,
    hexchange.carriesAround (slotSplice_anchor _ (hsets.ends.lt hlength))⟩
  · rw [functionEnd, slot_of_lt hobject hfunction]
    exact (hordered.slotEnd_eq_ok hbounded hslot).mpr hsets.ends
  · exact function_of_follows hrefilled hexchange hordered hbounded' hobject
      (lt_of_functionStart hsame).2 hbounded
      ⟨(functionStart_eq_ok hsame).1.symm, fun _ => Nat.add_le_add_left hg _⟩
  · exact hkeeps g (Nat.lt_trans hg hfunction) (hordered.not_follows_of_lt hslot hfunction hg)
  · obtain ⟨rfl, _⟩ := functionStart_eq_ok hp
    exact hkeeps g (lt_of_functionStart hp).2 fun hfollows => Nat.ne_of_gt hlt hfollows.1

/-- code for the third of four functions that begin together, and jumps across its place: the one
to the place itself goes behind the new code -/
theorem setFunction_in_object_empty :
    let strings : StringTable := ⟨[], true, false, none⟩
    let s : Script := ⟨[32, 32, 32, 32] ++ List.replicate 12 35, [0x10, 2, 0, 0x11, 2], strings,
      true⟩
    let s' : Script := ⟨[32, 32, 35, 35] ++ List.replicate 12 37, [0x10, 4, 0, 0xB1, 0, 0x11, 4],
      strings, true⟩
    s.Built ∧ s.Ordered ∧ s.strings.compacted = true ∧ s.functionStart 0 2 = .ok 32 ∧
      s.objectEnd 0 = .ok 37 ∧ s.setFunction 0 2 [0xB1, 0] = .ok s' ∧
      s'.function 0 2 = .ok [0xB1, 0] ∧ s'.function 0 3 = .ok [0xB1, 0] ∧
      KeepsFunction ⟨35, 0, 2, .after⟩ s s' 0 1 ∧ KeepsFunction ⟨35, 0, 2, .after⟩ s s' 0 4 ∧
      CarriesAround ⟨35, 0, 2, .after⟩ s s' [0xB1, 0] := by
  intro strings s s'
  let s₀ : Script := ⟨[32, 32, 32, 32] ++ List.replicate 12 35, [0x10, 2, 0, 0x11, 2], .empty,
    false⟩
  have hparse : parse s₀.toBytes = .ok s₀ := toOption_eq_some.mp (by decide +kernel)
  have hdelete : s₀.delete 35 0 = .ok s := toOption_eq_some.mp (by decide +kernel)
  have hs : s.Built := .edit (.parse hparse) (.code (.delete 35 0)) hdelete
  have hordered : s.Ordered := by decide
  have hstart : s.functionStart 0 2 = .ok 32 := toOption_eq_some.mp (by decide +kernel)
  have hobject : s.objectEnd 0 = .ok 37 := toOption_eq_some.mp (by decide +kernel)
  have hset : s.setFunction 0 2 [0xB1, 0] = .ok s' := toOption_eq_some.mp (by decide +kernel)
  have hend : s.functionEnd 0 2 = .ok 35 := toOption_eq_some.mp (by decide +kernel)
  obtain ⟨old, e, hold, rfl, hnew, hfront, hbehind, haround⟩ :=
    setFunction_in_object hs hordered rfl (List.cons_ne_nil _ _) hstart hobject (by decide) hset
  rw [hend] at hold
  cases hold
  exact ⟨hs, hordered, rfl, hstart, hobject, hset, hnew 2 (by decide) hstart,
    hnew 3 (by decide) (toOption_eq_some.mp (by decide +kernel)), hfront 1 (by decide),
    hbehind 4 35 (toOption_eq_some.mp (by decide +kernel)) (by decide), haround⟩

end Script

end Cartridge
