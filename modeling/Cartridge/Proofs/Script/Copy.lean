import Cartridge.Proofs.Script.Function
import Cartridge.Proofs.Script.Renumbering

/-!
# Copies of objects

A copy is taken of the bytes that an object has, and then it is appended by an edit.  If that edit
is the first one of the script it renumbers textboxes, those of the object as well, so that the copy
has the old indices and the object has the new ones.

* `Script.Appends`, `Script.appends_of_pushObject`   code behind that of all other objects, and what
                             is in front of it;
* `Script.Copies`, `Script.copies_of_appends`   an object and its copy: where their functions begin,
                             and the bytes that they have in common;
* `Script.eq_iff_of_appends` when they have all bytes in common;
* `Script.appendCopyOf_eq_ok`   **what a copy has in common with its object**.
-/

namespace Cartridge

open Command

namespace Script

/-! ## code behind that of the others -/

/-- Code with an object of its own behind all other objects: the table has grown by the pointers of
the object, and the commands in front of the code have moved with their table. -/
structure Appends (s s' : Script) (code : Bytes) (offsets : List Nat) : Prop where
  header : s'.headerLength = s.headerLength + objectHeader
  length : s'.length = s.length + objectHeader + code.length
  pointers : s'.pointers = s.pointers.map (· + objectHeader) ++
    offsets.map (s.length + objectHeader + ·)
  bytes : s'.bytes (s.length + objectHeader) (s.length + objectHeader + code.length) = .ok code
  fault : s.allCommands.fault = none
  commands : ∃ kept new follow, code = flat new ∧
    s'.allCommands = ⟨kept ++ laidFrom (s.length + objectHeader) new, none⟩ ∧
    (∀ x, s.headerLength ≤ x → x ≤ s.length → follow x = x + objectHeader) ∧
    List.Forall₂ (Carried (· + objectHeader) follow) s.allCommands.commands kept

/-- the stream of a script with a larger table, before the code comes -/
theorem growTable_eq_ok {s t : Script} (h : s.growTable = .ok t) (hbounded : s.Bounded) :
    t.headerLength = s.headerLength + objectHeader ∧ t.length = s.length + objectHeader ∧
      t.pointers = s.pointers.map (· + objectHeader) ++
        List.replicate functionsPerObject (s.length + objectHeader) ∧
      s.allCommands.fault = none ∧
      List.Forall₂ (Carried (· + objectHeader)
        (Splice.carry ⟨s.headerLength, 0, objectHeader, .after⟩))
        s.allCommands.commands t.allCommands.commands := by
  obtain ⟨r, hresize, h⟩ := bind_eq_ok.mp h
  have hkept : t.pointers =
      r.pointers ++ List.replicate functionsPerObject (r.length + objectHeader) := by
    cases h
    rfl
  have hsame : t.stream = r.stream := by
    cases h
    rfl
  obtain ⟨_, _, hpointers, _, hsize⟩ := resize_eq_ok hresize
  have hold : r.pointers = s.pointers.map (· + objectHeader) := by
    rw [hpointers]
    exact List.map_congr_left fun p hp => carry_after (hbounded.pointers p hp).1
  have hlength : r.length = s.length := by
    rw [Script.length, hsize, headerLength, hold, List.length_map, Script.length, headerLength]
  have hheader : t.headerLength = s.headerLength - 0 + objectHeader := by
    rw [headerLength, hkept, hold, List.length_append, List.length_map, List.length_replicate,
      headerLength, functionsPerObject, objectHeader]
    omega
  obtain ⟨hfault, hmoves⟩ := carried_of_resize hresize
  refine ⟨hheader, ?_, ?_, hfault, (hmoves t hsame hheader).2⟩
  · rw [Script.length, hheader, hsame, hsize, Script.length]
    omega
  · rw [hkept, hold, hlength]

/-- code at the end leaves all commands where they are, and so what their jumps reach -/
theorem append_eq_ok {s r : Script} {code : Bytes} (hbounded : s.Bounded)
    (h : s.replace s.length 0 code .before = .ok r) :
    r.pointers = s.pointers ∧ ∀ t : Script, t.stream = r.stream →
      t.headerLength = s.headerLength → t.length = s.length + code.length ∧
        t.bytes s.length (s.length + code.length) = .ok code ∧
        ∃ kept new follow, code = flat new ∧
          t.allCommands = ⟨kept ++ laidFrom s.length new, none⟩ ∧ (∀ x ≤ s.length, follow x = x) ∧
          List.Forall₂ (Carried (fun x => x) follow) s.allCommands.commands kept := by
  let e : Splice := ⟨s.length, 0, code.length, .before⟩
  have hstays : ∀ x ≤ s.length, e.carry x = x := fun x hx =>
    (Splice.carry_eq_follow rfl x).trans (if_pos hx)
  obtain ⟨_, _, _, _, _, hspliced⟩ := replace_eq_ok h
  obtain ⟨hpointers, _, _, hheader⟩ := spliced_frame hspliced
  obtain ⟨front, middle, back, kept, new, moved, hcode, hexchange⟩ := exchange_of_replace h
  -- the code goes to the end, so there is nothing behind it
  have hends := hexchange.length_eq
  have hmoved := hexchange.length_moved
  have hmiddle := hexchange.removed_eq
  have hstop : Splice.stop ⟨s.length, 0, code.length, .before⟩ = s.length := rfl
  rw [hstop] at hends
  obtain rfl : back = [] := eq_nil_of_flat (by omega)
  obtain rfl : moved = [] := eq_nil_of_flat hmoved
  obtain rfl : middle = [] := eq_nil_of_flat hmiddle.symm
  refine ⟨?_, fun t hstream hheader' => ?_⟩
  · rw [hpointers]
    exact (List.map_congr_left fun p hp => hstays p (hbounded.pointers p hp).2).trans
      (List.map_id _)
  · have hexchange := hexchange.congr (hheader'.trans hheader.symm) hstream
    have hall := hexchange.allCommands'
    rw [laidFrom_nil, List.append_nil] at hall
    refine ⟨hexchange.length_eq', hcode ▸ hexchange.bytes_new, laidFrom s.headerLength kept, new,
      e.carry, hcode, hall, hstays, ?_⟩
    rw [hexchange.allCommands, laidFrom_nil, laidFrom_nil, List.append_nil, List.append_nil]
    refine ((List.forall₂_and_left _ _).mpr ⟨fun a ha => ha, hexchange.before⟩).imp ?_
    rintro a b ⟨ha, hab⟩
    have hinside := (mem_laidFrom (c := a.2) ha).2
    have hpositive := a.2.length_pos
    rw [← hexchange.place] at hinside
    exact hab.mono (if_pos (by omega)) fun _ => rfl

/-- **An object that is pushed** has its code behind all other commands. -/
theorem appends_of_pushObject {s s' : Script} {code : Bytes} {offsets : List Nat} {object : Nat}
    (hbounded : s.Bounded) (hoffsets : offsets.length = functionsPerObject)
    (h : s.pushObject code offsets = .ok (object, s')) :
    object = s.objectCount ∧ Appends s s' code offsets := by
  obtain ⟨hlimit, h⟩ := unless_throw_eq_ok.mp h
  obtain ⟨grown, hgrow, h⟩ := bind_eq_ok.mp h
  obtain ⟨filled, hreplace, h⟩ := bind_eq_ok.mp h
  obtain ⟨hobject, hkept, hstream⟩ : object = s.objectCount ∧
      s'.pointers = filled.pointers.take (s.objectCount * functionsPerObject) ++
        offsets.map (grown.length + ·) ∧ s'.stream = filled.stream := by
    cases h
    exact ⟨rfl, rfl, rfl⟩
  obtain ⟨hheader, hlength, hpointers, hfault, hgrown⟩ := growTable_eq_ok hgrow hbounded
  have hgrownBounded := (hbounded.growTable (Nat.lt_of_not_le hlimit) hgrow).1
  obtain ⟨hsame, happend⟩ := append_eq_ok hgrownBounded hreplace
  have hslots : (s.pointers.map (· + objectHeader)).length =
      s.objectCount * functionsPerObject := by
    rw [List.length_map, hbounded.length_pointers]
  rw [hsame, hpointers, List.take_left' hslots, hlength] at hkept
  have hheader' : s'.headerLength = grown.headerLength := by
    rw [hheader, headerLength, hkept, headerLength, List.length_append,
      List.length_map, List.length_map, hoffsets, functionsPerObject, objectHeader]
    omega
  obtain ⟨hsize, hread, kept, new, follow, hcode, hall, hfollow, hcarried⟩ :=
    happend s' hstream hheader'
  rw [hlength] at hsize hread hall
  refine ⟨hobject, hheader'.trans hheader, hsize, hkept, hread, hfault, kept, new,
    follow ∘ Splice.carry ⟨s.headerLength, 0, objectHeader, .after⟩, hcode, hall, ?_,
    forall₂_trans hgrown hcarried fun a b c hab hbc => hab.trans hbc⟩
  intro x hlow hhigh
  rw [Function.comp_apply, carry_after hlow]
  exact hfollow _ (by omega)

/-! ## where objects are -/

theorem functionStart_congr {s t : Script} (h : t.pointers = s.pointers) (object function : Nat) :
    t.functionStart object function = s.functionStart object function := by
  unfold functionStart slot objectCount pointer
  rw [h]

namespace Appends

variable {s s' : Script} {code : Bytes} {offsets : List Nat} (h : Appends s s' code offsets)
  (hbounded : s.Bounded) (hoffsets : offsets.length = functionsPerObject)
include h hbounded hoffsets

theorem objectCount : s'.objectCount = s.objectCount + 1 := by
  rw [Script.objectCount, h.pointers, List.length_append, List.length_map, List.length_map,
    hoffsets, hbounded.length_pointers, ← Nat.succ_mul]
  exact Nat.mul_div_cancel _ (by decide)

/-- the functions of the other objects move with their table -/
theorem functionStart {object function p : Nat} (hp : s.functionStart object function = .ok p) :
    s'.functionStart object function = .ok (p + objectHeader) := by
  obtain ⟨slot, hslot, hp⟩ := bind_eq_ok.mp hp
  obtain ⟨hobject, hfunction, rfl⟩ := slot_eq_ok hslot
  have hp : s.pointer (object * functionsPerObject + function) = p := Except.ok.inj hp
  have hlt := hbounded.slot_lt hobject hfunction
  have hobject' : object < s'.objectCount := by
    rw [h.objectCount hbounded hoffsets]
    exact Nat.lt_succ_of_lt hobject
  rw [functionStart_of_lt hobject' hfunction, ← hp, pointer, pointer, h.pointers,
    List.getD_eq_getElem?_getD, List.getElem?_append_left (by rw [List.length_map]; exact hlt),
    List.getElem?_map, getElem?_pointers hlt, Option.map_some, Option.getD_some]
  rfl

/-- the functions of the new object begin in its code -/
theorem functionStart_new {function offset : Nat} (hoffset : offsets[function]? = some offset) :
    s'.functionStart s.objectCount function = .ok (s.length + objectHeader + offset) := by
  have hfunction : function < functionsPerObject := by
    rw [← hoffsets]
    exact (List.getElem?_eq_some_iff.mp hoffset).1
  have hobject' : s.objectCount < s'.objectCount := by
    rw [h.objectCount hbounded hoffsets]
    exact Nat.lt_succ_self _
  have hold : (s.pointers.map (· + objectHeader)).length =
      s.objectCount * functionsPerObject := by
    rw [List.length_map, hbounded.length_pointers]
  rw [functionStart_of_lt hobject' hfunction, pointer, h.pointers, List.getD_eq_getElem?_getD,
    List.getElem?_append_right (by rw [hold]; exact Nat.le_add_right ..), hold,
    Nat.add_sub_cancel_left, List.getElem?_map, hoffset]
  rfl

/-- the other objects move with their table as well, up to the last one, which ends where the new
one begins -/
theorem objectEnd {object stop : Nat} (hfirst : offsets[0]? = some 0)
    (hstop : s.objectEnd object = .ok stop) :
    s'.objectEnd object = .ok (stop + objectHeader) := by
  obtain ⟨start, hstart, hle, hnext⟩ := objectEnd_eq_ok.mp hstop
  have hobject := (objectStart_le hstart hstop).1
  refine objectEnd_eq_ok.mpr ⟨_, h.functionStart hbounded hoffsets hstart,
    Nat.add_le_add_right hle _, ?_⟩
  rw [h.objectCount hbounded hoffsets, if_pos (Nat.succ_lt_succ hobject)]
  by_cases hlast : object + 1 < s.objectCount
  · rw [if_pos hlast] at hnext
    exact h.functionStart hbounded hoffsets hnext
  · rw [if_neg hlast] at hnext
    rw [show object + 1 = s.objectCount by omega, hnext]
    exact h.functionStart_new hbounded hoffsets hfirst

theorem objectEnd_new (hfirst : offsets[0]? = some 0) :
    s'.objectEnd s.objectCount = .ok (s.length + objectHeader + code.length) := by
  refine objectEnd_eq_ok.mpr ⟨_, h.functionStart_new hbounded hoffsets hfirst,
    Nat.le_add_right .., ?_⟩
  rw [h.objectCount hbounded hoffsets, if_neg (Nat.lt_irrefl _), h.length]

omit hbounded hoffsets

/-! ## the other commands -/

theorem commandsIn (start : Nat) {stop : Nat} (hstop : stop ≤ s.length) :
    ∃ follow, (∀ x, s.headerLength ≤ x → x ≤ s.length → follow x = x + objectHeader) ∧
      List.Forall₂ (Carried (· + objectHeader) follow) (s.commandsIn start stop)
        (s'.commandsIn (start + objectHeader) (stop + objectHeader)) := by
  obtain ⟨kept, new, follow, _, hall, hfollow, hcarried⟩ := h.commands
  refine ⟨follow, hfollow, ?_⟩
  rw [Script.commandsIn, Script.commandsIn, hall, List.filter_append,
    filter_laidFrom_of_le _ (Nat.add_le_add_right hstop _), List.append_nil]
  refine filter_of_carried hcarried fun a _ b hab => ?_
  rw [hab.position]
  omega

theorem boundary {q : Nat} (hq : s.BoundaryAt q) : s'.BoundaryAt (q + objectHeader) := by
  obtain ⟨kept, new, follow, hcode, hall, _, hcarried⟩ := h.commands
  rw [BoundaryAt, hall, h.length, hcode]
  rcases hq with rfl | hq
  · -- behind all other commands the code begins
    cases new with
    | nil => exact .inl rfl
    | cons c new =>
      refine .inr (List.mem_map.mpr ⟨(s.length + objectHeader, c), ?_, rfl⟩)
      rw [laidFrom_cons]
      exact List.mem_append_right _ (List.mem_cons_self ..)
  · obtain ⟨a, ha, rfl⟩ := List.mem_map.mp hq
    obtain ⟨b, hb, hab⟩ := exists_of_mem_left hcarried ha
    exact .inr (List.mem_map.mpr ⟨b, List.mem_append_left _ hb, hab.position⟩)

theorem byte?_add {x : Nat} (hlow : s.headerLength ≤ x) (hhigh : x < s.length)
    (hdistance : ¬ s.IsDistance x) : s'.byte? (x + objectHeader) = s.byte? x := by
  obtain ⟨kept, new, follow, _, hall, _, hcarried⟩ := h.commands
  obtain ⟨p, c, hmem, hp, hx⟩ := exists_entry h.fault hlow hhigh
  obtain ⟨n, rfl⟩ := Nat.exists_eq_add_of_le hp
  have hn : n < c.length := Nat.lt_of_add_lt_add_left hx
  obtain ⟨⟨p', c'⟩, hkept, hcarried⟩ := exists_of_mem_left hcarried hmem
  obtain rfl : p' = p + objectHeader := hcarried.position
  have hlength : c'.length = c.length := hcarried.length_eq
  have hmem' : (p + objectHeader, c') ∈ s'.allCommands.commands := by
    rw [hall]
    exact List.mem_append_left _ hkept
  rw [Nat.add_right_comm, byte?_of_mem hmem' (hlength ▸ hn), byte?_of_mem hmem hn]
  exact hcarried.getElem?_bytes fun hjump hlast =>
    hdistance ⟨(p, c), hmem, hjump, congrArg (p + ·) hlast⟩

end Appends

/-! ## what is copied -/

theorem offset_of_offsetsIn {s : Script} {object start stop function : Nat} {offsets : List Nat}
    (h : s.offsetsIn object start stop = .ok offsets) (hfunction : function < functionsPerObject) :
    ∃ p, s.functionStart object function = .ok p ∧ start ≤ p ∧
      offsets[function]? = some (p - start) := by
  have hall := mapM_eq_ok.mp h
  have hlen : function < offsets.length := by
    rw [(offsetsIn_eq_ok h).1]
    exact hfunction
  have hstep := hall.get (i := function) (by rw [List.length_range]; exact hfunction) hlen
  rw [List.get_eq_getElem, List.get_eq_getElem, List.getElem_range] at hstep
  obtain ⟨p, hp, hstep⟩ := bind_eq_ok.mp hstep
  obtain ⟨hinside, hstep⟩ := unless_throw_eq_ok.mp hstep
  have hoffset : p - start = offsets[function] := Except.ok.inj hstep
  exact ⟨p, hp, by omega, by rw [List.getElem?_eq_getElem hlen, hoffset]⟩

section
-- the jump of a command need not be computed to see what is checked of it
attribute [local irreducible] Command.jump?

theorem checkJumpsStay_cons (object start stop pos : Nat) (c : Command)
    (rest : List (Nat × Command)) :
    checkJumpsStay object start stop ((pos, c) :: rest) =
      match c.jump? pos with
      | .error fault => .error (.format fault)
      | .ok (some (_, target)) =>
        if target < start ∨ stop < target then .error (.format (.jumpLeavesObject pos object))
        else checkJumpsStay object start stop rest
      | .ok none => checkJumpsStay object start stop rest := rfl

theorem checkJumpsStay_eq_ok {object start stop : Nat} {entries : List (Nat × Command)}
    (h : checkJumpsStay object start stop entries = .ok ()) {a : Nat × Command} (ha : a ∈ entries)
    {base target : Nat} (hends : a.2.jump? a.1 = .ok (some (base, target))) :
    start ≤ target ∧ target ≤ stop := by
  induction entries with
  | nil => cases ha
  | cons entry entries ih =>
    obtain ⟨pos, c⟩ := entry
    rw [checkJumpsStay_cons] at h
    rcases List.mem_cons.mp ha with rfl | ha
    · rw [hends] at h
      obtain ⟨hinside, _⟩ := unless_eq_ok.mp h
      omega
    · refine ih ?_ ha
      cases hjump : c.jump? pos with
      | error fault =>
        rw [hjump] at h
        cases h
      | ok ends =>
        rw [hjump] at h
        cases ends with
        | none => exact h
        | some ends => exact (unless_eq_ok.mp h).2

end

theorem getElem?_of_bytes {s : Script} {start stop n : Nat} {code : Bytes}
    (h : s.bytes start stop = .ok code) (hn : start + n < stop) :
    code[n]? = s.byte? (start + n) := by
  obtain ⟨hinside, h⟩ := unless_eq_ok.mp h
  cases h
  rw [List.getElem?_take, if_pos (by omega), List.getElem?_drop, byte?]
  congr 1
  omega

/-- What an object, which was `[start, stop)` with the bytes `code`, and its copy have in common
after the edit: where their functions begin, and all bytes but the indices of textboxes and the
distances of jumps. -/
structure Copies (s s' : Script) (source copy start stop place : Nat) (code code' : Bytes) :
    Prop where
  sourceStart : s'.objectStart source = .ok (start + objectHeader)
  sourceEnd : s'.objectEnd source = .ok (stop + objectHeader)
  sourceBytes : s'.bytes (start + objectHeader) (stop + objectHeader) = .ok code'
  copyStart : s'.objectStart copy = .ok place
  copyEnd : s'.objectEnd copy = .ok (place + code.length)
  copyBytes : s'.bytes place (place + code.length) = .ok code
  functions : ∀ f < functionsPerObject, ∃ offset,
    s'.functionStart source f = .ok (start + objectHeader + offset) ∧
      s'.functionStart copy f = .ok (place + offset)
  agree : ∀ n < code.length, ¬ s.IsIndex (start + n) → ¬ s.IsDistance (start + n) →
    code'[n]? = code[n]?

/-- what an edit that makes a copy goes through -/
theorem appends_of_appendCopyOf {s s' : Script} {source copy : Nat} (hbounded : s.Bounded)
    (h : s.appendCopyOf source = .ok (copy, s')) :
    ∃ start stop code offsets t, s.objectStart source = .ok start ∧
      s.objectEnd source = .ok stop ∧ s.bytes start stop = .ok code ∧
      s.offsetsIn source start stop = .ok offsets ∧
      checkJumpsStay source start stop (s.commands start stop).commands = .ok () ∧
      s.compactStrings = .ok t ∧ copy = t.objectCount ∧ Appends t s' code offsets := by
  obtain ⟨start, stop, offsets, code, hstart, hstop, hoffsets, hjumps, hcode, hedit⟩ :=
    exists_of_appendCopyOf h
  obtain ⟨t, r, ht, hpush, rfl⟩ := exists_of_editWith hedit
  obtain ⟨hpointers, hstream, _⟩ := compactStrings_eq_ok ht
  obtain ⟨hobject, happends⟩ := appends_of_pushObject (hbounded.congr hpointers hstream)
    (offsetsIn_eq_ok hoffsets).1 hpush
  exact ⟨start, stop, code, offsets, t, hstart, hstop, hcode, hoffsets, hjumps, ht, hobject,
    happends.header, happends.length, happends.pointers, happends.bytes, happends.fault,
    happends.commands⟩

section
variable {s t s' : Script} {source start stop : Nat} {code : Bytes} {offsets : List Nat}
  (hs : s.WellFormed) (ht : s.compactStrings = .ok t) (happends : Appends t s' code offsets)
  (hcode : s.bytes start stop = .ok code)
include hs ht happends hcode

theorem copies_of_appends (hstart : s.objectStart source = .ok start)
    (hstop : s.objectEnd source = .ok stop)
    (hoffsets : s.offsetsIn source start stop = .ok offsets) :
    ∃ code', Copies s s' source t.objectCount start stop (t.length + objectHeader) code code' := by
  obtain ⟨hpointers, hsize, _⟩ := compactStrings_eq_ok ht
  have hbounded := hs.toBounded.congr hpointers hsize
  have hfunctions := (offsetsIn_eq_ok hoffsets).1
  obtain ⟨hheader, hlength⟩ := length_of_compactStrings ht
  have hmoves : ∀ {object function p : Nat}, s.functionStart object function = .ok p →
      s'.functionStart object function = .ok (p + objectHeader) := fun hp =>
    happends.functionStart hbounded hfunctions ((functionStart_congr hpointers _ _).trans hp)
  have hfirst : offsets[0]? = some 0 := by
    obtain ⟨p, hp, _, hoffset⟩ := offset_of_offsetsIn hoffsets functionsPerObject_pos
    rw [show s.functionStart source 0 = .ok start from hstart] at hp
    cases hp
    rwa [Nat.sub_self] at hoffset
  have htstop : t.objectEnd source = .ok stop := by
    rw [← hstop, objectEnd, objectEnd, objectStart, objectStart, objectStart, objectStart,
      functionStart_congr hpointers, functionStart_congr hpointers, hlength, objectCount,
      hpointers, objectCount]
  obtain ⟨hlow, hle, hhigh⟩ := bytes_inside hcode
  have hfault : s.allCommands.fault = none := by
    rw [← happends.fault, allCommands_of_compactStrings hs ht]
  have hread : ∃ code', s'.bytes (start + objectHeader) (stop + objectHeader) = .ok code' := by
    refine ⟨_, if_neg ?_⟩
    rw [happends.header, happends.length, hheader, hlength]
    omega
  obtain ⟨code', hcode'⟩ := hread
  refine ⟨code', ?_⟩
  refine
    { sourceStart := hmoves hstart
      sourceEnd := happends.objectEnd hbounded hfunctions hfirst htstop
      sourceBytes := hcode'
      copyStart := happends.functionStart_new hbounded hfunctions hfirst
      copyEnd := happends.objectEnd_new hbounded hfunctions hfirst
      copyBytes := happends.bytes
      functions := ?_
      agree := ?_ }
  · intro f hf
    obtain ⟨p, hp, hge, hoffset⟩ := offset_of_offsetsIn hoffsets hf
    refine ⟨p - start, ?_, happends.functionStart_new hbounded hfunctions hoffset⟩
    rw [hmoves hp, Nat.add_right_comm, Nat.add_sub_cancel' hge]
  · intro n hn hindex hdistance
    rw [bytes_eq_ok hcode] at hn
    have hbyte : s'.byte? (start + n + objectHeader) = t.byte? (start + n) :=
      happends.byte?_add (by omega) (by omega) fun hx =>
        hdistance (isDistance_of_compactStrings hs ht hx)
    rw [getElem?_of_bytes hcode (by omega), getElem?_of_bytes hcode' (by omega),
      Nat.add_right_comm, hbyte]
    exact byte?_of_compactStrings hs ht hfault (by omega) (by omega) hindex

/-- **The bytes of the object change just when indices in it do.** -/
theorem eq_iff_of_appends {code' : Bytes} (hstart : s.BoundaryAt start) (hstop : s.BoundaryAt stop)
    (hjumps : checkJumpsStay source start stop (s.commands start stop).commands = .ok ())
    (hcode' : s'.bytes (start + objectHeader) (stop + objectHeader) = .ok code') :
    code' = code ↔ ∀ a ∈ s.commandsIn start stop, renumbered s.strings a.2 = a.2 := by
  obtain ⟨hheader, hlength⟩ := length_of_compactStrings ht
  obtain ⟨hlow, hle, hhigh⟩ := bytes_inside hcode
  have hfault : s.allCommands.fault = none := by
    rw [← happends.fault, allCommands_of_compactStrings hs ht]
  have hfault' : s'.allCommands.fault = none := by
    obtain ⟨_, _, _, _, hall, _⟩ := happends.commands
    rw [hall]
  have hold := bytes_of_boundary hfault hstart hstop hcode
  have hnew := bytes_of_boundary hfault'
    (happends.boundary (boundary_of_compactStrings hs ht hstart))
    (happends.boundary (boundary_of_compactStrings hs ht hstop)) hcode'
  have hreads := congrArg Reading.commands (commands_of_boundary hfault hstart hhigh)
  -- no jump leaves the object, so that all of it moves as one
  have hcommands : (s'.commandsIn (start + objectHeader) (stop + objectHeader)).map Prod.snd =
      (s.commandsIn start stop).map fun a => renumbered s.strings a.2 := by
    obtain ⟨follow, hfollow, hcarried⟩ :=
      happends.commandsIn start (hhigh.trans_eq hlength.symm)
    rw [commandsIn_of_compactStrings hs ht, List.forall₂_map_left_iff] at hcarried
    have hsame : List.Forall₂ (· = ·)
        ((s'.commandsIn (start + objectHeader) (stop + objectHeader)).map Prod.snd)
        ((s.commandsIn start stop).map fun a => renumbered s.strings a.2) := by
      rw [List.forall₂_map_left_iff, List.forall₂_map_right_iff]
      refine ((List.forall₂_and_left _ _).mpr ⟨fun a ha => ha, hcarried⟩).flip.imp ?_
      rintro b a ⟨ha, hab⟩
      refine eq_renumbered_of_carried hab fun base target hends => ?_
      have hstays := checkJumpsStay_eq_ok hjumps (hreads ▸ ha) hends
      exact hfollow target (by omega) (by omega)
    rwa [List.forall₂_eq_eq_eq] at hsame
  rw [hnew, hcommands, hold]
  have hwhole : ∀ a ∈ s.commandsIn start stop, a.2.IsWhole := by
    intro a ha
    obtain ⟨_, _, _, hwhole, _⟩ := split_of_mem (List.mem_of_mem_filter ha)
    exact hwhole
  constructor
  · intro hflat
    refine List.map_inj_left.mp (flat_inj ?_ ?_ hflat)
    · rintro c hc
      obtain ⟨a, ha, rfl⟩ := List.mem_map.mp hc
      exact isWhole_renumbered s.strings (hwhole a ha)
    · rintro c hc
      obtain ⟨a, ha, rfl⟩ := List.mem_map.mp hc
      exact hwhole a ha
  · intro hsame
    rw [List.map_congr_left hsame]

end

/-- **A copy is like its object**, but for what the first edit of a script changes.  Both have their
functions at the same places, and an object that begins and ends at commands is the same as its copy
just when none of its textboxes has a new index. -/
theorem appendCopyOf_eq_ok {s s' : Script} {source copy : Nat} (hs : s.Built)
    (h : s.appendCopyOf source = .ok (copy, s')) :
    ∃ start stop place code code', s.objectStart source = .ok start ∧
      s.objectEnd source = .ok stop ∧ s.bytes start stop = .ok code ∧
      Copies s s' source copy start stop place code code' ∧
      (s.BoundaryAt start → s.BoundaryAt stop →
        (code' = code ↔ ∀ a ∈ s.commandsIn start stop, renumbered s.strings a.2 = a.2)) := by
  have hwell := hs.wellFormed
  obtain ⟨start, stop, code, offsets, t, hstart, hstop, hcode, hoffsets, hjumps, ht, rfl, happends⟩ :=
    appends_of_appendCopyOf hwell.toBounded h
  obtain ⟨code', hcopies⟩ := copies_of_appends hwell ht happends hcode hstart hstop hoffsets
  exact ⟨start, stop, _, code, code', hstart, hstop, hcode, hcopies, fun hfirst hlast =>
    eq_iff_of_appends hwell ht happends hcode hfirst hlast hjumps hcopies.sourceBytes⟩

/-- an object that shows the last of three strings, the only one in use: the copy goes on to show
that one, and the object the first one -/
theorem appendCopyOf_eq_ok_sparse :
    let layout : Layout := ⟨0x1000, 0, 0, 4, 1, 0, 2, 8, 1, []⟩
    let block : Bytes :=
      [10, 0, 8, 1, 32, 0, 2, 0xD8, 0xB8, 80, 0, 0, 0x43, 19, 0, 0, 0xBB, 2, 0, 64]
    let data : Bytes := List.replicate 16 0 ++ block ++ List.replicate 48 0 ++
      [88, 0, 0, 0, 0x41, 0] ++ List.replicate 38 0
    let space : FreeMap := ⟨128, 0x1000, false, [], by decide, by decide, by decide, by decide⟩
    let image : Image := ⟨data, space, layout⟩
    let old : Bytes := [0xB8, 80, 0, 0, 0xBB, 2, 0]
    let new : Bytes := [0xB8, 80, 0, 0, 0xBB, 0, 0]
    let s : Script := ⟨List.replicate 16 32, old, ⟨[(2, [0x41])], false, false, none⟩, false⟩
    let s' : Script := ⟨List.replicate 16 64 ++ List.replicate 16 71, new ++ old,
      ⟨[(0, [0x41])], true, true, none⟩, true⟩
    load image 16 = .ok s ∧ s.Built ∧ s.appendCopyOf 0 = .ok (1, s') ∧
      Copies s s' 0 1 32 39 71 old new ∧ new ≠ old := by
  intro layout block data space image old new s s'
  have hload : load image 16 = .ok s := toOption_eq_some.mp (by decide +kernel)
  have hs : s.Built := .load hload
  have happend : s.appendCopyOf 0 = .ok (1, s') := toOption_eq_some.mp (by decide +kernel)
  obtain ⟨start, stop, place, code, code', hstart, hstop, hcode, hcopies, hsame⟩ :=
    appendCopyOf_eq_ok hs happend
  have hstart' : s.objectStart 0 = .ok 32 := toOption_eq_some.mp (by decide +kernel)
  have hstop' : s.objectEnd 0 = .ok 39 := toOption_eq_some.mp (by decide +kernel)
  have hcode' : s.bytes 32 39 = .ok old := toOption_eq_some.mp (by decide +kernel)
  have hplace : s'.objectStart 1 = .ok 71 := toOption_eq_some.mp (by decide +kernel)
  have hnew : s'.bytes 64 71 = .ok new := toOption_eq_some.mp (by decide +kernel)
  obtain rfl : start = 32 := Except.ok.inj (hstart.symm.trans hstart')
  obtain rfl : stop = 39 := Except.ok.inj (hstop.symm.trans hstop')
  obtain rfl : code = old := Except.ok.inj (hcode.symm.trans hcode')
  obtain rfl : place = 71 := Except.ok.inj (hcopies.copyStart.symm.trans hplace)
  obtain rfl : code' = new := Except.ok.inj (hcopies.sourceBytes.symm.trans hnew)
  refine ⟨hload, hs, happend, hcopies, fun hnot => ?_⟩
  have hindices := (hsame (by decide +kernel) (by decide +kernel)).mp hnot
  revert hindices
  decide +kernel

end Script

end Cartridge
