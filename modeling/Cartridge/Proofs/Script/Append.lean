import Cartridge.Proofs.Script.Copy
import Cartridge.Proofs.Script.Inverse

/-!
# Objects that are appended

The table grows in front of all commands, and the new code comes behind them.  As long as jumps stay
between the table and the end of the stream, all of them move with what they reach, so that the old
stream is left as it is.

* `Splice.retarget_of_still`, `Splice.forall₂_retarget_of_still`   jumps whose ends move by the same
                             amount;
* `Script.InnerTargets`      all jumps stay between the table and the end;
* `Script.exists_growTable`, `Script.exists_pushObject`   **an object can be appended** as long as
                             there is room for it;
* `Script.LeavesCode`, `Script.leavesCode_of_appends`   what an object in front of the new one
                             keeps: everything;
* `Script.Appends.functionEnd_new`   where the functions of the new object end;
* `Script.append_leaves_code`   **the old code, and the new object**.
-/

namespace Cartridge

open Command

/-! ## jumps that stay as they are -/

theorem Command.withDistance_distance {c : Command} (h : c.args ≠ []) :
    c.withDistance c.distance = c := by
  obtain ⟨others, b, hargs⟩ := (List.eq_nil_or_concat' c.args).resolve_left h
  rw [withDistance, distance, hargs, List.getLastD_concat, List.dropLast_concat, UInt8.ofNat_toNat,
    ← hargs]

/-- both ends of the jump move with its command -/
theorem Command.jump?_add {c : Command} {pos base target : Nat} (n : Nat)
    (h : c.jump? pos = .ok (some (base, target))) :
    c.jump? (pos + n) = .ok (some (base + n, target + n)) := by
  have hpositive := c.length_pos
  obtain ⟨hbase, hends⟩ := jump?_eq_some.mp h
  refine jump?_eq_some.mpr ⟨by omega, hends.imp (And.imp_right ?_) (And.imp_right ?_)⟩
  · rintro rfl
    exact Nat.add_right_comm ..
  · rintro rfl
    exact Nat.add_right_comm ..

namespace Splice

variable {e : Splice} {n : Nat}

theorem retarget_of_still {pos : Nat} {c : Command} (hwhole : c.IsWhole)
    (hbase : e.shift (pos + c.length - 1) = pos + c.length - 1 + n)
    (htarget : c.IsJump → ∃ base target, c.jump? pos = .ok (some (base, target)) ∧
      e.carry target = target + n) : e.retarget pos c = .ok c := by
  unfold retarget
  by_cases hjump : c.IsJump
  · obtain ⟨base, target, hends, hcarry⟩ := htarget hjump
    have hsame := withDistance_distance (hjump.args_ne_nil hwhole)
    obtain ⟨rfl, _⟩ := jump?_eq_some.mp hends
    have hmoved := (newDistance_eq_distance_iff (jump?_add n hends) pos _).mpr rfl
    rw [hends]
    dsimp only
    rw [hbase, hcarry]
    exact map_eq_ok.mpr ⟨c.distance, hmoved, hsame⟩
  · rw [jump?_eq_none.mpr hjump]

/-- commands that lie one behind the other, all of them moved by the same amount -/
theorem forall₂_retarget_of_still {cs : List Command} {start : Nat}
    (hwhole : ∀ c ∈ cs, c.IsWhole)
    (hshift : ∀ m < (flat cs).length, e.shift (start + m) = start + m + n)
    (htargets : ∀ a ∈ laidFrom start cs, a.2.IsJump → ∃ base target,
      a.2.jump? a.1 = .ok (some (base, target)) ∧ e.carry target = target + n) :
    List.Forall₂ (fun entry c => e.retarget entry.1 entry.2 = .ok c) (laidFrom start cs) cs := by
  induction cs generalizing start with
  | nil => exact .nil
  | cons c cs ih =>
    obtain ⟨hfirst, hrest⟩ := List.forall_mem_cons.mp hwhole
    rw [laidFrom_cons] at htargets ⊢
    rw [length_flat_cons] at hshift
    obtain ⟨htarget, hbehind⟩ := List.forall_mem_cons.mp htargets
    have hpositive := c.length_pos
    have hbase := hshift (c.length - 1) (by omega)
    rw [← Nat.add_sub_assoc hpositive] at hbase
    refine .cons (retarget_of_still hfirst hbase htarget) (ih hrest (fun m hm => ?_) hbehind)
    rw [Nat.add_assoc start]
    exact hshift (c.length + m) (by omega)

end Splice

namespace Script

/-! ## room for one more object -/

/-- the jumps of the script stay between its table and its end -/
def InnerTargets (s : Script) : Prop :=
  ∀ a ∈ s.allCommands.commands, a.2.IsJump → ∃ base target,
    a.2.jump? a.1 = .ok (some (base, target)) ∧ s.headerLength ≤ target ∧ target ≤ s.length

theorem InnerTargets.bounds {s : Script} (h : s.InnerTargets) {a : Nat × Command}
    (ha : a ∈ s.allCommands.commands) {base target : Nat}
    (hends : a.2.jump? a.1 = .ok (some (base, target))) :
    s.headerLength ≤ target ∧ target ≤ s.length := by
  obtain ⟨_, _, hends', hbounds⟩ := h a ha (isJump_of_ends hends)
  rw [hends] at hends'
  cases hends'
  exact hbounds

section
variable {s : Script} (hfault : s.allCommands.fault = none) (htargets : s.InnerTargets)
include hfault htargets

theorem exists_growTable (hsize : s.length + objectHeader ≤ maxLength) :
    ∃ t, s.growTable = .ok t := by
  obtain ⟨cs, hwhole, hstream, hall⟩ := flat_of_allCommands hfault
  rw [InnerTargets, hall] at htargets
  have hmoved := Splice.forall₂_retarget_of_still (e := ⟨s.headerLength, 0, objectHeader, .after⟩)
    (n := objectHeader) hwhole (fun m _ => if_neg (Nat.not_lt_of_le (Nat.le_add_right ..)))
    fun a ha hjump => by
      obtain ⟨base, target, hends, hlow, _⟩ := htargets a ha hjump
      exact ⟨base, target, hends, carry_after hlow⟩
  have hresize := resize_of_retarget (Nat.le_refl _) hsize hwhole hstream hmoved
  exact ⟨_, bind_eq_ok.mpr ⟨_, hresize, rfl⟩⟩

/-- new code behind all other -/
theorem exists_append {code : Bytes} (hcode : (readAll code).fault = none)
    (hsize : s.length + code.length ≤ maxLength) :
    ∃ r, s.replace s.length 0 code .before = .ok r := by
  obtain ⟨cs, hwhole, hstream, hall⟩ := flat_of_allCommands hfault
  obtain ⟨new, hnew, rfl, _⟩ := flat_of_readAll hcode
  rw [InnerTargets, hall] at htargets
  have hend : CutAt s.headerLength cs s.length cs [] :=
    ⟨(List.append_nil cs).symm, length_of_flat hstream⟩
  have hkept := Splice.forall₂_retarget_of_still (e := ⟨s.length, 0, (flat new).length, .before⟩)
    (n := 0) hwhole (fun m hm => if_pos (by
      rw [length_of_flat hstream]
      exact Nat.add_lt_add_left hm _))
    fun a ha hjump => by
      obtain ⟨base, target, hends, _, hhigh⟩ := htargets a ha hjump
      exact ⟨base, target, hends, (Splice.carry_eq_follow rfl target).trans (if_pos hhigh)⟩
  exact ⟨_, replace_of_cutAt hwhole hnew hstream hend hend
    (spliced_of_retarget hwhole hstream hend hend hsize hkept .nil)⟩

end

theorem fault_of_growTable {s t : Script} (h : s.growTable = .ok t) :
    t.allCommands.fault = none := by
  obtain ⟨r, hresize, h⟩ := bind_eq_ok.mp h
  cases h
  exact fault_congr (fault_of_spliced (congrArg Reading.fault (@readAll_flat [] nofun))
    (unless_throw_eq_ok.mp hresize).2) rfl

/-- **An object can be appended** as long as there is room for it. -/
theorem exists_pushObject {s : Script} {code : Bytes} (offsets : List Nat) (hbounded : s.Bounded)
    (hfault : s.allCommands.fault = none) (htargets : s.InnerTargets)
    (hobjects : s.objectCount < maxObjects) (hcode : (readAll code).fault = none)
    (hsize : s.length + objectHeader + code.length ≤ maxLength) :
    ∃ r, s.pushObject code offsets = .ok r := by
  obtain ⟨grown, hgrow⟩ := exists_growTable hfault htargets (by omega)
  obtain ⟨hheader, hlength, _, _, hcarried⟩ := growTable_eq_ok hgrow hbounded
  have hgrown : grown.InnerTargets := by
    intro b hb hjump
    obtain ⟨a, ha, hab⟩ := exists_of_mem_right hcarried hb
    have hold := hab.isJump_iff.mp hjump
    obtain ⟨_, base, target, hends, hnew⟩ := hab.target hold
    obtain ⟨hlow, hhigh⟩ := htargets.bounds ha hends
    rw [carry_after hlow] at hnew
    exact ⟨base, _, hnew, by omega, by omega⟩
  obtain ⟨filled, hfill⟩ := exists_append (fault_of_growTable hgrow) hgrown hcode (by omega)
  exact ⟨_, unless_throw_eq_ok.mpr ⟨Nat.not_le_of_lt hobjects,
    bind_eq_ok.mpr ⟨grown, hgrow, bind_eq_ok.mpr ⟨filled, hfill, rfl⟩⟩⟩⟩

/-! ## what is left of the old code -/

/-- The script `s'` has all code of `s`, moved with the table, and behind it that of an object of its
own. -/
structure LeavesCode (s s' : Script) (object : Nat) (code : Bytes) : Prop where
  stream : s'.stream = s.stream ++ code
  objectStart : s'.objectStart object = .ok (s.length + objectHeader)
  objectEnd : s'.objectEnd object = .ok s'.length
  bytes : s'.bytes (s.length + objectHeader) s'.length = .ok code
  pointers : s'.pointers.take s.pointers.length = s.pointers.map (· + objectHeader)
  commands : ∀ a ∈ s.allCommands.commands, (a.1 + objectHeader, a.2) ∈ s'.allCommands.commands
  jumps : ∀ a ∈ s.allCommands.commands, ∀ base target, a.2.jump? a.1 = .ok (some (base, target)) →
    a.2.jump? (a.1 + objectHeader) = .ok (some (base + objectHeader, target + objectHeader)) ∧
      (target = s.length ∨
        ∃ b ∈ s.allCommands.commands, b.1 ≤ target ∧ target < b.1 + b.2.length)

section
variable {s s' : Script} {code : Bytes} {offsets : List Nat} (h : Appends s s' code offsets)
include h

/-- commands whose jumps stay in place are the same as before -/
theorem Appends.allCommands_eq (htargets : s.InnerTargets) : ∃ new, code = flat new ∧
    s'.allCommands = ⟨(s.allCommands.commands.map fun a => (a.1 + objectHeader, a.2)) ++
      laidFrom (s.length + objectHeader) new, none⟩ := by
  obtain ⟨kept, new, follow, hcode, hall, hfollow, hcarried⟩ := h.commands
  have hsame : kept = s.allCommands.commands.map fun a => (a.1 + objectHeader, a.2) := by
    refine (List.forall₂_eq_eq_eq ▸ List.forall₂_map_left_iff.mpr ?_).symm
    refine ((List.forall₂_and_left _ _).mpr ⟨fun a ha => ha, hcarried⟩).imp ?_
    rintro ⟨p, c⟩ ⟨q, d⟩ ⟨ha, hab⟩
    obtain rfl : q = p + objectHeader := hab.position
    obtain rfl : d = c := hab.eq_self rfl fun base target hends => by
      obtain ⟨hlow, hhigh⟩ := htargets.bounds ha hends
      exact hfollow target hlow hhigh
    rfl
  exact ⟨new, hcode, hsame ▸ hall⟩

theorem leavesCode_of_appends (hbounded : s.Bounded) (hoffsets : offsets.length = functionsPerObject)
    (hfirst : offsets[0]? = some 0) (htargets : s.InnerTargets) :
    LeavesCode s s' s.objectCount code := by
  obtain ⟨new, hcode, hall⟩ := h.allCommands_eq htargets
  have hstart := h.functionStart_new hbounded hoffsets hfirst
  have hstop := h.objectEnd_new hbounded hoffsets hfirst
  rw [← h.length] at hstop
  refine ⟨?_, hstart, hstop, h.length ▸ h.bytes, ?_, ?_, ?_⟩
  · obtain ⟨cs, _, hstream, hcs⟩ := flat_of_allCommands h.fault
    obtain ⟨cs', _, hstream', hcs'⟩ := flat_of_allCommands (s := s') (by rw [hall])
    rw [hcs'] at hall
    have hsnd := congrArg (fun r => r.commands.map Prod.snd) hall
    dsimp only at hsnd
    rw [map_snd_laidFrom, List.map_append, map_snd_laidFrom, List.map_map, hcs] at hsnd
    have hold : (laidFrom s.headerLength cs).map
        (Prod.snd ∘ fun a => (a.1 + objectHeader, a.2)) = cs := map_snd_laidFrom ..
    rw [hstream', hsnd, hold, flat_append, hstream, hcode]
  · rw [h.pointers, List.take_left' (List.length_map ..)]
  · intro a ha
    rw [hall]
    exact List.mem_append_left _ (List.mem_map_of_mem ha)
  · intro a ha base target hends
    refine ⟨jump?_add objectHeader hends, ?_⟩
    obtain ⟨hlow, hhigh⟩ := htargets.bounds ha hends
    rcases Nat.eq_or_lt_of_le hhigh with hend | hinside
    · exact .inl hend
    · obtain ⟨p, c, hmem, hp, hx⟩ := exists_entry h.fault hlow hinside
      exact .inr ⟨(p, c), hmem, hp, hx⟩

theorem Appends.marked : Appends s { s' with modified := true } code offsets :=
  ⟨h.header, h.length, h.pointers, h.bytes, h.fault, h.commands⟩

end

/-! ## the functions of the new object -/

theorem bytes_part {s : Script} {start stop a b : Nat} {code : Bytes}
    (h : s.bytes start stop = .ok code) (hab : a ≤ b) (hb : start + b ≤ stop) :
    s.bytes (start + a) (start + b) = .ok ((code.drop a).take (b - a)) := by
  obtain ⟨hlow, _, hhigh⟩ := bytes_inside h
  obtain ⟨_, h⟩ := unless_eq_ok.mp h
  cases h
  have hinside : ¬ (start + a < s.headerLength ∨ start + b < start + a ∨ s.length < start + b) := by
    omega
  have hdrop : start + a - s.headerLength = start - s.headerLength + a := by omega
  have hlength : start + b - (start + a) = b - a := by omega
  have htake : min (b - a) (stop - start - a) = b - a := by omega
  rw [bytes, if_neg hinside, hdrop, hlength, List.drop_take, List.take_take, htake, List.drop_drop]

section
variable {s s' : Script} {code : Bytes} {offsets : List Nat} (h : Appends s s' code offsets)
  (hbounded : s.Bounded) (hoffsets : offsets.length = functionsPerObject)
include h hbounded hoffsets

/-- a function of the new object ends where the next one with another offset begins, or with the
code -/
theorem Appends.functionEnd_new {function offset : Nat} (hoffset : offsets[function]? = some offset)
    (hle : offset ≤ ((offsets.drop (function + 1)).find? (· != offset)).getD code.length) :
    s'.functionEnd s.objectCount function = .ok (s.length + objectHeader +
      ((offsets.drop (function + 1)).find? (· != offset)).getD code.length) := by
  have hstart := h.functionStart_new hbounded hoffsets hoffset
  obtain ⟨hobject, hfunction⟩ := lt_of_functionStart hstart
  have hpointer : s'.pointer (s.objectCount * functionsPerObject + function) =
      s.length + objectHeader + offset := by
    rw [functionStart_of_lt hobject hfunction] at hstart
    exact Except.ok.inj hstart
  have hbehind : s'.pointers.drop (s.objectCount * functionsPerObject + function + 1) =
      (offsets.drop (function + 1)).map (s.length + objectHeader + ·) := by
    have hold : (s.pointers.map (· + objectHeader)).length = s.objectCount * functionsPerObject := by
      rw [List.length_map, hbounded.length_pointers]
    rw [h.pointers, Nat.add_assoc, ← hold, List.drop_length_add_append, List.map_drop]
  have hfind : ((offsets.drop (function + 1)).map (s.length + objectHeader + ·)).find?
      (· != s.length + objectHeader + offset) =
      ((offsets.drop (function + 1)).find? (· != offset)).map (s.length + objectHeader + ·) := by
    rw [List.find?_map]
    refine congrArg (Option.map _) (congrArg (List.find? · _) (funext fun x => ?_))
    simp [bne]
  have hstop : (((offsets.drop (function + 1)).find? (· != offset)).map
      (s.length + objectHeader + ·)).getD (s.length + objectHeader + code.length) =
      s.length + objectHeader +
        ((offsets.drop (function + 1)).find? (· != offset)).getD code.length := Option.getD_map ..
  rw [functionEnd, slot_of_lt hobject hfunction]
  show s'.slotEnd (s.objectCount * functionsPerObject + function) = _
  rw [slotEnd, hpointer, hbehind, hfind, h.length, hstop]
  exact if_neg (Nat.not_lt_of_le (Nat.add_le_add_left hle _))

/-- the bytes of such a function -/
theorem Appends.function_new {function offset : Nat} (hoffset : offsets[function]? = some offset)
    {stop : Nat} (hstop : ((offsets.drop (function + 1)).find? (· != offset)).getD code.length = stop)
    (hle : offset ≤ stop) (hinside : stop ≤ code.length) :
    s'.function s.objectCount function = .ok ((code.drop offset).take (stop - offset)) := by
  have hend := h.functionEnd_new hbounded hoffsets hoffset (hstop ▸ hle)
  rw [hstop] at hend
  exact bind_eq_ok.mpr ⟨_, h.functionStart_new hbounded hoffsets hoffset,
    bind_eq_ok.mpr ⟨_, hend, bytes_part h.bytes hle (Nat.add_le_add_left hinside _)⟩⟩

end

/-- the functions of an object that does nothing: the first one returns, the others share a second
return -/
theorem Appends.functions_ret {s s' : Script}
    (h : Appends s s' (ret.bytes ++ ret.bytes) (0 :: List.replicate (functionsPerObject - 1) 1))
    (hbounded : s.Bounded) :
    s'.function s.objectCount 0 = .ok ret.bytes ∧ ∀ f, 0 < f → f < functionsPerObject →
      s'.functionStart s.objectCount f = .ok (s.length + objectHeader + 1) ∧
        s'.function s.objectCount f = .ok ret.bytes := by
  have hoffsets : (0 :: List.replicate (functionsPerObject - 1) 1).length = functionsPerObject := rfl
  have hfirst : (0 :: List.replicate (functionsPerObject - 1) 1)[0]? = some 0 := rfl
  have hnext : (((0 :: List.replicate (functionsPerObject - 1) 1).drop 1).find? (· != 0)).getD
      (ret.bytes ++ ret.bytes).length = 1 := rfl
  refine ⟨h.function_new hbounded hoffsets hfirst hnext (by decide) (by decide),
    fun f hpos hf => ?_⟩
  have hoffset : (0 :: List.replicate (functionsPerObject - 1) 1)[f]? = some 1 := by
    obtain ⟨f, rfl⟩ := Nat.exists_eq_succ_of_ne_zero (Nat.ne_of_gt hpos)
    rw [List.getElem?_cons_succ, List.getElem?_replicate, if_pos (Nat.lt_sub_of_add_lt hf)]
  have hstop : (((0 :: List.replicate (functionsPerObject - 1) 1).drop (f + 1)).find?
      (· != 1)).getD (ret.bytes ++ ret.bytes).length = 2 := by
    rw [List.drop_succ_cons, List.drop_replicate, List.find?_replicate]
    simp [ret, Command.bytes]
  exact ⟨h.functionStart_new hbounded hoffsets hoffset,
    h.function_new hbounded hoffsets hoffset hstop (by decide) (by decide)⟩

/-! ## the edits -/

section
variable {s s' : Script} {object : Nat} (hcompacted : s.strings.compacted = true)
include hcompacted

theorem appendObject_eq_ok : s.appendObject = .ok (object, s') ↔
    ∃ r, s.pushObject (ret.bytes ++ ret.bytes) (0 :: List.replicate (functionsPerObject - 1) 1) =
      .ok (object, r) ∧ s' = { r with modified := true } :=
  editWith_eq_ok hcompacted

/-- the first function of a copy begins with its code, as that of any object does -/
theorem exists_pushed_of_appendCopyOf {source : Nat} (h : s.appendCopyOf source = .ok (object, s')) :
    ∃ start stop code offsets r, s.objectStart source = .ok start ∧
      s.objectEnd source = .ok stop ∧ s.bytes start stop = .ok code ∧
      offsets.length = functionsPerObject ∧ offsets[0]? = some 0 ∧
      s.pushObject code offsets = .ok (object, r) ∧ s' = { r with modified := true } := by
  obtain ⟨start, stop, offsets, code, hstart, hstop, hoffsets, _, hcode, hedit⟩ :=
    exists_of_appendCopyOf h
  obtain ⟨r, hr, hs'⟩ := (editWith_eq_ok hcompacted).mp hedit
  have hzero : 0 < functionsPerObject := by decide
  obtain ⟨p, hp, _, hfirst⟩ := offset_of_offsetsIn hoffsets hzero
  rw [objectStart, hp] at hstart
  rw [Except.ok.inj hstart, Nat.sub_self] at hfirst
  exact ⟨start, stop, code, offsets, r, hp.trans hstart, hstop, hcode, (offsetsIn_eq_ok hoffsets).1,
    hfirst, hr, hs'⟩

end

/-- **Appending leaves existing code alone.**  As long as jumps stay between the table and the end,
an object can be appended when there is room for it.  The stream is the old one with the code of the
object behind it, pointers and commands have moved with the table, and jumps reach the commands that
they reached, or the end of the old stream.  The functions of an object that is not a copy do
nothing but return. -/
theorem append_leaves_code {s : Script} (hs : s.Built) (hcompacted : s.strings.compacted = true)
    (hfault : s.allCommands.fault = none) (htargets : s.InnerTargets) :
    (s.objectCount < 255 → s.length ≤ 0xFFFF - 34 →
      ∃ object s', s.appendObject = .ok (object, s')) ∧
    (∀ object s', s.appendObject = .ok (object, s') →
      LeavesCode s s' object (ret.bytes ++ ret.bytes) ∧ s'.function object 0 = .ok ret.bytes ∧
      ∀ f, 0 < f → f < functionsPerObject →
        s'.functionStart object f = .ok (s.length + objectHeader + 1) ∧
          s'.function object f = .ok ret.bytes) ∧
    (∀ source object s', s.appendCopyOf source = .ok (object, s') →
      ∃ start stop code, s.objectStart source = .ok start ∧ s.objectEnd source = .ok stop ∧
        s.bytes start stop = .ok code ∧ LeavesCode s s' object code) := by
  have hbounded := hs.wellFormed.toBounded
  refine ⟨fun hobjects hlength => ?_, fun object s' h => ?_, fun source object s' h => ?_⟩
  · have hcode : (readAll (ret.bytes ++ ret.bytes)).fault = none := by decide +kernel
    have hsize : s.length + objectHeader + (ret.bytes ++ ret.bytes).length ≤ maxLength := by
      have hret : (ret.bytes ++ ret.bytes).length = 2 := rfl
      rw [hret, objectHeader, maxLength]
      omega
    obtain ⟨⟨object, r⟩, hr⟩ := exists_pushObject (0 :: List.replicate (functionsPerObject - 1) 1)
      hbounded hfault htargets hobjects hcode hsize
    exact ⟨object, _, (appendObject_eq_ok hcompacted).mpr ⟨r, hr, rfl⟩⟩
  · obtain ⟨r, hr, rfl⟩ := (appendObject_eq_ok hcompacted).mp h
    obtain ⟨rfl, happends⟩ := appends_of_pushObject hbounded rfl hr
    have happends := happends.marked
    exact ⟨leavesCode_of_appends happends hbounded rfl rfl htargets,
      happends.functions_ret hbounded⟩
  · obtain ⟨start, stop, code, offsets, r, hstart, hstop, hcode, hoffsets, hfirst, hr, rfl⟩ :=
      exists_pushed_of_appendCopyOf hcompacted h
    obtain ⟨rfl, happends⟩ := appends_of_pushObject hbounded hoffsets hr
    exact ⟨start, stop, code, hstart, hstop, hcode,
      leavesCode_of_appends happends.marked hbounded hoffsets hfirst htargets⟩

/-- a jump to the end of the stream, which is where the new object begins -/
theorem append_leaves_code_stream_end :
    let strings : StringTable := ⟨[], true, false, none⟩
    let s : Script := ⟨List.replicate 16 32, [0, 0x10, 1], strings, true⟩
    let s' : Script :=
      ⟨List.replicate 16 64 ++ 67 :: List.replicate 15 68, [0, 0x10, 1, 0, 0], strings, true⟩
    s.Built ∧ s.strings.compacted = true ∧ s.allCommands.fault = none ∧ s.InnerTargets ∧
      s.appendObject = .ok (1, s') ∧ LeavesCode s s' 1 [0, 0] := by
  intro strings s s'
  let s₀ : Script := ⟨List.replicate 16 32, [0, 0x10, 1], .empty, false⟩
  have hparse : parse s₀.toBytes = .ok s₀ := toOption_eq_some.mp (by decide +kernel)
  have hdelete : s₀.delete 32 0 = .ok s := toOption_eq_some.mp (by decide +kernel)
  have hs : s.Built := .edit (.parse hparse) (.code (.delete 32 0)) hdelete
  have hall : s.allCommands = ⟨[(32, ret), (33, jumpForward 1)], none⟩ := by decide +kernel
  have htargets : s.InnerTargets := by
    intro a ha hjump
    rw [hall] at ha
    rcases List.mem_pair.mp ha with rfl | rfl
    · exact absurd hjump (by decide +kernel)
    · exact ⟨34, 35, toOption_eq_some.mp (by decide +kernel), by decide, by decide⟩
  have happend : s.appendObject = .ok (1, s') := toOption_eq_some.mp (by decide +kernel)
  have hfault : s.allCommands.fault = none := by rw [hall]
  exact ⟨hs, rfl, hfault, htargets, happend,
    ((append_leaves_code hs rfl hfault htargets).2.1 1 s' happend).1⟩

end Script

end Cartridge
