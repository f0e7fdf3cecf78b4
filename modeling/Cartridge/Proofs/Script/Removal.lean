import Cartridge.Proofs.Script.Decoding
import Cartridge.Proofs.Script.Slots

/-!
# Objects that are removed

The code of the object goes, then its pointers, and then, from the last one to the first, the
commands that name it.  Each deletion moves what is behind it, so what all of them do together is
said by the bytes that go in front of a position.

* `Command.bytesBefore`      how many bytes of commands are in front of a position;
* `Script.deletes_of_replace`, `Script.deleteAll_eq_ok`   one deletion, and a run of them;
* `Script.shrinkTable_eq_ok` the pointers of the object;
* `Script.forgetObject_eq_ok`   the commands that name the object, and the handles in the others;
* `Script.GoesWith`, `Script.Survives`   what goes with an object, and what becomes of the rest
                             (`Script.lowered_of_removal`: wherever its jumps end up);
* `Script.removeObject_eq_ok`   **what is left of a script**.
-/

namespace Cartridge

namespace Command

/-! ## bytes in front of a position -/

/-- the bytes of commands, each with its position, that are in front of `x` -/
def bytesBefore : List (Nat × Command) → Nat → Nat
  | [], _ => 0
  | (pos, c) :: entries, x => min c.length (x - pos) + bytesBefore entries x

theorem bytesBefore_nil (x : Nat) : bytesBefore [] x = 0 := rfl

theorem bytesBefore_cons (entry : Nat × Command) (entries : List (Nat × Command)) (x : Nat) :
    bytesBefore (entry :: entries) x =
      min entry.2.length (x - entry.1) + bytesBefore entries x := rfl

theorem bytesBefore_append (as bs : List (Nat × Command)) (x : Nat) :
    bytesBefore (as ++ bs) x = bytesBefore as x + bytesBefore bs x := by
  induction as with
  | nil => rw [List.nil_append, bytesBefore_nil, Nat.zero_add]
  | cons a as ih => rw [List.cons_append, bytesBefore_cons, ih, bytesBefore_cons, Nat.add_assoc]

theorem bytesBefore_reverse (entries : List (Nat × Command)) (x : Nat) :
    bytesBefore entries.reverse x = bytesBefore entries x := by
  induction entries with
  | nil => rfl
  | cons entry entries ih =>
    rw [List.reverse_cons, bytesBefore_append, ih, bytesBefore_cons, bytesBefore_cons,
      bytesBefore_nil]
    exact Nat.add_comm ..

/-- commands that are changed where they are, none of them in its length -/
theorem bytesBefore_map {f : Command → Command} {as : List (Nat × Command)}
    (h : ∀ a ∈ as, (f a.2).length = a.2.length) (x : Nat) :
    bytesBefore (as.map fun a => (a.1, f a.2)) x = bytesBefore as x := by
  induction as with
  | nil => rfl
  | cons a as ih =>
    obtain ⟨hfirst, hrest⟩ := List.forall_mem_cons.mp h
    rw [List.map_cons, bytesBefore_cons, bytesBefore_cons, ih hrest, hfirst]

/-- commands one behind the other are one block of bytes -/
theorem bytesBefore_laidFrom (pos x : Nat) (cs : List Command) :
    bytesBefore (laidFrom pos cs) x = min (flat cs).length (x - pos) := by
  induction cs generalizing pos with
  | nil => rw [laidFrom_nil, bytesBefore_nil, flat_nil, List.length_nil, Nat.zero_min]
  | cons c cs ih =>
    rw [laidFrom_cons, bytesBefore_cons, ih, length_flat_cons]
    show min c.length (x - pos) + _ = _
    omega

/-- members of a list that go for one reason or the other -/
theorem bytesBefore_filter_or {A B : Nat × Command → Prop} [DecidablePred A] [DecidablePred B]
    (entries : List (Nat × Command)) (x : Nat) :
    bytesBefore (entries.filter fun entry => A entry ∨ B entry) x =
      bytesBefore (entries.filter fun entry => A entry) x +
        bytesBefore ((entries.filter fun entry => ¬ A entry).filter fun entry => B entry) x := by
  induction entries with
  | nil => rfl
  | cons entry entries ih =>
    by_cases hA : A entry
    · rw [List.filter_cons_of_pos (by simpa using .inl hA),
        List.filter_cons_of_pos (by simpa using hA), List.filter_cons_of_neg (by simpa using hA),
        bytesBefore_cons, bytesBefore_cons, ih, Nat.add_assoc]
    · rw [List.filter_cons_of_neg (p := fun entry => decide (A entry)) (by simpa using hA),
        List.filter_cons_of_pos (p := fun entry => decide (¬ A entry)) (by simpa using hA)]
      by_cases hB : B entry
      · rw [List.filter_cons_of_pos (by simpa using .inr hB),
          List.filter_cons_of_pos (by simpa using hB), bytesBefore_cons, bytesBefore_cons, ih]
        omega
      · rw [List.filter_cons_of_neg (by simpa using ⟨hA, hB⟩),
          List.filter_cons_of_neg (by simpa using hB), ih]

/-- commands that have moved, seen from a position that has moved with them -/
theorem bytesBefore_of_forall₂ {R : Nat × Command → Nat × Command → Prop} {x x' : Nat}
    {as bs : List (Nat × Command)} (h : List.Forall₂ R as bs)
    (hR : ∀ a b, R a b → min b.2.length (x' - b.1) = min a.2.length (x - a.1)) :
    bytesBefore bs x' = bytesBefore as x := by
  induction h with
  | nil => rfl
  | cons hfirst _ ih => rw [bytesBefore_cons, bytesBefore_cons, hR _ _ hfirst, ih]

end Command

open Command

/-- where a position ends up when bytes go -/
def closed (place removed x : Nat) : Nat := x - min removed (x - place)

theorem Splice.carry_delete (place removed x : Nat) :
    carry ⟨place, removed, 0, .before⟩ x = closed place removed x := by
  rw [carry_eq_follow rfl, follow, closed]
  dsimp only
  by_cases hle : x ≤ place
  · rw [if_pos hle]
    omega
  · rw [if_neg hle]
    by_cases hin : x < place + removed
    · rw [if_pos hin]
      omega
    · rw [if_neg hin]
      omega

theorem Splice.shift_delete {place removed x : Nat} (h : x < place ∨ place + removed ≤ x) :
    shift ⟨place, removed, 0, .before⟩ x = closed place removed x := by
  rw [shift, closed]
  dsimp only
  by_cases hlt : x < place
  · rw [if_pos hlt]
    omega
  · rw [if_neg hlt]
    omega

namespace Script

/-! ## deletions -/

section
variable {e : Splice} {s s' : Script} {front middle back kept new moved : List Command}
  (h : Exchange e s s' front middle back kept new moved)
include h

theorem Exchange.commandsIn_middle : s.commandsIn e.place e.stop = laidFrom e.place middle := by
  rw [h.stop, h.place]
  exact commandsIn_of_flat h.whole h.stream

theorem Exchange.filter_outside :
    s.allCommands.commands.filter (fun a => ¬ (e.place ≤ a.1 ∧ a.1 < e.stop)) =
      laidFrom s.headerLength front ++ laidFrom e.stop back := by
  have hplace : e.place ≤ e.stop := Nat.le_add_right ..
  have hfront : (laidFrom s.headerLength front).filter
      (fun a => ¬ (e.place ≤ a.1 ∧ a.1 < e.stop)) = laidFrom s.headerLength front := by
    rw [List.filter_eq_self]
    rintro ⟨p, c⟩ hmem
    have hends := (mem_laidFrom hmem).2
    have hpositive := c.length_pos
    rw [← h.place] at hends
    exact decide_eq_true fun hin => by omega
  have hmiddle : (laidFrom e.place middle).filter
      (fun a => ¬ (e.place ≤ a.1 ∧ a.1 < e.stop)) = [] := by
    rw [List.filter_eq_nil_iff]
    rintro ⟨p, c⟩ hmem hout
    obtain ⟨hlow, hends⟩ := mem_laidFrom hmem
    have hpositive := c.length_pos
    rw [← h.stop] at hends
    exact of_decide_eq_true hout ⟨hlow, by omega⟩
  have hback : (laidFrom e.stop back).filter
      (fun a => ¬ (e.place ≤ a.1 ∧ a.1 < e.stop)) = laidFrom e.stop back := by
    rw [List.filter_eq_self]
    rintro ⟨p, c⟩ hmem
    have hlow := (mem_laidFrom hmem).1
    exact decide_eq_true fun hin => by omega
  rw [h.allCommands, List.filter_append, List.filter_append, hfront, hmiddle, hback,
    List.append_nil]

end

/-- what a deletion does -/
structure Deletes (s t : Script) (place removed : Nat) : Prop where
  fault : s.allCommands.fault = none
  fault' : t.allCommands.fault = none
  header_le : s.headerLength ≤ place
  header : t.headerLength = s.headerLength
  pointers : t.pointers = s.pointers.map (closed place removed)
  bytes : ∀ x, bytesBefore (s.commandsIn place (place + removed)) x = min removed (x - place)
  apart : ∀ a ∈ s.allCommands.commands, a.1 + a.2.length ≤ place ∨
    place ≤ a.1 ∧ a.1 + a.2.length ≤ place + removed ∨ place + removed ≤ a.1
  carried : List.Forall₂ (Carried (closed place removed) (closed place removed))
    (s.allCommands.commands.filter fun a => ¬ (place ≤ a.1 ∧ a.1 < place + removed))
    t.allCommands.commands

theorem deletes_of_replace {s t : Script} {place removed : Nat}
    (h : s.replace place removed [] .before = .ok t) : Deletes s t place removed := by
  obtain ⟨hlow, _, _, _, _, hspliced⟩ := replace_eq_ok h
  obtain ⟨front, middle, back, kept, new, moved, hnil, hexchange⟩ := exchange_of_replace h
  obtain rfl : new = [] := eq_nil_of_flat (by rw [← hnil, List.length_nil])
  have hcommands : t.allCommands.commands =
      laidFrom s.headerLength kept ++ laidFrom (place + 0) moved := by
    rw [hexchange.allCommands', laidFrom_nil, List.append_nil]
    rfl
  have houtside := hexchange.filter_outside
  have hmoves : ∀ {as bs : List (Nat × Command)}, (∀ a ∈ as, a.1 < place ∨ place + removed ≤ a.1) →
      List.Forall₂ (Carried (Splice.shift ⟨place, removed, 0, .before⟩)
        (Splice.carry ⟨place, removed, 0, .before⟩)) as bs →
      List.Forall₂ (Carried (closed place removed) (closed place removed)) as bs := by
    intro as bs hout hcarried
    refine ((List.forall₂_and_left as bs).mpr ⟨hout, hcarried⟩).imp ?_
    rintro a b ⟨hout, hcarried⟩
    exact hcarried.mono (Splice.shift_delete hout) (Splice.carry_delete place removed)
  refine
    { fault := by rw [hexchange.allCommands]
      fault' := by rw [hexchange.allCommands']
      header_le := hlow
      header := hexchange.header
      pointers := ?_
      bytes := ?_
      apart := fun a ha => hexchange.apart ha
      carried := ?_ }
  · rw [(spliced_frame hspliced).1]
    exact List.map_congr_left fun x _ => Splice.carry_delete place removed x
  · intro x
    have hremoved : removed = (flat middle).length := hexchange.removed_eq
    rw [show s.commandsIn place (place + removed) = _ from hexchange.commandsIn_middle,
      bytesBefore_laidFrom, ← hremoved]
  · rw [show s.allCommands.commands.filter
      (fun a => ¬ (place ≤ a.1 ∧ a.1 < place + removed)) = _ from houtside, hcommands]
    refine List.rel_append (hmoves ?_ hexchange.before) (hmoves ?_ hexchange.behind)
    · rintro ⟨p, c⟩ hmem
      have hends := (mem_laidFrom hmem).2
      have hpositive := c.length_pos
      have hplace : place = s.headerLength + (flat front).length := hexchange.place
      exact .inl (by show p < place; omega)
    · rintro ⟨p, c⟩ hmem
      exact .inr (mem_laidFrom hmem).1

/-- all jumps have targets -/
def HasTargets (s : Script) : Prop :=
  ∀ a ∈ s.allCommands.commands, a.2.IsJump → ∃ base target, a.2.jump? a.1 = .ok (some (base, target))

/-- what has been carried along has its targets -/
theorem hasTargets_of_carried {move follow : Nat → Nat} {t : Script} {as : List (Nat × Command)}
    (h : List.Forall₂ (Carried move follow) as t.allCommands.commands) : t.HasTargets := by
  intro b hb hjump
  obtain ⟨a, _, hcarried⟩ := exists_of_mem_right h hb
  obtain ⟨_, base, target, _, hends⟩ := hcarried.target (hcarried.isJump_iff.mp hjump)
  exact ⟨base, _, hends⟩

theorem carried_self {s : Script} (h : s.HasTargets) {a : Nat × Command}
    (ha : a ∈ s.allCommands.commands) : Carried (fun x => x) (fun x => x) a a where
  position := rfl
  opcode := rfl
  args := fun _ => rfl
  jumpArgs := by
    intro hjump
    obtain ⟨_, _, _, hwhole, _⟩ := split_of_mem ha
    have hargs := hjump.args_ne_nil hwhole
    have hlast := (List.dropLast_append_getLast hargs).symm
    exact ⟨_, _, _, hlast, hlast⟩
  target := by
    intro hjump
    obtain ⟨base, target, hends⟩ := h a ha hjump
    exact ⟨base, base, target, hends, hends⟩

/-- in front of a deletion nothing moves -/
theorem bytesBefore_closed {gone : List (Nat × Command)} {place : Nat}
    (h : ∀ b ∈ gone, b.1 + b.2.length ≤ place) (removed x : Nat) :
    bytesBefore gone (closed place removed x) = bytesBefore gone x := by
  induction gone with
  | nil => rfl
  | cons b gone ih =>
    obtain ⟨hends, hrest⟩ := List.forall_mem_cons.mp h
    rw [bytesBefore_cons, bytesBefore_cons, ih hrest, closed]
    omega

/-- the command begins in none of those -/
def Outside (gone : List (Nat × Command)) (a : Nat × Command) : Prop :=
  ∀ b ∈ gone, ¬ (b.1 ≤ a.1 ∧ a.1 < b.1 + b.2.length)

instance (gone : List (Nat × Command)) : DecidablePred (Outside gone) :=
  fun _ => inferInstanceAs (Decidable (∀ _ ∈ gone, _))

/-- only where the command begins matters -/
theorem outside_congr (gone : List (Nat × Command)) (pos : Nat) (c d : Command) :
    Outside gone (pos, c) ↔ Outside gone (pos, d) := Iff.rfl

theorem filter_outside_cons (entry : Nat × Command) (gone as : List (Nat × Command)) :
    as.filter (fun a => Outside (entry :: gone) a) =
      (as.filter fun a => ¬ (entry.1 ≤ a.1 ∧ a.1 < entry.1 + entry.2.length)).filter
        fun a => Outside gone a := by
  rw [List.filter_filter]
  refine List.filter_congr fun a _ => ?_
  rw [← Bool.decide_and, decide_eq_decide, Outside, List.forall_mem_cons]
  exact and_comm

/-- a deletion behind commands leaves outside what is outside them -/
theorem outside_closed {gone : List (Nat × Command)} {entry a b : Nat × Command}
    (h : ∀ b ∈ gone, b.1 + b.2.length ≤ entry.1)
    (hb : b.1 = closed entry.1 entry.2.length a.1) : Outside gone a ↔ Outside gone b := by
  refine forall₂_congr fun c hc => ?_
  have hends := h c hc
  rw [hb, closed]
  omega

/-- **A run of deletions**, from the last command to the first. -/
theorem deleteAll_eq_ok {s t : Script} {gone : List (Nat × Command)}
    (hfault : s.allCommands.fault = none) (htargets : s.HasTargets)
    (hdescending : gone.Pairwise fun a b => b.1 + b.2.length ≤ a.1)
    (h : s.deleteAll gone = .ok t) :
    t.allCommands.fault = none ∧
      t.pointers = s.pointers.map (fun x => x - bytesBefore gone x) ∧
      List.Forall₂ (Carried (fun x => x - bytesBefore gone x) (fun x => x - bytesBefore gone x))
        (s.allCommands.commands.filter fun a => Outside gone a) t.allCommands.commands := by
  induction gone generalizing s with
  | nil =>
    obtain rfl : s = t := Except.ok.inj h
    have hall : s.allCommands.commands.filter (fun a => Outside [] a) = s.allCommands.commands :=
      List.filter_eq_self.mpr fun a _ => decide_eq_true fun b hb => by cases hb
    refine ⟨hfault, (List.map_id _).symm, ?_⟩
    rw [hall]
    exact List.forall₂_same.mpr fun a ha => carried_self htargets ha
  | cons entry gone ih =>
    obtain ⟨r, hreplace, h⟩ := bind_eq_ok.mp h
    obtain ⟨hbelow, hdescending⟩ := List.pairwise_cons.mp hdescending
    have hdeletes := deletes_of_replace hreplace
    obtain ⟨hfault', hpointers, hcarried⟩ :=
      ih hdeletes.fault' (hasTargets_of_carried hdeletes.carried) hdescending h
    -- first the entry closes up, and then the rest, which is in front of it
    have hmove : ∀ x, closed entry.1 entry.2.length x -
        bytesBefore gone (closed entry.1 entry.2.length x) =
        x - bytesBefore (entry :: gone) x := by
      intro x
      rw [bytesBefore_closed hbelow, bytesBefore_cons, ← Nat.sub_sub]
      rfl
    refine ⟨hfault', ?_, ?_⟩
    · rw [hpointers, hdeletes.pointers, List.map_map]
      exact List.map_congr_left fun x _ => hmove x
    · have hfirst := filter_of_carried (p := Outside gone) (q := Outside gone) hdeletes.carried
        fun a _ b hab => outside_closed hbelow hab.position
      rw [filter_outside_cons]
      refine forall₂_trans hfirst hcarried fun a b c hab hbc => ?_
      exact (hab.trans hbc).mono (hmove a.1) hmove

/-! ## the pointers of the object -/

theorem carried_of_shrinkTable {s t : Script} {object : Nat} (hbounded : s.Bounded)
    (hobject : object < s.objectCount) (h : s.shrinkTable object = .ok t) :
    t.allCommands.fault = none ∧
      t.pointers = (s.pointers.take (object * functionsPerObject) ++
        s.pointers.drop ((object + 1) * functionsPerObject)).map (· - objectHeader) ∧
      ∃ follow, (∀ x, s.headerLength ≤ x → follow x = x - objectHeader) ∧
        List.Forall₂ (Carried (· - objectHeader) follow)
          s.allCommands.commands t.allCommands.commands := by
  obtain ⟨r, hresize, h⟩ := bind_eq_ok.mp h
  have hkept : t.pointers = r.pointers.take (object * functionsPerObject) ++
      r.pointers.drop ((object + 1) * functionsPerObject) := by
    cases h
    rfl
  have hsame : t.stream = r.stream := by
    cases h
    rfl
  obtain ⟨hinside, _, hpointers, _, _⟩ := resize_eq_ok hresize
  have hpos : 0 < objectHeader := by decide
  have hbehind : ∀ x, s.headerLength ≤ x →
      Splice.carry ⟨object * objectHeader, objectHeader, 0, .before⟩ x = x - objectHeader :=
    fun x hx => carry_behind (Nat.le_trans hinside hx) (Nat.lt_add_of_pos_right hpos) .before
  have hslots := hbounded.length_pointers
  have hheader : t.headerLength = s.headerLength - objectHeader + 0 := by
    rw [headerLength, hkept, headerLength, List.length_append, List.length_take, List.length_drop,
      hpointers, List.length_map, hslots, functionsPerObject, objectHeader]
    omega
  obtain ⟨hfault, hcarried⟩ := (carried_of_resize hresize).2 t hsame hheader
  refine ⟨hfault, ?_, _, hbehind, hcarried⟩
  rw [hkept, hpointers, ← List.map_take, ← List.map_drop, ← List.map_append]
  refine List.map_congr_left fun x hx => hbehind x (hbounded.pointers x ?_).1
  rcases List.mem_append.mp hx with hx | hx
  · exact List.mem_of_mem_take hx
  · exact List.mem_of_mem_drop hx

theorem shrinkTable_eq_ok {s t : Script} {object : Nat} (hbounded : s.Bounded)
    (hobject : object < s.objectCount)
    (hjumps : ∀ a ∈ s.allCommands.commands, ∀ base target,
      a.2.jump? a.1 = .ok (some (base, target)) → s.headerLength ≤ target)
    (h : s.shrinkTable object = .ok t) :
    t.allCommands.fault = none ∧
      t.pointers = (s.pointers.take (object * functionsPerObject) ++
        s.pointers.drop ((object + 1) * functionsPerObject)).map (· - objectHeader) ∧
      List.Forall₂ (Carried (· - objectHeader) (· - objectHeader))
        s.allCommands.commands t.allCommands.commands := by
  obtain ⟨hfault, hpointers, follow, hfollow, hcarried⟩ :=
    carried_of_shrinkTable hbounded hobject h
  refine ⟨hfault, hpointers, ((List.forall₂_and_left _ _).mpr ⟨hjumps, hcarried⟩).imp ?_⟩
  rintro a b ⟨hinside, hab⟩
  exact hab.congr rfl fun base target hends => hfollow target (hinside base target hends)

/-! ## handles -/

theorem namedHandle?_of_eq {c : Command} (h : c.kind = .objectRef) :
    namedHandle? c = some (c.args.headD 0).toNat := by
  rw [namedHandle?, if_pos h]

theorem namedHandle?_of_ne {c : Command} (h : c.kind ≠ .objectRef) : namedHandle? c = none := by
  rw [namedHandle?, if_neg h]

section
-- the handle of a command need not be computed to see what is checked of it
attribute [local irreducible] namedHandle?

theorem checkHandles_nil : checkHandles [] = .ok () := rfl

theorem checkHandles_cons (pos : Nat) (c : Command) (rest : List (Nat × Command)) :
    checkHandles ((pos, c) :: rest) =
      match namedHandle? c with
      | some h =>
        if h % 2 ≠ 0 then .error (.format (.oddHandle c.info.name pos h)) else checkHandles rest
      | none => checkHandles rest := rfl

end

theorem lowered_of_ne {c : Command} (handle : Nat) (h : c.kind ≠ .objectRef) :
    lowered handle c = c := by
  unfold lowered
  rw [namedHandle?_of_ne h]

theorem opcode_lowered (handle : Nat) (c : Command) : (lowered handle c).opcode = c.opcode := by
  unfold lowered
  split
  · split
    · rfl
    · rfl
  · rfl

theorem kind_lowered (handle : Nat) (c : Command) : (lowered handle c).kind = c.kind :=
  kind_congr (opcode_lowered handle c)

theorem isJump_lowered {handle : Nat} {c : Command} : (lowered handle c).IsJump ↔ c.IsJump := by
  rw [IsJump, IsJump, kind_lowered]

theorem lowered_of_isJump {handle : Nat} {c : Command} (h : c.IsJump) : lowered handle c = c := by
  refine lowered_of_ne handle fun hkind => ?_
  rw [IsJump, hkind] at h
  exact absurd h (by decide)

/-- handles above are lowered by two, and no others -/
theorem namedHandle?_lowered (handle : Nat) (c : Command) :
    namedHandle? (lowered handle c) =
      (namedHandle? c).map fun h => if handle < h then h - 2 else h := by
  by_cases hkind : c.kind = .objectRef
  · rw [namedHandle?_of_eq ((kind_lowered handle c).trans hkind), namedHandle?_of_eq hkind,
      Option.map_some]
    unfold lowered
    rw [namedHandle?_of_eq hkind]
    dsimp only
    by_cases hlt : handle < (c.args.headD 0).toNat
    · rw [if_pos hlt, if_pos hlt]
      have hbyte := (c.args.headD 0).toNat_lt
      have hnew : (UInt8.ofNat ((c.args.headD 0).toNat - 2)).toNat =
          (c.args.headD 0).toNat - 2 := by
        rw [UInt8.toNat_ofNat']
        exact Nat.mod_eq_of_lt (by omega)
      exact congrArg some hnew
    · rw [if_neg hlt, if_neg hlt]
  · rw [lowered_of_ne handle hkind, namedHandle?_of_ne hkind]
    rfl

section
variable {move follow : Nat → Nat} {a b : Nat × Command}

/-- a command without a target keeps its arguments -/
theorem eq_of_carried (h : Carried move follow a b) (hkind : a.2.kind = .objectRef) :
    b = (move a.1, a.2) := by
  refine h.eq_of_not_jump ?_
  rw [IsJump, hkind]
  decide

theorem namedHandle?_of_carried (h : Carried move follow a b) :
    namedHandle? b.2 = namedHandle? a.2 := by
  by_cases hkind : a.2.kind = .objectRef
  · rw [eq_of_carried h hkind]
  · have hkind' : b.2.kind ≠ .objectRef := by
      rw [h.kind_eq]
      exact hkind
    rw [namedHandle?_of_ne hkind, namedHandle?_of_ne hkind']

theorem carried_lowered (h : Carried move follow a b) (handle : Nat) :
    Carried move follow (a.1, lowered handle a.2) (b.1, lowered handle b.2) := by
  by_cases hkind : a.2.kind = .objectRef
  · rw [eq_of_carried h hkind]
    have hjump : ¬ (lowered handle a.2).IsJump := by
      rw [isJump_lowered, IsJump, hkind]
      decide
    exact carried_of_not_jump a.1 hjump
  · have hkind' : b.2.kind ≠ .objectRef := by
      rw [h.kind_eq]
      exact hkind
    rw [lowered_of_ne handle hkind, lowered_of_ne handle hkind']
    exact h

end

/-! ## commands that name the object -/

theorem pairwise_laidFrom (pos : Nat) (cs : List Command) :
    (laidFrom pos cs).Pairwise fun a b => a.1 + a.2.length ≤ b.1 := by
  induction cs generalizing pos with
  | nil => exact .nil
  | cons c cs ih =>
    rw [laidFrom_cons]
    exact List.pairwise_cons.mpr ⟨fun b hb => (mem_laidFrom hb).1, ih _⟩

theorem pairwise_commands {s : Script} (hfault : s.allCommands.fault = none) :
    s.allCommands.commands.Pairwise fun a b => a.1 + a.2.length ≤ b.1 := by
  obtain ⟨cs, _, _, hall⟩ := flat_of_allCommands hfault
  rw [hall]
  exact pairwise_laidFrom ..

/-- two commands of a script have no byte in common -/
theorem eq_of_mem_commands {s : Script} {a b : Nat × Command}
    (hfault : s.allCommands.fault = none) (ha : a ∈ s.allCommands.commands)
    (hb : b ∈ s.allCommands.commands) (hlow : b.1 ≤ a.1) (hhigh : a.1 < b.1 + b.2.length) :
    a = b := by
  have hsame : b.1 = a.1 := by
    by_contra hne
    have hgap := boundary_gap hfault hb (.inr (List.mem_map_of_mem ha)) (by omega)
    omega
  have hread := (commandAt_of_mem ha).2
  rw [← hsame, (commandAt_of_mem hb).2] at hread
  exact Prod.ext hsame.symm (Except.ok.inj hread).symm

/-- the commands when all handles above one are lowered -/
theorem commands_of_lowered {s : Script} {commands : List (Nat × Command)} (handle : Nat)
    (h : s.allCommands.toExcept = .ok commands) :
    commands = s.allCommands.commands ∧ s.allCommands.fault = none ∧
      ({ s with stream := commands.flatMap fun a => (lowered handle a.2).bytes } : Script).allCommands =
        ⟨s.allCommands.commands.map fun a => (a.1, lowered handle a.2), none⟩ := by
  obtain ⟨cs, hwhole, hstream, hbytes⟩ := flatMap_of_toExcept h (lowered handle)
  obtain ⟨hfault, hall⟩ := commands_of_map (s := s)
    (t := { s with stream := commands.flatMap fun a => (lowered handle a.2).bytes }) hwhole
    (fun c hc => ⟨isWhole_lowered _ (hwhole c hc), length_lowered _ (hwhole c hc)⟩) rfl hstream
    hbytes
  rw [Reading.toExcept, hfault] at h
  exact ⟨(Except.ok.inj h).symm, hfault, hall⟩

/-- a command is outside all that go just when it does not go itself -/
theorem outside_named_iff {s : Script} (hfault : s.allCommands.fault = none)
    {p : Nat × Command → Prop} [DecidablePred p] {a : Nat × Command}
    (ha : a ∈ s.allCommands.commands) :
    Outside (s.allCommands.commands.filter fun a => p a).reverse a ↔ ¬ p a := by
  constructor
  · intro hout hgoes
    have hpositive := a.2.length_pos
    have hgone : a ∈ s.allCommands.commands.filter fun a => p a :=
      List.mem_filter.mpr ⟨ha, decide_eq_true hgoes⟩
    exact hout a (List.mem_reverse.mpr hgone) ⟨Nat.le_refl _, Nat.lt_add_of_pos_right hpositive⟩
  · rintro hstays b hb ⟨hlow, hhigh⟩
    obtain ⟨hmem, hgoes⟩ := List.mem_filter.mp (List.mem_reverse.mp hb)
    rw [eq_of_mem_commands hfault ha hmem hlow hhigh] at hstays
    exact hstays (of_decide_eq_true hgoes)

/-- **What is left when an object is forgotten**: the other commands, with handles lowered. -/
theorem forgetObject_eq_ok {s t : Script} {object : Nat} (htargets : s.HasTargets)
    (h : s.forgetObject object = .ok t) :
    let gone := s.allCommands.commands.filter fun a => namedHandle? a.2 = some (2 * object)
    t.allCommands.fault = none ∧
      t.pointers = s.pointers.map (fun x => x - bytesBefore gone x) ∧
      List.Forall₂ (fun a b => Carried (fun x => x - bytesBefore gone x)
        (fun x => x - bytesBefore gone x) (a.1, lowered (2 * object) a.2) b)
        (s.allCommands.commands.filter fun a => ¬ namedHandle? a.2 = some (2 * object))
        t.allCommands.commands := by
  intro gone
  obtain ⟨_, _, h⟩ := bind_eq_ok.mp h
  obtain ⟨commands, hcommands, h⟩ := bind_eq_ok.mp h
  obtain ⟨rfl, hfault, hu⟩ := commands_of_lowered (2 * object) hcommands
  let u : Script := { s with stream :=
    s.allCommands.commands.flatMap fun a => (lowered (2 * object) a.2).bytes }
  have hdelete : u.deleteAll gone.reverse = .ok t := h
  have hu : u.allCommands =
      ⟨s.allCommands.commands.map fun a => (a.1, lowered (2 * object) a.2), none⟩ := hu
  have htargets' : u.HasTargets := by
    intro a ha hjump
    rw [hu] at ha
    obtain ⟨b, hb, rfl⟩ := List.mem_map.mp ha
    dsimp only at hjump ⊢
    rw [isJump_lowered] at hjump
    rw [lowered_of_isJump hjump]
    exact htargets b hb hjump
  have hdescending : gone.reverse.Pairwise fun a b => b.1 + b.2.length ≤ a.1 := by
    rw [List.pairwise_reverse]
    exact (pairwise_commands hfault).sublist List.filter_sublist
  obtain ⟨hfault', hpointers, hcarried⟩ :=
    deleteAll_eq_ok (by rw [hu]) htargets' hdescending hdelete
  have hbefore : ∀ x, bytesBefore gone.reverse x = bytesBefore gone x := bytesBefore_reverse gone
  simp only [hbefore] at hpointers hcarried
  refine ⟨hfault', hpointers, ?_⟩
  have hkept : s.allCommands.commands.filter ((fun a => decide (Outside gone.reverse a)) ∘
      fun a => (a.1, lowered (2 * object) a.2)) =
      s.allCommands.commands.filter fun a => ¬ namedHandle? a.2 = some (2 * object) :=
    List.filter_congr fun a ha => decide_eq_decide.mpr
      ((outside_congr ..).trans (outside_named_iff hfault ha))
  rwa [hu, List.filter_map, List.forall₂_map_left_iff, hkept] at hcarried

/-! ## the edit as a whole -/

/-- the command goes when the object does that has its code in `[start, stop)` -/
def GoesWith (object start stop : Nat) (a : Nat × Command) : Prop :=
  (start ≤ a.1 ∧ a.1 < stop) ∨ namedHandle? a.2 = some (2 * object)

instance (object start stop : Nat) : DecidablePred (GoesWith object start stop) :=
  fun _ => inferInstanceAs (Decidable (_ ∨ _))

/-- What has become of a command that stays: it has moved, a jump with its target, and a handle
above that of the object is lowered by two. -/
structure Survives (move : Nat → Nat) (handle : Nat) (old new : Nat × Command) : Prop where
  carried : Carried move move (old.1, lowered handle old.2) new
  handle : namedHandle? new.2 =
    (namedHandle? old.2).map fun h => if handle < h then h - 2 else h

/-- commands outside the range, seen from a position that has moved with them -/
theorem Deletes.bytesBefore_moved {s t : Script} {place removed n : Nat}
    (h : Deletes s t place removed) (hn : n ≤ s.headerLength) {follow : Nat → Nat}
    {as bs : List (Nat × Command)}
    (has : ∀ a ∈ as, a ∈ s.allCommands.commands ∧ ¬ (place ≤ a.1 ∧ a.1 < place + removed))
    (hcarried : List.Forall₂ (Carried ((· - n) ∘ closed place removed) follow) as bs) (x : Nat) :
    bytesBefore bs (closed place removed x - n) = bytesBefore as x := by
  refine bytesBefore_of_forall₂ ((List.forall₂_and_left as bs).mpr ⟨has, hcarried⟩) ?_
  rintro a b ⟨⟨hmem, hout⟩, hab⟩
  have hpositive := a.2.length_pos
  have hlow : s.headerLength ≤ a.1 := (bounds_of_mem_commands hmem).1
  rw [hab.length_eq, hab.position, Function.comp_apply, closed, closed]
  have hplace := h.header_le
  have hends := h.apart a hmem
  omega

/-- the code of the object goes, and then its pointers -/
theorem Deletes.shrinkTable_eq_ok {s cut t : Script} {object place removed : Nat}
    (h : Deletes s cut place removed) (hbounded : cut.Bounded) (hobject : object < s.objectCount)
    (hjumps : ∀ a ∈ s.allCommands.commands, ∀ base target,
      a.2.jump? a.1 = .ok (some (base, target)) → s.headerLength ≤ target)
    (ht : cut.shrinkTable object = .ok t) :
    t.pointers = (s.pointers.take (object * functionsPerObject) ++
        s.pointers.drop ((object + 1) * functionsPerObject)).map
          ((· - objectHeader) ∘ closed place removed) ∧
      List.Forall₂ (Carried ((· - objectHeader) ∘ closed place removed)
        ((· - objectHeader) ∘ closed place removed))
        (s.allCommands.commands.filter fun a => ¬ (place ≤ a.1 ∧ a.1 < place + removed))
        t.allCommands.commands := by
  have hcutJumps : ∀ b ∈ cut.allCommands.commands, ∀ base target,
      b.2.jump? b.1 = .ok (some (base, target)) → cut.headerLength ≤ target := by
    intro b hb base target hends
    obtain ⟨a, ha, hab⟩ := exists_of_mem_right h.carried hb
    obtain ⟨_, _, old, hold, hnew⟩ := hab.target (hab.isJump_iff.mp (isJump_of_ends hends))
    rw [hends] at hnew
    cases hnew
    have hinside := hjumps a (List.mem_of_mem_filter ha) _ old hold
    have hplace := h.header_le
    rw [h.header, closed]
    omega
  have hcutObject : object < cut.objectCount := by
    rw [objectCount, h.pointers, List.length_map]
    exact hobject
  obtain ⟨_, hpointers, hcarried⟩ :=
    Script.shrinkTable_eq_ok hbounded hcutObject hcutJumps ht
  refine ⟨?_, forall₂_trans h.carried hcarried fun a b c hab hbc => hab.trans hbc⟩
  rw [hpointers, h.pointers, ← List.map_take, ← List.map_drop, ← List.map_append, List.map_map]

/-- the code of the object is one block, and the commands that name it are outside -/
theorem bytesBefore_goesWith (s : Script) (object start stop x : Nat) :
    bytesBefore (s.allCommands.commands.filter fun a => GoesWith object start stop a) x =
      bytesBefore (s.commandsIn start stop) x +
        bytesBefore ((s.allCommands.commands.filter fun a => ¬ (start ≤ a.1 ∧ a.1 < stop)).filter
          fun a => namedHandle? a.2 = some (2 * object)) x :=
  bytesBefore_filter_or (A := fun a => start ≤ a.1 ∧ a.1 < stop)
    (B := fun a => namedHandle? a.2 = some (2 * object)) s.allCommands.commands x

theorem filter_not_goesWith {s : Script} {object start stop : Nat} :
    (s.allCommands.commands.filter fun a => ¬ GoesWith object start stop a) =
      (s.allCommands.commands.filter fun a => ¬ (start ≤ a.1 ∧ a.1 < stop)).filter
        fun a => ¬ namedHandle? a.2 = some (2 * object) := by
  rw [List.filter_filter]
  refine List.filter_congr fun a _ => ?_
  rw [← Bool.decide_and, decide_eq_decide, GoesWith, not_or]
  exact and_comm

/-- where a position ends up when the code has gone, the pointers have, and then the commands that
name the object -/
theorem Deletes.moved_eq {s cut : Script} {place removed : Nat}
    (h : Deletes s cut place removed) (object : Nat) (hheader : objectHeader ≤ s.headerLength)
    {follow : Nat → Nat} {moved : List (Nat × Command)}
    (hcarried : List.Forall₂ (Carried ((· - objectHeader) ∘ closed place removed) follow)
      (s.allCommands.commands.filter fun a => ¬ (place ≤ a.1 ∧ a.1 < place + removed)) moved)
    (x : Nat) :
    closed place removed x - objectHeader -
        bytesBefore (moved.filter fun a => namedHandle? a.2 = some (2 * object))
          (closed place removed x - objectHeader) =
      x - objectHeader - bytesBefore (s.allCommands.commands.filter fun a =>
        GoesWith object place (place + removed) a) x := by
  have hnamed := filter_of_carried hcarried
    (p := fun a => namedHandle? a.2 = some (2 * object))
    (q := fun a => namedHandle? a.2 = some (2 * object))
    fun a _ b hab => by rw [namedHandle?_of_carried hab]
  have hmoved := h.bytesBefore_moved hheader (fun a ha => by
    obtain ⟨hmem, hout⟩ := List.mem_filter.mp (List.mem_of_mem_filter ha)
    exact ⟨hmem, of_decide_eq_true hout⟩) hnamed x
  rw [hmoved, bytesBefore_goesWith, h.bytes x, closed]
  omega

/-- what becomes of the commands that stay, wherever jumps end up -/
theorem lowered_of_removal {s cut shrunk t : Script} {object start stop : Nat}
    (hbounded : s.Bounded) (hobject : object < s.objectCount) (hle : start ≤ stop)
    (hcut : s.replace start (stop - start) [] .before = .ok cut)
    (hshrunk : cut.shrinkTable object = .ok shrunk)
    (hforget : shrunk.forgetObject object = .ok t) :
    let gone := s.allCommands.commands.filter fun a => GoesWith object start stop a
    ∃ follow, List.Forall₂ (fun a b => Carried (fun x => x - objectHeader - bytesBefore gone x)
        follow (a.1, lowered (2 * object) a.2) b)
      (s.allCommands.commands.filter fun a => ¬ GoesWith object start stop a)
      t.allCommands.commands := by
  intro gone
  have hheader : objectHeader ≤ s.headerLength := by
    rw [hbounded.headerLength_eq]
    exact Nat.le_mul_of_pos_left _ (Nat.zero_lt_of_lt hobject)
  have hdeletes := deletes_of_replace hcut
  have hobject' : object < cut.objectCount := by
    rw [objectCount, hdeletes.pointers, List.length_map]
    exact hobject
  obtain ⟨_, _, follow, _, htable⟩ :=
    carried_of_shrinkTable (hbounded.replace hcut) hobject' hshrunk
  have hcarried := forall₂_trans hdeletes.carried htable fun a b c hab hbc => hab.trans hbc
  obtain ⟨_, _, hlowered⟩ := forgetObject_eq_ok (hasTargets_of_carried hcarried) hforget
  have hmove := hdeletes.moved_eq object hheader hcarried
  rw [Nat.add_sub_cancel' hle] at hcarried hmove
  have hothers := filter_of_carried hcarried
    (p := fun a => ¬ namedHandle? a.2 = some (2 * object))
    (q := fun a => ¬ namedHandle? a.2 = some (2 * object))
    fun a _ b hab => by rw [namedHandle?_of_carried hab]
  let forgotten := fun x => x -
    bytesBefore (shrunk.allCommands.commands.filter fun a => namedHandle? a.2 = some (2 * object)) x
  refine ⟨forgotten ∘ follow ∘ closed start (stop - start), ?_⟩
  rw [filter_not_goesWith]
  refine forall₂_trans hothers hlowered fun a b c hab hbc => ?_
  exact ((carried_lowered hab _).trans hbc).mono (hmove a.1) fun _ => rfl

/-- **What is left of a script when an object is removed.** -/
theorem removeObject_eq_ok {s s' : Script} {object start stop : Nat} (hs : s.Built)
    (hcompacted : s.strings.compacted = true)
    (hjumps : ∀ a ∈ s.allCommands.commands, ∀ base target,
      a.2.jump? a.1 = .ok (some (base, target)) → s.headerLength ≤ target)
    (hstart : s.objectStart object = .ok start) (hstop : s.objectEnd object = .ok stop)
    (h : s.removeObject object = .ok s') :
    let gone := s.allCommands.commands.filter fun a => GoesWith object start stop a
    let move := fun x => x - objectHeader - bytesBefore gone x
    s.allCommands.fault = none ∧ s'.allCommands.fault = none ∧
      List.Forall₂ (Survives move (2 * object))
        (s.allCommands.commands.filter fun a => ¬ GoesWith object start stop a)
        s'.allCommands.commands ∧
      s'.pointers = (s.pointers.take (object * functionsPerObject) ++
        s.pointers.drop ((object + 1) * functionsPerObject)).map move ∧
      s'.strings = s.strings := by
  intro gone move
  obtain ⟨start', hstart', h⟩ := bind_eq_ok.mp h
  obtain ⟨stop', hstop', h⟩ := bind_eq_ok.mp h
  rw [hstart] at hstart'
  rw [hstop] at hstop'
  cases hstart'
  cases hstop'
  obtain ⟨t, hchange, rfl⟩ := (edit_eq_ok hcompacted).mp h
  obtain ⟨cut, hcut, hchange⟩ := bind_eq_ok.mp hchange
  obtain ⟨shrunk, hshrunk, hforget⟩ := bind_eq_ok.mp hchange
  have hbounded := hs.wellFormed.toBounded
  have hcutBounded := hbounded.replace hcut
  obtain ⟨hobject, hle⟩ := objectStart_le hstart hstop
  have hheader : objectHeader ≤ s.headerLength := by
    rw [hbounded.headerLength_eq]
    exact Nat.le_mul_of_pos_left _ (Nat.zero_lt_of_lt hobject)
  have hdeletes := deletes_of_replace hcut
  obtain ⟨hkept, hcarried⟩ :=
    hdeletes.shrinkTable_eq_ok hcutBounded hobject hjumps hshrunk
  obtain ⟨hfault, hpointers, hlowered⟩ :=
    forgetObject_eq_ok (hasTargets_of_carried hcarried) hforget
  have hmove := hdeletes.moved_eq object hheader hcarried
  rw [Nat.add_sub_cancel' hle] at hcarried hmove
  refine ⟨hdeletes.fault, hfault, ?_, ?_, ?_⟩
  · have hothers := filter_of_carried hcarried
      (p := fun a => ¬ namedHandle? a.2 = some (2 * object))
      (q := fun a => ¬ namedHandle? a.2 = some (2 * object))
      fun a _ b hab => by rw [namedHandle?_of_carried hab]
    rw [filter_not_goesWith]
    refine forall₂_trans hothers hlowered fun a b c hab hbc => ⟨?_, ?_⟩
    · exact ((carried_lowered hab _).trans hbc).mono (hmove a.1) hmove
    · rw [namedHandle?_of_carried hbc, namedHandle?_lowered, namedHandle?_of_carried hab]
  · show t.pointers = _
    rw [hpointers, hkept, List.map_map]
    exact List.map_congr_left fun x _ => hmove x
  · obtain ⟨hbounded', hstrings⟩ := hcutBounded.shrinkTable hshrunk
    exact (hbounded'.forgetObject hforget).2.trans (hstrings.trans (strings_replace hcut))

/-- the first of two objects, one command that names it, and a jump over that one to a command that
names the other object -/
theorem removeObject_eq_ok_first :
    let strings : StringTable := ⟨[], true, false, none⟩
    let s : Script := ⟨List.replicate 16 64 ++ List.replicate 16 65,
      [0, 0x10, 3, 0x7C, 0, 0x7C, 2, 0], strings, true⟩
    let s' : Script := ⟨List.replicate 16 32, [0x10, 1, 0x7C, 0, 0], strings, true⟩
    s.Built ∧ s.strings.compacted = true ∧ s.objectStart 0 = .ok 64 ∧ s.objectEnd 0 = .ok 65 ∧
      s.removeObject 0 = .ok s' ∧
      List.Forall₂ (Survives (fun x => x - objectHeader - bytesBefore
          (s.allCommands.commands.filter fun a => GoesWith 0 64 65 a) x) 0)
        (s.allCommands.commands.filter fun a => ¬ GoesWith 0 64 65 a) s'.allCommands.commands := by
  intro strings s s'
  let s₀ : Script := ⟨List.replicate 16 64 ++ List.replicate 16 65,
    [0, 0x10, 3, 0x7C, 0, 0x7C, 2, 0], .empty, false⟩
  have hparse : parse s₀.toBytes = .ok s₀ := toOption_eq_some.mp (by decide +kernel)
  have hdelete : s₀.delete 64 0 = .ok s := toOption_eq_some.mp (by decide +kernel)
  have hs : s.Built := .edit (.parse hparse) (.code (.delete 64 0)) hdelete
  have htargets : ∀ a ∈ s.allCommands.commands, ∀ ends ∈ (a.2.jump? a.1).toOption.join,
      s.headerLength ≤ ends.2 := by decide +kernel
  have hstart : s.objectStart 0 = .ok 64 := toOption_eq_some.mp (by decide +kernel)
  have hstop : s.objectEnd 0 = .ok 65 := toOption_eq_some.mp (by decide +kernel)
  have hremove : s.removeObject 0 = .ok s' := toOption_eq_some.mp (by decide +kernel)
  have hleft := removeObject_eq_ok hs rfl (fun a ha base target hends =>
    htargets a ha (base, target) (by rw [hends]; rfl)) hstart hstop hremove
  exact ⟨hs, rfl, hstart, hstop, hremove, hleft.2.2.1⟩

end Script

end Cartridge
