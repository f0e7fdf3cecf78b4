import Cartridge.Proofs.Script.Copy
import Cartridge.Proofs.Script.Iteration
import Cartridge.Proofs.Script.Removal

/-!
# Jumps that stand in the way

A splice moves the two ends of a jump on the same side of each other, since everything behind its
place moves by the same amount and targets inside it go to one of its edges.  So the only jumps that
stand in the way of an edit are those that have no target and those that would have to reach too
far.

* `Splice.shift_le_carry`, `Splice.carry_le_shift`   the ends of a jump keep their order;
* `Splice.span`, `Splice.span_delete`   how far they are apart;
* `Splice.retarget_eq_error`   why a jump cannot be carried along;
* `Script.Refuses`           why a splice is refused (`Script.replace_eq_error`,
                             `Script.resize_eq_error`: why a change is);
* `KeepsSides`               steps that find no jump that would pass its target;
* `ScriptEdit.keepsSides`    **no edit makes a jump pass its target**.
-/

namespace Cartridge

open Command

/-! ## the ends of a jump -/

theorem Command.jump?_eq_error {c : Command} {pos : Nat} {fault : FormatFault} :
    c.jump? pos = .error fault ↔
      (c.kind = .jumpBack ∧ pos + c.length - 1 < c.distance) ∧ fault = .jumpBeforeStart pos := by
  unfold Command.jump?
  cases hkind : c.kind with
  | jumpBack =>
    dsimp only
    rw [unless_eq_error]
    simp [eq_comm]
  | _ => simp

namespace Splice

variable {e : Splice} {base target : Nat}

theorem edge_bounds (e : Splice) : e.place ≤ e.edge ∧ e.edge ≤ e.place + e.inserted := by
  unfold edge
  cases e.anchor with
  | before => exact ⟨Nat.le_refl _, Nat.le_add_right ..⟩
  | after => exact ⟨Nat.le_add_right .., Nat.le_refl _⟩

/-- a base behind the removed bytes is not at the place itself, for in front of it is its opcode -/
theorem shift_le_carry (hside : base < e.place ∨ e.stop ≤ base ∧ e.place < base)
    (h : base ≤ target) : e.shift base ≤ e.carry target := by
  obtain ⟨hlow, _⟩ := e.edge_bounds
  unfold shift carry
  unfold stop at hside ⊢
  grind

theorem carry_le_shift (hside : base < e.place ∨ e.stop ≤ base) (h : target ≤ base) :
    e.carry target ≤ e.shift base := by
  obtain ⟨_, hhigh⟩ := e.edge_bounds
  unfold shift carry
  unfold stop at hside ⊢
  grind

/-- how far the ends of a jump are apart once they have moved -/
def span (e : Splice) (base target : Nat) : Nat :=
  (e.carry target - e.shift base) + (e.shift base - e.carry target)

/-- a deletion brings them no further apart -/
theorem span_delete {place removed : Nat} (hside : base < place ∨ place + removed ≤ base) :
    span ⟨place, removed, 0, .before⟩ base target ≤ (target - base) + (base - target) := by
  rw [span, carry_delete, shift_delete hside]
  unfold closed
  omega

/-! ## jumps that stand in the way -/

/-- a jump whose ends are in order does not reach from one to the other -/
theorem newDistance_eq_error {pos : Nat} {kind : ArgKind} {err : Error}
    (hforward : kind = .jumpForward → base ≤ target) (hback : kind ≠ .jumpForward → target ≤ base)
    (h : newDistance pos kind base target = .error err) :
    0xFF < (target - base) + (base - target) ∧
      err = .jumpOutOfRange pos ((target - base) + (base - target)) := by
  obtain ⟨low, high, hends, hle, hspan⟩ : ∃ low high,
      (if kind = .jumpForward then (base, target) else (target, base)) = (low, high) ∧
        low ≤ high ∧ high - low = (target - base) + (base - target) := by
    by_cases hkind : kind = .jumpForward
    · have hle := hforward hkind
      exact ⟨base, target, if_pos hkind, hle, by omega⟩
    · have hle := hback hkind
      exact ⟨target, base, if_neg hkind, hle, by omega⟩
  rw [← hspan]
  unfold newDistance at h
  rw [hends] at h
  rcases unless_eq_error.mp h with ⟨hpasses, _⟩ | ⟨_, h⟩
  · exact absurd hpasses (Nat.not_lt_of_le hle)
  · rcases unless_eq_error.mp h with ⟨hfar, rfl⟩ | ⟨_, h⟩
    · exact ⟨hfar, rfl⟩
    · cases h

/-- A jump that begins outside the removed bytes has no target, or it would have to reach too far:
its ends do not change sides. -/
theorem retarget_eq_error {pos : Nat} {c : Command} {err : Error} (hwhole : c.IsWhole)
    (hside : pos + c.length ≤ e.place ∨ e.stop ≤ pos) (h : e.retarget pos c = .error err) :
    (c.jump? pos = .error (.jumpBeforeStart pos) ∧ err = .format (.jumpBeforeStart pos)) ∨
      ∃ base target, c.jump? pos = .ok (some (base, target)) ∧
        (base < e.place ∨ e.stop ≤ base) ∧ 0xFF < e.span base target ∧
        err = .jumpOutOfRange pos (e.span base target) := by
  unfold retarget at h
  cases hends : c.jump? pos with
  | error fault =>
    rw [hends] at h
    obtain ⟨_, rfl⟩ := jump?_eq_error.mp hends
    cases h
    exact .inl ⟨rfl, rfl⟩
  | ok ends =>
    rw [hends] at h
    cases ends with
    | none => cases h
    | some ends =>
      obtain ⟨base, target⟩ := ends
      have hargs := List.length_pos_of_ne_nil ((isJump_of_ends hends).args_ne_nil hwhole)
      have hlength : c.length = c.args.length + 1 := rfl
      obtain ⟨hbase, hsides⟩ := jump?_eq_some.mp hends
      have hplace : e.place ≤ e.stop := Nat.le_add_right ..
      -- the base of a jump is its last byte, and behind the place there is its opcode in front of it
      have hoff : base < e.place ∨ e.stop ≤ base ∧ e.place < base := by omega
      refine .inr ⟨base, target, rfl, hoff.imp_right And.left,
        newDistance_eq_error (fun hforward => ?_) (fun hback => ?_) (map_eq_error.mp h)⟩
      · rcases hsides with ⟨_, htarget⟩ | ⟨hkind, _⟩
        · exact shift_le_carry hoff (Nat.le.intro htarget.symm)
        · rw [hforward] at hkind
          cases hkind
      · rcases hsides with ⟨hkind, _⟩ | ⟨_, htarget⟩
        · exact absurd hkind hback
        · exact carry_le_shift (hoff.imp_right And.left) (Nat.le.intro htarget)

end Splice

/-! ## splices that are refused -/

namespace Script

variable {s : Script} {e : Splice} {place removed : Nat} {code : Bytes} {anchor : Anchor}
  {err : Error}

/-- what stands in the way of a splice -/
inductive Refuses (s : Script) (e : Splice) : Error → Prop
  | tooLong (h : maxLength < s.length - e.removed + e.inserted) :
    Refuses s e (.scriptTooLarge (s.length - e.removed + e.inserted + 1))
  | unreadable {fault : FormatFault} (h : s.allCommands.fault = some fault) :
    Refuses s e (.format fault)
  | beforeStart {pos : Nat} {c : Command} (h : (pos, c) ∈ s.allCommands.commands)
    (hside : pos < e.place ∨ e.stop ≤ pos) (hends : c.jump? pos = .error (.jumpBeforeStart pos)) :
    Refuses s e (.format (.jumpBeforeStart pos))
  | outOfReach {pos base target : Nat} {c : Command} (h : (pos, c) ∈ s.allCommands.commands)
    (hside : base < e.place ∨ e.stop ≤ base) (hends : c.jump? pos = .ok (some (base, target)))
    (hfar : 0xFF < e.span base target) : Refuses s e (.jumpOutOfRange pos (e.span base target))

theorem refuses_of_retargetAll {p : Nat × Command → Bool}
    (hsides : ∀ a ∈ s.allCommands.commands, p a = true →
      a.1 + a.2.length ≤ e.place ∨ e.stop ≤ a.1)
    (h : e.retargetAll (s.allCommands.commands.filter p) = .error err) : s.Refuses e err := by
  rcases bind_eq_error.mp h with h | ⟨_, _, h⟩
  · obtain ⟨⟨pos, c⟩, hmem, h⟩ := mapM_eq_error h
    obtain ⟨hmem, hp⟩ := List.mem_filter.mp hmem
    obtain ⟨_, _, _, hwhole, _⟩ := split_of_mem hmem
    have hside : pos + c.length ≤ e.place ∨ e.stop ≤ pos := hsides (pos, c) hmem hp
    have hpositive := c.length_pos
    rcases Splice.retarget_eq_error hwhole hside h with
      ⟨hends, rfl⟩ | ⟨base, target, hends, hbase, hfar, rfl⟩
    · exact .beforeStart hmem (hside.imp_left fun hle => by omega) hends
    · exact .outOfReach hmem hbase hends hfar
  · cases h

/-- a splice that cuts no command is refused for one of four reasons -/
theorem refuses_of_spliced
    (hplace : ∀ a ∈ s.allCommands.commands, a.1 < e.place → a.1 + a.2.length ≤ e.place)
    (h : s.spliced e code = .error err) : s.Refuses e err := by
  unfold spliced at h
  rcases unless_throw_eq_error.mp h with ⟨hlong, rfl⟩ | ⟨_, h⟩
  · exact .tooLong hlong
  · rcases bind_eq_error.mp h with h | ⟨before, _, h⟩
    · exact refuses_of_retargetAll (fun a ha hlt => .inl (hplace a ha (of_decide_eq_true hlt))) h
    · rcases bind_eq_error.mp h with h | ⟨behind, _, h⟩
      · exact refuses_of_retargetAll (fun a _ hle => .inr (of_decide_eq_true hle)) h
      · cases hfault : s.allCommands.fault with
        | some fault =>
          simp only [hfault] at h
          cases h
          exact .unreadable hfault
        | none =>
          simp only [hfault] at h
          cases h

/-! ## edits that are refused -/

/-- an edit may begin and end where a command does, or the script; the search for that command may
come to a fault -/
theorem checkBoundary_cases (s : Script) (pos : Nat) :
    s.checkBoundary pos = .ok () ∧ s.BoundaryAt pos ∨
      s.checkBoundary pos = .error (.notOnBoundary pos) ∨
      ∃ fault, s.allCommands.fault = some fault ∧ s.checkBoundary pos = .error (.format fault) := by
  unfold checkBoundary
  by_cases hend : pos = s.length
  · rw [if_pos hend]
    exact .inl ⟨rfl, .inl hend⟩
  · rw [if_neg hend]
    dsimp only
    cases hfind : s.allCommands.commands.find? fun entry => pos ≤ entry.1 with
    | some entry =>
      dsimp only
      by_cases hp : entry.1 = pos
      · rw [if_pos hp]
        exact .inl ⟨rfl, .inr (hp ▸ List.mem_map_of_mem (List.mem_of_find?_eq_some hfind))⟩
      · rw [if_neg hp]
        exact .inr (.inl rfl)
    | none =>
      cases s.allCommands.fault with
      | some fault => exact .inr (.inr ⟨fault, rfl, rfl⟩)
      | none => exact .inr (.inl rfl)

theorem checkBoundary_eq_error {pos : Nat} (h : s.checkBoundary pos = .error err) :
    err = .notOnBoundary pos ∨ ∃ fault, s.allCommands.fault = some fault ∧ err = .format fault := by
  rcases s.checkBoundary_cases pos with ⟨hok, _⟩ | herror | ⟨fault, hfault, herror⟩
  · rw [hok] at h
    cases h
  · rw [herror] at h
    cases h
    exact .inl rfl
  · rw [herror] at h
    cases h
    exact .inr ⟨fault, hfault, rfl⟩

theorem boundary_of_checkBoundary {pos : Nat} (h : s.checkBoundary pos = .ok ()) :
    s.BoundaryAt pos := by
  rcases s.checkBoundary_cases pos with ⟨_, hboundary⟩ | herror | ⟨_, _, herror⟩
  · exact hboundary
  · rw [herror] at h
    cases h
  · rw [herror] at h
    cases h

/-- no command reaches over a position at which another one begins, or over the end -/
theorem ends_le_of_boundary {pos : Nat} (h : s.BoundaryAt pos) {a : Nat × Command}
    (ha : a ∈ s.allCommands.commands) (hlt : a.1 < pos) : a.1 + a.2.length ≤ pos := by
  rcases h with rfl | h
  · obtain ⟨front, back, _, _, hstream, hpos⟩ := split_of_mem ha
    have hlength := congrArg List.length hstream
    rw [List.length_append, List.length_append, length_bytes] at hlength
    rw [length, hpos]
    omega
  · obtain ⟨cs, _, _, _, _, hall, _⟩ := s.allCommands_cases
    obtain ⟨⟨p, d⟩, hmem, rfl⟩ := List.mem_map.mp h
    rw [hall] at ha hmem
    obtain ⟨front, back, rfl, rfl⟩ := mem_laidFrom_split hmem
    rw [laidFrom_append] at ha
    rcases List.mem_append.mp ha with ha | ha
    · exact (mem_laidFrom ha).2
    · have hlow := (mem_laidFrom ha).1
      exact absurd hlt (Nat.not_lt_of_le hlow)

theorem replace_eq_error (h : s.replace place removed code anchor = .error err) :
    (place < s.headerLength ∨ s.length < place + removed) ∧
        err = .invalidRange place (place + removed) ∨
      s.checkBoundary place = .error err ∨ s.checkBoundary (place + removed) = .error err ∨
      validate code = .error err ∨ s.Refuses ⟨place, removed, code.length, anchor⟩ err := by
  unfold replace at h
  rcases unless_throw_eq_error.mp h with ⟨houtside, rfl⟩ | ⟨_, h⟩
  · exact .inl ⟨houtside, rfl⟩
  · rcases bind_eq_error.mp h with h | ⟨_, hplace, h⟩
    · exact .inr (.inl h)
    · rcases bind_eq_error.mp h with h | ⟨_, _, h⟩
      · exact .inr (.inr (.inl h))
      · rcases bind_eq_error.mp h with h | ⟨_, _, h⟩
        · exact .inr (.inr (.inr (.inl h)))
        · have hcuts := boundary_of_checkBoundary hplace
          exact .inr (.inr (.inr (.inr
            (refuses_of_spliced (fun _ ha hlt => ends_le_of_boundary hcuts ha hlt) h))))

/-- the pointer table has no commands -/
theorem resize_eq_error {inserted : Nat} (h : s.resize place removed inserted anchor = .error err) :
    err = .invalidRange place (place + removed) ∨
      s.Refuses ⟨place, removed, inserted, anchor⟩ err := by
  unfold resize at h
  rcases unless_throw_eq_error.mp h with ⟨_, rfl⟩ | ⟨hinside, h⟩
  · exact .inl rfl
  · refine .inr (refuses_of_spliced (fun a ha hlt => ?_) h)
    have hlow := (bounds_of_mem_commands ha).1
    rw [Splice.stop] at hinside
    dsimp only at hlt hinside
    omega

end Script

/-! ## no jump passes its target -/

namespace Command

theorem announcedSize_ne (pos q : Nat) (opcode : UInt8) (args : Bytes) :
    announcedSize pos opcode args ≠ .error (.jumpPassesTarget q) := by
  intro h
  unfold announcedSize at h
  split at h
  · split at h
    · rcases unless_eq_error.mp h with ⟨_, h⟩ | ⟨_, h⟩
      · cases h
      · cases h
    · cases h
  · split at h
    · cases h
    · cases h
  · cases h

theorem sizeAt_ne (pos q : Nat) (stream : Bytes) :
    sizeAt pos stream ≠ .error (.jumpPassesTarget q) := by
  intro h
  unfold sizeAt at h
  cases stream with
  | nil => cases h
  | cons opcode args =>
    dsimp only at h
    cases hsize : announcedSize pos opcode args with
    | error fault =>
      rw [hsize] at h
      cases h
      exact announcedSize_ne pos q opcode args hsize
    | ok size =>
      rw [hsize] at h
      rcases unless_eq_error.mp h with ⟨_, h⟩ | ⟨_, h⟩
      · cases h
      · cases h

/-- what keeps a stream from being read is nothing about its jumps -/
theorem decodeAt_ne (pos q : Nat) (stream : Bytes) :
    decodeAt pos stream ≠ .error (.jumpPassesTarget q) := by
  intro h
  cases stream with
  | nil => cases h
  | cons opcode args =>
    rw [decodeAt_cons] at h
    exact sizeAt_ne pos q _ (map_eq_error.mp h)

end Command

theorem fault_of_readFrom_ne (q pos stop : Nat) (rest : Bytes) (done : List (Nat × Command)) :
    (readFrom pos stop rest done).fault ≠ some (.jumpPassesTarget q) := by
  fun_induction readFrom pos stop rest done with
  | case1 pos rest done _ fault hdecode =>
    intro h
    cases h
    exact Command.decodeAt_ne pos q rest hdecode
  | case2 _ _ _ _ _ _ ih => exact ih
  | case3 => nofun

/-- steps that find no jump that would pass its target -/
def KeepsSides {α : Type} (x : Except Error α) : Prop :=
  ∀ pos, x ≠ .error (.format (.jumpPassesTarget pos))

namespace KeepsSides

variable {α β : Type}

theorem ok (a : α) : KeepsSides (.ok a) := nofun

theorem bind {x : Except Error α} {f : α → Except Error β} (hx : KeepsSides x)
    (hf : ∀ a, KeepsSides (f a)) : KeepsSides (x >>= f) := by
  intro pos h
  rcases bind_eq_error.mp h with h | ⟨a, _, h⟩
  · exact hx pos h
  · exact hf a pos h

theorem map {x : Except Error α} (hx : KeepsSides x) (f : α → β) : KeepsSides (x.map f) :=
  fun pos h => hx pos (map_eq_error.mp h)

theorem mapM {f : α → Except Error β} (hf : ∀ a, KeepsSides (f a)) (xs : List α) :
    KeepsSides (xs.mapM f) := by
  intro pos h
  obtain ⟨a, _, h⟩ := mapM_eq_error h
  exact hf a pos h

theorem ite {p : Prop} [Decidable p] {x y : Except Error α} (hx : KeepsSides x)
    (hy : KeepsSides y) : KeepsSides (if p then x else y) := by
  by_cases hp : p
  · rwa [if_pos hp]
  · rwa [if_neg hp]

/-- a check in front of the steps `x`, that throws something else -/
theorem check {p : Prop} [Decidable p] {e : Error} {f : α → Except Error β} {x : Except Error β}
    (he : KeepsSides (.error e : Except Error α)) (hx : KeepsSides x) :
    KeepsSides (if p then (throw e : Except Error α) >>= f else x) :=
  ite (fun pos h => by cases h; exact he pos rfl) hx

end KeepsSides

namespace Script

/-! ## parts of edits -/

section
variable (s : Script)

theorem fault_of_commands_ne (start stop q : Nat) :
    (s.commands start stop).fault ≠ some (.jumpPassesTarget q) :=
  fault_of_readFrom_ne q _ _ _ _

theorem keepsSides_toExcept : KeepsSides s.allCommands.toExcept := by
  intro pos h
  unfold Reading.toExcept at h
  cases hfault : s.allCommands.fault with
  | none =>
    rw [hfault] at h
    cases h
  | some fault =>
    rw [hfault] at h
    cases h
    exact s.fault_of_commands_ne _ _ pos hfault

theorem Refuses.ne {e : Splice} {err : Error} (h : s.Refuses e err) (pos : Nat) :
    err ≠ .format (.jumpPassesTarget pos) := by
  rintro rfl
  cases h with
  | unreadable hfault => exact s.fault_of_commands_ne _ _ pos hfault

/-- **No splice makes a jump pass its target**: not one of the stream, -/
theorem keepsSides_replace (place removed : Nat) (code : Bytes) (anchor : Anchor) :
    KeepsSides (s.replace place removed code anchor) := by
  have hboundary : ∀ pos q, s.checkBoundary q ≠ .error (.format (.jumpPassesTarget pos)) := by
    intro pos q h
    rcases checkBoundary_eq_error h with h | ⟨fault, hfault, h⟩
    · cases h
    · cases h
      exact s.fault_of_commands_ne _ _ pos hfault
  intro pos h
  rcases replace_eq_error h with ⟨_, h⟩ | h | h | h | h
  · cases h
  · exact hboundary pos _ h
  · exact hboundary pos _ h
  · unfold validate at h
    cases hfault : (readAll code).fault with
    | none =>
      rw [hfault] at h
      cases h
    | some fault =>
      rw [hfault] at h
      cases h
      exact fault_of_readFrom_ne _ _ _ _ _ hfault
  · exact Refuses.ne s h pos rfl

/-- and not one of the pointer table -/
theorem keepsSides_resize (place removed inserted : Nat) (anchor : Anchor) :
    KeepsSides (s.resize place removed inserted anchor) := by
  intro pos h
  rcases resize_eq_error h with h | h
  · cases h
  · exact Refuses.ne s h pos rfl

theorem keepsSides_compactStrings : KeepsSides s.compactStrings := by
  unfold compactStrings
  exact .ite (.ok _) (.ite (.bind (.ok _) fun _ => .ok _)
    (.bind s.keepsSides_toExcept fun _ => .bind (.ok _) fun _ => .ok _))

theorem keepsSides_editWith {α : Type} {change : Script → Except Error (α × Script)}
    (h : ∀ t, KeepsSides (change t)) : KeepsSides (s.editWith change) :=
  .bind s.keepsSides_compactStrings fun t => .bind (h t) fun _ => .ok _

theorem keepsSides_edit {change : Script → Except Error Script} (h : ∀ t, KeepsSides (change t)) :
    KeepsSides (s.edit change) :=
  .bind s.keepsSides_compactStrings fun t => .bind (h t) fun _ => .ok _

theorem keepsSides_commandAt (pos : Nat) : KeepsSides (s.commandAt pos) := by
  refine .ite nofun fun q h => ?_
  obtain ⟨fault, hfault, h⟩ := mapError_eq_error.mp h
  cases h
  exact Command.decodeAt_ne _ q _ hfault

theorem keepsSides_slot (object function : Nat) : KeepsSides (s.slot object function) :=
  .ite nofun (.ite nofun (.ok _))

theorem keepsSides_slotEnd (slot : Nat) : KeepsSides (s.slotEnd slot) :=
  .ite nofun (.ok _)

theorem keepsSides_functionStart (object function : Nat) :
    KeepsSides (s.functionStart object function) :=
  .bind (s.keepsSides_slot object function) fun _ => .ok _

theorem keepsSides_functionEnd (object function : Nat) :
    KeepsSides (s.functionEnd object function) :=
  .bind (s.keepsSides_slot object function) fun _ => s.keepsSides_slotEnd _

theorem keepsSides_objectEnd (object : Nat) : KeepsSides (s.objectEnd object) :=
  .bind (s.keepsSides_functionStart object 0) fun _ =>
    .ite (.bind (s.keepsSides_functionStart (object + 1) 0) fun _ => .check nofun (.ok _))
      (.bind (.ok _) fun _ => .check nofun (.ok _))

theorem keepsSides_findCommand? (opcodes : Bytes) (start stop : Nat) :
    KeepsSides (s.findCommand? opcodes start stop) := by
  refine .bind (fun pos h => ?_) fun _ => .ok _
  unfold Reading.find? at h
  split at h
  · cases h
  · split at h
    · rename_i fault hfault
      cases h
      exact s.fault_of_commands_ne _ _ pos hfault
    · cases h

/-! ## edits of the code -/

theorem keepsSides_insert (pos : Nat) (code : Bytes) : KeepsSides (s.insert pos code) :=
  s.keepsSides_edit fun t => t.keepsSides_replace pos 0 code .before

theorem keepsSides_delete (pos length : Nat) : KeepsSides (s.delete pos length) :=
  s.keepsSides_edit fun t => t.keepsSides_replace pos length [] .before

theorem keepsSides_replaceCommand (pos : Nat) (c : Command) : KeepsSides (s.replaceCommand pos c) :=
  .bind (s.keepsSides_commandAt pos) fun old =>
    s.keepsSides_edit fun t => t.keepsSides_replace pos old.length c.bytes .before

theorem keepsSides_setFunction (object function : Nat) (code : Bytes) :
    KeepsSides (s.setFunction object function code) := by
  refine .bind (s.keepsSides_slot object function) fun slot => s.keepsSides_edit fun t => ?_
  refine .ite (.bind (t.keepsSides_slotEnd _) fun place => ?_)
    (.bind (t.keepsSides_slotEnd _) fun stop => t.keepsSides_replace _ _ _ _)
  exact .bind (t.keepsSides_replace _ _ _ _) fun _ => .ok _

theorem keepsSides_patchArguments (object function : Nat) (opcode : UInt8) (offset : Nat)
    (bytes : Bytes) : KeepsSides (s.patchArguments object function opcode offset bytes) := by
  refine .bind (s.keepsSides_functionStart object function) fun start =>
    .bind (s.keepsSides_functionEnd object function) fun stop => .bind ?_ fun pos =>
    .bind (s.keepsSides_commandAt pos) fun c => .check nofun (.check nofun ?_)
  · refine .bind (s.keepsSides_findCommand? [opcode] start stop) fun found => ?_
    cases found with
    | some pos => exact .ok pos
    | none => exact nofun
  · exact s.keepsSides_editWith fun t => .ok _

/-! ## edits of the strings -/

theorem keepsSides_addString (text : Bytes) : KeepsSides (s.addString text) := by
  refine s.keepsSides_editWith fun t => .bind ?_ fun _ => .ok _
  exact .bind (.ite nofun (.ok _)) fun _ => .check nofun (.ok _)

theorem keepsSides_setString (index : Nat) (text : Bytes) : KeepsSides (s.setString index text) := by
  refine s.keepsSides_edit fun t => .bind ?_ fun _ => .ok _
  exact .bind (.ite nofun (.ok _)) fun _ => .check nofun (.ok _)

theorem keepsSides_setStringTableAddress (addr : Nat) :
    KeepsSides (s.setStringTableAddress addr) := by
  refine .bind (fun pos h => ?_) fun c => .bind (s.keepsSides_functionStart 0 0) fun start =>
    .bind ?_ fun found => ?_
  · obtain ⟨_, _, h⟩ := mapError_eq_error.mp h
    cases h
  · exact .bind (s.keepsSides_functionStart 0 0) fun start =>
      .bind (s.keepsSides_functionEnd 0 0) fun stop => s.keepsSides_findCommand? _ start stop
  · cases found with
    | some pos => exact s.keepsSides_replaceCommand pos c
    | none => exact s.keepsSides_insert start c.bytes

/-! ## edits of the objects -/

theorem keepsSides_pushObject (code : Bytes) (offsets : List Nat) :
    KeepsSides (s.pushObject code offsets) := by
  refine .check nofun (.bind ?_ fun grown => .bind (grown.keepsSides_replace _ _ _ _) fun _ => .ok _)
  exact .bind (s.keepsSides_resize _ _ _ _) fun _ => .ok _

theorem keepsSides_checkJumpsStay (object start stop : Nat) (entries : List (Nat × Command)) :
    KeepsSides (checkJumpsStay object start stop entries) := by
  induction entries with
  | nil => exact .ok ()
  | cons entry rest ih =>
    rw [checkJumpsStay_cons]
    cases hends : entry.2.jump? entry.1 with
    | error fault =>
      obtain ⟨_, rfl⟩ := jump?_eq_error.mp hends
      exact nofun
    | ok ends =>
      cases ends with
      | none => exact ih
      | some ends => exact .ite nofun ih

theorem keepsSides_appendCopyOf (object : Nat) : KeepsSides (s.appendCopyOf object) := by
  refine .bind (s.keepsSides_functionStart object 0) fun start =>
    .bind (s.keepsSides_objectEnd object) fun stop => .bind ?_ fun offsets =>
    .bind (keepsSides_checkJumpsStay _ _ _ _) fun _ => ?_
  · refine .mapM (fun function => ?_) _
    exact .bind (s.keepsSides_functionStart object function) fun p => .check nofun (.ok _)
  · have hrest : KeepsSides (do
        let code ← s.bytes start stop
        s.editWith fun t => t.pushObject code offsets) :=
      .bind (.ite nofun (.ok _)) fun code =>
        s.keepsSides_editWith fun t => t.keepsSides_pushObject code offsets
    cases hfault : (s.commands start stop).fault with
    | none => exact hrest
    | some fault =>
      intro pos h
      cases h
      exact s.fault_of_commands_ne start stop pos hfault

theorem keepsSides_deleteAll (entries : List (Nat × Command)) : KeepsSides (s.deleteAll entries) := by
  induction entries generalizing s with
  | nil => exact .ok s
  | cons entry rest ih => exact .bind (s.keepsSides_replace _ _ _ _) fun t => ih t

theorem keepsSides_checkHandles (entries : List (Nat × Command)) :
    KeepsSides (checkHandles entries) := by
  induction entries with
  | nil => exact checkHandles_nil ▸ .ok ()
  | cons entry rest ih =>
    rw [checkHandles_cons]
    cases namedHandle? entry.2 with
    | none => exact ih
    | some handle => exact .ite nofun ih

theorem keepsSides_removeObject (object : Nat) : KeepsSides (s.removeObject object) := by
  refine .bind (s.keepsSides_functionStart object 0) fun start =>
    .bind (s.keepsSides_objectEnd object) fun stop => s.keepsSides_edit fun t =>
    .bind (t.keepsSides_replace _ _ _ _) fun cut => .bind ?_ fun shrunk => ?_
  · exact .bind (cut.keepsSides_resize _ _ _ _) fun _ => .ok _
  · exact .bind (keepsSides_checkHandles _) fun _ => .bind shrunk.keepsSides_toExcept fun _ =>
      keepsSides_deleteAll _ _

end

end Script

/-- **No edit makes a jump pass its target.** -/
theorem ScriptEdit.keepsSides (s : Script) (edit : ScriptEdit) : KeepsSides (edit.apply s) := by
  cases edit with
  | code edit =>
    cases edit with
    | insert pos code => exact s.keepsSides_insert pos code
    | delete pos length => exact s.keepsSides_delete pos length
    | replace pos c => exact s.keepsSides_replaceCommand pos c
  | setFunction object function body => exact s.keepsSides_setFunction object function body
  | appendObject => exact .map (s.keepsSides_editWith fun t => t.keepsSides_pushObject _ _) _
  | appendCopyOf source => exact .map (s.keepsSides_appendCopyOf source) _
  | removeObject object => exact s.keepsSides_removeObject object
  | patchArguments object function opcode offset bytes =>
    exact .map (s.keepsSides_patchArguments object function opcode offset bytes) _
  | addString text => exact .map (s.keepsSides_addString text) _
  | setString index text => exact s.keepsSides_setString index text
  | setStringTableAddress addr => exact s.keepsSides_setStringTableAddress addr

end Cartridge
