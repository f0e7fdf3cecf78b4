import Cartridge.Proofs.Script.TableAddress

/-!
# Commands carried along

What an edit leaves of the commands that it does not touch, seen from the commands themselves, from
a part of the stream, and from its single bytes.

* `Command.Carried.trans`, `Command.Carried.congr`   two edits one after the other, and the same
                             edit described in another way;
* `Command.Carried.getElem?_bytes`   the bytes of a command that is carried along;
* `Command.Carried.eq_self`  a jump does not change when its target moves as it does;
* `Script.commandsIn`        the commands that begin in a part of the script;
* `Script.Exchange`          code in place of other code, and the commands around it carried along;
* `Script.exchange_of_replace`   every edit at command boundaries is such an exchange;
* `Script.KeepsCode`, `Script.Exchange.keepsCode_front`, `Script.Exchange.keepsCode_behind`   what
                             stands in front of the exchange or behind it is kept, but for the
                             distances of jumps;
* `Script.carried_of_resize` all commands, when the table in front of them grows or shrinks.
-/

namespace Cartridge

namespace Command

/-- the opcode says which kind a command is of -/
theorem kind_congr {c d : Command} (h : d.opcode = c.opcode) : d.kind = c.kind :=
  congrArg (fun opcode => (Opcode.info opcode).kind) h

section
variable {move move' follow follow' : Nat → Nat} {a b c : Nat × Command}

theorem Carried.kind_eq (h : Carried move follow a b) : b.2.kind = a.2.kind :=
  kind_congr h.opcode

theorem Carried.isJump_iff (h : Carried move follow a b) : b.2.IsJump ↔ a.2.IsJump := by
  rw [IsJump, h.kind_eq, IsJump]

/-- a command without a target just moves -/
theorem carried_of_not_jump (p : Nat) {c : Command} (h : ¬ c.IsJump) :
    Carried move follow (p, c) (move p, c) :=
  ⟨rfl, rfl, fun _ => rfl, fun hjump => absurd hjump h, fun hjump => absurd hjump h⟩

theorem Carried.eq_of_not_jump (h : Carried move follow a b) (hjump : ¬ a.2.IsJump) :
    b = (move a.1, a.2) := by
  obtain ⟨p, opcode, args⟩ := b
  obtain rfl : p = move a.1 := h.position
  obtain rfl : opcode = a.2.opcode := h.opcode
  obtain rfl : args = a.2.args := h.args hjump
  rfl

/-- one edit after the other -/
theorem Carried.trans (h : Carried move follow a b) (h' : Carried move' follow' b c) :
    Carried (move' ∘ move) (follow' ∘ follow) a c where
  position := by rw [h'.position, h.position, Function.comp_apply]
  opcode := h'.opcode.trans h.opcode
  args := fun hjump => (h'.args fun hb => hjump (h.isJump_iff.mp hb)).trans (h.args hjump)
  jumpArgs := by
    intro hjump
    obtain ⟨others, x, y, ha, hb⟩ := h.jumpArgs hjump
    obtain ⟨others', y', z, hb', hc⟩ := h'.jumpArgs (h.isJump_iff.mpr hjump)
    rw [hb] at hb'
    obtain ⟨rfl, _⟩ := List.append_inj' hb' rfl
    exact ⟨others, x, z, ha, hc⟩
  target := by
    intro hjump
    obtain ⟨base, _, target, ha, hb⟩ := h.target hjump
    obtain ⟨_, base', _, hb', hc⟩ := h'.target (h.isJump_iff.mpr hjump)
    rw [hb] at hb'
    cases hb'
    exact ⟨base, base', target, ha, hc⟩

/-- only the target that the jump has needs to go to the same place -/
theorem Carried.congr (h : Carried move follow a b) (hmove : move a.1 = move' a.1)
    (hfollow : ∀ base target, a.2.jump? a.1 = .ok (some (base, target)) →
      follow target = follow' target) : Carried move' follow' a b where
  position := h.position.trans hmove
  opcode := h.opcode
  args := h.args
  jumpArgs := h.jumpArgs
  target := by
    intro hjump
    obtain ⟨base, base', target, ha, hb⟩ := h.target hjump
    exact ⟨base, base', target, ha, hfollow base target ha ▸ hb⟩

theorem Carried.length_eq (h : Carried move follow a b) : b.2.length = a.2.length := by
  by_cases hjump : a.2.IsJump
  · obtain ⟨others, x, y, ha, hb⟩ := h.jumpArgs hjump
    rw [length, length, ha, hb, List.length_append, List.length_append]
    rfl
  · rw [length, length, h.args hjump]

/-- a command does not change when all that it names moves as it does -/
theorem Carried.eq_self {n : Nat} (h : Carried move follow a b) (hmove : move a.1 = a.1 + n)
    (hfollow : ∀ base target, a.2.jump? a.1 = .ok (some (base, target)) →
      follow target = target + n) : b.2 = a.2 := by
  have hargs : b.2.args = a.2.args := by
    by_cases hjump : a.2.IsJump
    · obtain ⟨base, base', target, ha, hb⟩ := h.target hjump
      obtain ⟨others, x, y, hx, hy⟩ := h.jumpArgs hjump
      have hposition := h.position
      have hlength := h.length_eq
      have hpositive := a.2.length_pos
      have htarget := hfollow base target ha
      obtain ⟨hbase, hends⟩ := jump?_eq_some.mp ha
      obtain ⟨hbase', hends'⟩ := jump?_eq_some.mp hb
      have hdistance : b.2.distance = a.2.distance := by
        rw [h.kind_eq] at hends'
        rcases hends with ⟨hkind, hends⟩ | ⟨hkind, hends⟩
        · rcases hends' with ⟨_, hends'⟩ | ⟨hkind', _⟩
          · omega
          · rw [hkind] at hkind'
            cases hkind'
        · rcases hends' with ⟨hkind', _⟩ | ⟨_, hends'⟩
          · rw [hkind] at hkind'
            cases hkind'
          · omega
      rw [distance, distance, hx, hy, List.getLastD_concat, List.getLastD_concat] at hdistance
      rw [hx, hy, UInt8.toNat_inj.mp hdistance]
    · exact h.args hjump
  exact congrArg₂ Command.mk h.opcode hargs

/-- no byte changes but the distance of a jump -/
theorem Carried.getElem?_bytes (h : Carried move follow a b) {i : Nat}
    (hi : a.2.IsJump → i + 1 ≠ a.2.length) : b.2.bytes[i]? = a.2.bytes[i]? := by
  by_cases hjump : a.2.IsJump
  · obtain ⟨others, x, y, ha, hb⟩ := h.jumpArgs hjump
    have hlast := hi hjump
    rw [bytes, bytes, ha, hb, h.opcode]
    cases i with
    | zero => rfl
    | succ i =>
      rw [length, ha, List.length_append, List.length_singleton] at hlast
      rw [List.getElem?_cons_succ, List.getElem?_cons_succ]
      rcases Nat.lt_or_ge i others.length with hlt | hge
      · rw [List.getElem?_append_left hlt, List.getElem?_append_left hlt]
      · rw [List.getElem?_append_right hge, List.getElem?_append_right hge]
        obtain ⟨k, hk⟩ : ∃ k, i - others.length = k + 1 := ⟨i - others.length - 1, by omega⟩
        rw [hk]
        rfl
  · rw [bytes, bytes, h.opcode, h.args hjump]

end

/-! ## bytes of a run of commands -/

/-- no command is without bytes -/
theorem eq_nil_of_flat {cs : List Command} (h : (flat cs).length = 0) : cs = [] := by
  cases cs with
  | nil => rfl
  | cons c cs =>
    rw [length_flat_cons] at h
    have hpositive := c.length_pos
    omega

theorem laidFrom_map {f : Command → Command} (pos : Nat) {cs : List Command}
    (h : ∀ c ∈ cs, (f c).length = c.length) :
    laidFrom pos (cs.map f) = (laidFrom pos cs).map fun a => (a.1, f a.2) := by
  induction cs generalizing pos with
  | nil => rfl
  | cons c cs ih =>
    rw [List.map_cons, laidFrom_cons, laidFrom_cons, List.map_cons, h c (List.mem_cons_self ..),
      ih _ fun d hd => h d (List.mem_cons_of_mem _ hd)]

/-- whole commands can be told from their bytes -/
theorem flat_inj {as bs : List Command} (has : ∀ c ∈ as, c.IsWhole) (hbs : ∀ c ∈ bs, c.IsWhole)
    (h : flat as = flat bs) : as = bs := by
  have hread := readAll_flat has
  rw [h, readAll_flat hbs] at hread
  have hlaid := congrArg (fun reading => reading.commands.map Prod.snd) hread
  dsimp only at hlaid
  rw [map_snd_laidFrom, map_snd_laidFrom] at hlaid
  exact hlaid.symm

/-- each byte belongs to a command -/
theorem exists_laidFrom {pos x : Nat} {cs : List Command} (hlow : pos ≤ x)
    (hhigh : x < pos + (flat cs).length) :
    ∃ p c, (p, c) ∈ laidFrom pos cs ∧ p ≤ x ∧ x < p + c.length := by
  induction cs generalizing pos with
  | nil =>
    rw [flat_nil, List.length_nil] at hhigh
    omega
  | cons c cs ih =>
    rw [length_flat_cons] at hhigh
    rw [laidFrom_cons]
    by_cases hx : x < pos + c.length
    · exact ⟨pos, c, List.mem_cons_self .., hlow, hx⟩
    · obtain ⟨p, d, hmem, hp, hd⟩ := ih (Nat.le_of_not_lt hx) (by omega)
      exact ⟨p, d, List.mem_cons_of_mem _ hmem, hp, hd⟩

/-- commands that keep their lengths fill as many bytes as before -/
theorem length_flat_of_forall₂ {R : Nat × Command → Nat × Command → Prop} {pos pos' : Nat}
    {cs cs' : List Command} (hR : ∀ a b, R a b → b.2.length = a.2.length)
    (h : List.Forall₂ R (laidFrom pos cs) (laidFrom pos' cs')) :
    (flat cs').length = (flat cs).length := by
  induction cs generalizing pos pos' cs' with
  | nil =>
    cases cs' with
    | nil => rfl
    | cons c' cs' => cases h
  | cons c cs ih =>
    cases cs' with
    | nil => cases h
    | cons c' cs' =>
      rw [laidFrom_cons, laidFrom_cons] at h
      cases h with
      | cons hfirst hrest =>
        rw [length_flat_cons, length_flat_cons, ih hrest]
        exact congrArg (· + (flat cs).length) (hR _ _ hfirst)

/-- no command of a run begins in front of it -/
theorem filter_laidFrom_of_le {pos stop : Nat} (start : Nat) (h : stop ≤ pos) (cs : List Command) :
    (laidFrom pos cs).filter (fun entry => start ≤ entry.1 ∧ entry.1 < stop) = [] := by
  rw [List.filter_eq_nil_iff]
  rintro ⟨p, c⟩ hmem hin
  have hlow := (mem_laidFrom hmem).1
  have hin := of_decide_eq_true hin
  omega

/-- no command of a run begins behind it -/
theorem filter_laidFrom_of_ge {pos : Nat} (start stop : Nat) (cs : List Command)
    (h : pos + (flat cs).length ≤ start) :
    (laidFrom pos cs).filter (fun entry => start ≤ entry.1 ∧ entry.1 < stop) = [] := by
  rw [List.filter_eq_nil_iff]
  rintro ⟨p, c⟩ hmem hin
  have hends := (mem_laidFrom hmem).2
  have hpositive := c.length_pos
  have hin := of_decide_eq_true hin
  omega

/-- some of the commands, where what they have become is told apart in the same way -/
theorem filter_of_carried {move follow : Nat → Nat} {as bs : List (Nat × Command)}
    {p q : Nat × Command → Prop} [DecidablePred p] [DecidablePred q]
    (h : List.Forall₂ (Carried move follow) as bs)
    (hsame : ∀ a ∈ as, ∀ b, Carried move follow a b → (p a ↔ q b)) :
    List.Forall₂ (Carried move follow) (as.filter fun a => p a) (bs.filter fun b => q b) := by
  have hboth := (List.forall₂_and_left as bs).mpr ⟨hsame, h⟩
  refine (List.rel_filter ?_ hboth).imp fun _ _ hR => hR.2
  rintro a b ⟨hin, hcarried⟩
  simp only [decide_eq_true_eq]
  exact hin b hcarried

/-- the part of a list that a cut in front of it leaves -/
theorem CutAt.exists_between {start pos pos' : Nat} {cs front front' back back' : List Command}
    (h : CutAt start cs pos front front') (h' : CutAt start cs pos' back' back)
    (hle : pos ≤ pos') : ∃ middle, back' = front ++ middle ∧ front' = middle ++ back := by
  have hsame : front ++ front' = back' ++ back := h.eq_append ▸ h'.eq_append
  rcases List.append_eq_append_iff.mp hsame with ⟨middle, hback, hfront⟩ | ⟨middle, hfront, hback⟩
  · exact ⟨middle, hback, hfront⟩
  · have hpos := h.pos_eq
    have hpos' := h'.pos_eq
    rw [hfront, flat_append, List.length_append] at hpos
    have hnil : middle = [] := eq_nil_of_flat (by omega)
    refine ⟨[], ?_, ?_⟩
    · rw [hfront, hnil, List.append_nil, List.append_nil]
    · rw [hback, hnil]
      rfl

end Command

open Command

namespace Script

/-! ## parts of a script -/

/-- the commands that begin in `[start, stop)` -/
def commandsIn (s : Script) (start stop : Nat) : List (Nat × Command) :=
  s.allCommands.commands.filter fun entry => start ≤ entry.1 ∧ entry.1 < stop

/-- the byte at a position -/
def byte? (s : Script) (pos : Nat) : Option UInt8 := s.stream[pos - s.headerLength]?

/-- the distance of a jump stands at the position -/
def IsDistance (s : Script) (pos : Nat) : Prop :=
  ∃ entry ∈ s.allCommands.commands, entry.2.IsJump ∧ pos + 1 = entry.1 + entry.2.length

theorem commandsIn_of_flat {s : Script} {front middle back : List Command}
    (hwhole : ∀ c ∈ front ++ middle ++ back, c.IsWhole)
    (hstream : s.stream = flat (front ++ middle ++ back)) :
    s.commandsIn (s.headerLength + (flat front).length)
      (s.headerLength + (flat front).length + (flat middle).length) =
        laidFrom (s.headerLength + (flat front).length) middle := by
  have hmiddle : (laidFrom (s.headerLength + (flat front).length) middle).filter
      (fun entry => s.headerLength + (flat front).length ≤ entry.1 ∧
        entry.1 < s.headerLength + (flat front).length + (flat middle).length) =
      laidFrom (s.headerLength + (flat front).length) middle := by
    rw [List.filter_eq_self]
    rintro ⟨p, c⟩ hmem
    obtain ⟨hlow, hends⟩ := mem_laidFrom hmem
    have hpositive := c.length_pos
    exact decide_eq_true ⟨hlow, by omega⟩
  rw [commandsIn, allCommands_of_flat hwhole hstream, laidFrom_append, laidFrom_append,
    List.filter_append, List.filter_append, hmiddle, filter_laidFrom_of_ge _ _ _ (Nat.le_refl _),
    filter_laidFrom_of_le, List.nil_append, List.append_nil]
  rw [flat_append, List.length_append, Nat.add_assoc]

theorem bytes_inside {s : Script} {start stop : Nat} {code : Bytes}
    (h : s.bytes start stop = .ok code) :
    s.headerLength ≤ start ∧ start ≤ stop ∧ stop ≤ s.length := by
  obtain ⟨hinside, _⟩ := unless_eq_ok.mp h
  omega

/-- code between two commands -/
theorem bytes_of_boundary {s : Script} {start stop : Nat} {code : Bytes}
    (hfault : s.allCommands.fault = none) (hstart : s.BoundaryAt start) (hstop : s.BoundaryAt stop)
    (h : s.bytes start stop = .ok code) :
    code = flat ((s.commandsIn start stop).map Prod.snd) := by
  obtain ⟨hinside, h⟩ := unless_eq_ok.mp h
  obtain ⟨cs, hwhole, hstream, _⟩ := flat_of_allCommands hfault
  obtain ⟨front, front', hfront⟩ := cutAt_of_boundary hwhole hstream hstart
  obtain ⟨back', back, hback⟩ := cutAt_of_boundary hwhole hstream hstop
  obtain ⟨middle, rfl, _⟩ := hfront.exists_between hback (by omega)
  obtain rfl := hback.eq_append
  have hends : stop = s.headerLength + (flat front).length + (flat middle).length := by
    rw [hback.pos_eq, flat_append, List.length_append, Nat.add_assoc]
  rw [hends, hfront.pos_eq, commandsIn_of_flat hwhole hstream, map_snd_laidFrom]
  rw [hends, hfront.pos_eq, Nat.add_sub_cancel_left, Nat.add_sub_cancel_left, hstream, flat_append,
    flat_append, List.append_assoc, List.drop_left, List.take_left] at h
  exact (Except.ok.inj h).symm

theorem byte?_of_commandAt {s : Script} {pos i : Nat} {c : Command}
    (h : s.commandAt pos = .ok c) (hi : i < c.length) : s.byte? (pos + i) = c.bytes[i]? := by
  obtain ⟨hlow, _, _, hdrop⟩ := commandAt_eq_ok h
  have hplace : pos + i - s.headerLength = pos - s.headerLength + i := by omega
  rw [byte?, hplace, ← List.getElem?_drop, hdrop,
    List.getElem?_append_left (by rwa [length_bytes])]

theorem byte?_of_mem {s : Script} {p i : Nat} {c : Command}
    (h : (p, c) ∈ s.allCommands.commands) (hi : i < c.length) : s.byte? (p + i) = c.bytes[i]? :=
  byte?_of_commandAt (commandAt_of_mem h).2 hi

/-- each byte of a script that decodes belongs to a command -/
theorem exists_entry {s : Script} {x : Nat} (hfault : s.allCommands.fault = none)
    (hlow : s.headerLength ≤ x) (hhigh : x < s.length) :
    ∃ p c, (p, c) ∈ s.allCommands.commands ∧ p ≤ x ∧ x < p + c.length := by
  obtain ⟨cs, _, hstream, hall⟩ := flat_of_allCommands hfault
  rw [length_of_flat hstream] at hhigh
  rw [hall]
  exact exists_laidFrom hlow hhigh

/-- commands that are changed where they are, none of them in its length -/
theorem commands_of_map {s t : Script} {cs : List Command} {f : Command → Command}
    (hwhole : ∀ c ∈ cs, c.IsWhole) (hf : ∀ c ∈ cs, (f c).IsWhole ∧ (f c).length = c.length)
    (hheader : t.headerLength = s.headerLength) (hstream : s.stream = flat cs)
    (hstream' : t.stream = flat (cs.map f)) :
    s.allCommands.fault = none ∧
      t.allCommands = ⟨s.allCommands.commands.map fun a => (a.1, f a.2), none⟩ := by
  have hwhole' : ∀ c ∈ cs.map f, c.IsWhole := by
    intro c hc
    obtain ⟨d, hd, rfl⟩ := List.mem_map.mp hc
    exact (hf d hd).1
  have hall := allCommands_of_flat hwhole hstream
  have hall' := allCommands_of_flat hwhole' hstream'
  rw [hheader, laidFrom_map _ fun c hc => (hf c hc).2] at hall'
  rw [hall, hall']
  exact ⟨rfl, rfl⟩

/-- the end of a run of commands is a boundary -/
theorem boundary_of_flat {s : Script} {front back : List Command}
    (hwhole : ∀ c ∈ front ++ back, c.IsWhole) (hstream : s.stream = flat (front ++ back)) :
    s.BoundaryAt (s.headerLength + (flat front).length) := by
  rw [BoundaryAt, allCommands_of_flat hwhole hstream, length_of_flat hstream]
  cases back with
  | nil => exact .inl (by rw [List.append_nil])
  | cons c back =>
    refine .inr (List.mem_map.mpr ⟨(s.headerLength + (flat front).length, c), ?_, rfl⟩)
    rw [laidFrom_append, laidFrom_cons]
    exact List.mem_append_right _ (List.mem_cons_self ..)

/-- What is kept of the code in `[start, stop)`, which now is in `[start', stop')`: its commands,
carried along, and all its bytes but the distances of jumps.  Code that begins at a command is read
as just these commands. -/
structure KeepsCode (e : Splice) (s s' : Script) (start stop start' stop' : Nat) : Prop where
  length : stop + start' = stop' + start
  commands : List.Forall₂ (Carried e.shift e.carry) (s.commandsIn start stop)
    (s'.commandsIn start' stop')
  reads : s.BoundaryAt start → s.commands start stop = ⟨s.commandsIn start stop, none⟩ ∧
    s'.commands start' stop' = ⟨s'.commandsIn start' stop', none⟩
  bytes : ∀ n, start + n < stop → ¬ s.IsDistance (start + n) →
    s'.byte? (start' + n) = s.byte? (start + n)

/-! ## exchanges -/

/-- The commands `new` in place of `middle`; those in front and behind are carried along. -/
structure Exchange (e : Splice) (s s' : Script)
    (front middle back kept new moved : List Command) : Prop where
  whole : ∀ c ∈ front ++ middle ++ back, c.IsWhole
  whole' : ∀ c ∈ kept ++ new ++ moved, c.IsWhole
  header : s'.headerLength = s.headerLength
  stream : s.stream = flat (front ++ middle ++ back)
  stream' : s'.stream = flat (kept ++ new ++ moved)
  place : e.place = s.headerLength + (flat front).length
  stop : e.stop = e.place + (flat middle).length
  inserted : e.inserted = (flat new).length
  before : List.Forall₂ (Carried e.shift e.carry) (laidFrom s.headerLength front)
    (laidFrom s.headerLength kept)
  behind : List.Forall₂ (Carried e.shift e.carry) (laidFrom e.stop back)
    (laidFrom (e.place + e.inserted) moved)

theorem exchange_of_replace {s s' : Script} {place removed : Nat} {code : Bytes} {anchor : Anchor}
    (h : s.replace place removed code anchor = .ok s') :
    ∃ front middle back kept new moved, code = flat new ∧
      Exchange ⟨place, removed, code.length, anchor⟩ s s' front middle back kept new moved := by
  let e : Splice := ⟨place, removed, code.length, anchor⟩
  obtain ⟨_, _, hplace, hstop, hcode, hspliced⟩ := replace_eq_ok h
  obtain ⟨_, hfault, _⟩ := spliced_eq_ok hspliced
  obtain ⟨cs, hwhole, hstream, _⟩ := flat_of_allCommands hfault
  obtain ⟨new, hnew, hflat, _⟩ := flat_of_readAll hcode
  obtain ⟨front, front', hfront⟩ := cutAt_of_checkBoundary hwhole hstream hplace
  obtain ⟨back', back, hback⟩ := cutAt_of_checkBoundary hwhole hstream hstop
  have hfront : CutAt s.headerLength cs e.place front front' := hfront
  have hback : CutAt s.headerLength cs e.stop back' back := hback
  have hspliced : s.spliced e code = .ok s' := hspliced
  obtain ⟨middle, rfl, _⟩ := hfront.exists_between hback (Nat.le_add_right ..)
  obtain ⟨kept, moved, hkept, hmoved, rfl⟩ := parts_of_spliced hwhole hstream hfront hback hspliced
  have hstays : ∀ n < (flat front).length, e.shift (s.headerLength + n) = s.headerLength + n := by
    intro n hn
    have hlt : s.headerLength + n < e.place := by
      rw [hfront.pos_eq]
      omega
    exact if_pos hlt
  obtain ⟨hkeptWhole, _, hkeptCarried⟩ :=
    Splice.carried_of_retarget (hfront.whole hwhole).1 hstays hkept
  obtain ⟨hmovedWhole, _, hmovedCarried⟩ :=
    Splice.carried_of_retarget (hback.whole hwhole).2 (fun n _ => e.shift_stop_add n) hmoved
  refine ⟨front, middle, back, kept, new, moved, hflat, ?_⟩
  refine
    { whole := hback.eq_append ▸ hwhole
      whole' := ?_
      header := by rw [headerLength, List.length_map, headerLength]
      stream := hback.eq_append ▸ hstream
      stream' := by rw [hflat, flat_append, flat_append]
      place := hfront.pos_eq
      stop := ?_
      inserted := congrArg List.length hflat
      before := hkeptCarried
      behind := hmovedCarried }
  · intro c hc
    rcases List.mem_append.mp hc with hc | hc
    · rcases List.mem_append.mp hc with hc | hc
      · exact hkeptWhole c hc
      · exact hnew c hc
    · exact hmovedWhole c hc
  · show e.stop = e.place + (flat middle).length
    rw [hback.pos_eq, hfront.pos_eq, flat_append, List.length_append, Nat.add_assoc]

namespace Exchange

variable {e : Splice} {s s' : Script} {front middle back kept new moved : List Command}
  (h : Exchange e s s' front middle back kept new moved)
include h

/-- pointers do not matter as long as they are as many -/
theorem congr {t : Script} (hheader : t.headerLength = s'.headerLength)
    (hstream : t.stream = s'.stream) : Exchange e s t front middle back kept new moved :=
  { h with header := hheader.trans h.header, stream' := hstream.trans h.stream' }

theorem length_kept : (flat kept).length = (flat front).length :=
  length_flat_of_forall₂ (fun _ _ hcarried => hcarried.length_eq) h.before

theorem length_moved : (flat moved).length = (flat back).length :=
  length_flat_of_forall₂ (fun _ _ hcarried => hcarried.length_eq) h.behind

theorem place_eq : e.place = s.headerLength + (flat kept).length := by
  rw [h.length_kept, h.place]

theorem removed_eq : e.removed = (flat middle).length := by
  have hstop := h.stop
  rw [Splice.stop] at hstop
  exact Nat.add_left_cancel hstop

theorem length_eq : s.length = e.stop + (flat back).length := by
  rw [length_of_flat h.stream, flat_append, flat_append, List.length_append, List.length_append,
    h.stop, h.place]
  omega

theorem length_eq' : s'.length = e.place + e.inserted + (flat back).length := by
  rw [length_of_flat h.stream', h.header, flat_append, flat_append, List.length_append,
    List.length_append, h.length_moved, h.place_eq, h.inserted]
  omega

theorem allCommands : s.allCommands =
    ⟨laidFrom s.headerLength front ++ laidFrom e.place middle ++ laidFrom e.stop back, none⟩ := by
  rw [allCommands_of_flat h.whole h.stream, laidFrom_append, laidFrom_append, h.stop, h.place,
    flat_append, List.length_append, Nat.add_assoc]

theorem allCommands' : s'.allCommands =
    ⟨laidFrom s.headerLength kept ++ laidFrom e.place new ++
      laidFrom (e.place + e.inserted) moved, none⟩ := by
  rw [allCommands_of_flat h.whole' h.stream', h.header, laidFrom_append, laidFrom_append,
    h.place_eq, flat_append, List.length_append, h.inserted, Nat.add_assoc]

theorem filter_front : s.allCommands.commands.filter (fun entry => entry.1 < e.place) =
    laidFrom s.headerLength front := by
  have hcut : CutAt s.headerLength (front ++ middle ++ back) e.place front (middle ++ back) :=
    ⟨List.append_assoc .., h.place⟩
  rw [allCommands_of_flat h.whole h.stream]
  exact hcut.filter_lt

theorem filter_behind : s.allCommands.commands.filter (fun entry => e.stop ≤ entry.1) =
    laidFrom e.stop back := by
  have hcut : CutAt s.headerLength (front ++ middle ++ back) e.stop (front ++ middle) back :=
    ⟨rfl, by rw [h.stop, h.place, flat_append, List.length_append, Nat.add_assoc]⟩
  rw [allCommands_of_flat h.whole h.stream]
  exact hcut.filter_ge

/-- the new code can be read where it has been put -/
theorem bytes_new : s'.bytes e.place (e.place + e.inserted) = .ok (flat new) := by
  have hinside : ¬ (e.place < s'.headerLength ∨ e.place + e.inserted < e.place ∨
      s'.length < e.place + e.inserted) := by
    rw [h.length_eq', h.header, h.place]
    omega
  have hdrop : e.place - s'.headerLength = (flat kept).length := by
    rw [h.header, h.place_eq, Nat.add_sub_cancel_left]
  rw [Script.bytes, if_neg hinside, hdrop, h.stream', flat_append, flat_append, List.append_assoc,
    List.drop_left, Nat.add_sub_cancel_left, h.inserted, List.take_left]

/-! ## parts in front and behind -/

/-- no command reaches across the ends of the part that is exchanged -/
theorem apart {p : Nat} {c : Command} (hmem : (p, c) ∈ s.allCommands.commands) :
    p + c.length ≤ e.place ∨ e.place ≤ p ∧ p + c.length ≤ e.stop ∨ e.stop ≤ p := by
  rw [h.allCommands, List.append_assoc] at hmem
  rcases List.mem_append.mp hmem with hmem | hmem
  · have hends := (mem_laidFrom hmem).2
    rw [← h.place] at hends
    exact .inl hends
  · rcases List.mem_append.mp hmem with hmem | hmem
    · obtain ⟨hlow, hends⟩ := mem_laidFrom hmem
      rw [← h.stop] at hends
      exact .inr (.inl ⟨hlow, hends⟩)
    · exact .inr (.inr (mem_laidFrom hmem).1)

/-- a command outside the part that is exchanged is carried along -/
theorem exists_carried {p : Nat} {c : Command} (hmem : (p, c) ∈ s.allCommands.commands)
    (hout : p < e.place ∨ e.stop ≤ p) : ∃ c', (e.shift p, c') ∈ s'.allCommands.commands ∧
      Carried e.shift e.carry (p, c) (e.shift p, c') := by
  have hplace : e.place ≤ e.stop := Nat.le_add_right ..
  rw [h.allCommands, List.append_assoc] at hmem
  rw [h.allCommands', List.append_assoc]
  rcases List.mem_append.mp hmem with hmem | hmem
  · obtain ⟨⟨p', c'⟩, hmem', hcarried⟩ := exists_of_mem_left h.before hmem
    obtain rfl : p' = e.shift p := hcarried.position
    exact ⟨c', List.mem_append_left _ hmem', hcarried⟩
  · rcases List.mem_append.mp hmem with hmem | hmem
    · obtain ⟨hlow, hends⟩ := mem_laidFrom hmem
      have hpositive := c.length_pos
      rw [← h.stop] at hends
      omega
    · obtain ⟨⟨p', c'⟩, hmem', hcarried⟩ := exists_of_mem_left h.behind hmem
      obtain rfl : p' = e.shift p := hcarried.position
      exact ⟨c', List.mem_append_right _ (List.mem_append_right _ hmem'), hcarried⟩

theorem commandsIn_front {start stop : Nat} (hstop : stop ≤ e.place) :
    List.Forall₂ (Carried e.shift e.carry) (s.commandsIn start stop)
      (s'.commandsIn start stop) := by
  have hplace : e.place ≤ e.stop := Nat.le_add_right ..
  rw [commandsIn, commandsIn, h.allCommands, h.allCommands']
  simp only [List.filter_append]
  rw [filter_laidFrom_of_le start hstop middle, filter_laidFrom_of_le start hstop new,
    filter_laidFrom_of_le start (Nat.le_trans hstop hplace) back,
    filter_laidFrom_of_le start (Nat.le_trans hstop (Nat.le_add_right ..)) moved]
  simp only [List.append_nil]
  refine filter_of_carried h.before ?_
  rintro ⟨p, c⟩ hmem b hcarried
  have hends := (mem_laidFrom hmem).2
  have hpositive := c.length_pos
  rw [← h.place] at hends
  have hstays : e.shift p = p := if_pos (by omega)
  rw [hcarried.position, hstays]

theorem commandsIn_behind {start stop start' stop' : Nat} (hstart : e.stop ≤ start)
    (hstart' : start' = start - e.removed + e.inserted)
    (hlength : stop + start' = stop' + start) :
    List.Forall₂ (Carried e.shift e.carry) (s.commandsIn start stop)
      (s'.commandsIn start' stop') := by
  have hstop : e.stop = e.place + e.removed := rfl
  have hplace := h.place
  have hplace' := h.place_eq
  have hremoved := h.removed_eq
  have hinserted := h.inserted
  rw [commandsIn, commandsIn, h.allCommands, h.allCommands']
  simp only [List.filter_append]
  rw [filter_laidFrom_of_ge start stop front (by omega),
    filter_laidFrom_of_ge start stop middle (by omega),
    filter_laidFrom_of_ge start' stop' kept (by omega),
    filter_laidFrom_of_ge start' stop' new (by omega)]
  simp only [List.nil_append]
  refine filter_of_carried h.behind ?_
  rintro ⟨p, c⟩ hmem b hcarried
  have hlow : e.stop ≤ p := (mem_laidFrom hmem).1
  have hmoves : e.shift p = p - e.removed + e.inserted := if_neg (by omega)
  rw [hcarried.position, hmoves]
  omega

theorem boundary_front {q : Nat} (hq : s.BoundaryAt q) (hle : q ≤ e.place) :
    s'.BoundaryAt q := by
  rcases Nat.eq_or_lt_of_le hle with rfl | hlt
  · have hstream' : s'.stream = flat (kept ++ (new ++ moved)) := by
      rw [← List.append_assoc]
      exact h.stream'
    have hwhole' : ∀ c ∈ kept ++ (new ++ moved), c.IsWhole := by
      rw [← List.append_assoc]
      exact h.whole'
    rw [h.place_eq, ← h.header]
    exact boundary_of_flat hwhole' hstream'
  · have hstop : e.stop = e.place + e.removed := rfl
    rcases hq with rfl | hq
    · have hlength := h.length_eq
      omega
    · obtain ⟨⟨p, c⟩, hmem, rfl⟩ := List.mem_map.mp hq
      obtain ⟨c', hmem', _⟩ := h.exists_carried hmem (.inl hlt)
      have hstays : e.shift p = p := if_pos hlt
      rw [hstays] at hmem'
      exact .inr (List.mem_map.mpr ⟨(p, c'), hmem', rfl⟩)

theorem boundary_behind {q : Nat} (hq : s.BoundaryAt q) (hge : e.stop ≤ q) :
    s'.BoundaryAt (q - e.removed + e.inserted) := by
  have hstop : e.stop = e.place + e.removed := rfl
  rcases hq with rfl | hq
  · refine .inl ?_
    rw [h.length_eq', h.length_eq]
    omega
  · obtain ⟨⟨p, c⟩, hmem, rfl⟩ := List.mem_map.mp hq
    obtain ⟨c', hmem', _⟩ := h.exists_carried hmem (.inr hge)
    have hmoves : e.shift p = p - e.removed + e.inserted := if_neg (by omega)
    rw [hmoves] at hmem'
    exact .inr (List.mem_map.mpr ⟨(p - e.removed + e.inserted, c'), hmem', rfl⟩)

/-- a byte outside the part that is exchanged -/
theorem byte?_shift {x : Nat} (hlow : s.headerLength ≤ x) (hhigh : x < s.length)
    (hout : x < e.place ∨ e.stop ≤ x) (hdistance : ¬ s.IsDistance x) :
    s'.byte? (e.shift x) = s.byte? x := by
  have hstop : e.stop = e.place + e.removed := rfl
  obtain ⟨p, c, hmem, hp, hx⟩ := exists_entry (by rw [h.allCommands]) hlow hhigh
  obtain ⟨n, rfl⟩ := Nat.exists_eq_add_of_le hp
  have hn : n < c.length := Nat.lt_of_add_lt_add_left hx
  -- its command is outside as well, and both move by the same amount
  have hcommand : (p < e.place ∨ e.stop ≤ p) ∧ e.shift (p + n) = e.shift p + n := by
    unfold Splice.shift
    rcases h.apart hmem with hends | ⟨hlow, hends⟩ | hlow
    · rw [if_pos (by omega), if_pos (by omega)]
      exact ⟨.inl (by omega), rfl⟩
    · omega
    · rw [if_neg (by omega), if_neg (by omega)]
      exact ⟨.inr hlow, by omega⟩
  obtain ⟨c', hmem', hcarried⟩ := h.exists_carried hmem hcommand.1
  have hlength : c'.length = c.length := hcarried.length_eq
  rw [hcommand.2, byte?_of_mem hmem' (hlength ▸ hn), byte?_of_mem hmem hn]
  refine hcarried.getElem?_bytes fun hjump hlast => hdistance ⟨(p, c), hmem, hjump, ?_⟩
  exact congrArg (p + ·) hlast

theorem keepsCode_front {start stop : Nat} (hlow : s.headerLength ≤ start) (hle : start ≤ stop)
    (hstop : stop ≤ e.place) : KeepsCode e s s' start stop start stop where
  length := rfl
  commands := h.commandsIn_front hstop
  reads := by
    intro hstart
    have hplace := h.place
    have hends : e.place ≤ s.length := by
      rw [h.length_eq, Splice.stop]
      omega
    have hends' : e.place ≤ s'.length := by
      rw [h.length_eq']
      omega
    exact ⟨commands_of_boundary (by rw [h.allCommands]) hstart (Nat.le_trans hstop hends),
      commands_of_boundary (by rw [h.allCommands'])
        (h.boundary_front hstart (Nat.le_trans hle hstop)) (Nat.le_trans hstop hends')⟩
  bytes := by
    intro n hn hdistance
    have hbefore : start + n < e.place := Nat.lt_of_lt_of_le hn hstop
    have hends : e.place ≤ s.length := by
      rw [h.length_eq, Splice.stop]
      omega
    have hbyte := h.byte?_shift (Nat.le_trans hlow (Nat.le_add_right ..))
      (Nat.lt_of_lt_of_le hbefore hends) (.inl hbefore) hdistance
    have hstays : e.shift (start + n) = start + n := if_pos hbefore
    rwa [hstays] at hbyte

theorem keepsCode_behind {start stop : Nat} (hstart : e.stop ≤ start) (hle : start ≤ stop)
    (hstop : stop ≤ s.length) : KeepsCode e s s' start stop
      (start - e.removed + e.inserted) (stop - e.removed + e.inserted) where
  length := by
    rw [Splice.stop] at hstart
    omega
  commands := by
    rw [Splice.stop] at hstart
    exact h.commandsIn_behind hstart rfl (by omega)
  reads := by
    intro hboundary
    have hends : stop - e.removed + e.inserted ≤ s'.length := by
      rw [h.length_eq, Splice.stop] at hstop
      rw [h.length_eq']
      rw [Splice.stop] at hstart
      omega
    exact ⟨commands_of_boundary (by rw [h.allCommands]) hboundary hstop,
      commands_of_boundary (by rw [h.allCommands']) (h.boundary_behind hboundary hstart) hends⟩
  bytes := by
    intro n hn hdistance
    have hplace := h.place
    rw [Splice.stop] at hstart
    have hbehind : e.stop ≤ start + n := Nat.le_trans hstart (Nat.le_add_right ..)
    have hbyte := h.byte?_shift (by omega) (Nat.lt_of_lt_of_le hn hstop) (.inr hbehind) hdistance
    have hmoves : e.shift (start + n) = start - e.removed + e.inserted + n := by
      rw [Splice.shift, if_neg (by omega)]
      omega
    rwa [hmoves] at hbyte

end Exchange

/-! ## the pointer table -/

/-- All commands move with the table in front of them, also when the pointers that the table has
gained or lost are put in their places. -/
theorem carried_of_resize {s r : Script} {place removed inserted : Nat} {anchor : Anchor}
    (h : s.resize place removed inserted anchor = .ok r) :
    s.allCommands.fault = none ∧ ∀ t : Script, t.stream = r.stream →
      t.headerLength = s.headerLength - removed + inserted → t.allCommands.fault = none ∧
        List.Forall₂ (Carried (· - removed + inserted)
          (Splice.carry ⟨place, removed, inserted, anchor⟩))
          s.allCommands.commands t.allCommands.commands := by
  let e : Splice := ⟨place, removed, inserted, anchor⟩
  obtain ⟨hinside, _, cs, moved, hwhole, hstream, hmoved, rfl⟩ := exists_of_resize h
  have hall := allCommands_of_flat hwhole hstream
  have hshift : ∀ pos, s.headerLength ≤ pos → e.shift pos = pos - removed + inserted :=
    fun pos hpos => if_neg (by show ¬ pos < place; omega)
  have hmove : ∀ n < (flat cs).length,
      e.shift (s.headerLength + n) = s.headerLength - removed + inserted + n := by
    intro n _
    rw [hshift _ (Nat.le_add_right ..)]
    omega
  obtain ⟨hmovedWhole, _, hcarried⟩ := Splice.carried_of_retarget hwhole hmove hmoved
  refine ⟨by rw [hall], fun t hsame hheader => ?_⟩
  have hsame : t.stream = flat moved := hsame
  have hall' := allCommands_of_flat hmovedWhole hsame
  rw [hheader] at hall'
  rw [hall, hall']
  refine ⟨rfl, ((List.forall₂_and_left _ _).mpr ⟨fun a ha => ha, hcarried⟩).imp ?_⟩
  rintro a b ⟨ha, hab⟩
  exact hab.mono (hshift a.1 (mem_laidFrom ha).1) fun _ => rfl

end Script

end Cartridge
