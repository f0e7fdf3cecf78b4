import Cartridge.Proofs.Script.Splice

/-!
# Where commands lead

A position is reached when whole commands fill the stream up to it.  Commands frame themselves, so
only the bytes in front of a position decide whether it is reached, and a command that is there can
be exchanged for any other of its length.

* `Script.Reaches`           whole commands fill the stream up to a position;
* `Script.fault_eq_none_iff` a script decodes just when its end is reached;
* `Script.Reaches.congr`, `Script.reaches_swap`, `Script.reaches_of_map`   other streams in which
                             the same positions are reached;
* `Script.allCommands_of_split`, `Script.allCommands_swap`   all commands, by way of one of them;
* `Script.split_of_reaches`  from such a position on, commands divide the whole stream;
* `Script.findCommand_eq_ok` the first command of a kind.
-/

namespace Cartridge

open Command

namespace Script

/-! ## positions that commands lead to -/

def Reaches (s : Script) (pos : Nat) : Prop :=
  ∃ cs rest, (∀ c ∈ cs, c.IsWhole) ∧ s.stream = flat cs ++ rest ∧
    pos = s.headerLength + (flat cs).length

theorem fault_eq_none_iff {s : Script} : s.allCommands.fault = none ↔ s.Reaches s.length := by
  constructor
  · intro h
    obtain ⟨cs, hwhole, hstream, _⟩ := flat_of_allCommands h
    exact ⟨cs, [], hwhole, by rw [hstream, List.append_nil], length_of_flat hstream⟩
  · rintro ⟨cs, rest, hwhole, hstream, hpos⟩
    have hrest : rest = [] := by
      rw [length, hstream, List.length_append] at hpos
      exact List.eq_nil_of_length_eq_zero (by omega)
    rw [hrest, List.append_nil] at hstream
    rw [allCommands_of_flat hwhole hstream]

/-- only the bytes in front of a position count -/
theorem Reaches.congr {s s' : Script} {pos : Nat} (h : s.Reaches pos)
    (hheader : s'.headerLength = s.headerLength)
    (hstream : s'.stream.take (pos - s.headerLength) = s.stream.take (pos - s.headerLength)) :
    s'.Reaches pos := by
  obtain ⟨cs, rest, hwhole, hbytes, hpos⟩ := h
  rw [hpos, Nat.add_sub_cancel_left, hbytes, List.take_left] at hstream
  refine ⟨cs, s'.stream.drop (flat cs).length, hwhole, ?_, ?_⟩
  · conv => lhs; rw [← List.take_append_drop (flat cs).length s'.stream, hstream]
  · rw [hheader, hpos]

section
variable {s s' : Script} {front : List Command} {c c' : Command} {back : Bytes}
  (hfront : ∀ d ∈ front, d.IsWhole) (hc : c.IsWhole) (hc' : c'.IsWhole)
  (hlength : c'.length = c.length) (hheader : s'.headerLength = s.headerLength)
  (hstream : s.stream = flat front ++ (c.bytes ++ back))
  (hstream' : s'.stream = flat front ++ (c'.bytes ++ back))
include hfront hc hc' hlength hheader hstream hstream'

/-- a command in place of one of its length -/
theorem Reaches.swap {pos : Nat} (h : s.Reaches pos) : s'.Reaches pos := by
  obtain ⟨cs, rest, hwhole, hbytes, hpos⟩ := h
  rw [hstream] at hbytes
  rcases Nat.lt_or_ge (flat front).length (flat cs).length with hlt | hle
  · obtain ⟨ds, rfl, hback⟩ := exists_append_cons_of_flat hwhole hfront hc hbytes.symm hlt
    refine ⟨front ++ c' :: ds, rest, ?_, ?_, ?_⟩
    · intro d hd
      rcases List.mem_append.mp hd with hd | hd
      · exact hfront d hd
      · rcases List.mem_cons.mp hd with rfl | hd
        · exact hc'
        · exact hwhole d (List.mem_append_right _ (List.mem_cons_of_mem _ hd))
    · rw [hstream', hback, flat_append, flat_cons, List.append_assoc, List.append_assoc]
    · rw [hheader, hpos, flat_append, flat_append, List.length_append, List.length_append,
        length_flat_cons, length_flat_cons, hlength]
  · obtain ⟨ds, rfl⟩ := exists_append_of_flat hwhole hfront hbytes.symm hle
    refine ⟨cs, flat ds ++ (c'.bytes ++ back), hwhole, ?_, ?_⟩
    · rw [hstream', flat_append, List.append_assoc]
    · rw [hheader, hpos]

theorem reaches_swap {pos : Nat} : s'.Reaches pos ↔ s.Reaches pos := by
  constructor
  · exact Reaches.swap hfront hc' hc hlength.symm hheader.symm hstream' hstream
  · exact Reaches.swap hfront hc hc' hlength hheader hstream hstream'

end

/-- commands that have changed, but for their lengths, lead to the positions of the old ones -/
theorem reaches_of_map {s s' : Script} {f : Command → Command} {cs : List Command}
    (hwhole : ∀ c ∈ cs, (f c).IsWhole) (hlength : ∀ c ∈ cs, (f c).length = c.length)
    (hold : ∀ c ∈ cs, c.IsWhole) (hheader : s'.headerLength = s.headerLength)
    (hstream : s.stream = flat cs) (hstream' : s'.stream = flat (cs.map f)) {pos : Nat}
    (h : s'.Reaches pos) : s.Reaches pos := by
  obtain ⟨as, rest, has, hbytes, hpos⟩ := h
  have hmap : ∀ c ∈ cs.map f, c.IsWhole := by
    intro c hc
    obtain ⟨d, hd, rfl⟩ := List.mem_map.mp hc
    exact hwhole d hd
  have hle : (flat as).length ≤ (flat (cs.map f)).length := by
    rw [← hstream', hbytes, List.length_append]
    exact Nat.le_add_right ..
  have hsame : flat as ++ rest = flat (cs.map f) ++ [] := by
    rw [List.append_nil, ← hstream', hbytes]
  obtain ⟨ds, hds⟩ := exists_append_of_flat has hmap hsame hle
  obtain ⟨front, back, rfl, rfl, rfl⟩ := List.map_eq_append_iff.mp hds
  have hfront : (flat (front.map f)).length = (flat front).length :=
    length_flat_map fun c hc => hlength c (List.mem_append_left _ hc)
  refine ⟨front, flat back, fun c hc => hold c (List.mem_append_left _ hc), ?_, ?_⟩
  · rw [hstream, flat_append]
  · rw [hpos, hheader, hfront]

/-! ## commands in front of a position -/

/-- whole commands are read, and then what is behind them -/
theorem allCommands_of_append {s : Script} {front : List Command} {back : Bytes}
    (hfront : ∀ c ∈ front, c.IsWhole) (hstream : s.stream = flat front ++ back) :
    s.allCommands = Reading.shift s.headerLength
      ⟨laidFrom 0 front ++ (readFrom (flat front).length s.stream.length back []).commands,
        (readFrom (flat front).length s.stream.length back []).fault⟩ := by
  have hle : 0 + (flat front).length ≤ s.stream.length := by
    rw [Nat.zero_add, hstream, List.length_append]
    exact Nat.le_add_right ..
  have hread : readAll s.stream = readFrom 0 s.stream.length (flat front ++ back) [] :=
    congrArg (readFrom 0 s.stream.length · []) hstream
  rw [allCommands_eq, hread, readFrom_append hfront hle, List.append_nil, Nat.zero_add,
    readFrom_done _ _ back (laidFrom 0 front).reverse, List.reverse_reverse]

/-- of which the last one is a command of the script -/
theorem allCommands_of_split {s : Script} {front : List Command} {c : Command} {back : Bytes}
    (hfront : ∀ d ∈ front, d.IsWhole) (hc : c.IsWhole)
    (hstream : s.stream = flat front ++ (c.bytes ++ back)) :
    s.allCommands = Reading.shift s.headerLength
      ⟨laidFrom 0 front ++ ((flat front).length, c) ::
          (readFrom ((flat front).length + c.length) s.stream.length back []).commands,
        (readFrom ((flat front).length + c.length) s.stream.length back []).fault⟩ := by
  have hwhole : ∀ d ∈ front ++ [c], d.IsWhole := by
    intro d hd
    rcases List.mem_append.mp hd with hd | hd
    · exact hfront d hd
    · obtain rfl := List.mem_singleton.mp hd
      exact hc
  have hsplit : s.stream = flat (front ++ [c]) ++ back := by
    rw [hstream, flat_append, flat_cons, flat_nil, List.append_nil, List.append_assoc]
  have hlength : (flat (front ++ [c])).length = (flat front).length + c.length := by
    rw [flat_append, List.length_append, length_flat_cons]
    rfl
  rw [allCommands_of_append hwhole hsplit, hlength, laidFrom_append, laidFrom_cons, Nat.zero_add,
    laidFrom_nil, List.append_assoc, List.singleton_append]

theorem mem_of_split {s : Script} {front : List Command} {c : Command} {back : Bytes}
    (hfront : ∀ d ∈ front, d.IsWhole) (hc : c.IsWhole)
    (hstream : s.stream = flat front ++ (c.bytes ++ back)) :
    (s.headerLength + (flat front).length, c) ∈ s.allCommands.commands := by
  rw [allCommands_of_split hfront hc hstream]
  exact List.mem_map.mpr ⟨_, List.mem_append_cons_self, rfl⟩

/-- a command in place of one of its length, and all others as they were -/
theorem allCommands_swap {s s' : Script} {front : List Command} {c c' : Command} {back : Bytes}
    (hfront : ∀ d ∈ front, d.IsWhole) (hc : c.IsWhole) (hc' : c'.IsWhole)
    (hlength : c'.length = c.length) (hheader : s'.headerLength = s.headerLength)
    (hstream : s.stream = flat front ++ (c.bytes ++ back))
    (hstream' : s'.stream = flat front ++ (c'.bytes ++ back)) :
    s'.allCommands = ⟨s.allCommands.commands.map fun a =>
      (a.1, if a.1 = s.headerLength + (flat front).length then c' else a.2),
        s.allCommands.fault⟩ := by
  have hsize : s'.stream.length = s.stream.length := by
    simp only [hstream, hstream', List.length_append, length_bytes, hlength]
  have hbefore : ∀ a ∈ laidFrom 0 front, a.1 ≠ (flat front).length := by
    rintro ⟨p, d⟩ ha
    have hends := (mem_laidFrom ha).2
    have hpositive := d.length_pos
    dsimp only
    omega
  have hbehind : ∀ a ∈ (readFrom ((flat front).length + c.length) s.stream.length back []).commands,
      a.1 ≠ (flat front).length := by
    rintro ⟨p, d⟩ ha
    rcases mem_readFrom ha with hnone | ⟨_, _, _, _, _, hp⟩
    · cases hnone
    · have hpositive := c.length_pos
      dsimp only
      omega
  rw [allCommands_of_split hfront hc' hstream', allCommands_of_split hfront hc hstream, hheader,
    hlength, hsize]
  rw [Reading.shift, Reading.shift, Reading.mk.injEq]
  refine ⟨?_, rfl⟩
  simp only [List.map_append, List.map_cons, List.map_map]
  refine congrArg₂ _ (List.map_congr_left fun a ha => ?_)
    (congrArg₂ _ ?_ (List.map_congr_left fun a ha => ?_))
  · have hne := hbefore a ha
    simp only [Function.comp_apply, Nat.add_left_cancel_iff, if_neg hne]
  · rw [if_pos trivial]
  · have hne := hbehind a ha
    simp only [Function.comp_apply, Nat.add_left_cancel_iff, if_neg hne]

/-! ## commands behind a position -/

/-- a command that is read from a place on stands behind whole commands -/
theorem mem_commands {s : Script} {start stop pos : Nat} {c : Command}
    (h : (pos, c) ∈ (s.commands start stop).commands) :
    ∃ front back, (∀ d ∈ front, d.IsWhole) ∧ c.IsWhole ∧
      s.stream.drop (max start s.headerLength - s.headerLength) =
        flat front ++ (c.bytes ++ back) ∧
      pos = max start s.headerLength + (flat front).length := by
  obtain ⟨⟨p, d⟩, hmem, heq⟩ := List.mem_map.mp h
  obtain ⟨rfl, rfl⟩ := Prod.mk.inj heq
  rcases mem_readFrom hmem with hnone | ⟨front, back, hfront, hd, hstream, hpos⟩
  · cases hnone
  · refine ⟨front, back, hfront, hd, hstream, ?_⟩
    rw [hpos]
    have hle : s.headerLength ≤ max start s.headerLength := Nat.le_max_right ..
    omega

/-- it lies inside the stream, at or behind the place -/
theorem bounds_of_mem_commands {s : Script} {start stop pos : Nat} {c : Command}
    (h : (pos, c) ∈ (s.commands start stop).commands) : start ≤ pos ∧ pos < s.length := by
  obtain ⟨front, back, _, _, hstream, hpos⟩ := mem_commands h
  have hlength := congrArg List.length hstream
  rw [List.length_drop, List.length_append, List.length_append, length_bytes] at hlength
  have hpositive := c.length_pos
  have hle : start ≤ max start s.headerLength := Nat.le_max_left ..
  have hheader : s.headerLength ≤ max start s.headerLength := Nat.le_max_right ..
  rw [length]
  omega

/-- from a position that commands lead to, they lead on -/
theorem split_of_reaches {s : Script} {start stop pos : Nat} {c : Command}
    (hstart : s.Reaches start) (h : (pos, c) ∈ (s.commands start stop).commands) :
    ∃ front back, (∀ d ∈ front, d.IsWhole) ∧ c.IsWhole ∧
      s.stream = flat front ++ (c.bytes ++ back) ∧ pos = s.headerLength + (flat front).length := by
  obtain ⟨cs, rest, hwhole, hbytes, rfl⟩ := hstart
  obtain ⟨front, back, hfront, hc, hstream, hpos⟩ := mem_commands h
  rw [Nat.max_eq_left (Nat.le_add_right ..)] at hstream hpos
  rw [Nat.add_sub_cancel_left, hbytes, List.drop_left] at hstream
  refine ⟨cs ++ front, back, ?_, hc, ?_, ?_⟩
  · intro d hd
    rcases List.mem_append.mp hd with hd | hd
    · exact hwhole d hd
    · exact hfront d hd
  · rw [hbytes, hstream, flat_append, List.append_assoc]
  · rw [hpos, flat_append, List.length_append, Nat.add_assoc]

/-- commands lead to every command of the script -/
theorem split_of_mem {s : Script} {pos : Nat} {c : Command}
    (h : (pos, c) ∈ s.allCommands.commands) :
    ∃ front back, (∀ d ∈ front, d.IsWhole) ∧ c.IsWhole ∧
      s.stream = flat front ++ (c.bytes ++ back) ∧ pos = s.headerLength + (flat front).length := by
  have hstart : s.Reaches s.headerLength := ⟨[], s.stream, by simp, rfl, rfl⟩
  exact split_of_reaches hstart h

theorem reaches_of_mem {s : Script} {pos : Nat} {c : Command}
    (h : (pos, c) ∈ s.allCommands.commands) : s.Reaches pos := by
  obtain ⟨front, back, hfront, _, hstream, hpos⟩ := split_of_mem h
  exact ⟨front, c.bytes ++ back, hfront, hstream, hpos⟩

/-- a command that is found is the first of its kind -/
theorem find?_eq_ok {r : Reading} {p : Command → Bool} {entry : Nat × Command}
    (h : r.find? p = .ok (some entry)) : ∃ before behind, r.commands = before ++ entry :: behind ∧
      p entry.2 = true ∧ ∀ a ∈ before, p a.2 = false := by
  unfold Reading.find? at h
  cases hfind : r.commands.find? fun entry => p entry.2 with
  | none =>
    rw [hfind] at h
    cases hfault : r.fault with
    | none =>
      rw [hfault] at h
      cases h
    | some fault =>
      rw [hfault] at h
      cases h
  | some found =>
    rw [hfind] at h
    cases h
    obtain ⟨hkind, before, behind, hcommands, hbefore⟩ := List.find?_eq_some_iff_append.mp hfind
    refine ⟨before, behind, hcommands, hkind, fun a ha => ?_⟩
    rw [← Bool.not_eq_true', hbefore a ha]

theorem findCommand_eq_ok {s : Script} {opcodes : Bytes} {start stop pos : Nat}
    (h : s.findCommand opcodes start stop = .ok pos) :
    ∃ before c behind, (s.commands start stop).commands = before ++ (pos, c) :: behind ∧
      c.opcode ∈ opcodes ∧ ∀ a ∈ before, a.2.opcode ∉ opcodes := by
  obtain ⟨found, hfound, h⟩ := bind_eq_ok.mp h
  cases found with
  | none => cases h
  | some p =>
    cases h
    obtain ⟨entry, hentry, hfound⟩ := bind_eq_ok.mp hfound
    have hsome : entry.map Prod.fst = some pos := Except.ok.inj hfound
    obtain ⟨⟨p, c⟩, rfl, rfl⟩ := Option.map_eq_some_iff.mp hsome
    obtain ⟨before, behind, hcommands, hc, hbefore⟩ := find?_eq_ok hentry
    refine ⟨before, c, behind, hcommands, List.contains_iff_mem.mp hc, fun a ha hmem => ?_⟩
    have hnot := hbefore a ha
    rw [List.contains_iff_mem.mpr hmem] at hnot
    cases hnot

theorem commandAt_of_split {s : Script} {front : List Command} {c : Command} {back : Bytes}
    (hc : c.IsWhole) (hstream : s.stream = flat front ++ (c.bytes ++ back)) :
    s.commandAt (s.headerLength + (flat front).length) = .ok c := by
  have hlow : ¬ s.headerLength + (flat front).length < s.headerLength := by omega
  unfold commandAt
  rw [if_neg hlow]
  dsimp only
  rw [Nat.add_sub_cancel_left, hstream, List.drop_left, decodeAt_bytes hc]
  rfl

/-- a command is read in the same way by itself -/
theorem commandAt_of_mem_commands {s : Script} {start stop pos : Nat} {c : Command}
    (h : (pos, c) ∈ (s.commands start stop).commands) : s.commandAt pos = .ok c := by
  obtain ⟨front, back, _, hc, hstream, rfl⟩ := mem_commands h
  have hheader : s.headerLength ≤ max start s.headerLength := Nat.le_max_right ..
  have hlow : ¬ max start s.headerLength + (flat front).length < s.headerLength := by omega
  have hplace : max start s.headerLength + (flat front).length - s.headerLength =
      max start s.headerLength - s.headerLength + (flat front).length := by omega
  unfold commandAt
  rw [if_neg hlow]
  dsimp only
  rw [hplace, ← List.drop_drop, hstream, List.drop_left, decodeAt_bytes hc]
  rfl

theorem commandAt_of_mem {s : Script} {pos : Nat} {c : Command}
    (h : (pos, c) ∈ s.allCommands.commands) : c.IsWhole ∧ s.commandAt pos = .ok c := by
  obtain ⟨front, back, _, hc, hstream, rfl⟩ := split_of_mem h
  exact ⟨hc, commandAt_of_split hc hstream⟩

end Script

end Cartridge
