import Cartridge.Proofs.Script.Jump

/-!
# Splices of scripts

A stream without a fault is a list of commands, and a place at which a command begins, or the end,
cuts the list in two.  A splice keeps the commands in front of its place and those behind its stop,
each carried along.

* `Script.allCommands_of_flat`, `Script.flat_of_allCommands`   the commands of a script;
* `Command.CutAt`             a position between two commands of a list;
* `Script.cutAt_of_checkBoundary`, `Script.checkBoundary_of_cutAt`   the positions at which an edit
                              may begin and end;
* `Splice.retargetAll_eq_ok`, `Splice.carried_of_retarget`   the commands of a part;
* `Script.commands_spliced`, `Script.length_spliced`   the commands of a spliced script, and its
                              length;
* `Script.replace_eq_ok`, `Script.length_replace`   edits at command boundaries;
* `Script.spliced_of_retarget`, `Script.replace_of_cutAt`   when they succeed;
* `Script.exists_of_resize`, `Script.resize_of_retarget`   edits of the pointer table.
-/

namespace Cartridge

open Command

/-! ## the commands of a script -/

theorem readAll_shift_flat {cs : List Command} (hwhole : ∀ c ∈ cs, c.IsWhole) (base : Nat) :
    (readAll (flat cs)).shift base = ⟨laidFrom base cs, none⟩ := by
  rw [readAll_flat hwhole, Reading.shift, map_add_laidFrom, Nat.add_zero]

namespace Script

theorem allCommands_eq (s : Script) : s.allCommands = (readAll s.stream).shift s.headerLength := by
  have hstart : max s.headerLength s.headerLength - s.headerLength = 0 := by omega
  have hstop : min s.length s.length - s.headerLength = s.stream.length := by
    rw [length]
    omega
  rw [allCommands, commands, hstart, hstop, readAll]

theorem allCommands_of_flat {s : Script} {cs : List Command} (hwhole : ∀ c ∈ cs, c.IsWhole)
    (hstream : s.stream = flat cs) : s.allCommands = ⟨laidFrom s.headerLength cs, none⟩ := by
  rw [allCommands_eq, hstream, readAll_shift_flat hwhole]

/-- a script without a fault is a list of whole commands -/
theorem flat_of_allCommands {s : Script} (h : s.allCommands.fault = none) :
    ∃ cs, (∀ c ∈ cs, c.IsWhole) ∧ s.stream = flat cs ∧
      s.allCommands = ⟨laidFrom s.headerLength cs, none⟩ := by
  rw [allCommands_eq] at h
  obtain ⟨cs, hwhole, hstream, _⟩ := flat_of_readAll h
  exact ⟨cs, hwhole, hstream, allCommands_of_flat hwhole hstream⟩

theorem length_of_flat {s : Script} {cs : List Command} (hstream : s.stream = flat cs) :
    s.length = s.headerLength + (flat cs).length := by
  rw [length, hstream]

end Script

/-! ## cuts -/

namespace Command

/-- the commands, of which the first stands at `start`, divide at `pos` into `front` and `back` -/
structure CutAt (start : Nat) (cs : List Command) (pos : Nat) (front back : List Command) :
    Prop where
  eq_append : cs = front ++ back
  pos_eq : pos = start + (flat front).length

section
variable {start pos : Nat} {cs front back : List Command}

theorem CutAt.laidFrom_eq (h : CutAt start cs pos front back) :
    laidFrom start cs = laidFrom start front ++ laidFrom pos back := by
  rw [h.eq_append, laidFrom_append, h.pos_eq]

theorem CutAt.filter_lt (h : CutAt start cs pos front back) :
    (laidFrom start cs).filter (fun entry => entry.1 < pos) = laidFrom start front := by
  rw [h.laidFrom_eq, List.filter_append, List.filter_eq_self.mpr, List.filter_eq_nil_iff.mpr,
    List.append_nil]
  · rintro ⟨p, c⟩ hmem
    have := (mem_laidFrom hmem).1
    simp only [decide_eq_true_eq]
    omega
  · rintro ⟨p, c⟩ hmem
    have hends := (mem_laidFrom hmem).2
    rw [← h.pos_eq] at hends
    have := c.length_pos
    simp only [decide_eq_true_eq]
    omega

theorem CutAt.filter_ge (h : CutAt start cs pos front back) :
    (laidFrom start cs).filter (fun entry => pos ≤ entry.1) = laidFrom pos back := by
  rw [h.laidFrom_eq, List.filter_append, List.filter_eq_nil_iff.mpr, List.filter_eq_self.mpr,
    List.nil_append]
  · rintro ⟨p, c⟩ hmem
    have := (mem_laidFrom hmem).1
    simp only [decide_eq_true_eq]
    omega
  · rintro ⟨p, c⟩ hmem
    have hends := (mem_laidFrom hmem).2
    rw [← h.pos_eq] at hends
    have := c.length_pos
    simp only [decide_eq_true_eq]
    omega

theorem CutAt.whole (h : CutAt start cs pos front back) (hwhole : ∀ c ∈ cs, c.IsWhole) :
    (∀ c ∈ front, c.IsWhole) ∧ ∀ c ∈ back, c.IsWhole := by
  rw [h.eq_append] at hwhole
  exact ⟨fun c hc => hwhole c (List.mem_append_left _ hc),
    fun c hc => hwhole c (List.mem_append_right _ hc)⟩

end

/-- the position of a command, or the end, cuts the list -/
theorem cutAt_of_mem {start pos : Nat} {cs : List Command}
    (h : pos = start + (flat cs).length ∨ pos ∈ (laidFrom start cs).map Prod.fst) :
    ∃ front back, CutAt start cs pos front back := by
  induction cs generalizing start with
  | nil =>
    refine ⟨[], [], rfl, ?_⟩
    rcases h with h | h
    · exact h
    · cases h
  | cons c cs ih =>
    by_cases hpos : pos = start
    · exact ⟨[], c :: cs, rfl, hpos⟩
    · have h' : pos = start + c.length + (flat cs).length ∨
          pos ∈ (laidFrom (start + c.length) cs).map Prod.fst := by
        rcases h with h | h
        · rw [length_flat_cons, ← Nat.add_assoc] at h
          exact .inl h
        · rw [laidFrom_cons, List.map_cons] at h
          rcases List.mem_cons.mp h with h | h
          · exact absurd h hpos
          · exact .inr h
      obtain ⟨front, back, hcut⟩ := ih h'
      refine ⟨c :: front, back, ?_, ?_⟩
      · rw [hcut.eq_append, List.cons_append]
      · rw [length_flat_cons, ← Nat.add_assoc]
        exact hcut.pos_eq

end Command

theorem Script.cutAt_of_checkBoundary {s : Script} {cs : List Command} {pos : Nat}
    (hwhole : ∀ c ∈ cs, c.IsWhole) (hstream : s.stream = flat cs)
    (h : s.checkBoundary pos = .ok ()) : ∃ front back, CutAt s.headerLength cs pos front back := by
  apply cutAt_of_mem
  unfold checkBoundary at h
  rw [allCommands_of_flat hwhole hstream, length_of_flat hstream] at h
  by_cases hend : pos = s.headerLength + (flat cs).length
  · exact .inl hend
  · rw [if_neg hend] at h
    simp only at h
    split at h
    · rename_i p c hfind
      by_cases hp : p = pos
      · rw [← hp]
        exact .inr (List.mem_map_of_mem (List.mem_of_find?_eq_some hfind))
      · rw [if_neg hp] at h
        cases h
    · cases h

/-- an edit may begin and end wherever the commands divide -/
theorem Script.checkBoundary_of_cutAt {s : Script} {cs front back : List Command} {pos : Nat}
    (hwhole : ∀ c ∈ cs, c.IsWhole) (hstream : s.stream = flat cs)
    (h : CutAt s.headerLength cs pos front back) : s.checkBoundary pos = .ok () := by
  unfold checkBoundary
  by_cases hend : pos = s.length
  · rw [if_pos hend]
  · rw [if_neg hend]
    cases back with
    | nil =>
      refine absurd ?_ hend
      rw [length_of_flat hstream, h.eq_append, List.append_nil]
      exact h.pos_eq
    | cons c back =>
      have hfront : (laidFrom s.headerLength front).find? (fun entry => pos ≤ entry.1) = none := by
        rw [List.find?_eq_none]
        rintro ⟨p, d⟩ hmem hle
        have hends := (mem_laidFrom hmem).2
        rw [← h.pos_eq] at hends
        have hpositive := d.length_pos
        have hle : pos ≤ p := of_decide_eq_true hle
        omega
      have hfind : (laidFrom s.headerLength cs).find? (fun entry => pos ≤ entry.1) =
          some (pos, c) := by
        have hhead : decide ((pos, c).1 ≥ pos) = true := decide_eq_true (Nat.le_refl pos)
        rw [h.laidFrom_eq, List.find?_append, hfront, Option.none_or, laidFrom_cons]
        exact List.find?_cons_of_pos hhead
      simp only [allCommands_of_flat hwhole hstream, hfind, if_pos]

/-! ## parts -/

namespace Splice

theorem retargetAll_eq_ok {e : Splice} {entries : List (Nat × Command)} {bytes : Bytes} :
    e.retargetAll entries = .ok bytes ↔
      ∃ cs, List.Forall₂ (fun entry c => e.retarget entry.1 entry.2 = .ok c) entries cs ∧
        bytes = flat cs := by
  rw [retargetAll, bind_eq_ok]
  constructor
  · rintro ⟨cs, hcs, h⟩
    cases h
    exact ⟨cs, mapM_eq_ok.mp hcs, rfl⟩
  · rintro ⟨cs, hcs, rfl⟩
    exact ⟨cs, mapM_eq_ok.mpr hcs, rfl⟩

/-- commands that all move by the same amount stay as they lie, one behind the other -/
theorem carried_of_retarget {e : Splice} {cs cs' : List Command} {start start' : Nat}
    (hwhole : ∀ c ∈ cs, c.IsWhole)
    (hmove : ∀ n < (flat cs).length, e.shift (start + n) = start' + n)
    (h : List.Forall₂ (fun entry c => e.retarget entry.1 entry.2 = .ok c) (laidFrom start cs) cs') :
    (∀ c ∈ cs', c.IsWhole) ∧ (flat cs').length = (flat cs).length ∧
      List.Forall₂ (Carried e.shift e.carry) (laidFrom start cs) (laidFrom start' cs') := by
  induction cs generalizing start start' cs' with
  | nil =>
    rw [laidFrom_nil] at h
    cases h
    exact ⟨by simp, rfl, .nil⟩
  | cons c cs ih =>
    rw [laidFrom_cons] at h
    cases h with
    | @cons _ c' _ cs' hc hcs =>
      have hpos := c.length_pos
      rw [length_flat_cons] at hmove
      have hfirst := hmove 0 (by omega)
      have hlast := hmove (c.length - 1) (by omega)
      rw [← Nat.add_sub_assoc hpos, ← Nat.add_sub_assoc hpos] at hlast
      have hhead := hwhole c (List.mem_cons_self ..)
      obtain ⟨hwhole', hlength⟩ := isWhole_retarget hhead hc
      have hcarried := carried_retarget hhead hfirst.symm hlast.symm hc
      have hrest : ∀ n < (flat cs).length,
          e.shift (start + c.length + n) = start' + c.length + n := by
        intro n hn
        rw [Nat.add_assoc, Nat.add_assoc]
        exact hmove (c.length + n) (by omega)
      obtain ⟨ihwhole, ihlength, ihcarried⟩ :=
        ih (fun d hd => hwhole d (List.mem_cons_of_mem _ hd)) hrest hcs
      refine ⟨?_, ?_, ?_⟩
      · intro d hd
        rcases List.mem_cons.mp hd with rfl | hd
        · exact hwhole'
        · exact ihwhole d hd
      · rw [length_flat_cons, length_flat_cons, hlength, ihlength]
      · rw [laidFrom_cons, laidFrom_cons, hlength]
        exact .cons hcarried ihcarried

/-- wherever the commands go, they stay whole -/
theorem whole_of_retarget {e : Splice} {entries : List (Nat × Command)} {cs : List Command}
    (hwhole : ∀ entry ∈ entries, entry.2.IsWhole)
    (h : List.Forall₂ (fun entry c => e.retarget entry.1 entry.2 = .ok c) entries cs) :
    ∀ c ∈ cs, c.IsWhole := by
  intro c hc
  obtain ⟨entry, hentry, hretarget⟩ := exists_of_mem_right h hc
  exact (isWhole_retarget (hwhole entry hentry) hretarget).1

/-- wherever the commands go, their bytes are as many as before -/
theorem length_retargetAll {e : Splice} {entries : List (Nat × Command)} {bytes : Bytes}
    (hwhole : ∀ entry ∈ entries, entry.2.IsWhole) (h : e.retargetAll entries = .ok bytes) :
    bytes.length = (flat (entries.map Prod.snd)).length := by
  obtain ⟨cs, hcs, rfl⟩ := retargetAll_eq_ok.mp h
  induction hcs with
  | nil => rfl
  | @cons entry c entries cs hc _ ih =>
    have hlength := (isWhole_retarget (hwhole entry (List.mem_cons_self ..)) hc).2
    rw [List.map_cons, length_flat_cons, length_flat_cons, hlength,
      ih (fun d hd => hwhole d (List.mem_cons_of_mem _ hd)) (retargetAll_eq_ok.mpr ⟨cs, ‹_›, rfl⟩)]

theorem length_of_retarget {e : Splice} {cs cs' : List Command} {start : Nat}
    (hwhole : ∀ c ∈ cs, c.IsWhole)
    (h : List.Forall₂ (fun entry c => e.retarget entry.1 entry.2 = .ok c) (laidFrom start cs) cs') :
    (flat cs').length = (flat cs).length := by
  have hentries : ∀ entry ∈ laidFrom start cs, entry.2.IsWhole := by
    intro entry hentry
    have hmem := List.mem_map_of_mem (f := Prod.snd) hentry
    rw [map_snd_laidFrom] at hmem
    exact hwhole entry.2 hmem
  rw [length_retargetAll hentries (retargetAll_eq_ok.mpr ⟨cs', h, rfl⟩), map_snd_laidFrom]

/-- behind the removed bytes everything moves by the same amount -/
theorem shift_stop_add (e : Splice) (n : Nat) :
    e.shift (e.stop + n) = e.place + e.inserted + n := by
  have hge : ¬ e.stop + n < e.place := by
    rw [stop]
    omega
  rw [shift, if_neg hge, stop]
  omega

end Splice

/-! ## spliced scripts -/

namespace Script

theorem spliced_eq_ok {s s' : Script} {e : Splice} {code : Bytes} (h : s.spliced e code = .ok s') :
    s.length - e.removed + e.inserted ≤ maxLength ∧ s.allCommands.fault = none ∧
    ∃ before behind,
      e.retargetAll (s.allCommands.commands.filter fun entry => entry.1 < e.place) = .ok before ∧
      e.retargetAll (s.allCommands.commands.filter fun entry => e.stop ≤ entry.1) = .ok behind ∧
      s' = { s with pointers := s.pointers.map e.carry, stream := before ++ code ++ behind } := by
  unfold spliced at h
  obtain ⟨hsize, h⟩ := unless_throw_eq_ok.mp h
  obtain ⟨before, hbefore, h⟩ := bind_eq_ok.mp h
  obtain ⟨behind, hbehind, h⟩ := bind_eq_ok.mp h
  cases hfault : s.allCommands.fault with
  | some fault =>
    simp only [hfault] at h
    cases h
  | none =>
    simp only [hfault] at h
    cases h
    exact ⟨Nat.le_of_not_lt hsize, rfl, before, behind, hbefore, hbehind, rfl⟩

/-- only the stream decides whether a script decodes -/
theorem fault_congr {s s' : Script} (hfault : s.allCommands.fault = none)
    (h : s'.stream = s.stream) : s'.allCommands.fault = none := by
  rw [allCommands_eq] at hfault ⊢
  rw [h]
  exact hfault

/-- **A spliced script decodes.** -/
theorem fault_of_spliced {s s' : Script} {e : Splice} {code : Bytes}
    (hcode : (readAll code).fault = none) (h : s.spliced e code = .ok s') :
    s'.allCommands.fault = none := by
  obtain ⟨_, hfault, before, behind, hbefore, hbehind, rfl⟩ := spliced_eq_ok h
  obtain ⟨cs, hwhole, _, hall⟩ := flat_of_allCommands hfault
  obtain ⟨new, hnew, rfl, _⟩ := flat_of_readAll hcode
  obtain ⟨kept, hkept, rfl⟩ := Splice.retargetAll_eq_ok.mp hbefore
  obtain ⟨moved, hmoved, rfl⟩ := Splice.retargetAll_eq_ok.mp hbehind
  have hentries : ∀ entry ∈ s.allCommands.commands, entry.2.IsWhole := by
    intro entry hentry
    have hmem := List.mem_map_of_mem (f := Prod.snd) hentry
    rw [hall, map_snd_laidFrom] at hmem
    exact hwhole entry.2 hmem
  have hkeptWhole := Splice.whole_of_retarget
    (fun entry hentry => hentries entry (List.mem_of_mem_filter hentry)) hkept
  have hmovedWhole := Splice.whole_of_retarget
    (fun entry hentry => hentries entry (List.mem_of_mem_filter hentry)) hmoved
  have hparts : ∀ c ∈ kept ++ new ++ moved, c.IsWhole := by
    intro c hc
    rcases List.mem_append.mp hc with hc | hc
    · rcases List.mem_append.mp hc with hc | hc
      · exact hkeptWhole c hc
      · exact hnew c hc
    · exact hmovedWhole c hc
  rw [allCommands_of_flat hparts (by rw [flat_append, flat_append])]

/-- the stream of a spliced script is that of its two parts, carried along, with the code between -/
theorem parts_of_spliced {s s' : Script} {e : Splice} {code : Bytes}
    {cs front front' back' back : List Command} (hwhole : ∀ c ∈ cs, c.IsWhole)
    (hstream : s.stream = flat cs) (hplace : CutAt s.headerLength cs e.place front front')
    (hstop : CutAt s.headerLength cs e.stop back' back) (h : s.spliced e code = .ok s') :
    ∃ kept moved,
      List.Forall₂ (fun entry c => e.retarget entry.1 entry.2 = .ok c)
        (laidFrom s.headerLength front) kept ∧
      List.Forall₂ (fun entry c => e.retarget entry.1 entry.2 = .ok c)
        (laidFrom e.stop back) moved ∧
      s' = { s with
        pointers := s.pointers.map e.carry, stream := flat kept ++ code ++ flat moved } := by
  obtain ⟨_, _, before, behind, hbefore, hbehind, rfl⟩ := spliced_eq_ok h
  rw [allCommands_of_flat hwhole hstream] at hbefore hbehind
  rw [hplace.filter_lt] at hbefore
  rw [hstop.filter_ge] at hbehind
  obtain ⟨kept, hkept, rfl⟩ := Splice.retargetAll_eq_ok.mp hbefore
  obtain ⟨moved, hmoved, rfl⟩ := Splice.retargetAll_eq_ok.mp hbehind
  exact ⟨kept, moved, hkept, hmoved, rfl⟩

/-- where each command outside the edit can be retargeted the script can be spliced -/
theorem spliced_of_retarget {s : Script} {e : Splice} {code : Bytes}
    {cs front front' back' back kept moved : List Command} (hwhole : ∀ c ∈ cs, c.IsWhole)
    (hstream : s.stream = flat cs) (hplace : CutAt s.headerLength cs e.place front front')
    (hstop : CutAt s.headerLength cs e.stop back' back)
    (hsize : s.length - e.removed + e.inserted ≤ maxLength)
    (hkept : List.Forall₂ (fun entry c => e.retarget entry.1 entry.2 = .ok c)
      (laidFrom s.headerLength front) kept)
    (hmoved : List.Forall₂ (fun entry c => e.retarget entry.1 entry.2 = .ok c)
      (laidFrom e.stop back) moved) :
    s.spliced e code = .ok { s with
      pointers := s.pointers.map e.carry, stream := flat kept ++ code ++ flat moved } := by
  have hall := allCommands_of_flat hwhole hstream
  have hbefore := Splice.retargetAll_eq_ok.mpr ⟨kept, hkept, rfl⟩
  have hbehind := Splice.retargetAll_eq_ok.mpr ⟨moved, hmoved, rfl⟩
  rw [← hplace.filter_lt] at hbefore
  rw [← hstop.filter_ge] at hbehind
  unfold spliced
  refine unless_throw_eq_ok.mpr ⟨Nat.not_lt_of_le hsize, ?_⟩
  rw [hall]
  exact bind_eq_ok.mpr ⟨_, hbefore, bind_eq_ok.mpr ⟨_, hbehind, rfl⟩⟩

/-- **The commands of a spliced script**: those in front of the place, those of the new code, and
those behind the stop, carried along. -/
theorem commands_spliced {s s' : Script} {e : Splice}
    {cs front middle back front' back' : List Command}
    (hwhole : ∀ c ∈ cs, c.IsWhole) (hmiddle : ∀ c ∈ middle, c.IsWhole)
    (hstream : s.stream = flat cs) (hplace : CutAt s.headerLength cs e.place front front')
    (hstop : CutAt s.headerLength cs e.stop back' back)
    (hinserted : e.inserted = (flat middle).length)
    (h : s.spliced e (flat middle) = .ok s') :
    ∃ kept moved, s'.allCommands = ⟨kept ++ laidFrom e.place middle ++ moved, none⟩ ∧
      List.Forall₂ (Carried e.shift e.carry) (laidFrom s.headerLength front) kept ∧
      List.Forall₂ (Carried e.shift e.carry) (laidFrom e.stop back) moved := by
  obtain ⟨kept, moved, hkept, hmoved, rfl⟩ := parts_of_spliced hwhole hstream hplace hstop h
  have hstays : ∀ n < (flat front).length, e.shift (s.headerLength + n) = s.headerLength + n := by
    intro n hn
    have hlt : s.headerLength + n < e.place := by
      rw [hplace.pos_eq]
      omega
    exact if_pos hlt
  obtain ⟨hkeptWhole, hkeptLength, hkeptCarried⟩ :=
    Splice.carried_of_retarget (hplace.whole hwhole).1 hstays hkept
  obtain ⟨hmovedWhole, _, hmovedCarried⟩ :=
    Splice.carried_of_retarget (hstop.whole hwhole).2 (fun n _ => e.shift_stop_add n) hmoved
  refine ⟨_, _, ?_, hkeptCarried, hmovedCarried⟩
  have hnew : ∀ c ∈ kept ++ middle ++ moved, c.IsWhole := by
    intro c hc
    rcases List.mem_append.mp hc with hc | hc
    · rcases List.mem_append.mp hc with hc | hc
      · exact hkeptWhole c hc
      · exact hmiddle c hc
    · exact hmovedWhole c hc
  have hheader : headerLength { s with
      pointers := s.pointers.map e.carry, stream := flat kept ++ flat middle ++ flat moved } =
      s.headerLength := by
    rw [headerLength, List.length_map, headerLength]
  have hfirst : s.headerLength + (flat kept).length = e.place := by
    rw [hkeptLength, hplace.pos_eq]
  have hbehindMiddle : s.headerLength + (flat (kept ++ middle)).length = e.place + e.inserted := by
    rw [flat_append, List.length_append, ← Nat.add_assoc, hfirst, hinserted]
  rw [allCommands_of_flat hnew (by rw [flat_append, flat_append]), hheader, laidFrom_append,
    laidFrom_append, hfirst, hbehindMiddle]

/-- the stream of a spliced script has the bytes that stay and the new ones -/
theorem length_spliced {s s' : Script} {e : Splice} {code : Bytes}
    {cs front front' back' back : List Command} (hwhole : ∀ c ∈ cs, c.IsWhole)
    (hstream : s.stream = flat cs) (hplace : CutAt s.headerLength cs e.place front front')
    (hstop : CutAt s.headerLength cs e.stop back' back) (h : s.spliced e code = .ok s') :
    s'.stream.length = (flat front).length + code.length + (flat back).length := by
  obtain ⟨kept, moved, hkept, hmoved, rfl⟩ := parts_of_spliced hwhole hstream hplace hstop h
  show (flat kept ++ code ++ flat moved).length = _
  rw [List.length_append, List.length_append,
    Splice.length_of_retarget (hplace.whole hwhole).1 hkept,
    Splice.length_of_retarget (hstop.whole hwhole).2 hmoved]

/-! ## edits at boundaries -/

theorem validate_eq_ok {code : Bytes} (h : validate code = .ok ()) :
    (readAll code).fault = none := by
  unfold validate at h
  split at h
  · cases h
  · assumption

section
variable {s s' : Script} {place removed : Nat} {code : Bytes} {anchor : Anchor}

theorem replace_eq_ok (h : s.replace place removed code anchor = .ok s') :
    s.headerLength ≤ place ∧ place + removed ≤ s.length ∧
      s.checkBoundary place = .ok () ∧ s.checkBoundary (place + removed) = .ok () ∧
      (readAll code).fault = none ∧
      s.spliced ⟨place, removed, code.length, anchor⟩ code = .ok s' := by
  unfold replace at h
  obtain ⟨hrange, h⟩ := unless_throw_eq_ok.mp h
  obtain ⟨_, hplace, h⟩ := bind_eq_ok.mp h
  obtain ⟨_, hstop, h⟩ := bind_eq_ok.mp h
  obtain ⟨_, hcode, h⟩ := bind_eq_ok.mp h
  obtain ⟨hlow, hhigh⟩ := not_or.mp hrange
  exact ⟨Nat.le_of_not_lt hlow, Nat.le_of_not_lt hhigh, hplace, hstop, validate_eq_ok hcode, h⟩

theorem validate_flat {cs : List Command} (hwhole : ∀ c ∈ cs, c.IsWhole) :
    validate (flat cs) = .ok () := by
  unfold validate
  rw [readAll_flat hwhole]

/-- an edit that begins and ends between commands, with whole commands for the new code, is a
splice -/
theorem replace_of_cutAt {cs new front front' back' back : List Command}
    (hwhole : ∀ c ∈ cs, c.IsWhole) (hnew : ∀ c ∈ new, c.IsWhole) (hstream : s.stream = flat cs)
    (hplace : CutAt s.headerLength cs place front front')
    (hstop : CutAt s.headerLength cs (place + removed) back' back)
    (h : s.spliced ⟨place, removed, (flat new).length, anchor⟩ (flat new) = .ok s') :
    s.replace place removed (flat new) anchor = .ok s' := by
  have hinside : ¬ (place < s.headerLength ∨ s.length < place + removed) := by
    have hlow := hplace.pos_eq
    have hhigh := hstop.pos_eq
    rw [length_of_flat hstream, hstop.eq_append, flat_append, List.length_append]
    omega
  have hstart := checkBoundary_of_cutAt hwhole hstream hplace
  have hend := checkBoundary_of_cutAt hwhole hstream hstop
  exact unless_throw_eq_ok.mpr ⟨hinside, bind_eq_ok.mpr ⟨(), hstart, bind_eq_ok.mpr ⟨(), hend,
    bind_eq_ok.mpr ⟨(), validate_flat hnew, h⟩⟩⟩⟩

/-- what a splice leaves of the script around the stream -/
theorem spliced_frame {e : Splice} (h : s.spliced e code = .ok s') :
    s'.pointers = s.pointers.map e.carry ∧ s'.strings = s.strings ∧ s'.modified = s.modified ∧
      s'.headerLength = s.headerLength := by
  obtain ⟨_, _, before, behind, _, _, rfl⟩ := spliced_eq_ok h
  refine ⟨rfl, rfl, rfl, ?_⟩
  rw [headerLength, List.length_map, headerLength]

theorem length_replace (h : s.replace place removed code anchor = .ok s') :
    s'.length = s.length - removed + code.length := by
  obtain ⟨hlow, hhigh, hplace, hstop, _, hspliced⟩ := replace_eq_ok h
  let e : Splice := ⟨place, removed, code.length, anchor⟩
  have hspliced : s.spliced e code = .ok s' := hspliced
  obtain ⟨_, hfault, _⟩ := spliced_eq_ok hspliced
  obtain ⟨cs, hwhole, hstream, _⟩ := flat_of_allCommands hfault
  obtain ⟨front, front', hfront⟩ := cutAt_of_checkBoundary hwhole hstream hplace
  obtain ⟨back', back, hback⟩ := cutAt_of_checkBoundary hwhole hstream hstop
  have hfront : CutAt s.headerLength cs e.place front front' := hfront
  have hback : CutAt s.headerLength cs e.stop back' back := hback
  have hlength := length_spliced hwhole hstream hfront hback hspliced
  have hheader := (spliced_frame hspliced).2.2.2
  have hplaceAt : place = s.headerLength + (flat front).length := hfront.pos_eq
  have hstopAt : place + removed = s.headerLength + (flat back').length := hback.pos_eq
  have hall : s.stream.length = (flat back').length + (flat back).length := by
    rw [hstream, hback.eq_append, flat_append, List.length_append]
  rw [length, length, hheader, hlength, hall]
  omega

end

/-! ## the pointer table -/

/-- every command stands behind the table -/
theorem filter_laidFrom_table {place removed start : Nat} (h : place + removed ≤ start)
    (cs : List Command) :
    (laidFrom start cs).filter (fun entry => entry.1 < place) = [] ∧
      (laidFrom start cs).filter (fun entry => place + removed ≤ entry.1) = laidFrom start cs := by
  constructor
  · rw [List.filter_eq_nil_iff]
    rintro ⟨pos, c⟩ hmem hlt
    have hpos : start ≤ pos := (mem_laidFrom hmem).1
    have hlt : pos < place := of_decide_eq_true hlt
    omega
  · rw [List.filter_eq_self]
    rintro ⟨pos, c⟩ hmem
    exact decide_eq_true (Nat.le_trans h (mem_laidFrom hmem).1)

section
variable {s r : Script} {place removed inserted : Nat} {anchor : Anchor}

/-- a change of the table's size carries all commands along -/
theorem exists_of_resize (h : s.resize place removed inserted anchor = .ok r) :
    place + removed ≤ s.headerLength ∧ s.length - removed + inserted ≤ maxLength ∧
      ∃ cs moved, (∀ c ∈ cs, c.IsWhole) ∧ s.stream = flat cs ∧
        List.Forall₂ (fun entry c =>
          Splice.retarget ⟨place, removed, inserted, anchor⟩ entry.1 entry.2 = .ok c)
          (laidFrom s.headerLength cs) moved ∧
        r = { s with
          pointers := s.pointers.map (Splice.carry ⟨place, removed, inserted, anchor⟩)
          stream := flat moved } := by
  let e : Splice := ⟨place, removed, inserted, anchor⟩
  obtain ⟨hstop, h⟩ := unless_throw_eq_ok.mp h
  have hspliced : s.spliced e [] = .ok r := h
  have hinside : place + removed ≤ s.headerLength := Nat.le_of_not_lt hstop
  obtain ⟨hsize, hfault, before, behind, hbefore, hbehind, rfl⟩ := spliced_eq_ok hspliced
  obtain ⟨cs, hwhole, hstream, hall⟩ := flat_of_allCommands hfault
  obtain ⟨hfront, hback⟩ := filter_laidFrom_table hinside cs
  rw [hall] at hbefore hbehind
  have hbefore : e.retargetAll [] = .ok before := hfront ▸ hbefore
  have hbehind : e.retargetAll (laidFrom s.headerLength cs) = .ok behind := hback ▸ hbehind
  obtain ⟨_, hnone, rfl⟩ := Splice.retargetAll_eq_ok.mp hbefore
  cases hnone
  obtain ⟨moved, hmoved, rfl⟩ := Splice.retargetAll_eq_ok.mp hbehind
  exact ⟨hinside, hsize, cs, moved, hwhole, hstream, hmoved, rfl⟩

/-- and it succeeds when they can be -/
theorem resize_of_retarget {cs moved : List Command} (hinside : place + removed ≤ s.headerLength)
    (hsize : s.length - removed + inserted ≤ maxLength) (hwhole : ∀ c ∈ cs, c.IsWhole)
    (hstream : s.stream = flat cs)
    (hmoved : List.Forall₂ (fun entry c =>
      Splice.retarget ⟨place, removed, inserted, anchor⟩ entry.1 entry.2 = .ok c)
      (laidFrom s.headerLength cs) moved) :
    s.resize place removed inserted anchor = .ok { s with
      pointers := s.pointers.map (Splice.carry ⟨place, removed, inserted, anchor⟩)
      stream := flat moved } := by
  let e : Splice := ⟨place, removed, inserted, anchor⟩
  have hall := allCommands_of_flat hwhole hstream
  obtain ⟨hfront, hback⟩ := filter_laidFrom_table hinside cs
  have hbefore : e.retargetAll ((laidFrom s.headerLength cs).filter
      fun entry => entry.1 < place) = .ok [] := by
    rw [hfront]
    rfl
  have hbehind : e.retargetAll ((laidFrom s.headerLength cs).filter
      fun entry => place + removed ≤ entry.1) = .ok (flat moved) := by
    rw [hback]
    exact Splice.retargetAll_eq_ok.mpr ⟨moved, hmoved, rfl⟩
  have hspliced : s.spliced e [] = .ok { s with
      pointers := s.pointers.map e.carry, stream := flat moved } := by
    unfold spliced
    refine unless_throw_eq_ok.mpr ⟨Nat.not_lt_of_le hsize, ?_⟩
    rw [hall]
    exact bind_eq_ok.mpr ⟨_, hbefore, bind_eq_ok.mpr ⟨_, hbehind, rfl⟩⟩
  exact unless_throw_eq_ok.mpr ⟨Nat.not_lt_of_le hinside, hspliced⟩

end

end Script

end Cartridge
