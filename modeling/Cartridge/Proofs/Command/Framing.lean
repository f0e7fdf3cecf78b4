import Cartridge.Command.Stream

/-!
# Whole commands and streams of them

The size of a command is settled by its own bytes, so commands that are whole stand behind each
other in a stream without any mark between them, and a stream reads as just one list of them.

* `Command.IsWhole`        as many arguments as the size asks for;
* `Command.IsFixed`        the size is the one in the table;
* `Command.flat`, `Command.laidFrom`   the bytes of commands, and the commands with the positions
                           that they have from a place on;
* `decodeAt_bytes`, `decodeAt_eq_ok`   a whole command decodes in any surroundings, and only whole
                           commands decode;
* `exists_append_of_flat`  there is one way to divide bytes into whole commands;
* `readFrom_flat`, `readFrom_cases`    reading gives the commands of a stream back, and whatever is
                           read is a stream of whole commands up to the first fault.
-/

namespace Cartridge

/-! ## the opcode table -/

/-- what holds of each row of the table holds of each opcode -/
theorem Opcode.info_of_table (p : Opcode.Info → Prop) (htable : ∀ row ∈ Opcode.table.toList, p row)
    (hunknown : p Opcode.unknown) (opcode : UInt8) : p (Opcode.info opcode) := by
  unfold Opcode.info
  rw [Array.getD_eq_getD_getElem?, ← Array.getElem?_toList]
  cases hrow : Opcode.table.toList[opcode.toNat]? with
  | none => exact hunknown
  | some row => exact htable row (List.mem_of_getElem? hrow)

theorem Opcode.size_pos (opcode : UInt8) : 0 < (Opcode.info opcode).size :=
  Opcode.info_of_table (fun row => 0 < row.size) (by decide +kernel) (by decide) opcode

namespace Command

/-! ## whole commands -/

/-- the command has as many arguments as its size asks for -/
def IsWhole (c : Command) : Prop := sizeAt 0 c.bytes = .ok c.length

theorem effectSize_ge (mode : Nat) : 2 ≤ effectSize mode := by
  unfold effectSize
  split
  · decide
  split
  · decide
  split <;> decide

theorem announcedSize_pos {pos size : Nat} {opcode : UInt8} {args : Bytes}
    (h : announcedSize pos opcode args = .ok size) : 0 < size := by
  unfold announcedSize at h
  split at h
  · split at h
    · simp only at h
      split at h
      · cases h
      · cases h
        omega
    · cases h
  · split at h
    · cases h
      exact Nat.lt_of_lt_of_le (by decide) (effectSize_ge _)
    · cases h
  · rw [← Except.ok.inj h]
    exact Opcode.size_pos opcode

/-- the size depends on no more than the arguments that it counts, and not on the position -/
theorem announcedSize_congr {pos size : Nat} {opcode : UInt8} {args : Bytes}
    (h : announcedSize pos opcode args = .ok size) (pos' : Nat) (rest : Bytes) :
    announcedSize pos' opcode (args.take (size - 1) ++ rest) = .ok size := by
  unfold announcedSize at h ⊢
  split at h
  · split at h
    · rename_i a b c lo hi more
      simp only at h
      split at h
      · cases h
      · rename_i hlong
        cases h
        obtain ⟨n, hn⟩ : ∃ n, Bytes.value [lo, hi] = n + 2 := ⟨_, (Nat.sub_add_cancel
          (Nat.le_of_not_lt hlong)).symm⟩
        have htake : (a :: b :: c :: lo :: hi :: more).take (4 + (n + 2) - 1) =
            a :: b :: c :: lo :: hi :: more.take n := by
          rw [show 4 + (n + 2) - 1 = n + 5 by omega]
          rfl
        rw [hn] at hlong ⊢
        rw [htake]
        simp only [List.cons_append, hn, hlong, if_false]
    · cases h
  · split at h
    · rename_i mode more
      cases h
      obtain ⟨n, hn⟩ : ∃ n, effectSize (mode.toNat / 16) - 1 = n + 1 :=
        ⟨_, (Nat.sub_add_cancel (Nat.le_sub_of_add_le (effectSize_ge _))).symm⟩
      rw [hn, List.take_succ_cons, List.cons_append]
    · cases h
  · exact h

theorem sizeAt_eq_ok {pos size : Nat} {opcode : UInt8} {args : Bytes} :
    sizeAt pos (opcode :: args) = .ok size ↔
      announcedSize pos opcode args = .ok size ∧ size ≤ args.length + 1 := by
  unfold sizeAt
  dsimp only
  -- the rest does not depend on the rows of the opcode table
  generalize announcedSize pos opcode args = announced
  generalize (Opcode.info opcode).name = name
  cases announced with
  | error fault => simp only [reduceCtorEq, false_and]
  | ok n =>
    simp only [List.length_take, List.length_cons]
    split
    · simp only [reduceCtorEq, Except.ok.injEq, false_iff]
      omega
    · simp only [Except.ok.injEq]
      omega

theorem isWhole_iff {c : Command} :
    c.IsWhole ↔ announcedSize 0 c.opcode c.args = .ok c.length := by
  rw [IsWhole, bytes, sizeAt_eq_ok]
  exact and_iff_left (Nat.le_refl (c.args.length + 1))

/-- the size of the command does not depend on its arguments -/
def IsFixed (c : Command) : Prop := c.kind ≠ .memCopy ∧ c.kind ≠ .displayEffect

theorem announcedSize_of_isFixed {c : Command} (h : c.IsFixed) (pos : Nat) (args : Bytes) :
    announcedSize pos c.opcode args = .ok (Opcode.info c.opcode).size := by
  obtain ⟨hcopy, heffect⟩ := h
  unfold kind info at hcopy heffect
  unfold announcedSize
  generalize (Opcode.info c.opcode).kind = k at hcopy heffect
  cases k with
  | memCopy => exact absurd rfl hcopy
  | displayEffect => exact absurd rfl heffect
  | _ => rfl

theorem isWhole_iff_of_isFixed {c : Command} (h : c.IsFixed) :
    c.IsWhole ↔ (Opcode.info c.opcode).size = c.length := by
  rw [isWhole_iff, announcedSize_of_isFixed h, Except.ok.injEq]

/-- other arguments, as many as before -/
theorem IsFixed.isWhole_of_length {c c' : Command} (h : c.IsFixed) (hopcode : c'.opcode = c.opcode)
    (hlength : c'.length = c.length) (hwhole : c.IsWhole) : c'.IsWhole := by
  have hkind : c'.kind = c.kind := by rw [kind, info, hopcode, kind, info]
  have h' : c'.IsFixed := by
    rw [IsFixed, hkind]
    exact h
  rw [isWhole_iff_of_isFixed h', hopcode, hlength]
  exact (isWhole_iff_of_isFixed h).mp hwhole

/-- a command that is not plain has an argument -/
theorem args_ne_nil {c : Command} (hwhole : c.IsWhole) (hfixed : c.IsFixed)
    (hkind : c.kind ≠ .plain) :
    c.args ≠ [] := by
  have hsize := Opcode.info_of_table (fun row => row.kind ≠ .plain → 2 ≤ row.size)
    (by decide +kernel) (by decide) c.opcode hkind
  rw [(isWhole_iff_of_isFixed hfixed).mp hwhole] at hsize
  intro hnil
  rw [length, hnil] at hsize
  exact absurd hsize (by decide)

theorem decodeAt_cons (pos : Nat) (opcode : UInt8) (args : Bytes) :
    decodeAt pos (opcode :: args) =
      (sizeAt pos (opcode :: args)).map fun size => ⟨opcode, args.take (size - 1)⟩ := by
  unfold decodeAt
  dsimp only
  generalize sizeAt pos (opcode :: args) = size
  cases size with
  | error fault => rfl
  | ok size => rfl

/-- a whole command decodes, wherever it stands -/
theorem decodeAt_bytes {c : Command} (h : c.IsWhole) (pos : Nat) (rest : Bytes) :
    decodeAt pos (c.bytes ++ rest) = .ok c := by
  have hargs : c.args.take (c.length - 1) = c.args := List.take_length
  have hsize : announcedSize pos c.opcode (c.args ++ rest) = .ok c.length := by
    have h := announcedSize_congr (isWhole_iff.mp h) pos rest
    rwa [hargs] at h
  have hfound : sizeAt pos (c.opcode :: (c.args ++ rest)) = .ok c.length := by
    refine sizeAt_eq_ok.mpr ⟨hsize, ?_⟩
    rw [List.length_append]
    exact Nat.succ_le_succ (Nat.le_add_right _ _)
  rw [bytes, List.cons_append, decodeAt_cons, hfound]
  show Except.ok (⟨c.opcode, (c.args ++ rest).take (c.length - 1)⟩ : Command) = .ok c
  rw [show c.length - 1 = c.args.length from rfl, List.take_left]

/-- what decodes is a whole command that the stream begins with -/
theorem decodeAt_eq_ok {pos : Nat} {stream : Bytes} {c : Command}
    (h : decodeAt pos stream = .ok c) : c.IsWhole ∧ stream = c.bytes ++ stream.drop c.length := by
  cases stream with
  | nil => cases h
  | cons opcode args =>
    rw [decodeAt_cons] at h
    cases hsize : sizeAt pos (opcode :: args) with
    | error fault =>
      rw [hsize] at h
      cases h
    | ok size =>
      rw [hsize] at h
      obtain rfl := Except.ok.inj h
      obtain ⟨hannounced, hle⟩ := sizeAt_eq_ok.mp hsize
      have hpos := announcedSize_pos hannounced
      have hlength : (args.take (size - 1)).length + 1 = size := by
        rw [List.length_take]
        omega
      constructor
      · have h := announcedSize_congr hannounced 0 []
        rw [List.append_nil] at h
        exact isWhole_iff.mpr (h.trans (congrArg Except.ok hlength.symm))
      · show opcode :: args = opcode :: (args.take (size - 1) ++
          args.drop (args.take (size - 1)).length)
        rw [show (args.take (size - 1)).length = size - 1 by omega, List.take_append_drop]

/-! ## lists of commands -/

/-- the bytes of commands, one behind the other -/
def flat (cs : List Command) : Bytes := cs.flatMap bytes

/-- the commands with the positions that they have when the first stands at `pos` -/
def laidFrom (pos : Nat) : List Command → List (Nat × Command)
  | [] => []
  | c :: cs => (pos, c) :: laidFrom (pos + c.length) cs

theorem flat_nil : flat [] = [] := rfl
theorem flat_cons (c : Command) (cs : List Command) : flat (c :: cs) = c.bytes ++ flat cs := rfl
theorem flat_append (as bs : List Command) : flat (as ++ bs) = flat as ++ flat bs :=
  List.flatMap_append

theorem length_flat_cons (c : Command) (cs : List Command) :
    (flat (c :: cs)).length = c.length + (flat cs).length := by
  rw [flat_cons, List.length_append, length_bytes]

theorem length_flat_map {f : Command → Command} {cs : List Command}
    (h : ∀ c ∈ cs, (f c).length = c.length) : (flat (cs.map f)).length = (flat cs).length := by
  induction cs with
  | nil => rfl
  | cons c cs ih =>
    rw [List.forall_mem_cons] at h
    rw [List.map_cons, length_flat_cons, length_flat_cons, h.1, ih h.2]

/-- **Commands frame themselves**: of two runs of whole commands in front of the same bytes, the
shorter one begins the longer one. -/
theorem exists_append_of_flat {as bs : List Command} {rest rest' : Bytes}
    (has : ∀ c ∈ as, c.IsWhole) (hbs : ∀ c ∈ bs, c.IsWhole)
    (h : flat as ++ rest = flat bs ++ rest') (hle : (flat as).length ≤ (flat bs).length) :
    ∃ ds, bs = as ++ ds := by
  induction as generalizing bs with
  | nil => exact ⟨bs, rfl⟩
  | cons a as ih =>
    cases bs with
    | nil =>
      have hpos := a.length_pos
      rw [length_flat_cons, flat_nil, List.length_nil] at hle
      omega
    | cons b bs =>
      rw [flat_cons, flat_cons, List.append_assoc, List.append_assoc] at h
      have hfirst := decodeAt_bytes (has a (List.mem_cons_self ..)) 0 (flat as ++ rest)
      rw [h, decodeAt_bytes (hbs b (List.mem_cons_self ..))] at hfirst
      obtain rfl : b = a := Except.ok.inj hfirst
      rw [length_flat_cons, length_flat_cons] at hle
      obtain ⟨ds, hds⟩ := ih (fun c hc => has c (List.mem_cons_of_mem _ hc))
        (fun c hc => hbs c (List.mem_cons_of_mem _ hc)) (List.append_cancel_left h) (by omega)
      exact ⟨ds, by rw [hds, List.cons_append]⟩

/-- a command that stands behind others is the next one in every reading -/
theorem exists_append_cons_of_flat {as front : List Command} {c : Command} {rest back : Bytes}
    (has : ∀ d ∈ as, d.IsWhole) (hfront : ∀ d ∈ front, d.IsWhole) (hc : c.IsWhole)
    (h : flat as ++ rest = flat front ++ (c.bytes ++ back))
    (hlt : (flat front).length < (flat as).length) :
    ∃ ds, as = front ++ c :: ds ∧ back = flat ds ++ rest := by
  obtain ⟨ds, rfl⟩ := exists_append_of_flat hfront has h.symm (Nat.le_of_lt hlt)
  cases ds with
  | nil =>
    rw [List.append_nil] at hlt
    exact absurd hlt (Nat.lt_irrefl _)
  | cons d ds =>
    have hd : d.IsWhole := has d (List.mem_append_right _ (List.mem_cons_self ..))
    rw [flat_append, flat_cons, List.append_assoc, List.append_assoc] at h
    have hbehind := List.append_cancel_left h
    have hread := decodeAt_bytes hc 0 back
    rw [← hbehind, decodeAt_bytes hd] at hread
    obtain rfl : d = c := Except.ok.inj hread
    exact ⟨ds, rfl, (List.append_cancel_left hbehind).symm⟩

theorem laidFrom_nil (pos : Nat) : laidFrom pos [] = [] := rfl
theorem laidFrom_cons (pos : Nat) (c : Command) (cs : List Command) :
    laidFrom pos (c :: cs) = (pos, c) :: laidFrom (pos + c.length) cs := rfl

theorem laidFrom_append (pos : Nat) (as bs : List Command) :
    laidFrom pos (as ++ bs) = laidFrom pos as ++ laidFrom (pos + (flat as).length) bs := by
  induction as generalizing pos with
  | nil => rfl
  | cons c as ih =>
    rw [List.cons_append, laidFrom_cons, ih, laidFrom_cons, length_flat_cons, List.cons_append,
      Nat.add_assoc]

theorem map_snd_laidFrom (pos : Nat) (cs : List Command) : (laidFrom pos cs).map Prod.snd = cs := by
  induction cs generalizing pos with
  | nil => rfl
  | cons c cs ih => rw [laidFrom_cons, List.map_cons, ih]

theorem map_add_laidFrom (base pos : Nat) (cs : List Command) :
    (laidFrom pos cs).map (fun (p, c) => (base + p, c)) = laidFrom (base + pos) cs := by
  induction cs generalizing pos with
  | nil => rfl
  | cons c cs ih => rw [laidFrom_cons, List.map_cons, ih, laidFrom_cons, Nat.add_assoc]

/-- the commands in front of a place are those in front of it from the base on -/
theorem filter_lt_laidFrom_add (base pos stop : Nat) (cs : List Command) :
    (laidFrom (base + pos) cs).filter (fun entry => entry.1 < stop) =
      ((laidFrom pos cs).filter fun entry => entry.1 < stop - base).map
        fun (p, c) => (base + p, c) := by
  rw [← map_add_laidFrom base pos cs, List.filter_map]
  congr 1
  apply List.filter_congr
  intro entry _
  show decide (base + entry.1 < stop) = decide (entry.1 < stop - base)
  rw [decide_eq_decide]
  omega

/-- positions lie at or behind the place, and each command ends inside the bytes -/
theorem mem_laidFrom {pos : Nat} {cs : List Command} {p : Nat} {c : Command}
    (h : (p, c) ∈ laidFrom pos cs) : pos ≤ p ∧ p + c.length ≤ pos + (flat cs).length := by
  induction cs generalizing pos with
  | nil => cases h
  | cons d cs ih =>
    rw [laidFrom_cons] at h
    rw [length_flat_cons]
    rcases List.mem_cons.mp h with h | h
    · cases h
      omega
    · have h := ih h
      omega

/-! ## reading -/

/-- of whole commands those are read that begin in the part -/
theorem readFrom_flat_of_le {cs : List Command} (hwhole : ∀ c ∈ cs, c.IsWhole) {pos stop : Nat}
    (h : stop ≤ pos + (flat cs).length) (rest : Bytes) (done : List (Nat × Command)) :
    readFrom pos stop (flat cs ++ rest) done =
      ⟨done.reverse ++ (laidFrom pos cs).filter (fun entry => entry.1 < stop), none⟩ := by
  induction cs generalizing pos done with
  | nil =>
    have hstop : ¬ pos < stop := Nat.not_lt_of_le h
    rw [readFrom.eq_def, if_neg hstop, laidFrom_nil, List.filter_nil, List.append_nil]
  | cons c cs ih =>
    by_cases hlt : pos < stop
    · have hc := hwhole c (List.mem_cons_self ..)
      have hnext : (flat (c :: cs) ++ rest).drop c.length = flat cs ++ rest := by
        rw [flat_cons, List.append_assoc]
        exact List.drop_left
      have hstop : stop ≤ pos + c.length + (flat cs).length := by
        rw [length_flat_cons, ← Nat.add_assoc] at h
        exact h
      have hread : decodeAt pos (flat (c :: cs) ++ rest) = .ok c := by
        rw [flat_cons, List.append_assoc]
        exact decodeAt_bytes hc pos _
      rw [readFrom.eq_def, if_pos hlt, hread]
      simp only
      rw [hnext, ih (fun d hd => hwhole d (List.mem_cons_of_mem _ hd)) hstop, List.reverse_cons,
        List.append_assoc, List.singleton_append, laidFrom_cons, List.filter_cons, if_pos]
      exact decide_eq_true hlt
    · have hnone : (laidFrom pos (c :: cs)).filter (fun entry => entry.1 < stop) = [] := by
        rw [List.filter_eq_nil_iff]
        rintro ⟨p, d⟩ hmem
        have hp : ¬ p < stop := by
          have := (mem_laidFrom hmem).1
          omega
        simpa using hp
      rw [readFrom.eq_def, if_neg hlt, hnone, List.append_nil]

/-- whole commands are read, and then what is behind them -/
theorem readFrom_append {cs : List Command} (hwhole : ∀ c ∈ cs, c.IsWhole) {pos stop : Nat}
    (h : pos + (flat cs).length ≤ stop) (rest : Bytes) (done : List (Nat × Command)) :
    readFrom pos stop (flat cs ++ rest) done =
      readFrom (pos + (flat cs).length) stop rest ((laidFrom pos cs).reverse ++ done) := by
  induction cs generalizing pos done with
  | nil => rfl
  | cons c cs ih =>
    rw [length_flat_cons, ← Nat.add_assoc] at h ⊢
    have hpositive := c.length_pos
    have hlt : pos < stop := by omega
    have hread : decodeAt pos (flat (c :: cs) ++ rest) = .ok c := by
      rw [flat_cons, List.append_assoc]
      exact decodeAt_bytes (hwhole c (List.mem_cons_self ..)) pos _
    have hnext : (flat (c :: cs) ++ rest).drop c.length = flat cs ++ rest := by
      rw [flat_cons, List.append_assoc]
      exact List.drop_left
    rw [readFrom.eq_def, if_pos hlt, hread]
    simp only
    rw [hnext, ih (fun d hd => hwhole d (List.mem_cons_of_mem _ hd)) h, laidFrom_cons,
      List.reverse_cons, List.append_assoc, List.singleton_append]

/-- what has been read stands in front of what is read -/
theorem readFrom_done (pos stop : Nat) (stream : Bytes) (done : List (Nat × Command)) :
    readFrom pos stop stream done =
      ⟨done.reverse ++ (readFrom pos stop stream []).commands,
        (readFrom pos stop stream []).fault⟩ := by
  induction hleft : stop - pos using Nat.strongRecOn generalizing pos stream done with
  | ind left ih =>
    rw [readFrom.eq_def, readFrom.eq_def pos stop stream []]
    by_cases hlt : pos < stop
    · rw [if_pos hlt, if_pos hlt]
      cases decodeAt pos stream with
      | error fault => rw [List.reverse_nil, List.append_nil]
      | ok c =>
        have hpositive := c.length_pos
        have hless : stop - (pos + c.length) < left := by omega
        simp only
        rw [ih _ hless _ _ ((pos, c) :: done) rfl, ih _ hless _ _ [(pos, c)] rfl,
          List.reverse_cons, List.append_assoc, List.reverse_singleton]
    · rw [if_neg hlt, if_neg hlt, List.reverse_nil, List.append_nil]

/-- whole commands in front of the end of the part that is read -/
theorem readFrom_flat {cs : List Command} (hwhole : ∀ c ∈ cs, c.IsWhole) (pos : Nat)
    (rest : Bytes) (done : List (Nat × Command)) :
    readFrom pos (pos + (flat cs).length) (flat cs ++ rest) done =
      ⟨done.reverse ++ laidFrom pos cs, none⟩ := by
  rw [readFrom_append hwhole (Nat.le_refl _), readFrom.eq_def, if_neg (Nat.lt_irrefl _),
    List.reverse_append, List.reverse_reverse]

/-- a command that is read stands behind whole commands -/
theorem mem_readFrom {pos stop : Nat} {stream : Bytes} {done : List (Nat × Command)} {p : Nat}
    {c : Command} (h : (p, c) ∈ (readFrom pos stop stream done).commands) :
    (p, c) ∈ done ∨ ∃ front back, (∀ d ∈ front, d.IsWhole) ∧ c.IsWhole ∧
      stream = flat front ++ (c.bytes ++ back) ∧ p = pos + (flat front).length := by
  induction pos, stream, done using readFrom.induct stop with
  | case1 pos stream done hlt fault hread =>
    rw [readFrom.eq_def, if_pos hlt, hread] at h
    exact .inl (List.mem_reverse.mp h)
  | case2 pos stream done hlt d hread ih =>
    rw [readFrom.eq_def, if_pos hlt, hread] at h
    obtain ⟨hd, hstream⟩ := decodeAt_eq_ok hread
    rcases ih h with hmem | ⟨front, back, hfront, hc, hrest, hpos⟩
    · rcases List.mem_cons.mp hmem with heq | hmem
      · obtain ⟨rfl, rfl⟩ := Prod.mk.inj heq
        exact .inr ⟨[], _, by simp, hd, hstream, rfl⟩
      · exact .inl hmem
    · refine .inr ⟨d :: front, back, ?_, hc, ?_, ?_⟩
      · intro e he
        rcases List.mem_cons.mp he with rfl | he
        · exact hd
        · exact hfront e he
      · rw [flat_cons, List.append_assoc, ← hrest]
        exact hstream
      · rw [length_flat_cons, hpos, Nat.add_assoc]
  | case3 pos stream done hlt =>
    rw [readFrom.eq_def, if_neg hlt] at h
    exact .inl (List.mem_reverse.mp h)

/-- what is read of a stream: whole commands, and a rest just when there is a fault -/
theorem readFrom_cases (pos : Nat) (stream : Bytes) (done : List (Nat × Command)) :
    ∃ cs rest, (∀ c ∈ cs, c.IsWhole) ∧ stream = flat cs ++ rest ∧
      (readFrom pos (pos + stream.length) stream done).commands = done.reverse ++ laidFrom pos cs ∧
      ((readFrom pos (pos + stream.length) stream done).fault = none ↔ rest = []) := by
  induction hlen : stream.length using Nat.strongRecOn generalizing pos stream done with
  | ind len ih =>
    rw [readFrom.eq_def]
    by_cases hlt : pos < pos + len
    · rw [if_pos hlt]
      cases hread : decodeAt pos stream with
      | error fault =>
        refine ⟨[], stream, by simp, rfl, ?_, ?_⟩
        · rw [laidFrom_nil, List.append_nil]
        · constructor
          · intro h
            cases h
          · intro h
            rw [h, List.length_nil] at hlen
            omega
      | ok c =>
        obtain ⟨hc, hstream⟩ := decodeAt_eq_ok hread
        have hlength : stream.length = c.length + (stream.drop c.length).length := by
          conv => lhs; rw [hstream]
          rw [List.length_append, length_bytes]
        have hpos := c.length_pos
        obtain ⟨cs, rest, hwhole, hrest, hcommands, hfault⟩ := ih (stream.drop c.length).length
          (by omega) (pos + c.length) (stream.drop c.length) ((pos, c) :: done) rfl
        have hstop : pos + len = pos + c.length + (stream.drop c.length).length := by omega
        refine ⟨c :: cs, rest, ?_, ?_, ?_, ?_⟩
        · intro d hd
          rcases List.mem_cons.mp hd with rfl | hd
          · exact hc
          · exact hwhole d hd
        · rw [flat_cons, List.append_assoc, ← hrest]
          exact hstream
        · simp only [hstop, hcommands, List.reverse_cons, List.append_assoc,
            List.singleton_append, laidFrom_cons]
        · simp only [hstop]
          exact hfault
    · rw [if_neg hlt]
      have hnil : stream = [] := List.eq_nil_of_length_eq_zero (by omega)
      refine ⟨[], [], by simp, hnil, ?_, ?_⟩
      · rw [laidFrom_nil, List.append_nil]
      · exact ⟨fun _ => rfl, fun _ => rfl⟩

end Command

open Command

theorem readAll_flat {cs : List Command} (hwhole : ∀ c ∈ cs, c.IsWhole) :
    readAll (flat cs) = ⟨laidFrom 0 cs, none⟩ := by
  have h := readFrom_flat hwhole 0 [] []
  rw [Nat.zero_add, List.append_nil, List.reverse_nil, List.nil_append] at h
  exact h

/-- a stream without a fault is a run of whole commands -/
theorem flat_of_readAll {stream : Bytes} (h : (readAll stream).fault = none) :
    ∃ cs, (∀ c ∈ cs, c.IsWhole) ∧ stream = flat cs ∧ readAll stream = ⟨laidFrom 0 cs, none⟩ := by
  obtain ⟨cs, rest, hwhole, hstream, _, hfault⟩ := readFrom_cases 0 stream []
  rw [Nat.zero_add] at hfault
  have hrest : rest = [] := hfault.mp h
  rw [hrest, List.append_nil] at hstream
  exact ⟨cs, hwhole, hstream, by rw [hstream, readAll_flat hwhole]⟩

end Cartridge
