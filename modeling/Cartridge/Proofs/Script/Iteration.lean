import Cartridge.Proofs.Command.Constructed
import Cartridge.Proofs.Script.Splice

/-!
# Commands one by one

The commands of a script may be asked for one after the other.  A cursor answers each call with the
next command, or with the fault that it runs into, and with nothing from then on; a reading is the
list of these answers.

* `Cursor`, `Cursor.next`    a place in a stream, and one call;
* `Cursor.answer`            the answer to each of the calls;
* `Reading.items`            the commands of a reading, and its fault behind them;
* `Script.answer_cursor`     the calls are answered by the items of the reading, and then by nothing;
* `Command.framing`          **a stream of whole commands is read as just these commands, and whatever
                             is read of a stream are the whole commands that it begins with.**
-/

namespace Cartridge

/-- what a call is answered with: a command and its position, or a fault -/
abbrev Item := Except FormatFault (Nat × Command)

/-- the command at `pos` is the next one, unless that is at `stop` or a fault has come up; the stream
begins at `base` -/
structure Cursor where
  stream : Bytes
  base : Nat
  pos : Nat
  stop : Nat
  failed : Bool

namespace Cursor

def next (c : Cursor) : Option Item × Cursor :=
  if c.failed = true ∨ c.stop ≤ c.pos then (none, c)
  else match Command.decodeAt (c.pos - c.base) (c.stream.drop (c.pos - c.base)) with
    | .ok command => (some (.ok (c.pos, command)), { c with pos := c.pos + command.length })
    | .error fault => (some (.error fault), { c with failed := true })

/-- the answer to a call, after so many others -/
def answer : Nat → Cursor → Option Item
  | 0, c => c.next.1
  | i + 1, c => answer i c.next.2

theorem answer_zero (c : Cursor) : answer 0 c = c.next.1 := rfl
theorem answer_succ (i : Nat) (c : Cursor) : answer (i + 1) c = answer i c.next.2 := rfl

/-- a cursor that is done stays so -/
theorem answer_of_done {c : Cursor} (h : c.failed = true ∨ c.stop ≤ c.pos) (i : Nat) :
    answer i c = none := by
  have hnext : c.next = (none, c) := if_pos h
  induction i with
  | zero => rw [answer_zero, hnext]
  | succ i ih => rw [answer_succ, hnext, ih]

/-- a cursor `pos` bytes behind the start of the stream -/
def on (stream : Bytes) (base stop pos : Nat) : Cursor := ⟨stream, base, base + pos, stop, false⟩

section
variable {stream : Bytes} {base stop pos : Nat} (hlt : pos < stop - base)
include hlt

theorem next_on_ok {c : Command} (h : Command.decodeAt pos (stream.drop pos) = .ok c) :
    (on stream base stop pos).next =
      (some (.ok (base + pos, c)), on stream base stop (pos + c.length)) := by
  have hopen : ¬ (false = true ∨ stop ≤ base + pos) := by simp; omega
  unfold next on
  simp only [if_neg hopen, Nat.add_sub_cancel_left, h, Nat.add_assoc]

theorem next_on_error {fault : FormatFault}
    (h : Command.decodeAt pos (stream.drop pos) = .error fault) :
    (on stream base stop pos).next =
      (some (.error fault), { on stream base stop pos with failed := true }) := by
  have hopen : ¬ (false = true ∨ stop ≤ base + pos) := by simp; omega
  unfold next on
  simp only [if_neg hopen, Nat.add_sub_cancel_left, h]

end

end Cursor

/-! ## readings -/

/-- the commands of a reading, and its fault behind them -/
def Reading.items (r : Reading) : List Item := r.commands.map .ok ++ r.fault.toList.map .error

/-- what a reading adds to the commands that are already read, a cursor answers -/
theorem answer_of_readFrom {stream rest : Bytes} {pos : Nat} (hrest : rest = stream.drop pos)
    (base stop : Nat) (done : List (Nat × Command)) :
    ∃ r : Reading, ((readFrom pos (stop - base) rest done).shift base).items =
        ((done.reverse.map fun (p, c) => (base + p, c)).map .ok) ++ r.items ∧
      ∀ i, (Cursor.on stream base stop pos).answer i = r.items[i]? := by
  -- along the reader: it ends at a fault or at `stop`, and the cursor is done there as well
  induction pos, rest, done using readFrom.induct (stop - base) with
  | case1 pos rest done hlt fault hread =>
    have hnext := Cursor.next_on_error hlt (hrest ▸ hread)
    refine ⟨⟨[], some fault⟩, ?_, fun i => ?_⟩
    · rw [readFrom.eq_def, if_pos hlt, hread]
      rfl
    · cases i with
      | zero =>
        rw [Cursor.answer_zero, hnext]
        rfl
      | succ i =>
        rw [Cursor.answer_succ, hnext]
        exact Cursor.answer_of_done (.inl rfl) i
  | case2 pos rest done hlt c hread ih =>
    have hnext := Cursor.next_on_ok hlt (hrest ▸ hread)
    have hdrop : rest.drop c.length = stream.drop (pos + c.length) := by
      rw [hrest, List.drop_drop]
    obtain ⟨r, hitems, hanswer⟩ := ih hdrop
    refine ⟨⟨(base + pos, c) :: r.commands, r.fault⟩, ?_, fun i => ?_⟩
    · rw [readFrom.eq_def, if_pos hlt, hread]
      simp only
      rw [hitems, List.reverse_cons, List.map_append, List.map_append, List.append_assoc]
      rfl
    · cases i with
      | zero =>
        rw [Cursor.answer_zero, hnext]
        rfl
      | succ i =>
        rw [Cursor.answer_succ, hnext, hanswer]
        rfl
  | case3 pos rest done hlt =>
    refine ⟨⟨[], none⟩, ?_, fun i => ?_⟩
    · rw [readFrom.eq_def, if_neg hlt, Reading.shift, Reading.items, Reading.items]
      rfl
    · have hstop : stop ≤ base + pos := by omega
      exact Cursor.answer_of_done (.inr hstop) i

namespace Script

open Command

/-- a cursor over the commands that begin in `[start, stop)` -/
def cursor (s : Script) (start stop : Nat) : Cursor :=
  ⟨s.stream, s.headerLength, max start s.headerLength, min stop s.length, false⟩

/-- **A reading is what a cursor answers**, call by call; behind its last item come no others. -/
theorem answer_cursor (s : Script) (start stop i : Nat) :
    (s.cursor start stop).answer i = (s.commands start stop).items[i]? := by
  obtain ⟨r, hitems, hanswer⟩ := answer_of_readFrom
    (rfl : s.stream.drop (max start s.headerLength - s.headerLength) = _)
    s.headerLength (min stop s.length) []
  have hpos : s.headerLength + (max start s.headerLength - s.headerLength) =
      max start s.headerLength := by omega
  have hcursor : s.cursor start stop = Cursor.on s.stream s.headerLength (min stop s.length)
      (max start s.headerLength - s.headerLength) := by
    rw [cursor, Cursor.on, hpos]
  rw [hcursor, hanswer, commands, readCommands, hitems]
  rfl

/-- a cursor over all commands -/
def allCursor (s : Script) : Cursor := s.cursor s.headerLength s.length

theorem answer_allCursor (s : Script) (i : Nat) :
    s.allCursor.answer i = s.allCommands.items[i]? :=
  s.answer_cursor s.headerLength s.length i

/-- whatever a stream is, it begins with the commands that are read of it -/
theorem allCommands_cases (s : Script) : ∃ cs rest fault, (∀ c ∈ cs, c.IsWhole) ∧
    s.stream = flat cs ++ rest ∧ s.allCommands = ⟨laidFrom s.headerLength cs, fault⟩ ∧
    (fault = none ↔ rest = []) := by
  obtain ⟨cs, rest, hwhole, hstream, hcommands, hfault⟩ := readFrom_cases 0 s.stream []
  rw [Nat.zero_add] at hcommands hfault
  refine ⟨cs, rest, (readAll s.stream).fault, hwhole, hstream, ?_, hfault⟩
  have hread : (readAll s.stream).commands = laidFrom 0 cs := hcommands
  rw [allCommands_eq, Reading.shift, hread, map_add_laidFrom, Nat.add_zero]

end Script

/-! ## streams -/

namespace Command

/-- a command stands behind the bytes of those before it -/
theorem getElem?_laidFrom (pos : Nat) (cs : List Command) (i : Nat) :
    (laidFrom pos cs)[i]? = cs[i]?.map fun c => (pos + (flat (cs.take i)).length, c) := by
  induction cs generalizing pos i with
  | nil => rfl
  | cons c cs ih =>
    rw [laidFrom_cons]
    cases i with
    | zero => rfl
    | succ i =>
      rw [List.getElem?_cons_succ, ih, List.getElem?_cons_succ, List.take_succ_cons,
        length_flat_cons, Nat.add_assoc]

theorem length_laidFrom (pos : Nat) (cs : List Command) : (laidFrom pos cs).length = cs.length := by
  rw [← List.length_map (f := Prod.snd), map_snd_laidFrom]

theorem validate_of_fault {code : Bytes} (h : (readAll code).fault = none) :
    validate code = .ok () := by
  rw [validate, h]

/-- the items of the commands that are read, and of the fault behind them -/
theorem getElem?_items (pos : Nat) (cs : List Command) (fault : Option FormatFault) :
    let items := Reading.items ⟨laidFrom pos cs, fault⟩
    (∀ i < cs.length, items[i]? =
      cs[i]?.map fun c => .ok (pos + (flat (cs.take i)).length, c)) ∧
    items[cs.length]? = fault.map .error ∧ ∀ i, cs.length < i → items[i]? = none := by
  have hlength : ((laidFrom pos cs).map (Except.ok (ε := FormatFault))).length = cs.length := by
    rw [List.length_map, length_laidFrom]
  have hitems : Reading.items ⟨laidFrom pos cs, fault⟩ =
      (laidFrom pos cs).map .ok ++ fault.toList.map .error := rfl
  rw [hitems]
  refine ⟨fun i hi => ?_, ?_, fun i hi => ?_⟩
  · rw [List.getElem?_append_left (by rw [hlength]; exact hi), List.getElem?_map,
      getElem?_laidFrom, Option.map_map]
    rfl
  · rw [List.getElem?_append_right (Nat.le_of_eq hlength), hlength, Nat.sub_self]
    cases fault <;> rfl
  · rw [List.getElem?_eq_none]
    rw [List.length_append, hlength, List.length_map]
    have hone : fault.toList.length ≤ 1 := by
      cases fault with
      | none => exact Nat.zero_le 1
      | some fault => exact Nat.le_refl 1
    omega

/-- **Commands frame themselves.**  Commands that `make` accepts, one behind the other, are valid
code, and a script with this stream is read as these commands, each behind the bytes of those before
it.  Whatever the stream is, the commands that are read are accepted by `make` and are the front of
the stream, all of it just when there is no fault; a cursor answers with these commands, then with
the fault, if there is one, and then with nothing.  What the constructors give is accepted. -/
theorem framing :
    (∀ cs : List Command, (∀ c ∈ cs, make c.opcode c.args = .ok c) →
      validate (flat cs) = .ok () ∧
      ∀ s : Script, s.stream = flat cs →
        s.allCommands = ⟨laidFrom s.headerLength cs, none⟩ ∧
        ∀ i, s.allCursor.answer i =
          cs[i]?.map fun c => .ok (s.headerLength + (flat (cs.take i)).length, c)) ∧
    (∀ s : Script, ∃ cs rest fault,
      s.allCommands = ⟨laidFrom s.headerLength cs, fault⟩ ∧
      (∀ c ∈ cs, make c.opcode c.args = .ok c) ∧
      s.stream = flat cs ++ rest ∧ (fault = none ↔ rest = []) ∧
      (∀ i < cs.length, s.allCursor.answer i =
        cs[i]?.map fun c => .ok (s.headerLength + (flat (cs.take i)).length, c)) ∧
      s.allCursor.answer cs.length = fault.map .error ∧
      ∀ i, cs.length < i → s.allCursor.answer i = none) ∧
    (∀ c, Constructed c → make c.opcode c.args = .ok c) := by
  simp only [make_self_iff, Script.answer_allCursor]
  refine ⟨fun cs hwhole => ⟨?_, fun s hstream => ?_⟩, fun s => ?_, fun c => Constructed.isWhole⟩
  · exact validate_of_fault (by rw [readAll_flat hwhole])
  · have hall := Script.allCommands_of_flat hwhole hstream
    obtain ⟨hbefore, hlast, hbehind⟩ := getElem?_items s.headerLength cs none
    refine ⟨hall, fun i => ?_⟩
    rw [hall]
    rcases Nat.lt_trichotomy i cs.length with hi | rfl | hi
    · exact hbefore i hi
    · rw [List.getElem?_eq_none (Nat.le_refl _)]
      exact hlast
    · rw [List.getElem?_eq_none (Nat.le_of_lt hi)]
      exact hbehind i hi
  · obtain ⟨cs, rest, fault, hwhole, hstream, hall, hfault⟩ := s.allCommands_cases
    rw [hall]
    exact ⟨cs, rest, fault, rfl, hwhole, hstream, hfault, getElem?_items s.headerLength cs fault⟩

/-- a copy and a display effect, whose sizes their own arguments give, in front of bytes of the
kind that gave them -/
theorem framing_sizes :
    (∀ c ∈ ([⟨0x4E, [0x00, 0x20, 0x7E, 4, 0, 1, 2]⟩, ⟨0x88, [0x21, 7, 8]⟩, ⟨0x88, [0x80, 4]⟩] :
      List Command), make c.opcode c.args = .ok c) ∧
      validate [0x4E, 0x00, 0x20, 0x7E, 4, 0, 1, 2, 0x88, 0x21, 7, 8, 0x88, 0x80, 4] = .ok () := by
  have hmake : ∀ c ∈ ([⟨0x4E, [0x00, 0x20, 0x7E, 4, 0, 1, 2]⟩, ⟨0x88, [0x21, 7, 8]⟩,
      ⟨0x88, [0x80, 4]⟩] : List Command), make c.opcode c.args = .ok c := by
    simp only [← toOption_eq_some]
    decide +kernel
  exact ⟨hmake, (framing.1 _ hmake).1⟩

end Command

end Cartridge
