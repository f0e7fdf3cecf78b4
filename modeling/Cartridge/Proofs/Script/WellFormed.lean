import Cartridge.Proofs.Script.Bounded
import Cartridge.Proofs.StringTable.Edit
import Cartridge.Script.Edit

/-!
# Well-formed scripts

* `Script.WellFormed`        a bounded script with well-formed strings, which an edit has numbered;
* `Script.wellFormed_of_parse`, `Script.wellFormed_of_load`   where scripts come from;
* `Script.compactStrings_eq_ok`   renumbering changes no length and no pointer;
* `Script.WellFormed.edit`, `Script.WellFormed.editWith`   an edit keeps what its change keeps;
* `Script.WellFormed.setFunction`, `Script.patchArguments_eq_ok`   functions and arguments;
* `Script.WellFormed.addString`, `Script.WellFormed.setString`,
  `Script.WellFormed.setStringTableAddress`   strings and where they are.
-/

namespace Cartridge

namespace Script

structure WellFormed (s : Script) : Prop extends Bounded s where
  texts : s.strings.WellFormed
  numbered : s.modified = true → s.strings.compacted = true

/-! ## where scripts come from -/

theorem wellFormed_of_parse {bytes : Bytes} {s : Script} (h : parse bytes = .ok s) :
    s.WellFormed := by
  have hbounded := bounded_of_parse h
  obtain ⟨_, _, _, _, _, rfl, _⟩ := parse_eq_ok h
  exact ⟨hbounded, StringTable.wellFormed_empty, fun hmodified => by cases hmodified⟩

theorem wellFormed_of_load {image : Image} {offset : Nat} {s : Script}
    (h : load image offset = .ok s) : s.WellFormed := by
  obtain ⟨bytes, _, h⟩ := bind_eq_ok.mp h
  obtain ⟨script, hparse, h⟩ := bind_eq_ok.mp h
  obtain ⟨found, _, h⟩ := bind_eq_ok.mp h
  have hparsed := wellFormed_of_parse hparse
  cases found with
  | none =>
    cases h
    exact hparsed
  | some addr =>
    obtain ⟨used, _, h⟩ := bind_eq_ok.mp h
    obtain ⟨table, _, h⟩ := bind_eq_ok.mp h
    obtain ⟨strings, hstrings, h⟩ := bind_eq_ok.mp h
    cases h
    obtain ⟨_, _, _, _, _, rfl, _⟩ := parse_eq_ok hparse
    exact ⟨hparsed.toBounded.congr rfl rfl, StringTable.wellFormed_of_load hstrings,
      fun hmodified => by cases hmodified⟩

/-! ## the first edit -/

theorem opcode_renumbered (strings : StringTable) (c : Command) :
    (renumbered strings c).opcode = c.opcode := by
  unfold renumbered
  split
  · rfl
  · split
    · rfl
    · rfl

theorem renumbered_of_ne {strings : StringTable} {c : Command} (h : c.kind ≠ .textbox) :
    renumbered strings c = c := by
  unfold renumbered shownString?
  rw [if_neg h]

theorem length_renumbered (strings : StringTable) {c : Command} (h : c.IsWhole) :
    (renumbered strings c).length = c.length := by
  by_cases hkind : c.kind = .textbox
  · have hfixed : c.IsFixed := ⟨by rw [hkind]; decide, by rw [hkind]; decide⟩
    have hargs : c.args ≠ [] := Command.args_ne_nil h hfixed (by rw [hkind]; decide)
    unfold renumbered shownString?
    rw [if_pos hkind]
    dsimp only
    cases strings.newIndex? (c.args.headD 0).toNat with
    | none => rfl
    | some new =>
      have hpos := List.length_pos_of_ne_nil hargs
      simp only [Command.length, List.length_cons, List.length_tail]
      omega
  · rw [renumbered_of_ne hkind]

/-- the bytes of all commands, each of them changed -/
theorem flatMap_of_toExcept {s : Script} {commands : List (Nat × Command)}
    (h : s.allCommands.toExcept = .ok commands) (f : Command → Command) :
    ∃ cs, (∀ c ∈ cs, c.IsWhole) ∧ s.stream = Command.flat cs ∧
      (commands.flatMap fun entry => (f entry.2).bytes) = Command.flat (cs.map f) := by
  unfold Reading.toExcept at h
  cases hfault : s.allCommands.fault with
  | some fault =>
    rw [hfault] at h
    cases h
  | none =>
    rw [hfault] at h
    cases h
    obtain ⟨cs, hwhole, hstream, hall⟩ := flat_of_allCommands hfault
    have hsnd : s.allCommands.commands.map Prod.snd = cs := by
      rw [hall]
      exact Command.map_snd_laidFrom ..
    refine ⟨cs, hwhole, hstream, ?_⟩
    rw [← hsnd, List.map_map, Command.flat, List.flatMap_map]
    rfl

/-- commands that keep their lengths fill a stream of the same length -/
theorem length_stream_of_toExcept {s : Script} {f : Command → Command}
    {commands : List (Nat × Command)} (hcommands : s.allCommands.toExcept = .ok commands)
    (h : ∀ c : Command, c.IsWhole → (f c).length = c.length) :
    (commands.flatMap fun entry => (f entry.2).bytes).length = s.stream.length := by
  obtain ⟨cs, hwhole, hstream, hbytes⟩ := flatMap_of_toExcept hcommands f
  rw [hbytes, hstream]
  exact Command.length_flat_map fun c hc => h c (hwhole c hc)

theorem compactStrings_eq_ok {s t : Script} (h : s.compactStrings = .ok t) :
    t.pointers = s.pointers ∧ t.stream.length = s.stream.length ∧
      t.strings = s.strings.compact ∧ t.modified = s.modified ∧
      (s.strings.isDense = true → t.stream = s.stream) := by
  unfold compactStrings at h
  by_cases hcompacted : s.strings.compacted = true
  · rw [if_pos hcompacted] at h
    cases h
    have hsame : s.strings = s.strings.compact := by
      rw [StringTable.compact, if_pos hcompacted]
    exact ⟨rfl, rfl, hsame, rfl, fun _ => rfl⟩
  · rw [if_neg hcompacted] at h
    dsimp only at h
    by_cases hdense : s.strings.isDense = true
    · rw [if_pos hdense] at h
      cases h
      exact ⟨rfl, rfl, rfl, rfl, fun _ => rfl⟩
    · rw [if_neg hdense] at h
      obtain ⟨commands, hcommands, h⟩ := bind_eq_ok.mp h
      cases h
      refine ⟨rfl, ?_, rfl, rfl, fun hd => absurd hd hdense⟩
      exact length_stream_of_toExcept hcommands fun c hc => length_renumbered s.strings hc

theorem length_of_compactStrings {s t : Script} (h : s.compactStrings = .ok t) :
    t.headerLength = s.headerLength ∧ t.length = s.length := by
  obtain ⟨hpointers, hsize, _⟩ := compactStrings_eq_ok h
  have hheader : t.headerLength = s.headerLength := by
    rw [headerLength, hpointers, headerLength]
  exact ⟨hheader, by rw [length, hheader, hsize, length]⟩

theorem WellFormed.compactStrings {s t : Script} (h : s.WellFormed)
    (hcompact : s.compactStrings = .ok t) : t.WellFormed ∧ t.strings.compacted = true := by
  obtain ⟨hpointers, hstream, hstrings, _⟩ := compactStrings_eq_ok hcompact
  have hcompacted : t.strings.compacted = true := by
    rw [hstrings]
    exact StringTable.compacted_compact s.strings
  refine ⟨⟨h.toBounded.congr hpointers hstream, ?_, fun _ => hcompacted⟩, hcompacted⟩
  rw [hstrings]
  exact h.texts.compact

/-! ## edits in general -/

/-- what a change makes of a numbered script -/
structure Keeps (t t' : Script) : Prop where
  bounded : t'.Bounded
  texts : t'.strings.WellFormed
  compacted : t'.strings.compacted = true

/-- a change of the code -/
theorem WellFormed.keeps {t t' : Script} (h : t.WellFormed)
    (hcompacted : t.strings.compacted = true)
    (hbounded : t'.Bounded) (hstrings : t'.strings = t.strings) : t.Keeps t' :=
  ⟨hbounded, hstrings ▸ h.texts, hstrings ▸ hcompacted⟩

theorem Keeps.wellFormed {t t' : Script} (h : t.Keeps t') :
    ({ t' with modified := true } : Script).WellFormed :=
  ⟨h.bounded.congr rfl rfl, h.texts, fun _ => h.compacted⟩

section
variable {s s' : Script} (h : s.WellFormed)
include h

theorem WellFormed.editWith {α : Type} {change : Script → Except Error (α × Script)} {a : α}
    (hchange : ∀ t t' b, t.WellFormed → t.strings.compacted = true → change t = .ok (b, t') →
      t.Keeps t')
    (hedit : s.editWith change = .ok (a, s')) : s'.WellFormed := by
  obtain ⟨t, ht, hedit⟩ := bind_eq_ok.mp hedit
  obtain ⟨⟨b, t'⟩, ht', hedit⟩ := bind_eq_ok.mp hedit
  cases hedit
  obtain ⟨hwell, hcompacted⟩ := h.compactStrings ht
  exact (hchange t t' a hwell hcompacted ht').wellFormed

theorem WellFormed.edit {change : Script → Except Error Script}
    (hchange : ∀ t t', t.WellFormed → t.strings.compacted = true → change t = .ok t' → t.Keeps t')
    (hedit : s.edit change = .ok s') : s'.WellFormed := by
  obtain ⟨t, ht, hedit⟩ := bind_eq_ok.mp hedit
  obtain ⟨t', ht', hedit⟩ := bind_eq_ok.mp hedit
  cases hedit
  obtain ⟨hwell, hcompacted⟩ := h.compactStrings ht
  exact (hchange t t' hwell hcompacted ht').wellFormed

end

theorem strings_replace {s s' : Script} {place removed : Nat} {code : Bytes} {anchor : Anchor}
    (h : s.replace place removed code anchor = .ok s') : s'.strings = s.strings := by
  obtain ⟨_, _, _, _, _, hspliced⟩ := replace_eq_ok h
  exact (spliced_frame hspliced).2.1

/-- an edit that replaces code -/
theorem WellFormed.replace {s s' : Script} (h : s.WellFormed) {place removed : Nat} {code : Bytes}
    {anchor : Anchor} (hedit : s.edit (fun t => t.replace place removed code anchor) = .ok s') :
    s'.WellFormed := by
  refine h.edit ?_ hedit
  intro t t' ht hcompacted hreplace
  exact ht.keeps hcompacted (ht.toBounded.replace hreplace) (strings_replace hreplace)

/-! ## functions -/

theorem Bounded.redirect {s : Script} (h : s.Bounded) (slots : List Nat) {pos : Nat}
    (hpos : s.headerLength ≤ pos ∧ pos ≤ s.length) : (s.redirect slots pos).Bounded := by
  refine h.withPointers List.length_mapIdx ?_
  intro p hp
  obtain ⟨i, hi, rfl⟩ := List.mem_mapIdx.mp hp
  by_cases hmem : i ∈ slots
  · rw [if_pos hmem]
    exact hpos
  · rw [if_neg hmem]
    exact h.pointers _ (List.getElem_mem hi)

theorem Bounded.fillSlot {s s' : Script} {slot : Nat} {code : Bytes} (h : s.Bounded)
    (hfill : s.fillSlot slot code = .ok s') : s'.Bounded ∧ s'.strings = s.strings := by
  obtain ⟨place, _, hfill⟩ := bind_eq_ok.mp hfill
  obtain ⟨filled, hreplace, hfill⟩ := bind_eq_ok.mp hfill
  cases hfill
  obtain ⟨hlow, hhigh, _, _, _, hspliced⟩ := replace_eq_ok hreplace
  have hlength := length_replace hreplace
  have hstrings : filled.strings = s.strings := strings_replace hreplace
  refine ⟨(h.replace hreplace).redirect _ ?_, hstrings⟩
  rw [hlength, (spliced_frame hspliced).2.2.2]
  omega

theorem Bounded.replaceSlot {s s' : Script} {slot : Nat} {code : Bytes} (h : s.Bounded)
    (hreplace : s.replaceSlot slot code = .ok s') : s'.Bounded ∧ s'.strings = s.strings := by
  obtain ⟨stop, _, hreplace⟩ := bind_eq_ok.mp hreplace
  exact ⟨h.replace hreplace, strings_replace hreplace⟩

theorem WellFormed.setFunction {s s' : Script} {object function : Nat} {code : Bytes}
    (h : s.WellFormed) (hset : s.setFunction object function code = .ok s') : s'.WellFormed := by
  obtain ⟨slot, _, hedit⟩ := bind_eq_ok.mp hset
  refine h.edit ?_ hedit
  intro t t' ht hcompacted hchange
  by_cases hempty : t.slotIsEmpty slot = true
  · rw [if_pos hempty] at hchange
    obtain ⟨hbounded, hstrings⟩ := ht.toBounded.fillSlot hchange
    exact ht.keeps hcompacted hbounded hstrings
  · rw [if_neg hempty] at hchange
    obtain ⟨hbounded, hstrings⟩ := ht.toBounded.replaceSlot hchange
    exact ht.keeps hcompacted hbounded hstrings

/-! ## arguments -/

theorem commandAt_eq_ok {s : Script} {pos : Nat} {c : Command} (h : s.commandAt pos = .ok c) :
    s.headerLength ≤ pos ∧ c.IsWhole ∧ pos + c.length ≤ s.length ∧
      s.stream.drop (pos - s.headerLength) =
        c.bytes ++ (s.stream.drop (pos - s.headerLength)).drop c.length := by
  obtain ⟨hpos, h⟩ := unless_eq_ok.mp h
  obtain ⟨hwhole, hdrop⟩ := Command.decodeAt_eq_ok (mapError_eq_ok.mp h)
  have hlow : s.headerLength ≤ pos := Nat.le_of_not_lt hpos
  have hlength : c.length ≤ s.stream.length - (pos - s.headerLength) := by
    have hle := congrArg List.length hdrop
    rw [List.length_append, Command.length_bytes, List.length_drop] at hle
    omega
  have hpositive := c.length_pos
  refine ⟨hlow, hwhole, ?_, hdrop⟩
  rw [length]
  omega

theorem length_patched {c : Command} {offset : Nat} {bytes : Bytes}
    (h : offset + bytes.length ≤ c.args.length) : (patched c offset bytes).length = c.length := by
  show (c.args.overwrite offset bytes).length + 1 = c.args.length + 1
  rw [Bytes.length_overwrite h]

/-- the command is read before the strings are renumbered, and written after that -/
theorem patchArguments_eq_ok {s s' : Script} {object function pos offset : Nat} {opcode : UInt8}
    {bytes : Bytes} (h : s.patchArguments object function opcode offset bytes = .ok (pos, s')) :
    ∃ start stop c t, s.functionStart object function = .ok start ∧
      s.functionEnd object function = .ok stop ∧ s.findCommand [opcode] start stop = .ok pos ∧
      s.commandAt pos = .ok c ∧ offset + bytes.length ≤ c.args.length ∧
      (patched c offset bytes).IsWhole ∧ s.compactStrings = .ok t ∧
      s' = { t with
        stream := t.stream.overwrite (pos - t.headerLength) (patched c offset bytes).bytes
        modified := true } := by
  obtain ⟨start, hstart, h⟩ := bind_eq_ok.mp h
  obtain ⟨stop, hstop, h⟩ := bind_eq_ok.mp h
  obtain ⟨place, hplace, h⟩ := bind_eq_ok.mp h
  obtain ⟨c, hc, h⟩ := bind_eq_ok.mp h
  obtain ⟨hfits, h⟩ := unless_throw_eq_ok.mp h
  obtain ⟨hwhole, h⟩ := unless_throw_eq_ok.mp h
  obtain ⟨t, ht, h⟩ := bind_eq_ok.mp h
  cases h
  exact ⟨start, stop, c, t, hstart, hstop, hplace, hc, Nat.le_of_not_lt hfits,
    toOption_eq_some.mp (not_not.mp hwhole), ht, rfl⟩

theorem WellFormed.patchArguments {s s' : Script} {object function pos offset : Nat}
    {opcode : UInt8} {bytes : Bytes} (h : s.WellFormed)
    (hpatch : s.patchArguments object function opcode offset bytes = .ok (pos, s')) :
    s'.WellFormed := by
  obtain ⟨_, _, c, t, _, _, _, hc, hfits, _, ht, rfl⟩ := patchArguments_eq_ok hpatch
  have hsize := length_patched hfits
  obtain ⟨hpointers, hstream, _, _⟩ := compactStrings_eq_ok ht
  obtain ⟨hwell, hcompacted⟩ := h.compactStrings ht
  obtain ⟨hlow, _, hhigh, _⟩ := commandAt_eq_ok hc
  -- the command was read before the strings were renumbered, so its place is one in the old stream
  have hheader := (length_of_compactStrings ht).1
  have hinside : pos - t.headerLength + (patched c offset bytes).bytes.length ≤
      t.stream.length := by
    rw [Command.length_bytes, hsize, hheader, hstream]
    rw [length] at hhigh
    omega
  let t' : Script :=
    { t with stream := t.stream.overwrite (pos - t.headerLength) (patched c offset bytes).bytes }
  have hkeeps : t.Keeps t' := by
    refine hwell.keeps hcompacted (hwell.toBounded.congr rfl ?_) rfl
    exact Bytes.length_overwrite hinside
  exact hkeeps.wellFormed

/-! ## strings -/

theorem WellFormed.addString {s s' : Script} {index : Nat} {text : Bytes} (h : s.WellFormed)
    (hadd : s.addString text = .ok (index, s')) : s'.WellFormed := by
  refine h.editWith ?_ hadd
  intro t t' i ht hcompacted hchange
  obtain ⟨⟨j, strings⟩, hstrings, hchange⟩ := bind_eq_ok.mp hchange
  cases hchange
  obtain ⟨htexts, hsame⟩ := ht.texts.add hstrings
  exact ⟨ht.toBounded.congr rfl rfl, htexts, hsame.trans hcompacted⟩

theorem WellFormed.setString {s s' : Script} {index : Nat} {text : Bytes} (h : s.WellFormed)
    (hset : s.setString index text = .ok s') : s'.WellFormed := by
  refine h.edit ?_ hset
  intro t t' ht hcompacted hchange
  obtain ⟨strings, hstrings, hchange⟩ := bind_eq_ok.mp hchange
  cases hchange
  obtain ⟨htexts, hsame⟩ := ht.texts.set hstrings
  exact ⟨ht.toBounded.congr rfl rfl, htexts, hsame.trans hcompacted⟩

theorem WellFormed.setStringTableAddress {s s' : Script} {addr : Nat} (h : s.WellFormed)
    (hset : s.setStringTableAddress addr = .ok s') : s'.WellFormed := by
  obtain ⟨c, _, hset⟩ := bind_eq_ok.mp hset
  obtain ⟨start, _, hset⟩ := bind_eq_ok.mp hset
  obtain ⟨found, _, hset⟩ := bind_eq_ok.mp hset
  cases found with
  | none => exact h.replace hset
  | some pos =>
    obtain ⟨old, _, hset⟩ := bind_eq_ok.mp hset
    exact h.replace hset

end Script

end Cartridge
