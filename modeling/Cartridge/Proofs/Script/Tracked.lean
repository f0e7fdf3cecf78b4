import Cartridge.Proofs.Script.Copy
import Cartridge.Proofs.Script.Extent
import Cartridge.Proofs.Script.Removal
import Cartridge.Proofs.Script.Representation
import Cartridge.Proofs.Script.Shown

/-!
# Textboxes that stay

Edits move commands and drop some of them.  A textbox that is not dropped goes on to show its text:
the first edit may give the text another index, and after that the index stays as well.

* `Splice.kept`, `Script.keptWithout`, `ScriptEdit.track`   where a command is behind an edit, if it
                             is still there;
* `Script.Retains`           textboxes that stay are the same, and so are the strings;
* `Script.retains_of_replace`, `Script.retains_of_setSlot`, `Script.retains_of_pushObject`,
  `Script.retains_of_removal`, `Script.retains_of_add`   what edits do to a script whose strings
                             have been numbered;
* `ScriptEdit.retains_of_apply`   one edit: the numbering, and then what it does;
* `Script.track`, `Script.retains_after`   a run of edits;
* `Script.shows_after`       **what textboxes show behind a run of edits**, and the indices of the
                             strings.
-/

namespace Cartridge

open Command

/-! ## where commands go -/

/-- a command in the removed bytes goes with them -/
def Splice.kept (e : Splice) (pos : Nat) : Option Nat :=
  if pos < e.place ∨ e.stop ≤ pos then some (e.shift pos) else none

theorem Splice.kept_eq_some {e : Splice} {pos pos' : Nat} :
    e.kept pos = some pos' ↔ (pos < e.place ∨ e.stop ≤ pos) ∧ e.shift pos = pos' := by
  rw [kept, Option.ite_none_right_eq_some, Option.some.injEq]

/-- what goes with an object that has its code in `[start, stop)` leaves the rest closed up -/
def Script.keptWithout (s : Script) (object start stop pos : Nat) : Option Nat :=
  let gone := s.allCommands.commands.filter fun a => GoesWith object start stop a
  if pos ∈ gone.map Prod.fst then none else some (pos - objectHeader - bytesBefore gone pos)

theorem Command.not_isJump_of_textbox {c : Command} (h : c.kind = .textbox) : ¬ c.IsJump := by
  rw [IsJump, h]
  decide

/-- a textbox only moves -/
theorem Command.mem_of_carried {move follow : Nat → Nat} {as bs : List (Nat × Command)}
    (h : List.Forall₂ (Carried move follow) as bs) {pos : Nat} {c : Command} (hmem : (pos, c) ∈ as)
    (hkind : c.kind = .textbox) : (move pos, c) ∈ bs := by
  obtain ⟨b, hb, hcarried⟩ := exists_of_mem_left h hmem
  rwa [hcarried.eq_of_not_jump (not_isJump_of_textbox hkind)] at hb

namespace StringTable

/-- strings that come behind the others hide none of them -/
theorem get?_of_prefix {t t' : StringTable} (h : t.entries <+: t'.entries) {index : Nat}
    {text : Bytes} (hget : t.get? index = some text) : t'.get? index = some text := by
  obtain ⟨more, hmore⟩ := h
  have hget : t.entries.lookup index = some text := hget
  rw [get?, ← hmore, List.lookup_append, hget]
  rfl

end StringTable

namespace Script

/-! ## what stays -/

/-- What is left behind an edit: a textbox that stays is the same command, wherever it is now, and
a string that there was has the index that it had. -/
structure Retains (track : Nat → Option Nat) (s s' : Script) : Prop where
  textboxes : ∀ pos pos' c, (pos, c) ∈ s.allCommands.commands → c.kind = .textbox →
    track pos = some pos' → (pos', c) ∈ s'.allCommands.commands
  strings : s.strings.entries <+: s'.strings.entries

theorem Retains.refl (s : Script) : Retains some s s where
  textboxes := by
    intro pos pos' c hmem _ hpos
    rwa [← Option.some.inj hpos]
  strings := List.prefix_refl _

theorem Retains.trans {track track' : Nat → Option Nat} {s t u : Script} (h : Retains track s t)
    (h' : Retains track' t u) : Retains (fun pos => (track pos).bind track') s u where
  textboxes := by
    intro pos pos' c hmem hkind hpos
    obtain ⟨middle, hmiddle, hpos⟩ := Option.bind_eq_some_iff.mp hpos
    exact h'.textboxes _ _ c (h.textboxes _ _ c hmem hkind hmiddle) hkind hpos
  strings := h.strings.trans h'.strings

theorem Retains.congr {track track' : Nat → Option Nat} {s s' : Script} (h : Retains track s s')
    (hsame : ∀ pos, track' pos = track pos) : Retains track' s s' := by
  rwa [funext hsame]

/-- the mark of an edit is neither a command nor a string -/
theorem Retains.marked {track : Nat → Option Nat} {s s' : Script} (h : Retains track s s') :
    Retains track s { s' with modified := true } :=
  ⟨h.textboxes, h.strings⟩

/-- so a textbox that stays shows what it did, by the same index -/
theorem Retains.showsAt {track : Nat → Option Nat} {s s' : Script} {pos pos' index : Nat}
    {text : Bytes} (h : Retains track s s') (hshows : s.ShowsAt pos index text)
    (hpos : track pos = some pos') : s'.ShowsAt pos' index text := by
  obtain ⟨c, hc, hindex, htext⟩ := hshows
  refine ⟨c, h.textboxes _ _ c hc (kind_of_shownString? hindex) hpos, hindex, ?_⟩
  exact string_eq_ok.mpr (StringTable.get?_of_prefix h.strings (string_eq_ok.mp htext))

/-! ## code -/

theorem Exchange.retains {e : Splice} {s s' : Script}
    {front middle back kept new moved : List Command}
    (h : Exchange e s s' front middle back kept new moved) (hstrings : s'.strings = s.strings) :
    Retains e.kept s s' where
  textboxes := by
    intro pos pos' c hmem hkind hpos
    obtain ⟨hout, rfl⟩ := Splice.kept_eq_some.mp hpos
    obtain ⟨c', hmem', hcarried⟩ := h.exists_carried hmem hout
    rwa [hcarried.eq_of_not_jump (not_isJump_of_textbox hkind)] at hmem'
  strings := by rw [hstrings]

theorem retains_of_replace {s s' : Script} {place removed : Nat} {code : Bytes} {anchor : Anchor}
    (h : s.replace place removed code anchor = .ok s') :
    Retains (Splice.kept ⟨place, removed, code.length, anchor⟩) s s' := by
  obtain ⟨_, _, _, _, _, _, _, hexchange⟩ := exchange_of_replace h
  exact hexchange.retains (strings_replace h)

/-- the code of a function, set for a slot of the table -/
theorem retains_of_setSlot {s s' : Script} {slot : Nat} {code : Bytes}
    (hslot : slot < s.pointers.length)
    (h : (if s.slotIsEmpty slot then s.fillSlot slot code else s.replaceSlot slot code) = .ok s') :
    ∃ stop, s.slotEnd slot = .ok stop ∧ Retains (s.slotSplice slot stop code).kept s s' := by
  by_cases hempty : s.slotIsEmpty slot = true
  · rw [if_pos hempty] at h
    obtain ⟨stop, filled, hstop, hreplace, rfl⟩ := exists_of_fillSlot hslot hempty h
    refine ⟨stop, hstop, ?_⟩
    rw [slotSplice, if_pos hempty]
    obtain ⟨_, _, _, _, _, _, _, hexchange⟩ := exchange_of_replace hreplace
    have hheader := headerLength_redirect filled (s.sharers slot) stop
    have hstrings : filled.strings = s.strings := strings_replace hreplace
    exact (hexchange.congr hheader rfl).retains hstrings
  · rw [if_neg hempty] at h
    obtain ⟨stop, hstop, hreplace⟩ := bind_eq_ok.mp h
    refine ⟨stop, hstop, ?_⟩
    rw [slotSplice, if_neg hempty]
    exact retains_of_replace hreplace

/-! ## objects -/

theorem retains_of_pushObject {s s' : Script} {code : Bytes} {offsets : List Nat} {object : Nat}
    (hbounded : s.Bounded) (hoffsets : offsets.length = functionsPerObject)
    (h : s.pushObject code offsets = .ok (object, s')) :
    Retains (fun pos => some (pos + objectHeader)) s s' where
  textboxes := by
    intro pos pos' c hmem hkind hpos
    obtain ⟨kept, new, follow, _, hall, _, hcarried⟩ :=
      (appends_of_pushObject hbounded hoffsets h).2.commands
    rw [hall, ← Option.some.inj hpos]
    exact List.mem_append_left _ (mem_of_carried hcarried hmem hkind)
  strings := by rw [strings_pushObject h]

theorem ne_objectRef_of_textbox {c : Command} (h : c.kind = .textbox) : c.kind ≠ .objectRef := by
  rw [h]
  decide

/-- the code of an object goes, its pointers, and the commands that name it -/
theorem retains_of_removal {s cut shrunk s' : Script} {object start stop : Nat}
    (hbounded : s.Bounded) (hobject : object < s.objectCount) (hle : start ≤ stop)
    (hcut : s.replace start (stop - start) [] .before = .ok cut)
    (hshrunk : cut.shrinkTable object = .ok shrunk)
    (hforget : shrunk.forgetObject object = .ok s') :
    Retains (s.keptWithout object start stop) s s' where
  textboxes := by
    intro pos pos' c hmem hkind hpos
    obtain ⟨follow, hlowered⟩ :=
      lowered_of_removal hbounded hobject hle hcut hshrunk hforget
    rw [keptWithout, Option.ite_none_left_eq_some, Option.some.injEq] at hpos
    obtain ⟨hstays, rfl⟩ := hpos
    have hstays : ¬ GoesWith object start stop (pos, c) := fun hgoes =>
      hstays (List.mem_map_of_mem (List.mem_filter.mpr ⟨hmem, decide_eq_true hgoes⟩))
    obtain ⟨b, hb, hcarried⟩ := exists_of_mem_left hlowered
      (List.mem_filter.mpr ⟨hmem, decide_eq_true hstays⟩)
    rw [lowered_of_ne _ (ne_objectRef_of_textbox hkind)] at hcarried
    rwa [hcarried.eq_of_not_jump (not_isJump_of_textbox hkind)] at hb
  strings := by
    rw [strings_forgetObject hforget, strings_shrinkTable hshrunk, strings_replace hcut]

/-! ## strings -/

theorem retains_of_add {s : Script} {strings : StringTable} {index : Nat} {text : Bytes}
    (h : s.strings.add text = .ok (index, strings)) : Retains some s { s with strings } where
  textboxes := (Retains.refl s).textboxes
  strings := by
    show s.strings.entries <+: strings.entries
    rw [(StringTable.add_eq_ok h).2.2]
    exact List.prefix_append ..

/-! ## numbering -/

theorem namedHandle?_renumbered (strings : StringTable) (c : Command) :
    namedHandle? (renumbered strings c) = namedHandle? c := by
  by_cases hkind : c.kind = .textbox
  · rw [namedHandle?_of_ne (ne_objectRef_of_textbox hkind),
      namedHandle?_of_ne (ne_objectRef_of_textbox ((kind_renumbered strings c).trans hkind))]
  · rw [renumbered_of_ne hkind]

/-- numbering leaves the commands where they are, and so what goes with an object -/
theorem keptWithout_of_compactStrings {s t : Script} (hs : s.WellFormed)
    (ht : s.compactStrings = .ok t) (object start stop pos : Nat) :
    t.keptWithout object start stop pos = s.keptWithout object start stop pos := by
  have hgone : t.allCommands.commands.filter (fun a => GoesWith object start stop a) =
      (s.allCommands.commands.filter fun a => GoesWith object start stop a).map
        fun a => (a.1, renumbered s.strings a.2) := by
    rw [allCommands_of_compactStrings hs ht, List.filter_map]
    refine congrArg _ (List.filter_congr fun a _ => decide_eq_decide.mpr ?_)
    rw [GoesWith, namedHandle?_renumbered, GoesWith]
  have hlength : ∀ a ∈ s.allCommands.commands.filter fun a => GoesWith object start stop a,
      (renumbered s.strings a.2).length = a.2.length := by
    intro a ha
    obtain ⟨_, _, _, hwhole, _⟩ := split_of_mem (List.mem_of_mem_filter ha)
    exact length_renumbered s.strings hwhole
  unfold keptWithout
  dsimp only
  rw [hgone, bytesBefore_map hlength, List.map_map]
  rfl

end Script

/-! ## one edit -/

namespace ScriptEdit

/-- the edit changes no argument and no string that there is -/
def Spares : ScriptEdit → Prop
  | patchArguments .. => False
  | setString .. => False
  | setStringTableAddress _ => False
  | _ => True

instance : DecidablePred Spares
  | code _ => .isTrue trivial
  | setFunction .. => .isTrue trivial
  | appendObject => .isTrue trivial
  | appendCopyOf _ => .isTrue trivial
  | removeObject _ => .isTrue trivial
  | patchArguments .. => .isFalse id
  | addString _ => .isTrue trivial
  | setString .. => .isFalse id
  | setStringTableAddress _ => .isFalse id

/-- where a command of the script is behind an edit that spares, if it is still there -/
def track (s : Script) : ScriptEdit → Nat → Option Nat
  | code edit, pos => (edit.splice s).kept pos
  | setFunction object function body, pos =>
    match s.functionEnd object function with
    | .ok stop =>
      (s.slotSplice (object * Script.functionsPerObject + function) stop body).kept pos
    | .error _ => none
  | appendObject, pos => some (pos + Script.objectHeader)
  | appendCopyOf _, pos => some (pos + Script.objectHeader)
  | removeObject object, pos =>
    match s.objectStart object, s.objectEnd object with
    | .ok start, .ok stop => s.keptWithout object start stop pos
    | _, _ => none
  | addString _, pos => some pos
  | _, _ => none

end ScriptEdit

namespace Script

variable {s s' : Script}

theorem retains_of_code {edit : CodeEdit} (h : edit.apply s = .ok s') :
    ∃ t, s.compactStrings = .ok t ∧ Retains (edit.splice s).kept t s' := by
  obtain ⟨t, r, ht, hreplace, rfl⟩ := CodeEdit.exists_of_apply h
  exact ⟨t, ht, (retains_of_replace hreplace).marked⟩

theorem retains_of_setFunction (hs : s.WellFormed) {object function : Nat} {body : Bytes}
    (h : s.setFunction object function body = .ok s') :
    ∃ t, s.compactStrings = .ok t ∧
      Retains (ScriptEdit.track s (.setFunction object function body)) t s' := by
  obtain ⟨slot, hslot, h⟩ := bind_eq_ok.mp h
  obtain ⟨t, r, ht, hchange, rfl⟩ := exists_of_edit h
  obtain ⟨hobject, hfunction, rfl⟩ := slot_eq_ok hslot
  have hpointers := (compactStrings_eq_ok ht).1
  have hlt : object * functionsPerObject + function < t.pointers.length := by
    rw [hpointers]
    exact hs.toBounded.slot_lt hobject hfunction
  obtain ⟨stop, hstop, hretains⟩ := retains_of_setSlot hlt hchange
  rw [slotSplice_congr hpointers] at hretains
  rw [slotEnd_congr hpointers (length_of_compactStrings ht).2] at hstop
  have hend : s.functionEnd object function = .ok stop := by
    rw [functionEnd, hslot]
    exact hstop
  refine ⟨t, ht, hretains.marked.congr fun pos => ?_⟩
  rw [ScriptEdit.track, hend]

theorem retains_of_appendObject (hs : s.WellFormed) {object : Nat}
    (h : s.appendObject = .ok (object, s')) :
    ∃ t, s.compactStrings = .ok t ∧ Retains (fun pos => some (pos + objectHeader)) t s' := by
  obtain ⟨t, r, ht, hpush, rfl⟩ := exists_of_editWith h
  have hbounded := (hs.compactStrings ht).1.toBounded
  exact ⟨t, ht, (retains_of_pushObject hbounded rfl hpush).marked⟩

theorem retains_of_appendCopyOf (hs : s.WellFormed) {source object : Nat}
    (h : s.appendCopyOf source = .ok (object, s')) :
    ∃ t, s.compactStrings = .ok t ∧ Retains (fun pos => some (pos + objectHeader)) t s' := by
  obtain ⟨_, _, _, _, _, _, hoffsets, _, _, hedit⟩ := exists_of_appendCopyOf h
  obtain ⟨t, r, ht, hpush, rfl⟩ := exists_of_editWith hedit
  have hbounded := (hs.compactStrings ht).1.toBounded
  exact ⟨t, ht, (retains_of_pushObject hbounded (offsetsIn_eq_ok hoffsets).1 hpush).marked⟩

theorem retains_of_removeObject (hs : s.WellFormed) {object : Nat}
    (h : s.removeObject object = .ok s') :
    ∃ t, s.compactStrings = .ok t ∧
      Retains (ScriptEdit.track s (.removeObject object)) t s' := by
  obtain ⟨start, hstart, h⟩ := bind_eq_ok.mp h
  obtain ⟨stop, hstop, h⟩ := bind_eq_ok.mp h
  obtain ⟨t, r, ht, hchange, rfl⟩ := exists_of_edit h
  obtain ⟨cut, hcut, hchange⟩ := bind_eq_ok.mp hchange
  obtain ⟨shrunk, hshrunk, hforget⟩ := bind_eq_ok.mp hchange
  obtain ⟨hobject, hle⟩ := objectStart_le hstart hstop
  have hobject' : object < t.objectCount := by
    rw [objectCount, (compactStrings_eq_ok ht).1]
    exact hobject
  have hbounded := (hs.compactStrings ht).1.toBounded
  have hretains := retains_of_removal hbounded hobject' hle hcut hshrunk hforget
  refine ⟨t, ht, hretains.marked.congr fun pos => ?_⟩
  rw [ScriptEdit.track, hstart, hstop]
  exact (keptWithout_of_compactStrings hs ht object start stop pos).symm

theorem retains_of_addString {index : Nat} {text : Bytes}
    (h : s.addString text = .ok (index, s')) :
    ∃ t, s.compactStrings = .ok t ∧ Retains some t s' := by
  obtain ⟨t, r, ht, hchange, rfl⟩ := exists_of_editWith h
  obtain ⟨⟨i, strings⟩, hadd, hchange⟩ := bind_eq_ok.mp hchange
  cases hchange
  exact ⟨t, ht, (retains_of_add hadd).marked⟩

end Script

/-- **What an edit leaves of a script whose strings have been numbered.** -/
theorem ScriptEdit.retains_of_apply {s s' : Script} {edit : ScriptEdit} (hs : s.WellFormed)
    (hspares : edit.Spares) (h : edit.apply s = .ok s') :
    ∃ t, s.compactStrings = .ok t ∧ Script.Retains (edit.track s) t s' := by
  cases edit with
  | code edit => exact Script.retains_of_code h
  | setFunction object function body => exact Script.retains_of_setFunction hs h
  | appendObject =>
    obtain ⟨⟨object, _⟩, hdone, rfl⟩ := map_eq_ok.mp h
    exact Script.retains_of_appendObject hs hdone
  | appendCopyOf source =>
    obtain ⟨⟨object, _⟩, hdone, rfl⟩ := map_eq_ok.mp h
    exact Script.retains_of_appendCopyOf hs hdone
  | removeObject object => exact Script.retains_of_removeObject hs h
  | addString text =>
    obtain ⟨⟨index, _⟩, hdone, rfl⟩ := map_eq_ok.mp h
    exact Script.retains_of_addString hdone
  | patchArguments object function opcode offset bytes => exact hspares.elim
  | setString index text => exact hspares.elim
  | setStringTableAddress addr => exact hspares.elim

namespace Script

/-! ## runs of edits -/

/-- where a command of the script is behind a run of edits, if it is still there -/
def track (s : Script) : List ScriptEdit → Nat → Option Nat
  | [], pos => some pos
  | edit :: edits, pos =>
    match edit.apply s with
    | .ok s' => (edit.track s pos).bind (s'.track edits)
    | .error _ => s.track edits pos

theorem track_of_ok {s s' : Script} {edit : ScriptEdit} (h : edit.apply s = .ok s')
    (edits : List ScriptEdit) (pos : Nat) :
    s.track (edit :: edits) pos = (edit.track s pos).bind (s'.track edits) := by
  rw [track, h]

theorem track_of_error {s : Script} {edit : ScriptEdit} {e : Error} (h : edit.apply s = .error e)
    (edits : List ScriptEdit) (pos : Nat) : s.track (edit :: edits) pos = s.track edits pos := by
  rw [track, h]

/-- **Once the strings have been numbered, textboxes that stay and strings keep their indices.** -/
theorem retains_after {s : Script} (hs : s.WellFormed) (hcompacted : s.strings.compacted = true)
    {edits : List ScriptEdit} (hspares : ∀ edit ∈ edits, edit.Spares) :
    Retains (s.track edits) s (s.after edits) := by
  induction edits generalizing s with
  | nil => exact .refl s
  | cons edit edits ih =>
    obtain ⟨hfirst, hspares⟩ := List.forall_mem_cons.mp hspares
    cases happly : edit.apply s with
    | error e =>
      rw [after_of_error happly]
      exact (ih hs hcompacted hspares).congr (track_of_error happly edits)
    | ok s' =>
      obtain ⟨t, ht, hretains⟩ := edit.retains_of_apply hs hfirst happly
      rw [compactStrings_of_compacted hcompacted] at ht
      cases ht
      have hs' := edit.wellFormed hs happly
      have hlater := ih hs' (hs'.numbered (ScriptEdit.modified happly)) hspares
      rw [after_of_ok happly]
      exact (hretains.trans hlater).congr (track_of_ok happly edits)

/-- **A textbox that stays goes on to show its text.** -/
theorem ShowsAt.after {s : Script} (hs : s.Built) {edits : List ScriptEdit}
    (hspares : ∀ edit ∈ edits, edit.Spares) {pos pos' index : Nat} {text : Bytes}
    (hshows : s.ShowsAt pos index text) (hpos : s.track edits pos = some pos') :
    ∃ new, (s.after edits).ShowsAt pos' new text := by
  induction edits generalizing s pos index with
  | nil =>
    rw [← Option.some.inj hpos]
    exact ⟨index, hshows⟩
  | cons edit edits ih =>
    obtain ⟨hfirst, hspares⟩ := List.forall_mem_cons.mp hspares
    cases happly : edit.apply s with
    | error e =>
      rw [track_of_error happly] at hpos
      rw [after_of_error happly]
      exact ih hs hspares hshows hpos
    | ok s' =>
      obtain ⟨t, ht, hretains⟩ := edit.retains_of_apply hs.wellFormed hfirst happly
      rw [track_of_ok happly] at hpos
      obtain ⟨middle, hmiddle, hpos⟩ := Option.bind_eq_some_iff.mp hpos
      obtain ⟨new, _, hnumbered⟩ := hshows.compactStrings hs ht
      rw [after_of_ok happly]
      exact ih (.edit hs edit happly) hspares (hretains.showsAt hnumbered hmiddle) hpos

/-- a string gets the next index, and all strings are counted from zero then -/
theorem addString_eq_ok {s s' : Script} {index : Nat} {text : Bytes} (hs : s.WellFormed)
    (h : s.addString text = .ok (index, s')) :
    index = s.strings.count ∧ s'.strings.indices = List.range s'.strings.count ∧
      s'.strings.texts = s.strings.texts ++ [text] := by
  have hs' := hs.addString h
  obtain ⟨t, r, ht, hchange, rfl⟩ := exists_of_editWith h
  obtain ⟨⟨i, strings⟩, hadd, hchange⟩ := bind_eq_ok.mp hchange
  cases hchange
  obtain ⟨_, rfl, rfl⟩ := StringTable.add_eq_ok hadd
  have htexts : t.strings.texts = s.strings.texts := by
    rw [(compactStrings_eq_ok ht).2.2.1, StringTable.texts_compact]
  have hdense : t.strings.isDense = true := by
    rw [(compactStrings_eq_ok ht).2.2.1]
    exact StringTable.isDense_compact hs.texts
  refine ⟨?_, StringTable.isDense_iff.mp (hs'.texts.dense (hs'.numbered rfl)), ?_⟩
  · rw [StringTable.nextIndex_of_isDense hdense, ← StringTable.length_texts, htexts,
      StringTable.length_texts]
  · rw [← htexts]
    show (t.strings.entries ++ _).map Prod.snd = _
    rw [List.map_append]
    rfl

/-- **What textboxes show behind a run of edits.**  A textbox of a script that has been loaded shows
the same text for as long as it stays.  Whenever an edit succeeds, the strings are numbered from
zero, and no later edit changes these indices, neither those of the strings nor those that textboxes
name.  A string that is added comes behind the others, and gets their number as its index. -/
theorem shows_after {image : Image} {offset : Nat} {s : Script} (h : load image offset = .ok s)
    {edits : List ScriptEdit} (hspares : ∀ edit ∈ edits, edit.Spares) :
    let t := s.after edits
    (∀ pos pos' index text, s.ShowsAt pos index text → s.track edits pos = some pos' →
      ∃ new, t.ShowsAt pos' new text) ∧
    (∀ edit t', ScriptEdit.apply t edit = .ok t' →
      t'.strings.indices = List.range t'.strings.count ∧
      ∀ later : List ScriptEdit, (∀ edit ∈ later, edit.Spares) →
        Retains (t'.track later) t' (t'.after later)) ∧
    ∀ text index t', t.addString text = .ok (index, t') → index = t.strings.count ∧
      t'.strings.indices = List.range t'.strings.count ∧
      t'.strings.texts = t.strings.texts ++ [text] := by
  intro t
  have hs : s.Built := .load h
  have ht : t.WellFormed := hs.wellFormed.after edits
  refine ⟨fun pos pos' index text hshows hpos => hshows.after hs hspares hpos,
    fun edit t' happly => ?_, fun text index t' hadd => addString_eq_ok ht hadd⟩
  have ht' := edit.wellFormed ht happly
  have hcompacted := ht'.numbered (ScriptEdit.modified happly)
  exact ⟨StringTable.isDense_iff.mp (ht'.texts.dense hcompacted),
    fun later hlater => retains_after ht' hcompacted hlater⟩

/-- the strings with the indices 1 and 2 are in use: code in front of the textboxes, an edit that
fails, and a copy of the object, which moves them all; then a string is added, and the copy goes -/
theorem shows_after_sparse :
    let layout : Layout := ⟨0x1000, 0, 0, 4, 1, 0, 2, 8, 1, []⟩
    let block : Bytes := [10, 0, 8, 1, 32, 0, 2, 0xD8, 0xB8, 80, 0, 0, 0x45, 21, 0, 0, 0xBB, 1,
      0xBB, 2, 0, 64]
    let data : Bytes := List.replicate 16 0 ++ block ++ List.replicate 44 0 ++
      [88, 0, 90, 0, 0, 0, 0x41, 0, 0x42, 0] ++ List.replicate 36 0
    let space : FreeMap := ⟨128, 0x1000, false, [], by decide, by decide, by decide, by decide⟩
    let image : Image := ⟨data, space, layout⟩
    let s : Script := ⟨List.replicate 16 32, [0xB8, 80, 0, 0, 0xBB, 1, 0xBB, 2, 0],
      ⟨[(1, [0x41]), (2, [0x42])], false, false, none⟩, false⟩
    let edits : List ScriptEdit :=
      [.code (.insert 36 [0]), .code (.delete 99 1), .appendCopyOf 0]
    let t : Script := s.after edits
    let code : Bytes := [0xB8, 80, 0, 0, 0, 0xBB, 0, 0xBB, 1, 0]
    let t' : Script := ⟨List.replicate 16 64 ++ List.replicate 16 74, code ++ code,
      ⟨[(0, [0x41]), (1, [0x42]), (2, [0x43])], true, true, none⟩, true⟩
    load image 16 = .ok s ∧ s.ShowsAt 38 2 [0x42] ∧ s.track edits 38 = some 71 ∧
      (∃ new, t.ShowsAt 71 new [0x42]) ∧ t.addString [0x43] = .ok (2, t') ∧
      t.strings.count = 2 ∧ t.strings.texts = [[0x41], [0x42]] ∧
      Retains (t'.track [.removeObject 1]) t' (t'.after [.removeObject 1]) ∧
      t'.track [.removeObject 1] 71 = some 39 := by
  intro layout block data space image s edits t code t'
  have hload : load image 16 = .ok s := toOption_eq_some.mp (by decide +kernel)
  have hshows : s.ShowsAt 38 2 [0x42] := ⟨⟨0xBB, [2]⟩, by decide +kernel, by decide +kernel, rfl⟩
  have hpos : s.track edits 38 = some 71 := by decide +kernel
  have hadd : t.addString [0x43] = .ok (2, t') := toOption_eq_some.mp (by decide +kernel)
  have happly : ScriptEdit.apply t (.addString [0x43]) = .ok t' := map_eq_ok.mpr ⟨_, hadd, rfl⟩
  have hspares : ∀ edit ∈ edits, edit.Spares := by decide
  obtain ⟨hstays, hnumbers, hadds⟩ := shows_after hload hspares
  obtain ⟨hcount, _, htexts⟩ := hadds _ _ _ hadd
  exact ⟨hload, hshows, hpos, hstays _ _ _ _ hshows hpos, hadd, hcount.symm,
    List.append_cancel_right htexts.symm, (hnumbers _ _ happly).2 _ (by decide), by decide +kernel⟩

end Script

end Cartridge
