import Cartridge.Proofs.Script.Carried
import Cartridge.Proofs.Script.Decoding

/-!
# Renumbered commands

The first edit of a script numbers its strings afresh, and gives each textbox the new index of its
string.  No command moves, and no other byte changes.

* `Script.renumbered_of_isDense`   without gaps between the indices nothing changes;
* `Script.jump?_renumbered`, `Script.getElem?_renumbered`   what stays of a single command;
* `Script.shownString?_renumbered`   what does not;
* `Script.allCommands_of_compactStrings`   **the commands of a script whose strings have been
                             numbered**, each renumbered where it is;
* `Script.commandsIn_of_compactStrings`, `Script.boundary_of_compactStrings`,
  `Script.byte?_of_compactStrings`   parts of it, and single bytes.
-/

namespace Cartridge

open Command

namespace Script

/-! ## one command -/

/-- without gaps between the indices there is nothing to renumber -/
theorem renumbered_of_isDense {strings : StringTable} {c : Command} (h : strings.isDense = true)
    (hwhole : c.IsWhole) : renumbered strings c = c := by
  by_cases hkind : c.kind = .textbox
  · have hfixed : c.IsFixed := ⟨by rw [hkind]; decide, by rw [hkind]; decide⟩
    obtain ⟨x, rest, hargs⟩ := List.exists_cons_of_ne_nil
      (Command.args_ne_nil hwhole hfixed (by rw [hkind]; decide))
    unfold renumbered shownString?
    rw [if_pos hkind, hargs]
    dsimp only [List.headD_cons, List.tail_cons]
    rw [StringTable.newIndex?_of_isDense h]
    by_cases hlt : x.toNat < strings.count
    · rw [if_pos hlt]
      dsimp only
      rw [UInt8.ofNat_toNat, ← hargs]
    · rw [if_neg hlt]
  · rw [renumbered_of_ne hkind]

theorem kind_renumbered (strings : StringTable) (c : Command) :
    (renumbered strings c).kind = c.kind :=
  kind_congr (opcode_renumbered strings c)

theorem isJump_renumbered (strings : StringTable) (c : Command) :
    (renumbered strings c).IsJump ↔ c.IsJump := by
  rw [IsJump, kind_renumbered, IsJump]

theorem jump?_renumbered (strings : StringTable) (c : Command) (pos : Nat) :
    (renumbered strings c).jump? pos = c.jump? pos := by
  by_cases hjump : c.IsJump
  · refine congrArg (jump? · pos) (renumbered_of_ne fun hkind => ?_)
    rw [IsJump, hkind] at hjump
    rcases hjump with hjump | hjump <;> cases hjump
  · rw [jump?_eq_none.mpr hjump, jump?_eq_none.mpr ((isJump_renumbered ..).not.mpr hjump)]

/-- a renumbered command moves as it does without its new index -/
theorem eq_renumbered_of_carried {strings : StringTable} {follow : Nat → Nat} {n : Nat}
    {a b : Nat × Command} (h : Carried (· + n) follow (a.1, renumbered strings a.2) b)
    (hfollow : ∀ base target, a.2.jump? a.1 = .ok (some (base, target)) →
      follow target = target + n) : b.2 = renumbered strings a.2 := by
  generalize hnew : renumbered strings a.2 = c at h
  refine h.eq_self rfl fun base target hends => hfollow base target ?_
  rw [← hends, ← hnew, jump?_renumbered]

/-- a textbox has its index behind its opcode, and nothing else changes -/
theorem getElem?_renumbered {strings : StringTable} {c : Command} {i : Nat} (hwhole : c.IsWhole)
    (hi : c.kind = .textbox → i ≠ 1) : (renumbered strings c).bytes[i]? = c.bytes[i]? := by
  by_cases hkind : c.kind = .textbox
  · have hfixed : c.IsFixed := ⟨by rw [hkind]; decide, by rw [hkind]; decide⟩
    obtain ⟨x, rest, hargs⟩ := List.exists_cons_of_ne_nil
      (Command.args_ne_nil hwhole hfixed (by rw [hkind]; decide))
    have hnot := hi hkind
    unfold renumbered shownString?
    rw [if_pos hkind]
    dsimp only
    cases strings.newIndex? (c.args.headD 0).toNat with
    | none => rfl
    | some new =>
      dsimp only
      rw [Command.bytes, Command.bytes, hargs]
      rcases i with _ | _ | i
      · rfl
      · exact absurd rfl hnot
      · rfl
  · rw [renumbered_of_ne hkind]

theorem kind_of_shownString? {c : Command} {index : Nat} (h : shownString? c = some index) :
    c.kind = .textbox := by
  by_contra hkind
  rw [shownString?, if_neg hkind] at h
  cases h

/-- a textbox shows the new index of its string -/
theorem shownString?_renumbered {strings : StringTable} {c : Command} {index new : Nat}
    (h : shownString? c = some index) (hnew : strings.newIndex? index = some new)
    (hlt : new < StringTable.limit) : shownString? (renumbered strings c) = some new := by
  have hargs : (renumbered strings c).args = UInt8.ofNat new :: c.args.tail := by
    unfold renumbered
    rw [h]
    dsimp only
    rw [hnew]
  rw [shownString?, kind_renumbered, if_pos (kind_of_shownString? h), hargs, List.headD_cons,
    UInt8.toNat_ofNat_of_lt' hlt]

/-! ## all commands -/

/-- the index that a textbox shows stands at the position -/
def IsIndex (s : Script) (pos : Nat) : Prop :=
  ∃ a ∈ s.allCommands.commands, a.2.kind = .textbox ∧ pos = a.1 + 1

section
variable {s t : Script} (hs : s.WellFormed) (h : s.compactStrings = .ok t)
include hs h

/-- **Renumbering changes each command where it is.** -/
theorem allCommands_of_compactStrings : t.allCommands =
    ⟨s.allCommands.commands.map fun a => (a.1, renumbered s.strings a.2), s.allCommands.fault⟩ := by
  rcases compactStrings_cases h with ⟨hstream, hsame⟩ | ⟨cs, hwhole, hstream, hstream'⟩
  · have hdense : s.strings.isDense = true := hsame.elim id hs.texts.dense
    obtain ⟨_, _, hall, _⟩ := congr_code (compactStrings_eq_ok h).1 hstream
    have hmap : s.allCommands.commands.map (fun a => (a.1, renumbered s.strings a.2)) =
        s.allCommands.commands := by
      refine (List.map_congr_left fun a ha => ?_).trans (List.map_id _)
      obtain ⟨_, _, _, hwhole, _⟩ := split_of_mem ha
      rw [renumbered_of_isDense hdense hwhole]
      rfl
    rw [hall, hmap]
  · obtain ⟨hfault, hall⟩ := commands_of_map hwhole
      (fun c hc => ⟨isWhole_renumbered _ (hwhole c hc), length_renumbered _ (hwhole c hc)⟩)
      (length_of_compactStrings h).1 hstream hstream'
    rw [hall, hfault]

theorem commandsIn_of_compactStrings (start stop : Nat) : t.commandsIn start stop =
    (s.commandsIn start stop).map fun a => (a.1, renumbered s.strings a.2) := by
  rw [commandsIn, allCommands_of_compactStrings hs h, List.filter_map]
  rfl

theorem boundary_of_compactStrings {q : Nat} (hq : s.BoundaryAt q) : t.BoundaryAt q := by
  rcases hq with rfl | hq
  · exact .inl (length_of_compactStrings h).2.symm
  · refine .inr ?_
    rw [allCommands_of_compactStrings hs h, List.map_map]
    exact hq

/-- renumbering leaves the distances of jumps where they are -/
theorem isDistance_of_compactStrings {x : Nat} (hx : t.IsDistance x) : s.IsDistance x := by
  obtain ⟨b, hb, hjump, hends⟩ := hx
  rw [allCommands_of_compactStrings hs h] at hb
  obtain ⟨a, ha, rfl⟩ := List.mem_map.mp hb
  obtain ⟨_, _, _, hwhole, _⟩ := split_of_mem ha
  have hlength := length_renumbered s.strings hwhole
  dsimp only at hjump hends
  rw [hlength] at hends
  exact ⟨a, ha, (isJump_renumbered s.strings a.2).mp hjump, hends⟩

/-- renumbering changes the indices of textboxes only -/
theorem byte?_of_compactStrings {x : Nat} (hfault : s.allCommands.fault = none)
    (hlow : s.headerLength ≤ x) (hhigh : x < s.length) (hindex : ¬ s.IsIndex x) :
    t.byte? x = s.byte? x := by
  obtain ⟨p, c, hmem, hp, hx⟩ := exists_entry hfault hlow hhigh
  obtain ⟨n, rfl⟩ := Nat.exists_eq_add_of_le hp
  have hn : n < c.length := Nat.lt_of_add_lt_add_left hx
  obtain ⟨_, _, _, hwhole, _⟩ := split_of_mem hmem
  have hmem' : (p, renumbered s.strings c) ∈ t.allCommands.commands := by
    rw [allCommands_of_compactStrings hs h]
    exact List.mem_map_of_mem hmem
  have hn' : n < (renumbered s.strings c).length := by rwa [length_renumbered _ hwhole]
  rw [byte?_of_mem hmem' hn', byte?_of_mem hmem hn]
  exact getElem?_renumbered hwhole fun hkind hone => hindex ⟨(p, c), hmem, hkind, by rw [hone]⟩

end

end Script

end Cartridge
