import Cartridge.Proofs.Script.Shown
import Cartridge.Proofs.Script.Sides

/-!
# Deletions that are refused

A deletion brings the ends of jumps no further apart, so no jump comes out of reach by it.  What is
left to refuse it for are its own ends, a stream that cannot be read, and a jump that has no target
to begin with.

* `Script.Refuses.of_delete`, `Script.delete_eq_error`   why a deletion is refused;
* `Script.CanDelete`         what is asked of a script for a deletion;
* `Script.exists_delete_iff` **when a deletion succeeds**;
* `Script.refusal_of_edits`  **which edits are refused**.
-/

namespace Cartridge

open Command

namespace Script

/-! ## deletions -/

section
variable {s : Script} {err : Error} {start length : Nat}

theorem compactStrings_eq_error (h : s.compactStrings = .error err) : ∃ fault, err = .format fault := by
  unfold compactStrings at h
  by_cases hcompacted : s.strings.compacted = true
  · rw [if_pos hcompacted] at h
    cases h
  · rw [if_neg hcompacted] at h
    dsimp only at h
    by_cases hdense : s.strings.isDense = true
    · rw [if_pos hdense] at h
      cases h
    · rw [if_neg hdense] at h
      rcases bind_eq_error.mp h with h | ⟨_, _, h⟩
      · unfold Reading.toExcept at h
        split at h
        · cases h
          exact ⟨_, rfl⟩
        · cases h
      · cases h

/-- a deletion brings no jump out of reach -/
theorem Refuses.of_delete (h : s.Refuses ⟨start, length, 0, .before⟩ err) :
    (maxLength < s.length ∧ ∃ size, err = .scriptTooLarge size) ∨
      ∃ fault, err = .format fault ∧ (s.allCommands.fault = some fault ∨
        ∃ a ∈ s.allCommands.commands, (a.1 < start ∨ start + length ≤ a.1) ∧
          a.2.jump? a.1 = .error fault) := by
  cases h with
  | tooLong h => exact .inl ⟨Nat.lt_of_lt_of_le h (Nat.sub_le ..), _, rfl⟩
  | unreadable hfault => exact .inr ⟨_, rfl, .inl hfault⟩
  | beforeStart hmem hside hends => exact .inr ⟨_, rfl, .inr ⟨_, hmem, hside, hends⟩⟩
  | @outOfReach pos base target c hmem hside hends hfar =>
    have hside : base < start ∨ start + length ≤ base := hside
    have hspan : Splice.span ⟨start, length, 0, .before⟩ base target ≤
        (target - base) + (base - target) := Splice.span_delete hside
    have hbyte : c.distance < 256 := (c.args.getLastD 0).toNat_lt
    obtain ⟨_, hends⟩ := jump?_eq_some.mp hends
    omega

theorem validate_nil : validate [] = .ok () := @validate_flat [] nofun

/-- why a deletion is refused -/
theorem delete_eq_error (h : s.delete start length = .error err) :
    (∃ a b, err = .invalidRange a b) ∨ (∃ pos, err = .notOnBoundary pos) ∨
      (∃ fault, err = .format fault) ∨ maxLength < s.length ∧ ∃ size, err = .scriptTooLarge size := by
  have hboundary : ∀ (t : Script) pos, t.checkBoundary pos = .error err →
      (∃ pos, err = .notOnBoundary pos) ∨ ∃ fault, err = .format fault := fun t pos h =>
    (checkBoundary_eq_error h).imp (fun h => ⟨pos, h⟩) fun ⟨fault, _, h⟩ => ⟨fault, h⟩
  rcases bind_eq_error.mp h with h | ⟨t, ht, h⟩
  · exact .inr (.inr (.inl (compactStrings_eq_error h)))
  · rcases bind_eq_error.mp h with h | ⟨_, _, h⟩
    · rcases replace_eq_error h with ⟨_, h⟩ | h | h | h | h
      · exact .inl ⟨_, _, h⟩
      · exact .inr ((hboundary t _ h).imp_right .inl)
      · exact .inr ((hboundary t _ h).imp_right .inl)
      · rw [validate_nil] at h
        cases h
      · rcases h.of_delete with hlong | ⟨fault, h, _⟩
        · rw [(length_of_compactStrings ht).2] at hlong
          exact .inr (.inr (.inr hlong))
        · exact .inr (.inr (.inl ⟨fault, h⟩))
    · cases h

/-- what is asked of a script for a deletion -/
structure CanDelete (s : Script) (start length : Nat) : Prop where
  header_le : s.headerLength ≤ start
  le_length : start + length ≤ s.length
  fault : s.allCommands.fault = none
  boundary_start : s.BoundaryAt start
  boundary_stop : s.BoundaryAt (start + length)
  jumps : ∀ a ∈ s.allCommands.commands, a.1 < start ∨ start + length ≤ a.1 →
    a.2.kind = .jumpBack → a.2.distance ≤ a.1 + a.2.length - 1

theorem checkBoundary_of_boundary {pos : Nat} (hfault : s.allCommands.fault = none)
    (h : s.BoundaryAt pos) : s.checkBoundary pos = .ok () := by
  obtain ⟨cs, hwhole, hstream, _⟩ := flat_of_allCommands hfault
  obtain ⟨front, back, hcut⟩ := cutAt_of_boundary hwhole hstream h
  exact checkBoundary_of_cutAt hwhole hstream hcut

theorem CanDelete.of_replace {t : Script} (h : s.replace start length [] .before = .ok t) :
    s.CanDelete start length := by
  obtain ⟨hheader, hlength, hstart, hstop, _, hspliced⟩ := replace_eq_ok h
  obtain ⟨_, hfault, before, behind, hbefore, hbehind, _⟩ := spliced_eq_ok hspliced
  refine ⟨hheader, hlength, hfault, boundary_of_checkBoundary hstart,
    boundary_of_checkBoundary hstop, fun a ha hside hkind => ?_⟩
  have hretarget : ∃ c, Splice.retarget ⟨start, length, 0, .before⟩ a.1 a.2 = .ok c := by
    obtain ⟨_, hkept, _⟩ := Splice.retargetAll_eq_ok.mp hbefore
    obtain ⟨_, hmoved, _⟩ := Splice.retargetAll_eq_ok.mp hbehind
    rcases hside with hside | hside
    · obtain ⟨c, _, hc⟩ := exists_of_mem_left hkept
        (List.mem_filter.mpr ⟨ha, decide_eq_true hside⟩)
      exact ⟨c, hc⟩
    · obtain ⟨c, _, hc⟩ := exists_of_mem_left hmoved
        (List.mem_filter.mpr ⟨ha, decide_eq_true hside⟩)
      exact ⟨c, hc⟩
  by_contra hbefore
  obtain ⟨c, hc⟩ := hretarget
  unfold Splice.retarget at hc
  rw [jump?_eq_error.mpr ⟨⟨hkind, Nat.lt_of_not_le hbefore⟩, rfl⟩] at hc
  cases hc

theorem CanDelete.exists_replace (h : s.CanDelete start length) (hbound : s.length ≤ maxLength) :
    ∃ t, s.replace start length [] .before = .ok t := by
  cases hreplace : s.replace start length [] .before with
  | ok t => exact ⟨t, rfl⟩
  | error err =>
    exfalso
    rcases replace_eq_error hreplace with ⟨hrange, _⟩ | hstart | hstop | hcode | hrefuses
    · have := h.header_le
      have := h.le_length
      omega
    · rw [checkBoundary_of_boundary h.fault h.boundary_start] at hstart
      cases hstart
    · rw [checkBoundary_of_boundary h.fault h.boundary_stop] at hstop
      cases hstop
    · rw [validate_nil] at hcode
      cases hcode
    · rcases hrefuses.of_delete with ⟨hlong, _⟩ | ⟨fault, _, hfault | ⟨a, ha, hside, hends⟩⟩
      · exact absurd hlong (Nat.not_lt_of_le hbound)
      · rw [h.fault] at hfault
        cases hfault
      · obtain ⟨⟨hkind, hbefore⟩, _⟩ := jump?_eq_error.mp hends
        exact absurd hbefore (Nat.not_lt_of_le (h.jumps a ha hside hkind))

/-- renumbering changes nothing that is asked for -/
theorem canDelete_of_compactStrings {t : Script} (hs : s.WellFormed)
    (h : s.compactStrings = .ok t) : t.CanDelete start length ↔ s.CanDelete start length := by
  have hall := allCommands_of_compactStrings hs h
  obtain ⟨hheader, hlength⟩ := length_of_compactStrings h
  have hboundary : ∀ pos, t.BoundaryAt pos ↔ s.BoundaryAt pos := by
    intro pos
    rw [BoundaryAt, hall, hlength, List.map_map]
    rfl
  have hjumps : (∀ b ∈ t.allCommands.commands, b.1 < start ∨ start + length ≤ b.1 →
      b.2.kind = .jumpBack → b.2.distance ≤ b.1 + b.2.length - 1) ↔
      ∀ a ∈ s.allCommands.commands, a.1 < start ∨ start + length ≤ a.1 →
        a.2.kind = .jumpBack → a.2.distance ≤ a.1 + a.2.length - 1 := by
    rw [hall, List.forall_mem_map]
    refine forall₂_congr fun a _ => imp_congr_right fun _ => ?_
    rw [kind_renumbered]
    refine imp_congr_right fun hkind => ?_
    rw [renumbered_of_ne (by rw [hkind]; decide)]
  constructor
  · rintro ⟨h₁, h₂, h₃, h₄, h₅, h₆⟩
    exact ⟨hheader ▸ h₁, hlength ▸ h₂, by rwa [hall] at h₃, (hboundary _).mp h₄,
      (hboundary _).mp h₅, hjumps.mp h₆⟩
  · rintro ⟨h₁, h₂, h₃, h₄, h₅, h₆⟩
    exact ⟨hheader ▸ h₁, hlength ▸ h₂, by rwa [hall], (hboundary _).mpr h₄,
      (hboundary _).mpr h₅, hjumps.mpr h₆⟩

/-- **When a deletion succeeds.** -/
theorem exists_delete_iff (hs : s.Built) :
    (∃ s', s.delete start length = .ok s') ↔ s.CanDelete start length := by
  obtain ⟨t, ht⟩ := exists_compactStrings hs
  rw [← canDelete_of_compactStrings hs.wellFormed ht]
  constructor
  · rintro ⟨s', h⟩
    obtain ⟨u, r, hu, hreplace, _⟩ := exists_of_edit h
    rw [ht] at hu
    cases hu
    exact .of_replace hreplace
  · intro h
    obtain ⟨r, hr⟩ := h.exists_replace (hs.wellFormed.compactStrings ht).1.length
    exact ⟨_, bind_eq_ok.mpr ⟨t, ht, bind_eq_ok.mpr ⟨r, hr, rfl⟩⟩⟩

end

/-- **Which edits are refused.**  No splice of the stream or of the pointer table, and so no edit,
finds a jump that would pass its target.  A deletion is not refused for a jump that would have to
reach too far, nor for the length of the script: it succeeds just when the script can be read,
commands begin at both ends of what is deleted, or the script ends there, and no jump outside leads
to a place in front of the script.  This is for deletions whose end has 64 bits. -/
theorem refusal_of_edits (s : Script) :
    (∀ place removed code anchor, KeepsSides (s.replace place removed code anchor)) ∧
    (∀ place removed inserted anchor, KeepsSides (s.resize place removed inserted anchor)) ∧
    (∀ edit : ScriptEdit, KeepsSides (edit.apply s)) ∧
    (s.Built → ∀ start length, start + length < 2 ^ 64 →
      (∀ pos distance, s.delete start length ≠ .error (.jumpOutOfRange pos distance)) ∧
      (∀ size, s.delete start length ≠ .error (.scriptTooLarge size)) ∧
      ((∃ s', s.delete start length = .ok s') ↔ s.CanDelete start length)) := by
  refine ⟨s.keepsSides_replace, s.keepsSides_resize, ScriptEdit.keepsSides s,
    fun hs start length _ => ⟨fun pos distance h => ?_, fun size h => ?_, exists_delete_iff hs⟩⟩
  · rcases delete_eq_error h with ⟨_, _, h⟩ | ⟨_, h⟩ | ⟨_, h⟩ | ⟨_, _, h⟩
    all_goals cases h
  · rcases delete_eq_error h with ⟨_, _, h⟩ | ⟨_, h⟩ | ⟨_, h⟩ | ⟨hlong, _⟩
    · cases h
    · cases h
    · cases h
    · exact absurd hlong (Nat.not_lt_of_le hs.wellFormed.length)

/-- a jump to a place in front of the script can be deleted; behind it, nothing can -/
theorem refusal_of_edits_before_start :
    let s : Script := ⟨List.replicate 16 32, [0x11, 200, 0, 0], .empty, false⟩
    s.Built ∧ 32 + 2 < 2 ^ 64 ∧ (∃ s', s.delete 32 2 = .ok s') ∧
      34 + 1 < 2 ^ 64 ∧ ¬ ∃ s', s.delete 34 1 = .ok s' := by
  intro s
  have hparse : parse s.toBytes = .ok s := toOption_eq_some.mp (by decide +kernel)
  have hs : s.Built := .parse hparse
  have hdeletes := (refusal_of_edits s).2.2.2 hs
  have hstop : 32 + 2 < 2 ^ 64 := by decide
  have hstop' : 34 + 1 < 2 ^ 64 := by decide
  refine ⟨hs, hstop, (hdeletes 32 2 hstop).2.2.mpr ?_, hstop',
    (hdeletes 34 1 hstop').2.2.not.mpr fun h => ?_⟩
  · exact ⟨by decide, by decide, by decide +kernel, by decide +kernel, by decide +kernel,
      by decide +kernel⟩
  · exact absurd (h.jumps (32, jumpBack 200) (by decide +kernel) (.inl (by decide))
      (by decide +kernel)) (by decide +kernel)

end Script

end Cartridge
