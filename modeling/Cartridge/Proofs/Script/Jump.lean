import Cartridge.Proofs.Command.Framing
import Cartridge.Proofs.Except
import Cartridge.Script.Splice

/-!
# Jumps

A jump names its target by the distance from its last byte, and the distance is its last argument.

* `Command.IsJump`           a jump forward or back;
* `Command.jump?_eq_some`, `Command.jump?_eq_none`   when a command has a target, and which;
* `Command.withDistance_*`   a jump with another distance: as long and as whole as before;
* `Splice.newDistance_eq_ok`, `Splice.newDistance_of_ends`   the distance that is found is the one
                             between the two ends;
* `Command.Carried`          an old command and what has become of it: it has moved, a jump with its
                             target, and nothing but the distance of a jump has changed;
* `Splice.isWhole_retarget`, `Splice.carried_retarget`   retargeting keeps a command whole, and
                             carries it along.
-/

namespace Cartridge

namespace Command

def IsJump (c : Command) : Prop := c.kind = .jumpForward ∨ c.kind = .jumpBack

instance (c : Command) : Decidable c.IsJump :=
  inferInstanceAs (Decidable (c.kind = .jumpForward ∨ c.kind = .jumpBack))

theorem IsJump.isFixed {c : Command} (h : c.IsJump) : c.IsFixed := by
  rcases h with h | h
  · exact ⟨by rw [h]; decide, by rw [h]; decide⟩
  · exact ⟨by rw [h]; decide, by rw [h]; decide⟩

theorem IsJump.args_ne_nil {c : Command} (h : c.IsJump) (hwhole : c.IsWhole) : c.args ≠ [] := by
  refine Command.args_ne_nil hwhole h.isFixed ?_
  rcases h with h | h
  · rw [h]
    decide
  · rw [h]
    decide

/-! ## targets -/

theorem jump?_eq_none {c : Command} {pos : Nat} : c.jump? pos = .ok none ↔ ¬ c.IsJump := by
  unfold jump? IsJump
  cases c.kind with
  | jumpBack =>
    simp only
    split <;> simp
  | _ => simp

/-- the distance leads from the last byte of the jump to its target -/
theorem jump?_eq_some {c : Command} {pos base target : Nat} :
    c.jump? pos = .ok (some (base, target)) ↔ base = pos + c.length - 1 ∧
      ((c.kind = .jumpForward ∧ target = base + c.distance) ∨
        (c.kind = .jumpBack ∧ target + c.distance = base)) := by
  unfold jump?
  cases c.kind with
  | jumpForward =>
    simp only [Except.ok.injEq, Option.some.injEq, Prod.mk.injEq]
    constructor
    · rintro ⟨rfl, rfl⟩
      exact ⟨rfl, .inl ⟨trivial, rfl⟩⟩
    · rintro ⟨rfl, h | h⟩
      · exact ⟨rfl, h.2.symm⟩
      · cases h.1
  | jumpBack =>
    simp only
    split
    · constructor
      · intro h
        cases h
      · rintro ⟨rfl, h | h⟩
        · cases h.1
        · omega
    · simp only [Except.ok.injEq, Option.some.injEq, Prod.mk.injEq]
      constructor
      · rintro ⟨rfl, rfl⟩
        refine ⟨rfl, .inr ⟨trivial, ?_⟩⟩
        omega
      · rintro ⟨rfl, h | h⟩
        · cases h.1
        · refine ⟨rfl, ?_⟩
          omega
  | _ => simp

theorem isJump_of_ends {c : Command} {pos base target : Nat}
    (h : c.jump? pos = .ok (some (base, target))) : c.IsJump :=
  (jump?_eq_some.mp h).2.imp And.left And.left

/-! ## other distances -/

theorem withDistance_opcode (c : Command) (d : Nat) : (c.withDistance d).opcode = c.opcode := rfl

theorem length_withDistance {c : Command} (h : c.args ≠ []) (d : Nat) :
    (c.withDistance d).length = c.length := by
  have hpos := List.length_pos_of_ne_nil h
  simp only [length, withDistance, List.length_append, List.length_dropLast, List.length_singleton]
  omega

theorem distance_withDistance (c : Command) {d : Nat} (h : d ≤ 0xFF) :
    (c.withDistance d).distance = d := by
  rw [distance, withDistance, List.getLastD_concat, UInt8.toNat_ofNat']
  exact Nat.mod_eq_of_lt (Nat.lt_succ_of_le h)

theorem isWhole_withDistance {c : Command} (hwhole : c.IsWhole) (h : c.IsJump) (d : Nat) :
    (c.withDistance d).IsWhole := by
  have hlength := length_withDistance (h.args_ne_nil hwhole) d
  exact h.isFixed.isWhole_of_length (withDistance_opcode c d) hlength hwhole

/-! ## carried commands -/

/-- an old command with its position, and what has become of it: the command stands where `move`
takes the old position, and a jump leads to where `follow` takes the old target -/
structure Carried (move follow : Nat → Nat) (old new : Nat × Command) : Prop where
  position : new.1 = move old.1
  opcode : new.2.opcode = old.2.opcode
  args : ¬ old.2.IsJump → new.2.args = old.2.args
  jumpArgs : old.2.IsJump → ∃ others a b, old.2.args = others ++ [a] ∧ new.2.args = others ++ [b]
  target : old.2.IsJump → ∃ base base' target, old.2.jump? old.1 = .ok (some (base, target)) ∧
    new.2.jump? new.1 = .ok (some (base', follow target))

theorem Carried.mono {move move' follow follow' : Nat → Nat} {old new : Nat × Command}
    (h : Carried move follow old new) (hmove : move old.1 = move' old.1)
    (hfollow : ∀ x, follow x = follow' x) : Carried move' follow' old new where
  position := h.position.trans hmove
  opcode := h.opcode
  args := h.args
  jumpArgs := h.jumpArgs
  target := by
    intro hjump
    obtain ⟨base, base', target, hold, hnew⟩ := h.target hjump
    exact ⟨base, base', target, hold, hfollow target ▸ hnew⟩

end Command

/-! ## retargeting -/

namespace Splice

open Command

theorem newDistance_eq_ok {pos base target d : Nat} {kind : ArgKind}
    (h : newDistance pos kind base target = .ok d) :
    d ≤ 0xFF ∧ (kind = .jumpForward → target = base + d) ∧
      (kind ≠ .jumpForward → target + d = base) := by
  unfold newDistance at h
  by_cases hkind : kind = .jumpForward
  · rw [if_pos hkind] at h
    obtain ⟨hlow, h⟩ := unless_eq_ok.mp h
    obtain ⟨hnear, h⟩ := unless_eq_ok.mp h
    cases h
    refine ⟨by omega, fun _ => by omega, fun hback => absurd hkind hback⟩
  · rw [if_neg hkind] at h
    obtain ⟨hlow, h⟩ := unless_eq_ok.mp h
    obtain ⟨hnear, h⟩ := unless_eq_ok.mp h
    cases h
    refine ⟨by omega, fun hforward => absurd hforward hkind, fun _ => by omega⟩

/-- ends that are a byte apart, on the right sides of each other, have a distance -/
theorem newDistance_of_ends (pos : Nat) {base target d : Nat} {kind : ArgKind} (hbyte : d ≤ 0xFF)
    (hforward : kind = .jumpForward → target = base + d)
    (hback : kind ≠ .jumpForward → target + d = base) :
    newDistance pos kind base target = .ok d := by
  unfold newDistance
  by_cases hkind : kind = .jumpForward
  · have hends := hforward hkind
    rw [if_pos hkind]
    refine unless_eq_ok.mpr ⟨by omega, unless_eq_ok.mpr ⟨by omega, ?_⟩⟩
    rw [hends, Nat.add_sub_cancel_left]
  · have hends := hback hkind
    rw [if_neg hkind]
    refine unless_eq_ok.mpr ⟨by omega, unless_eq_ok.mpr ⟨by omega, ?_⟩⟩
    rw [← hends, Nat.add_sub_cancel_left]

/-- retargeting changes the distance of a jump, and no other command -/
theorem retarget_cases {e : Splice} {pos : Nat} {c c' : Command} (h : e.retarget pos c = .ok c') :
    (¬ c.IsJump ∧ c' = c) ∨ ∃ base target d, c.IsJump ∧ c.jump? pos = .ok (some (base, target)) ∧
      newDistance pos c.kind (e.shift base) (e.carry target) = .ok d ∧ c' = c.withDistance d := by
  unfold retarget at h
  by_cases hjump : c.IsJump
  · refine .inr ?_
    cases hold : c.jump? pos with
    | error fault =>
      rw [hold] at h
      cases h
    | ok ends =>
      rw [hold] at h
      cases ends with
      | none => exact absurd hjump (jump?_eq_none.mp hold)
      | some ends =>
        obtain ⟨base, target⟩ := ends
        obtain ⟨d, hd, rfl⟩ := map_eq_ok.mp h
        exact ⟨base, target, d, hjump, rfl, hd, rfl⟩
  · rw [jump?_eq_none.mpr hjump] at h
    cases h
    exact .inl ⟨hjump, rfl⟩

theorem isWhole_retarget {e : Splice} {pos : Nat} {c c' : Command} (hwhole : c.IsWhole)
    (h : e.retarget pos c = .ok c') : c'.IsWhole ∧ c'.length = c.length := by
  rcases retarget_cases h with ⟨_, rfl⟩ | ⟨_, _, d, hjump, _, _, rfl⟩
  · exact ⟨hwhole, rfl⟩
  · exact ⟨isWhole_withDistance hwhole hjump d,
      length_withDistance (hjump.args_ne_nil hwhole) d⟩

/-- **Retargeting carries a command along.**  `pos'` is where the command stands afterwards. -/
theorem carried_retarget {e : Splice} {pos pos' : Nat} {c c' : Command} (hwhole : c.IsWhole)
    (hpos : pos' = e.shift pos) (hbase : pos' + c.length - 1 = e.shift (pos + c.length - 1))
    (h : e.retarget pos c = .ok c') : Carried e.shift e.carry (pos, c) (pos', c') := by
  rcases retarget_cases h with ⟨hjump, rfl⟩ | ⟨base, target, d, hjump, hold, hd, rfl⟩
  · refine ⟨hpos, rfl, fun _ => rfl, ?_, ?_⟩
    · exact fun hyes => absurd hyes hjump
    · exact fun hyes => absurd hyes hjump
  · obtain ⟨hbyte, hforward, hback⟩ := newDistance_eq_ok hd
    have hargs := hjump.args_ne_nil hwhole
    obtain ⟨rfl, hends⟩ := jump?_eq_some.mp hold
    have hnew : (c.withDistance d).jump? pos' =
        .ok (some (e.shift (pos + c.length - 1), e.carry target)) := by
      rw [jump?_eq_some, length_withDistance hargs, distance_withDistance c hbyte]
      refine ⟨hbase.symm, ?_⟩
      rcases hends with hends | hends
      · exact .inl ⟨hends.1, hforward hends.1⟩
      · refine .inr ⟨hends.1, hback ?_⟩
        rw [hends.1]
        decide
    refine ⟨hpos, rfl, ?_, ?_, ?_⟩
    · exact fun hno => absurd hjump hno
    · intro _
      exact ⟨c.args.dropLast, c.args.getLast hargs, UInt8.ofNat d,
        (List.dropLast_append_getLast hargs).symm, rfl⟩
    · intro _
      exact ⟨_, _, target, hold, hnew⟩

end Splice

end Cartridge
