import Cartridge.Proofs.Command.Framing
import Cartridge.Proofs.Except

/-!
# Commands that are built

* `Command.make_eq_ok`       `Command.make` accepts whole commands, and no others;
* `Command.HasSize`          an opcode whose commands all have one size;
* `Command.Constructed`      what the constructors give;
* `Command.Constructed.isWhole`   they give whole commands.
-/

namespace Cartridge

namespace Command

theorem make_eq_ok {opcode : UInt8} {args : Bytes} {c : Command} :
    make opcode args = .ok c ↔ c = ⟨opcode, args⟩ ∧ c.IsWhole := by
  unfold make
  constructor
  · intro h
    cases hsize : sizeAt 0 (opcode :: args) with
    | error fault =>
      rw [hsize] at h
      cases h
    | ok size =>
      rw [hsize] at h
      by_cases hcount : size = args.length + 1
      · simp only [hcount, if_true, Except.ok.injEq] at h
        subst h
        exact ⟨rfl, hsize.trans (congrArg Except.ok hcount)⟩
      · simp only [hcount, if_false] at h
        cases h
  · rintro ⟨rfl, hwhole⟩
    have hsize : sizeAt 0 (opcode :: args) = .ok (args.length + 1) := hwhole
    simp only [hsize, if_true]

/-- the commands that `Command.make` accepts are the whole ones -/
theorem make_self_iff {c : Command} : make c.opcode c.args = .ok c ↔ c.IsWhole :=
  make_eq_ok.trans (and_iff_right rfl)

/-! ## sizes -/

/-- the commands of the opcode have this size, whatever their arguments are -/
def HasSize (opcode : UInt8) (size : Nat) : Prop :=
  (Opcode.info opcode).kind ≠ .memCopy ∧ (Opcode.info opcode).kind ≠ .displayEffect ∧
    (Opcode.info opcode).size = size

instance (opcode : UInt8) (size : Nat) : Decidable (HasSize opcode size) :=
  inferInstanceAs (Decidable (_ ∧ _ ∧ _))

theorem HasSize.isWhole {opcode : UInt8} {args : Bytes} (h : HasSize opcode (args.length + 1)) :
    (⟨opcode, args⟩ : Command).IsWhole := by
  obtain ⟨hcopy, heffect, hsize⟩ := h
  have hfixed : (⟨opcode, args⟩ : Command).IsFixed := by
    unfold IsFixed kind info
    exact ⟨hcopy, heffect⟩
  exact (isWhole_iff_of_isFixed hfixed).mpr hsize

/-- the length field of a copy counts itself and the data -/
theorem isWhole_memCopy {a b c lo hi : UInt8} {data : Bytes}
    (h : Bytes.value [lo, hi] = data.length + 2) :
    (⟨Opcode.memCopy, a :: b :: c :: lo :: hi :: data⟩ : Command).IsWhole := by
  have hkind : (Opcode.info Opcode.memCopy).kind = .memCopy := by decide +kernel
  have hlong : ¬ data.length + 2 < 2 := by omega
  rw [isWhole_iff]
  show announcedSize 0 Opcode.memCopy (a :: b :: c :: lo :: hi :: data) =
    .ok (data.length + 5 + 1)
  unfold announcedSize
  simp only [hkind, h, hlong, if_false, Except.ok.injEq]
  omega

/-! ## constructors -/

/-- a command that one of the constructors gives -/
inductive Constructed : Command → Prop
  | ret : Constructed ret
  | finish : Constructed finish
  | pause : Constructed pause
  | jumpForward (distance : UInt8) : Constructed (jumpForward distance)
  | jumpBack (distance : UInt8) : Constructed (jumpBack distance)
  | textbox (index : UInt8) : Constructed (textbox index)
  | call {object function priority : Nat} {mode : CallMode} {c : Command}
    (h : call object function priority mode = .ok c) : Constructed c
  | setVisible {object : Nat} {visible : Bool} {c : Command}
    (h : setVisible object visible = .ok c) : Constructed c
  | removeObject {object : Nat} {c : Command} (h : removeObject object = .ok c) : Constructed c
  | stringIndex {addr : Nat} {c : Command} (h : stringIndex addr = .ok c) : Constructed c
  | copy {dest : Nat} {data : Bytes} {c : Command} (h : copy dest data = .ok c) : Constructed c

theorem isWhole_of_call {object function priority : Nat} {mode : CallMode} {c : Command}
    (h : call object function priority mode = .ok c) : c.IsWhole := by
  obtain ⟨handle, _, h⟩ := bind_eq_ok.mp h
  obtain ⟨_, h⟩ := unless_throw_eq_ok.mp h
  obtain ⟨_, h⟩ := unless_throw_eq_ok.mp h
  cases h
  have hsize : HasSize mode.opcode 3 := by cases mode <;> decide +kernel
  exact hsize.isWhole

theorem isWhole_of_setVisible {object : Nat} {visible : Bool} {c : Command}
    (h : setVisible object visible = .ok c) : c.IsWhole := by
  obtain ⟨handle, _, h⟩ := bind_eq_ok.mp h
  cases h
  have hsize : HasSize (if visible then Opcode.showObject else Opcode.hideObject) 2 := by
    cases visible <;> decide +kernel
  exact hsize.isWhole

theorem isWhole_of_removeObject {object : Nat} {c : Command} (h : removeObject object = .ok c) :
    c.IsWhole := by
  obtain ⟨handle, _, h⟩ := bind_eq_ok.mp h
  cases h
  have hsize : HasSize Opcode.removeObject 2 := by decide +kernel
  exact hsize.isWhole

theorem isWhole_of_stringIndex {addr : Nat} {c : Command} (h : stringIndex addr = .ok c) :
    c.IsWhole := by
  obtain ⟨_, h⟩ := unless_eq_ok.mp h
  cases h
  have hsize : HasSize Opcode.stringIndex 4 := by decide +kernel
  exact hsize.isWhole

theorem isWhole_of_copy {dest : Nat} {data : Bytes} {c : Command} (h : copy dest data = .ok c) :
    c.IsWhole := by
  obtain ⟨hfits, h⟩ := unless_eq_ok.mp h
  cases h
  have hfield : Bytes.value (Bytes.field 2 (data.length + 2)) = data.length + 2 := by
    rw [Bytes.value_field]
    exact Nat.mod_eq_of_lt (Nat.lt_succ_of_le (Nat.le_of_not_lt (not_or.mp hfits).2))
  exact isWhole_memCopy hfield

/-- **The constructors give whole commands.** -/
theorem Constructed.isWhole {c : Command} (h : Constructed c) : c.IsWhole := by
  cases h with
  | ret => exact HasSize.isWhole (by decide +kernel)
  | finish => exact HasSize.isWhole (by decide +kernel)
  | pause => exact HasSize.isWhole (by decide +kernel)
  | jumpForward distance =>
    have hsize : HasSize Opcode.jumpForward 2 := by decide +kernel
    exact hsize.isWhole
  | jumpBack distance =>
    have hsize : HasSize Opcode.jumpBack 2 := by decide +kernel
    exact hsize.isWhole
  | textbox index =>
    have hsize : HasSize Opcode.textbox 2 := by decide +kernel
    exact hsize.isWhole
  | call h => exact isWhole_of_call h
  | setVisible h => exact isWhole_of_setVisible h
  | removeObject h => exact isWhole_of_removeObject h
  | stringIndex h => exact isWhole_of_stringIndex h
  | copy h => exact isWhole_of_copy h

end Command

end Cartridge
