/-!
# Byte strings and little-endian fields

Everything stored in an image is a byte string, here a list of bytes.

* `Bytes.value`     the number that a byte string spells, lowest byte first;
* `Bytes.field`     the bytes of a number in a field of a given width, high digits dropped;
* `Bytes.slice?`    the bytes at a position, if they are all there;
* `Bytes.read?`     the number in a field at a position, if the field is all there.
-/

namespace Cartridge

abbrev Bytes := List UInt8

namespace Bytes

/-! ## numbers -/

def value : Bytes → Nat
  | [] => 0
  | b :: bs => b.toNat + 256 * value bs

def field : Nat → Nat → Bytes
  | 0, _ => []
  | width + 1, n => UInt8.ofNat n :: field width (n / 256)

theorem value_nil : value [] = 0 := rfl
theorem value_cons (b : UInt8) (bs : Bytes) : value (b :: bs) = b.toNat + 256 * value bs := rfl
theorem field_zero (n : Nat) : field 0 n = [] := rfl
theorem field_succ (width n : Nat) :
    field (width + 1) n = UInt8.ofNat n :: field width (n / 256) := rfl

theorem length_field (width n : Nat) : (field width n).length = width := by
  induction width generalizing n with
  | zero => rfl
  | succ w ih => rw [field_succ, List.length_cons, ih]

/-- a field reads back as the number, up to what does not fit -/
theorem value_field (width n : Nat) : value (field width n) = n % Nat.pow 256 width := by
  induction width generalizing n with
  | zero => exact (Nat.mod_one n).symm
  | succ w ih =>
    show value (field (w + 1) n) = n % (Nat.pow 256 w * 256)
    rw [field_succ, value_cons, ih, Nat.mul_comm (Nat.pow 256 w), Nat.mod_mul]
    rfl

/-! ## positions -/

/-- the `width` bytes at `pos`; nothing when they run past the end -/
def slice? (bytes : Bytes) (pos width : Nat) : Option Bytes :=
  if pos + width ≤ bytes.length then some ((bytes.drop pos).take width) else none

/-- the number in the `width` bytes at `pos` -/
def read? (bytes : Bytes) (pos width : Nat) : Option Nat :=
  (bytes.slice? pos width).map value

/-- the bytes with `patch` written over them at `pos`; for a patch that lies inside -/
def overwrite (bytes : Bytes) (pos : Nat) (patch : Bytes) : Bytes :=
  bytes.take pos ++ patch ++ bytes.drop (pos + patch.length)

end Bytes

end Cartridge
