import Cartridge.Bytes

/-!
# The two layouts of a reference word

A compressed block spells a copy from earlier output as one 16-bit word: the distance back in the
low bits, the length less three in the bits above them.  A block uses one of two layouts
throughout, and its first control byte says which.

* `Window.reach`        how many distances the low bits can spell (a power of two);
* `Window.maxDistance`, `Window.maxLength`   the largest copy a word can spell;
* `Window.pack`, `Window.unpack`   the word of a copy and the copy of a word;
* `Window.ofControl`, `Window.mode`   the layout that a control byte selects, and its mode bits.
-/

namespace Cartridge.Block

inductive Window where
  | wide | narrow
  deriving DecidableEq, Repr

/-- the shortest copy that is written as a reference -/
def minMatch : Nat := 3

namespace Window

def reach : Window → Nat
  | wide => 4096
  | narrow => 2048

def maxDistance : Window → Nat
  | wide => 4095
  | narrow => 2047

def maxLength : Window → Nat
  | wide => 18
  | narrow => 34

/-- the bits that a control byte carries for the layout -/
def mode : Window → Nat
  | wide => 0
  | narrow => 64

/-- the narrow layout is in use when either of the two high bits of the control byte is set -/
def ofControl (control : UInt8) : Window :=
  if control.toNat / 64 = 0 then wide else narrow

def pack (w : Window) (distance length : Nat) : Nat :=
  distance % w.reach + w.reach * (length - minMatch)

/-- distance and length of a word -/
def unpack (w : Window) (word : Nat) : Nat × Nat :=
  (word % w.reach, word / w.reach + minMatch)

theorem maxDistance_lt_reach (w : Window) : w.maxDistance < w.reach := by cases w <;> decide

end Window

end Cartridge.Block
