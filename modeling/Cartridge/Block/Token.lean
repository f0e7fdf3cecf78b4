import Cartridge.Error
import Cartridge.Block.Window

/-!
# Tokens: what a block says before it is laid out

A block is a run of commands, each a literal byte or a copy from earlier output.

* `Token.bytes`    how a command is spelled inside a packet;
* `copyBack`       a copy, made byte by byte, so that it may overlap what it produces;
* `expand`         the output of a run of commands, given the output so far.
-/

namespace Cartridge.Block

inductive Token where
  | literal (byte : UInt8)
  | copy (distance length : Nat)
  deriving DecidableEq, Repr

namespace Token

def isCopy : Token → Bool
  | literal _ => false
  | copy _ _ => true

def bytes (w : Window) : Token → Bytes
  | literal b => [b]
  | copy distance length => Bytes.field 2 (w.pack distance length)

end Token

/-! ## expansion -/

def copyBack (out : Array UInt8) (distance : Nat) : Nat → Array UInt8
  | 0 => out
  | n + 1 => copyBack (out.push (out.getD (out.size - distance) 0)) distance n

theorem copyBack_zero (out : Array UInt8) (distance : Nat) : copyBack out distance 0 = out := rfl
theorem copyBack_succ (out : Array UInt8) (distance n : Nat) :
    copyBack out distance (n + 1) =
      copyBack (out.push (out.getD (out.size - distance) 0)) distance n := rfl

/-- a copy must begin inside the output so far -/
def expand (out : Array UInt8) : List Token → Except BlockFault (Array UInt8)
  | [] => .ok out
  | .literal b :: ts => expand (out.push b) ts
  | .copy distance length :: ts =>
    if distance = 0 ∨ out.size < distance then .error (.distanceOutside distance out.size)
    else expand (copyBack out distance length) ts

theorem expand_nil (out : Array UInt8) : expand out [] = .ok out := rfl
theorem expand_literal (out : Array UInt8) (b : UInt8) (ts : List Token) :
    expand out (.literal b :: ts) = expand (out.push b) ts := rfl

end Cartridge.Block
