import Cartridge.Script.Basic

/-!
# Splices

An edit replaces some bytes at a position by others.  What lies behind moves; pointers and jumps
have to follow.

* `Splice`            where, how many bytes go, how many come, and on which side of the new bytes a
                      reference to the place itself ends up;
* `Splice.shift`      where a byte that stays ends up;
* `Splice.carry`      where a reference ends up: one into the removed bytes goes to the place;
* `Splice.retarget`   a jump with the distance that reaches the same target as before;
* `Script.spliced`    the script with everything carried along, and the new code in place;
* `Script.replace`    an edit of the stream, at command boundaries and with whole commands;
* `Script.resize`     an edit of the pointer table: nothing in the stream moves against its
                      neighbours, and the caller adds or drops the pointers themselves.
-/

namespace Cartridge

/-- the side of new bytes on which a reference to their place ends up -/
inductive Anchor where
  | before | after
  deriving DecidableEq, Repr

structure Splice where
  place : Nat
  removed : Nat
  inserted : Nat
  anchor : Anchor
  deriving DecidableEq, Repr

namespace Splice

/-- behind the removed bytes; an exact sum, which words of 64 bits give below `2 ^ 64` only -/
def stop (e : Splice) : Nat := e.place + e.removed

def shift (e : Splice) (x : Nat) : Nat := if x < e.place then x else x - e.removed + e.inserted

def edge (e : Splice) : Nat :=
  match e.anchor with
  | .before => e.place
  | .after => e.place + e.inserted

def carry (e : Splice) (x : Nat) : Nat :=
  if x < e.place then x
  else if x < e.stop ∨ x = e.place then e.edge
  else x - e.removed + e.inserted

end Splice

/-! ## jumps -/

namespace Command

/-- the last argument -/
def distance (c : Command) : Nat := (c.args.getLastD 0).toNat

def withDistance (c : Command) (distance : Nat) : Command :=
  { c with args := c.args.dropLast ++ [UInt8.ofNat distance] }

/-- the position that a jump at `pos` counts from, its last byte, and the one it goes to -/
def jump? (c : Command) (pos : Nat) : Except FormatFault (Option (Nat × Nat)) :=
  let base := pos + c.length - 1
  match c.kind with
  | .jumpForward => .ok (some (base, base + c.distance))
  | .jumpBack =>
    if base < c.distance then .error (.jumpBeforeStart pos)
    else .ok (some (base, base - c.distance))
  | _ => .ok none

end Command

namespace Splice

/-- the distance of a jump at `pos` whose ends have moved -/
def newDistance (pos : Nat) (kind : ArgKind) (base target : Nat) : Except Error Nat :=
  let (low, high) := if kind = .jumpForward then (base, target) else (target, base)
  if high < low then .error (.format (.jumpPassesTarget pos))
  else if 0xFF < high - low then .error (.jumpOutOfRange pos (high - low))
  else .ok (high - low)

def retarget (e : Splice) (pos : Nat) (c : Command) : Except Error Command :=
  match c.jump? pos with
  | .error fault => .error (.format fault)
  | .ok none => .ok c
  | .ok (some (base, target)) =>
    (newDistance pos c.kind (e.shift base) (e.carry target)).map c.withDistance

/-- the bytes of commands, each retargeted -/
def retargetAll (e : Splice) (commands : List (Nat × Command)) : Except Error Bytes := do
  let moved ← commands.mapM fun (pos, c) => e.retarget pos c
  return moved.flatMap Command.bytes

end Splice

/-! ## edits -/

namespace Script

/-- a position at which a command begins, or the end -/
def checkBoundary (s : Script) (pos : Nat) : Except Error Unit :=
  if pos = s.length then .ok ()
  else
    let reading := s.allCommands
    match reading.commands.find? fun entry => pos ≤ entry.1 with
    | some (p, _) => if p = pos then .ok () else .error (.notOnBoundary pos)
    | none =>
      match reading.fault with
      | some fault => .error (.format fault)
      | none => .error (.notOnBoundary pos)

/-- carries pointers and jumps along; the commands in `[place, stop)` give way to `code` -/
def spliced (s : Script) (e : Splice) (code : Bytes) : Except Error Script := do
  let size := s.length - e.removed + e.inserted
  if maxLength < size then throw (.scriptTooLarge (size + 1))
  let reading := s.allCommands
  let before ← e.retargetAll (reading.commands.filter fun entry => entry.1 < e.place)
  let behind ← e.retargetAll (reading.commands.filter fun entry => e.stop ≤ entry.1)
  if let some fault := reading.fault then throw (.format fault)
  return { s with pointers := s.pointers.map e.carry, stream := before ++ code ++ behind }

def replace (s : Script) (place removed : Nat) (code : Bytes) (anchor : Anchor) :
    Except Error Script := do
  let e : Splice := ⟨place, removed, code.length, anchor⟩
  if place < s.headerLength ∨ s.length < e.stop then throw (.invalidRange place e.stop)
  s.checkBoundary place
  s.checkBoundary e.stop
  validate code
  s.spliced e code

def resize (s : Script) (place removed inserted : Nat) (anchor : Anchor) : Except Error Script := do
  let e : Splice := ⟨place, removed, inserted, anchor⟩
  if s.headerLength < e.stop then throw (.invalidRange place e.stop)
  s.spliced e []

end Script

end Cartridge
