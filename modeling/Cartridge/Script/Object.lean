import Cartridge.Script.Edit

/-!
# Objects of a script

* `Script.pushObject`     an object behind the others: its pointers grow the table, its code goes to
                          the end of the stream;
* `Script.appendObject`   an object whose functions return at once;
* `Script.appendCopyOf`   an object like another one;
* `Script.removeObject`   drops an object, its code, and every command that names it, and renumbers
                          the objects behind it wherever they are named.
-/

namespace Cartridge

namespace Script

/-! ## more objects -/

/-- room for the pointers of one more object, all of them at the end of the stream -/
def growTable (s : Script) : Except Error Script := do
  let s ← s.resize s.headerLength 0 objectHeader .after
  return { s with pointers :=
    s.pointers ++ List.replicate functionsPerObject (s.length + objectHeader) }

/-- `offsets` says where in the code the functions begin; the answer is the number of the object -/
def pushObject (s : Script) (code : Bytes) (offsets : List Nat) : Except Error (Nat × Script) := do
  let object := s.objectCount
  if maxObjects ≤ object then throw (.argument (.objectLimit maxObjects))
  let s ← s.growTable
  let place := s.length
  let s ← s.replace place 0 code .before
  let old := s.pointers.take (object * functionsPerObject)
  return (object, { s with pointers := old ++ offsets.map (place + ·) })

/-- the first two functions return at once, the others share the second one -/
def appendObject (s : Script) : Except Error (Nat × Script) :=
  s.editWith fun s => s.pushObject (Command.ret.bytes ++ Command.ret.bytes)
    (0 :: List.replicate (functionsPerObject - 1) 1)

/-- where the functions of an object that spans `[start, stop)` begin in it -/
def offsetsIn (s : Script) (object start stop : Nat) : Except Error (List Nat) :=
  (List.range functionsPerObject).mapM fun function => do
    let p ← s.functionStart object function
    if p < start ∨ stop < p then throw (.format (.functionOutside object function))
    return p - start

/-- jumps must stay in `[start, stop]` -/
def checkJumpsStay (object start stop : Nat) : List (Nat × Command) → Except Error Unit
  | [] => .ok ()
  | (pos, c) :: rest =>
    match c.jump? pos with
    | .error fault => .error (.format fault)
    | .ok (some (_, target)) =>
      if target < start ∨ stop < target then .error (.format (.jumpLeavesObject pos object))
      else checkJumpsStay object start stop rest
    | .ok none => checkJumpsStay object start stop rest

def appendCopyOf (s : Script) (object : Nat) : Except Error (Nat × Script) := do
  let start ← s.objectStart object
  let stop ← s.objectEnd object
  let offsets ← s.offsetsIn object start stop
  let reading := s.commands start stop
  checkJumpsStay object start stop reading.commands
  if let some fault := reading.fault then throw (.format fault)
  let code ← s.bytes start stop
  s.editWith fun s => s.pushObject code offsets

/-! ## fewer objects -/

/-- drops the pointers of an object without code -/
def shrinkTable (s : Script) (object : Nat) : Except Error Script := do
  let s ← s.resize (object * objectHeader) objectHeader 0 .before
  return { s with pointers :=
    s.pointers.take (object * functionsPerObject) ++
      s.pointers.drop ((object + 1) * functionsPerObject) }

/-- the handle that a command names an object by, if it names one -/
def namedHandle? (c : Command) : Option Nat :=
  if c.kind = .objectRef then some (c.args.headD 0).toNat else none

/-- handles must be even -/
def checkHandles : List (Nat × Command) → Except Error Unit
  | [] => .ok ()
  | (pos, c) :: rest =>
    match namedHandle? c with
    | some h =>
      if h % 2 ≠ 0 then .error (.format (.oddHandle c.info.name pos h)) else checkHandles rest
    | none => checkHandles rest

/-- handles above that of the dropped object become those of the objects one lower -/
def lowered (handle : Nat) (c : Command) : Command :=
  match namedHandle? c with
  | some h => if handle < h then { c with args := UInt8.ofNat (h - 2) :: c.args.tail } else c
  | none => c

/-- deletes commands, given from the last to the first -/
def deleteAll (s : Script) : List (Nat × Command) → Except Error Script
  | [] => .ok s
  | (pos, c) :: rest => do deleteAll (← s.replace pos c.length [] .before) rest

/-- drops the commands that name an object, and renumbers the objects behind it -/
def forgetObject (s : Script) (object : Nat) : Except Error Script := do
  let reading := s.allCommands
  checkHandles reading.commands
  let commands ← reading.toExcept
  let handle := 2 * object
  let stream := commands.flatMap fun (_, c) => (lowered handle c).bytes
  let named := commands.filter fun (_, c) => namedHandle? c = some handle
  deleteAll { s with stream } named.reverse

def removeObject (s : Script) (object : Nat) : Except Error Script := do
  let start ← s.objectStart object
  let stop ← s.objectEnd object
  s.edit fun s => do
    let s ← s.replace start (stop - start) [] .before
    let s ← s.shrinkTable object
    s.forgetObject object

end Script

end Cartridge
