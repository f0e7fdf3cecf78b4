import Cartridge.Script.Splice

/-!
# Edits of a script

Every edit gives a new script or leaves the script as it was.  The first edit of a script also
closes the gaps between its string indices, in the table and in the textboxes that name them.

* `Script.compactStrings`   strings and textboxes renumbered, once;
* `Script.edit`             an edit: renumbering, the change itself, and the mark that it took place
                            (`Script.editWith`: a change that also gives an answer);
* `Script.insert`, `Script.delete`, `Script.deleteCommand`, `Script.replaceCommand`   code;
* `Script.setFunction`      the code of a function;
* `Script.patchArguments`   argument bytes of the first command of a kind in a function;
* `Script.addString`, `Script.setString`   strings;
* `Script.setStringTableAddress`   the command that names the string table.
-/

namespace Cartridge

namespace Script

/-! ## the first edit -/

/-- a textbox with the new index of its string; one whose string is not in the table stays -/
def renumbered (strings : StringTable) (c : Command) : Command :=
  match shownString? c with
  | none => c
  | some index =>
    match strings.newIndex? index with
    | none => c
    | some new => { c with args := UInt8.ofNat new :: c.args.tail }

/-- the stream is read only when an index changes -/
def compactStrings (s : Script) : Except Error Script := do
  if s.strings.compacted then return s
  let stream ← if s.strings.isDense then .ok s.stream else do
    let commands ← s.allCommands.toExcept
    .ok (commands.flatMap fun entry => (renumbered s.strings entry.2).bytes)
  return { s with stream, strings := s.strings.compact }

def editWith {α : Type} (s : Script) (change : Script → Except Error (α × Script)) :
    Except Error (α × Script) := do
  let (a, s) ← change (← s.compactStrings)
  return (a, { s with modified := true })

/-- an edit without an answer -/
def edit (s : Script) (change : Script → Except Error Script) : Except Error Script := do
  let s ← change (← s.compactStrings)
  return { s with modified := true }

/-! ## code -/

/-- whole commands at a position; what refers to the position now refers to the new code -/
def insert (s : Script) (pos : Nat) (code : Bytes) : Except Error Script :=
  s.edit fun s => s.replace pos 0 code .before

def insertCommand (s : Script) (pos : Nat) (c : Command) : Except Error Script :=
  s.insert pos c.bytes

def delete (s : Script) (pos length : Nat) : Except Error Script :=
  s.edit fun s => s.replace pos length [] .before

def deleteCommand (s : Script) (pos : Nat) : Except Error Script := do
  s.delete pos (← s.commandAt pos).length

def replaceCommand (s : Script) (pos : Nat) (c : Command) : Except Error Script := do
  let old ← s.commandAt pos
  s.edit fun s => s.replace pos old.length c.bytes .before

/-! ## functions -/

/-- the slots from `slot` to the end of its object, as long as they share one pointer -/
def sharers (s : Script) (slot : Nat) : List Nat :=
  let object := slot / functionsPerObject
  let slots := List.range' slot ((object + 1) * functionsPerObject - slot)
  slots.takeWhile fun t => s.pointer t == s.pointer slot

/-- points the slots at a position -/
def redirect (s : Script) (slots : List Nat) (pos : Nat) : Script :=
  { s with pointers := s.pointers.mapIdx fun i p => if i ∈ slots then pos else p }

/-- code for a function without any: behind the code that it shares, for it and for the functions
behind it that share the same code -/
def fillSlot (s : Script) (slot : Nat) (code : Bytes) : Except Error Script := do
  let place ← s.slotEnd (slot - 1)
  let filled ← s.replace place 0 code .after
  return filled.redirect (s.sharers slot) place

/-- new code in place of the old -/
def replaceSlot (s : Script) (slot : Nat) (code : Bytes) : Except Error Script := do
  let start := s.pointer slot
  let stop ← s.slotEnd slot
  s.replace start (stop - start) code .before

def setFunction (s : Script) (object function : Nat) (code : Bytes) : Except Error Script := do
  let slot ← s.slot object function
  s.edit fun s => if s.slotIsEmpty slot then s.fillSlot slot code else s.replaceSlot slot code

/-! ## arguments -/

/-- the command with `bytes` over its arguments from `offset` on -/
def patched (c : Command) (offset : Nat) (bytes : Bytes) : Command :=
  { c with args := c.args.overwrite offset bytes }

/-- The position of the command, and the script with it patched; its size may not change.  The end of
the patch is an exact sum, which words of 64 bits give below `2 ^ 64` only. -/
def patchArguments (s : Script) (object function : Nat) (opcode : UInt8) (offset : Nat)
    (bytes : Bytes) : Except Error (Nat × Script) := do
  let start ← s.functionStart object function
  let stop ← s.functionEnd object function
  let pos ← s.findCommand [opcode] start stop
  let c ← s.commandAt pos
  if c.args.length < offset + bytes.length then
    throw (.argument (.patchPastArguments c.info.name c.args.length bytes.length offset))
  let new := patched c offset bytes
  if (Command.sizeAt 0 new.bytes).toOption ≠ some new.length then
    throw (.argument (.patchResizes c.info.name pos))
  s.editWith fun s =>
    .ok (pos, { s with stream := s.stream.overwrite (pos - s.headerLength) new.bytes })

/-! ## strings -/

/-- the index of the new string -/
def addString (s : Script) (text : Bytes) : Except Error (Nat × Script) :=
  s.editWith fun s => do
    let (index, strings) ← s.strings.add text
    return (index, { s with strings })

def setString (s : Script) (index : Nat) (text : Bytes) : Except Error Script :=
  s.edit fun s => do return { s with strings := ← s.strings.set index text }

/-- replaces the command that names the string table, or adds one at the start of the script -/
def setStringTableAddress (s : Script) (addr : Nat) : Except Error Script := do
  let c ← (Command.stringIndex addr).mapError .argument
  let start ← s.functionStart 0 0
  match ← s.findStringIndex? with
  | some pos => s.replaceCommand pos c
  | none => s.insertCommand start c

end Script

end Cartridge
