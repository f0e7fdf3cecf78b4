import Cartridge.Script.Basic

/-!
# Listings of a script

* `Script.listing`   the text listing of every object, function, command and string.
-/

namespace Cartridge

namespace Script

def commandLine (entry : Nat × Command) : String :=
  "    " ++ Text.upperHex 4 entry.1 ++ "  " ++ entry.2.text ++ "\n"

/-- a function without code of its own is listed by the one before it -/
def functionLines (s : Script) (object function : Nat) : Except Error String := do
  let slot := object * functionsPerObject + function
  let title := "  function " ++ Text.rightAligned 2 function
  if s.slotIsEmpty slot then
    return title ++ " = function " ++ toString (function - 1) ++ "\n"
  let start := s.pointer slot
  let stop ← s.slotEnd slot
  let commands ← (s.commands start stop).toExcept
  return title ++ " @ " ++ Text.upperHex 4 start ++ "\n" ++ String.join (commands.map commandLine)

def objectLines (s : Script) (object : Nat) : Except Error String := do
  let functions ← (List.range functionsPerObject).mapM (s.functionLines object)
  return "object " ++ toString object ++ "\n" ++ String.join functions

def stringLine (entry : Nat × Bytes) : String :=
  "string " ++ Text.rightAligned 3 entry.1 ++ ": " ++ Text.byteList entry.2 ++ "\n"

def listing (s : Script) : Except Error String := do
  let objects ← (List.range s.objectCount).mapM s.objectLines
  return String.join objects ++ String.join (s.strings.entries.map stringLine)

end Script

end Cartridge
