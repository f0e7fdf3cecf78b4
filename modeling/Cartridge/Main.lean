import Cartridge.CommandLine.Arguments

/-!
# The command line

* `main`   reads the files that the arguments name, and carries out what they ask for.
-/

namespace Cartridge.CommandLine

def readFromDisk (path : String) : IO (Option Bytes) := do
  try
    return some (← IO.FS.readBinFile path).toList
  catch _ => return none

def loadFiles (paths : List String) : IO Files := do
  let contents ← paths.mapM fun path => return (path, ← readFromDisk path)
  return fun path => (contents.lookup path).join

def carryOut : Effect → IO (Except Error Unit)
  | .print text => do
    IO.print text
    return .ok ()
  | .write path bytes => do
    try
      IO.FS.writeBinFile path ⟨bytes.toArray⟩
      return .ok ()
    catch _ => return .error .unreadable

def report (e : Error) : IO UInt32 := do
  IO.eprintln ("Error: " ++ e.message)
  return 1

def execute (inv : Invocation) : IO UInt32 := do
  match inv.run (← loadFiles inv.sources) with
  | .error e => report e
  | .ok effect =>
    match ← carryOut effect with
    | .error e => report e
    | .ok () => return 0

end Cartridge.CommandLine

open Cartridge.CommandLine in
def main (args : List String) : IO UInt32 := do
  match Invocation.ofArguments args with
  | .ok inv => execute inv
  | .error fault =>
    if fault = .help ∨ fault = .version then
      IO.println fault.message
      return 0
    else
      IO.eprintln fault.message
      return 2
