import EvmAssembly.CommandLine

/-!
# The program

Reads the file that the arguments ask for, and writes what the run leaves.
-/

namespace EvmAssembly.CommandLine

/-- The contents of a file, if it can be opened. One that opens but cannot be read, such as a
directory, counts as empty. -/
def readFile? (name : Bytes) : IO (Option Bytes) := do
  match String.fromUTF8? ⟨name.toArray⟩ with
  | none => return none
  | some name =>
    match ← (IO.FS.Handle.mk name .read).toBaseIO with
    | .error _ => return none
    | .ok handle =>
      try
        return some (← handle.readBinToEnd).toList
      catch _ => return some []

/-- The files that a request looks at. -/
def filesFor : Request → IO (Bytes → Option Bytes)
  | .list file => do
    let contents ← readFile? file
    return fun name => if name = file then contents else none
  | _ => return fun _ => none

def perform (arguments : List Bytes) : IO UInt32 := do
  let files ← filesFor (.of (operands arguments))
  let shown := shown files arguments
  (← IO.getStdout).write ⟨shown.output.toArray⟩
  (← IO.getStderr).write ⟨shown.errors.toArray⟩
  return shown.exit.toUInt32

end EvmAssembly.CommandLine

def main (arguments : List String) : IO UInt32 :=
  EvmAssembly.CommandLine.perform (arguments.map EvmAssembly.utf8)
