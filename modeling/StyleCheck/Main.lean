/-
The command line over the files of the machine.
-/
import StyleCheck.CommandLine.Run

namespace StyleCheck.CommandLine

/-- read a file of the machine -/
def readFile (path : Text) : IO Reading := do
  try
    return .bytes (← IO.FS.readBinFile (String.ofList path)).toList
  catch e => match e with
    | .noFileOrDirectory .. => return .missing
    | _ => return .unreadable

/-- write a file of the machine -/
def writeFile (path text : Text) : IO Bool := do
  try
    IO.FS.writeFile (String.ofList path) (String.ofList text)
    return true
  catch _ => return false

end StyleCheck.CommandLine

open StyleCheck.CommandLine in
def main (arguments : List String) : IO UInt32 := do
  let outcome ← run ⟨readFile, writeFile⟩ (arguments.map (·.toList))
  IO.print outcome.stdout
  IO.eprint outcome.stderr
  return outcome.code.toUInt32
