import Jade.CommandLine

/-!
# The program

Reads the template that the command line names and writes it in a dialect, to a file or to standard
output.
-/

namespace Jade.CommandLine

def faultText (f : Fault) : String := f.message?.getD (reprStr f)

/-- Read a template, write it, and give the status of the program. -/
def runJob (j : Job) : IO UInt32 := do
  let bytes ← IO.FS.readBinFile j.input
  match (j.output {} bytes).1 with
  | .error e =>
    IO.eprintln (faultText e)
    return 1
  | .ok text =>
    match j.target with
    | some path => IO.FS.writeBinFile path text.toUTF8
    | none => IO.println text
    return 0

end Jade.CommandLine

open Jade Jade.CommandLine

def main (args : List String) : IO UInt32 := do
  match plan offered args with
  | .error e =>
    IO.eprintln (faultText e)
    return 1
  | .ok (.refuse why) =>
    IO.eprintln (usage ++ "\npyjade: error: " ++ why.message)
    return 2
  | .ok (.say text) =>
    IO.print text
    return 0
  | .ok (.job j) =>
    try runJob j
    catch e =>
      IO.eprintln (toString e)
      return 1
