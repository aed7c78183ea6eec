/-
  The program: `Cli.run` on the files that its arguments name.
-/
import BagFile.Cli

namespace BagFile.Cli

/-- The files that a request reads or writes. -/
def Request.paths : Request → List String
  | .info bag | .list bag _ => [bag]
  | .filter input output _ _ => [input, output]
  | .help | .version | .misuse => []

/-- The volume with a file of the system in it, if that can be read. -/
def mount (v : Volume) (path : String) : IO Volume := do
  let v := { v with directories := (Path.ofText path).parent :: v.directories }
  try
    let data ← IO.FS.readBinFile path
    match v.put path data with
    | .ok v => return v
    | .error _ => return v
  catch _ => return v

/-- The contents of a file by name. -/
def stored (v : Volume) (path : String) : Option Dense :=
  (v.find? path).map fun file => (v.contents file).all

/-- Writes a file back if it is new or has changed. -/
def writeBack (before after : Volume) (path : String) : IO Unit :=
  match stored after path with
  | some data =>
    if stored before path = some data then return ()
    else IO.FS.writeBinFile path data
  | none => return ()

end BagFile.Cli

open BagFile.Cli in
/-- Answers the arguments; the result is the exit code. -/
def main (args : List String) : IO UInt32 := do
  let paths := (Request.ofArguments args).paths
  let before ← paths.foldlM mount BagFile.Volume.empty
  let (outcome, after) := run before args
  IO.print outcome.output
  if let some text := outcome.complaint then IO.eprintln text
  try
    paths.forM (writeBack before after)
    return outcome.code
  catch e =>
    IO.eprintln e.toString
    return 1
