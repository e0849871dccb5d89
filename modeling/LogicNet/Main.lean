import LogicNet.Command.Run

/-!
# The program

The outer layer: it loads the files a command reads into a directory, runs the command there, writes
the files that changed, prints, and exits with the code of the outcome.
-/

namespace LogicNet

/-- There is a directory at a place. -/
def findsFolder (p : Place) : IO Bool := do
  try
    discard <| IO.FS.realPath (p.text ++ "/.")
    return true
  catch _ => return false

/-- Load what is at a place: a directory, or a file that can be read. -/
def loadPlace (d : Directory) (p : Place) : IO Directory := do
  if p.isAround then return d
  if ← findsFolder p then return { d with folders := p :: d.folders }
  try
    return { d with files := d.files.insert p.text (← IO.FS.readBinFile p.text) }
  catch _ => return d

/-- Load what a path names on its way. -/
def loadPath (d : Directory) (path : String) : IO Directory := (Path.places path).foldlM loadPlace d

/-- What a command finds. -/
def loadDirectory (c : Command) : IO Directory := (c.reads ++ c.writes).foldlM loadPath {}

/-- Write the files that are not as they were. -/
def storeChanges (before after : Directory) : IO Unit :=
  after.files.toList.forM fun (path, bytes) => do
    if before.files[path]?.all (·.toList != bytes.toList) then IO.FS.writeBinFile path bytes

end LogicNet

open LogicNet in
def main (args : List String) : IO UInt32 := do
  let directory ← match Command.parse? args with
    | some c => loadDirectory c
    | none => pure {}
  let outcome := Command.execute directory args
  storeChanges directory outcome.directory
  IO.print outcome.output
  outcome.log.forM fun m => IO.eprint m.shown
  return outcome.code.toUInt32
