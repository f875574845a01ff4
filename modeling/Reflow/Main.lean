import Reflow.Command.Run

/-!
The command line. The part of the file system that a run can ask about is read first; the run itself
is a function of it, and what it prints and writes is carried out at the end.
-/

namespace Reflow.Main

open Reflow.Command

/-- Read a file or a directory with all that is in it. -/
partial def load (path : String) : IO (Option Node) := do
  try
    let real ← IO.FS.realPath path
    if ← real.isDir then
      let mut entries := []
      for entry in ← real.readDir do
        if let some node ← load (path ++ "/" ++ entry.fileName) then
          entries := Node.insertEntry entry.fileName.toList node entries
      return some (.dir entries)
    else
      return some (.file (← IO.FS.readBinFile path))
  catch _ => return none

/-- The names that lead from the root to a path, read from the directory `cwd` on. -/
def namesOf (cwd : List Text) (p : Text) : List Text :=
  let step (place : List Text) (piece : Text) : List Text :=
    if Path.isSilent piece then place
    else if piece == ['.', '.'] then place.dropLast
    else place ++ [piece]
  (p.splitOn '/').foldl step (if Path.isAbsolute p then [] else cwd)

def pathOf (names : List Text) : String := String.ofList ('/' :: Path.joinPieces names)

/-- The directory below which all matches of a pattern lie, or the input itself. Reading what is
below it is enough to expand the pattern, unless it goes up behind a wildcard. -/
def baseOf (input : Text) : Text :=
  if !Glob.isPattern input then input
  else
    let literal := (input.splitOn '/').takeWhile (!Glob.isPattern ·)
    if Path.isAbsolute input then '/' :: Path.joinPieces (literal.drop 1)
    else if literal.isEmpty then ['.']
    else Path.joinPieces literal

/-- Add what stands at a place. What is missing is left out, and the run will find it missing. -/
def addPlace (disk : Node) (names : List Text) : IO Node := do
  match ← load (pathOf names) with
  | some node => return node.insert names disk
  | none => return disk

/-- Add the settings in a directory and in all directories above it. -/
def addSettings (disk : Node) (names : List Text) : IO Node := do
  let mut disk := disk
  for count in List.range (names.length + 1) do
    let settings := names.take count ++ [Config.fileName]
    if let some (.file content) ← load (pathOf settings) then
      disk := (Node.file content).insert settings disk
  return disk

/-- The paths that a run with these arguments may read, settings that are searched for aside. -/
def placesOf (args : List Text) : List Text :=
  match Arguments.parse args with
  | .ok a => a.inputs.map baseOf ++ a.config.toList
  | .error _ => []

/-- Read the part of the machine that a run with these arguments may ask about. -/
def readHost (args : List Text) : IO Host := do
  let cwd := namesOf [] (← IO.currentDir).toString.toList
  let home := (← IO.getEnv "HOME").map String.toList
  let places := (placesOf args).map (namesOf cwd)
  let disk ← places.foldlM addPlace (Node.makeDir cwd (.dir []))
  let disk ← (cwd :: (home.map (namesOf cwd)).toList ++ places).foldlM addSettings disk
  return { disk, cwd, home }

/-- Read a stream to its end. -/
partial def readAll (stream : IO.FS.Stream) (acc : ByteArray) : IO ByteArray := do
  let chunk ← stream.read 65536
  if chunk.isEmpty then return acc else readAll stream (acc ++ chunk)

/-- The standard input, if the run reads it and it is no terminal. -/
def readStdin (args : List Text) : IO (Option ByteArray) := do
  let wanted := match Arguments.parse args with
    | .ok a => a.inputs.isEmpty
    | .error _ => false
  let stdin ← IO.getStdin
  if !wanted then return some ByteArray.empty
  else if ← stdin.isTty then return none
  else return some (← readAll stdin ByteArray.empty)

def reportRefusal (args : List Text) : IO Unit := do
  match Arguments.parse args with
  | .error refusal =>
    if !refusal.isRequest then IO.eprintln ("error: " ++ String.ofList refusal.message)
  | .ok _ => return

end Reflow.Main

open Reflow.Main in
def main (args : List String) : IO UInt32 := do
  let args := args.map String.toList
  let out := Reflow.Command.execute args (← readStdin args) (← readHost args)
  for (path, content) in out.written do
    IO.FS.writeBinFile (String.ofList path) content
  (← IO.getStdout).write out.stdout
  reportRefusal args
  for report in out.reports do
    IO.eprintln (String.ofList report.line)
  return out.code.toUInt32
