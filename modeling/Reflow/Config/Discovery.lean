import Reflow.Config.Basic
import Reflow.Disk

/-!
Where settings are found: in a file that is named, or in files of a fixed name in the home directory
and in the directories above an input.
-/

namespace Reflow.Config

/-- The name of a file with settings. -/
def fileName : Text := "rewrap.toml".toList

/-- A named file that gives no settings. This ends a run, while a file that is merely found may be
unreadable or malformed. -/
inductive FileError where
  | unreadable (path : Text)
  | malformed (path : Text)
  deriving DecidableEq, Repr

namespace FileError

def message : FileError → Text
  | unreadable path => "read ".toList ++ path
  | malformed path => "parse ".toList ++ path

end FileError

def ofFile (h : Host) (path : Text) : Except FileError Config :=
  match h.readText? path with
  | none => .error (.unreadable path)
  | some t =>
    match Settings.ofText? t with
    | none => .error (.malformed path)
    | some p => .ok (({} : Config).overlay p)

/-- The directory in which the search for settings of an input ends: the one it is in, or itself, or
the working directory if there is no such input. An input that is missing is therefore searched from
where the command runs, not from where it would be. -/
def startDir (h : Host) (path : Text) : Option Text :=
  if h.isFile path then Path.parent? path
  else if h.isDir path then some path
  else some h.cwdPath

/-- Add a file to those found, unless it is none or was found before. Spellings are compared and not
places, so one file may be added under two paths. -/
def addFound (h : Host) (found : List Text) (path : Text) : List Text :=
  if h.isFile path && !found.any (Path.same path) then found ++ [path] else found

/-- The files with settings for an input: the one in the home directory, and those above the input,
the farthest first. Whether they can be read and hold settings is not asked here. -/
def discover (h : Host) (path : Text) : List Text :=
  let home := (h.home.map fun dir => Path.join dir fileName).toList.filter h.isFile
  let above := ((startDir h path).toList.flatMap Path.ancestors).reverse
  (above.map fun dir => Path.join dir fileName).foldl (addFound h) home

/-- The settings of a file, where a file that is unreadable or malformed sets nothing. The text is
read first and then taken as settings; a file that holds no text is unreadable. -/
def settings? (h : Host) (path : Text) : Option Settings :=
  (h.readText? path).bind Settings.ofText?

/-- The settings for an input from all files that are found: a later file wins. Files that set
nothing are passed over and leave no trace. -/
def ofDiscovered (h : Host) (path : Text) : Config :=
  ((discover h path).filterMap (settings? h)).foldl overlay {}

end Reflow.Config
