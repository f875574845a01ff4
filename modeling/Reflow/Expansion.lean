import Reflow.Glob
import Reflow.Language.Resolve

/-!
The files that the inputs of a command stand for. A pattern stands for the files it matches, a
directory for the files of known languages below it, and any other input for itself.
-/

namespace Reflow.Expansion

/-- A pattern that stands for no file. It ends the run before any file is rewrapped. -/
inductive Error where
  | invalid (pattern : Text)
  | noMatch (pattern : Text)
  deriving DecidableEq, Repr

namespace Error

def message : Error → Text
  | invalid p => "invalid pattern \"".toList ++ p ++ ['"']
  | noMatch p => "pattern \"".toList ++ p ++ "\" matched no files".toList

end Error

/-- How deep a directory is searched. What lies deeper is not found, and this is not reported. -/
def maxDepth : Nat := 256

mutual
/-- The files below a node at `path`, down to `depth` more levels. Directories with an excluded name
are skipped; the node itself may have one. -/
def filesBelow (exclude : List Text) (depth : Nat) (path : Text) : Node → List Text
  | .file _ => [path]
  | .dir entries => if depth = 0 then [] else filesIn exclude (depth - 1) path entries

def filesIn (exclude : List Text) (depth : Nat) (dir : Text) : List (Text × Node) → List Text
  | [] => []
  | (name, node) :: entries =>
    (if node.isDir && exclude.contains name then []
      else filesBelow exclude depth (Path.join dir name) node) ++
      filesIn exclude depth dir entries
end

/-- The files of known languages below a directory, in the order of their names. A file of an
unknown language is not found, though it can be named as an input. -/
def walk (h : Host) (exclude : List Text) (extensions : List (Text × Text)) (dir : Text) :
    List Text :=
  match h.node? dir with
  | none => []
  | some node => (filesBelow exclude maxDepth dir node).filter (Language.isKnownFile extensions)

/-- The files that a pattern matches; directories and excluded files do not count. Files of unknown
languages do, as they do when they are named. -/
def ofPattern (h : Host) (exclude : List Text) (pattern : Text) : Except Error (List Text) :=
  match Glob.Pattern.ofText? pattern with
  | none => .error (.invalid pattern)
  | some p =>
    let files := (p.expand h).filter fun path => !h.isDir path && !Path.isExcluded exclude path
    if files.isEmpty then .error (.noMatch pattern) else .ok files

def ofInput (h : Host) (exclude : List Text) (extensions : List (Text × Text)) (input : Text) :
    Except Error (List Text) :=
  if Glob.isPattern input then ofPattern h exclude input
  else if h.isDir input then .ok (walk h exclude extensions input)
  else .ok [input]

/-- Add a path to those found, unless a spelling of it was found before. The spelling that was found
first stays. -/
def addNew (found : List Text) (path : Text) : List Text :=
  if found.any (Path.same path) then found else found ++ [path]

/-- The files that the inputs stand for, each once, in the order in which they come. An input that
stands for no file makes all of them fail. -/
def expand (h : Host) (exclude : List Text) (extensions : List (Text × Text))
    (inputs : List Text) : Except Error (List Text) := do
  let files ← inputs.mapM (ofInput h exclude extensions)
  return files.flatten.foldl addNew []

end Reflow.Expansion
