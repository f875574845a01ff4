import Reflow.Path

/-!
A file system as an immutable tree, without links and permissions, and what the system answers about
paths in it.
-/

namespace Reflow

/-- A file or a directory. The entries of a directory stand in increasing order of their names. This
order is that of a listing; nothing here enforces it. -/
inductive Node where
  | file (content : ByteArray)
  | dir (entries : List (Text × Node))

namespace Node

def isDir : Node → Bool
  | dir _ => true
  | file _ => false

/-- The node that the names lead to. Names are looked up as they are: dots and empty names have no
meaning in this. -/
def get? : List Text → Node → Option Node
  | [], n => some n
  | _ :: _, file _ => none
  | name :: names, dir entries => (entries.lookup name).bind (get? names)

/-- Replace the content of the file that the names lead to. If they lead to no file, nothing
changes. -/
def write (content : ByteArray) : List Text → Node → Node
  | [], file _ => file content
  | [], dir entries => dir entries
  | _ :: _, file old => file old
  | name :: names, dir entries =>
    dir <| entries.map fun (n, child) =>
      if n = name then (n, write content names child) else (n, child)

/-- Put an entry at its place among the entries of a directory, in place of one of the same name.
Entries in increasing order stay in increasing order. -/
def insertEntry (name : Text) (node : Node) : List (Text × Node) → List (Text × Node)
  | [] => [(name, node)]
  | (n, child) :: entries =>
    if name = n then (name, node) :: entries
    else if name < n then (name, node) :: (n, child) :: entries
    else (n, child) :: insertEntry name node entries

def children : Node → List (Text × Node)
  | dir entries => entries
  | file _ => []

/-- Put a node where the names lead to, and make the directories on the way. A file that is on the
way gives place to a directory. -/
def insert (node : Node) : List Text → Node → Node
  | [], _ => node
  | name :: names, old =>
    let below := (old.children.lookup name).getD (dir [])
    dir (insertEntry name (insert node names below) old.children)

/-- Make a directory where the names lead to, and those on the way; what is in it is kept. -/
def makeDir : List Text → Node → Node
  | [], old => dir old.children
  | name :: names, old =>
    let below := (old.children.lookup name).getD (dir [])
    dir (insertEntry name (makeDir names below) old.children)

end Node

/-- Why a path leads nowhere. The first obstacle on the way is the one that is reported. -/
inductive PathError where
  | notFound
  | notDirectory
  | nameTooLong
  | isDirectory
  deriving DecidableEq, Repr

namespace PathError

/-- The system's words for the error. -/
def message : PathError → Text
  | notFound => "No such file or directory (os error 2)".toList
  | notDirectory => "Not a directory (os error 20)".toList
  | nameTooLong => "File name too long (os error 36)".toList
  | isDirectory => "Is a directory (os error 21)".toList

end PathError

/-- A machine: its file system, the working directory and the home directory. This is all that a run
can see of the world besides its arguments and the standard input. -/
structure Host where
  disk : Node
  /-- The names that lead from the root to the working directory. -/
  cwd : List Text
  /-- The home directory as the environment spells it. -/
  home : Option Text

namespace Host

/-- The longest name that a file may have, in bytes. -/
def maxName : Nat := 255

/-- Go from a place in the tree to the next piece of a path. A place has to be a directory for any
piece behind it, even for one that is passed over. -/
def step (h : Host) (place : List Text) (piece : Text) : Except PathError (List Text) :=
  match h.disk.get? place with
  | none => .error .notFound
  | some (.file _) => .error .notDirectory
  | some (.dir entries) =>
    if Path.isSilent piece then .ok place
    else if piece == ['.', '.'] then .ok place.dropLast
    else if maxName < Text.byteLength piece then .error .nameTooLong
    else if (entries.lookup piece).isSome then .ok (place ++ [piece])
    else .error .notFound

/-- The names that lead from the root to what a path denotes. The root is the starting point of an
absolute path, the working directory that of any other one. -/
def locate (h : Host) (p : Text) : Except PathError (List Text) :=
  if p.isEmpty then .error .notFound
  else if Path.isAbsolute p then ((p.splitOn '/').drop 1).foldlM h.step []
  else (p.splitOn '/').foldlM h.step h.cwd

def node? (h : Host) (p : Text) : Option Node :=
  match h.locate p with
  | .ok place => h.disk.get? place
  | .error _ => none

def isFile (h : Host) (p : Text) : Bool := (h.node? p).any (!Node.isDir ·)

def isDir (h : Host) (p : Text) : Bool := (h.node? p).any Node.isDir

def «exists» (h : Host) (p : Text) : Bool := (h.node? p).isSome

def entries (h : Host) (p : Text) : List (Text × Node) :=
  ((h.node? p).map Node.children).getD []

def read (h : Host) (p : Text) : Except PathError ByteArray :=
  match h.locate p with
  | .error e => .error e
  | .ok place =>
    match h.disk.get? place with
    | some (.file content) => .ok content
    | some (.dir _) => .error .isDirectory
    | none => .error .notFound

def readText? (h : Host) (p : Text) : Option Text :=
  match h.read p with
  | .ok content => (String.fromUTF8? content).map String.toList
  | .error _ => none

def write (h : Host) (p : Text) (content : ByteArray) : Host :=
  match h.locate p with
  | .ok place => { h with disk := h.disk.write content place }
  | .error _ => h

def cwdPath (h : Host) : Text := '/' :: Path.joinPieces h.cwd

end Host

end Reflow
