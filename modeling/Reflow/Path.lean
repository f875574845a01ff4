import Reflow.Text.Basic

/-!
Paths as they are typed, and the components they are made of. Two spellings of a path are equal if
their components are: repeated slashes, a slash at the end and dots between slashes make no
difference, while a dot at the start does.
-/

namespace Reflow

inductive Component where
  | root
  | here
  | up
  | name (t : Text)
  deriving DecidableEq, Repr

namespace Path

def isAbsolute (p : Text) : Bool := Text.startsWith p ['/']

/-- A piece between slashes that stands for no component, unless it is the first of a relative path.
It still asks that there be a directory before it. -/
def isSilent (piece : Text) : Bool := piece.isEmpty || piece == ['.']

def ofPiece (piece : Text) : Component := if piece == ['.', '.'] then .up else .name piece

def components (p : Text) : List Component :=
  match p.splitOn '/' with
  | [] => []
  | first :: rest =>
    let start :=
      if isAbsolute p then [.root]
      else if first.isEmpty then []
      else if first == ['.'] then [.here]
      else [ofPiece first]
    start ++ (rest.filter (!isSilent ·)).map ofPiece

/-- Two spellings of one path. Whether they lead to the same place is another question. -/
def same (p q : Text) : Bool := components p == components q

/-- The last component, if it is a name. A path that ends in `..` has no file name. -/
def fileName? (p : Text) : Option Text :=
  match (components p).getLast? with
  | some (.name t) => some t
  | _ => none

/-- The text behind the last dot of the file name. A name without a dot has none, and neither has
one whose only dot is at its start. -/
def extension? (p : Text) : Option Text :=
  match fileName? p with
  | none => none
  | some name =>
    let back := name.reverse
    match back.dropWhile (· != '.') with
    | [] => none
    -- A dot at the very start of the name does not count.
    | [_] => none
    | _ => some (back.takeWhile (· != '.')).reverse

def joinPieces (pieces : List Text) : Text := List.intercalate ['/'] pieces

def dropSilentEnd (pieces : List Text) : List Text := (pieces.reverse.dropWhile isSilent).reverse

/-- The path without its last component, spelled as before. The root and the empty path have no
parent. The parent of a relative path of one component is the empty path. -/
def parent? (p : Text) : Option Text :=
  match p.splitOn '/' with
  | [] => none
  | first :: rest =>
    match dropSilentEnd rest, isAbsolute p with
    | [], true => none
    | [], false => if p.isEmpty then none else some []
    | pieces, true => some ('/' :: joinPieces (dropSilentEnd pieces.dropLast))
    | pieces, false => some (joinPieces (first :: dropSilentEnd pieces.dropLast))

/-- The path itself and every path above it, the nearest first. Going up stays in the spelling of
the path: it does not ask the disk where `..` leads. -/
def ancestors (p : Text) : List Text :=
  match parent? p with
  | none => [p]
  | some q => if q.length < p.length then p :: ancestors q else [p]
termination_by p.length

def join (dir name : Text) : Text :=
  if dir.isEmpty || isAbsolute name then name
  else if dir.getLast? == some '/' then dir ++ name
  else dir ++ '/' :: name

/-- The names of the directories that a path goes through. Whether they are on the disk is not
asked. -/
def directoryNames (p : Text) : List Text :=
  (components ((parent? p).getD [])).filterMap fun c =>
    match c with
    | .name t => some t
    | _ => none

/-- One of the directories on the way has an excluded name. The last component does not count. Only
whole names are compared. -/
def isExcluded (exclude : List Text) (p : Text) : Bool :=
  (directoryNames p).any exclude.contains

end Path

end Reflow
