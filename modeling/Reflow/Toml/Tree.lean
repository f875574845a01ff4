import Reflow.Toml.Value

/-!
The tables of a document while it is read. A table may be named before it is defined, and it may be
defined once: the tree remembers how each table came to be, so that a second definition is refused.
-/

namespace Reflow.Toml

/-- How a table came to be. This decides which later definitions may add to it. -/
inductive Origin where
  /-- It was only named on the way to another table. -/
  | implicit
  /-- It has a header of its own. -/
  | header
  /-- A dotted key made it. -/
  | dotted
  deriving DecidableEq, Repr

/-- What a key stands for. Arrays and inline tables are values: nothing can be added to them. -/
inductive Tree where
  | value (v : Value)
  | table (origin : Origin) (entries : List (Text × Tree))
  /-- Tables that share a header in double brackets, the last one first. -/
  | tables (all : List (List (Text × Tree)))
  deriving Repr

abbrev Entries := List (Text × Tree)

namespace Tree

mutual
def toValue : Tree → Value
  | .value v => v
  | .table _ entries => .table (entriesToValues entries)
  | .tables all => .array (allToValues all).reverse

def entriesToValues : Entries → List (Text × Value)
  | [] => []
  | (key, tree) :: entries => (key, toValue tree) :: entriesToValues entries

def allToValues : List Entries → List Value
  | [] => []
  | entries :: all => .table (entriesToValues entries) :: allToValues all
end

/-- Replace the tree of a key, or add the key at the end. The order of the other keys is kept. -/
def set (key : Text) (tree : Tree) : Entries → Entries
  | [] => [(key, tree)]
  | (k, old) :: entries =>
    if k = key then (k, tree) :: entries else (k, old) :: set key tree entries

/-- Change the table that `path` leads to from `entries`, which came to be as `origin` says. Missing
tables on the way are made. There is no result where the path leads through something that may not
be changed. -/
def update (dotted : Bool) (change : Origin → Entries → Option Entries) :
    List Text → Origin → Entries → Option Entries
  | [], origin, entries => change origin entries
  | key :: path, _, entries =>
    match entries.lookup key with
    | none =>
      -- On the way to a header a table is only named.
      let origin := if dotted then Origin.dotted else .implicit
      (update dotted change path origin []).map fun inner => set key (.table origin inner) entries
    | some (.value _) => none
    | some (.table origin inner) =>
      -- Dotted keys do not enter a table that has a header.
      if dotted && origin == .header then none
      else (update dotted change path origin inner).map fun inner =>
        set key (.table origin inner) entries
    | some (.tables []) => none
    -- An array of tables is entered at its last one, which stands first here.
    | some (.tables (last :: others)) =>
      (update dotted change path .header last).map fun last =>
        set key (.tables (last :: others)) entries

/-- Define a key in the table that the dotted `path` leads to. A key that is there already is
refused. -/
def define (path : List Text) (key : Text) (v : Value) (origin : Origin) (entries : Entries) :
    Option Entries :=
  let put (o : Origin) (inner : Entries) : Option Entries :=
    -- A dotted key belongs to a table of dotted keys, and a single key to any other table.
    if (o == .dotted) == path.isEmpty then none
    else if (inner.lookup key).isSome then none
    else some (set key (.value v) inner)
  update true put path origin entries

/-- Open the table of a header. -/
def openTable (path : List Text) (key : Text) (root : Entries) : Option Entries :=
  let put (_ : Origin) (inner : Entries) : Option Entries :=
    match inner.lookup key with
    | none => some (set key (.table .header []) inner)
    -- A table that was only named may be opened, and no other.
    | some (.table .implicit entries) => some (set key (.table .header entries) inner)
    | some _ => none
  update false put path .header root

/-- Open a new table of a header in double brackets. -/
def openArrayTable (path : List Text) (key : Text) (root : Entries) : Option Entries :=
  let put (_ : Origin) (inner : Entries) : Option Entries :=
    match inner.lookup key with
    | none => some (set key (.tables [[]]) inner)
    | some (.tables all) => some (set key (.tables ([] :: all)) inner)
    | some _ => none
  update false put path .header root

/-- Define a key in the table whose header is `header`, by a dotted path from it. The table of the
header was opened before. -/
def defineUnder (header path : List Text) (key : Text) (v : Value) (root : Entries) :
    Option Entries :=
  update false (fun _ inner => define path key v .header inner) header .header root

end Tree

end Reflow.Toml
