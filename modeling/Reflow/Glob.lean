import Reflow.Disk

/-!
Patterns for file names and the paths on a disk that they match. A pattern is divided at slashes;
every part matches one name, and a part of two stars any number of directories.
-/

namespace Reflow.Glob

/-- One character of a set, or all characters between two. A reversed range holds no character. -/
inductive Spec where
  | single (c : Char)
  | range (low high : Char)
  deriving DecidableEq, Repr

inductive Token where
  | char (c : Char)
  | anyChar
  | anySequence
  /-- Two stars, which match directories of any depth. -/
  | anyDirectories
  | within (specs : List Spec)
  | except (specs : List Spec)
  deriving DecidableEq, Repr

namespace Spec

def holds (c : Char) : Spec → Bool
  | single d => c == d
  | range low high => low ≤ c && c ≤ high

/-- The members of a set; a hyphen between two characters makes a range. A hyphen at either end of
the set stands for itself. -/
def parse : Text → List Spec
  | a :: '-' :: b :: t => range a b :: parse t
  | a :: t => single a :: parse t
  | [] => []

end Spec

/-- The set that starts behind an opening bracket, and what follows it. Without a closing bracket
there is none. -/
def set? : Text → Option (Token × Text)
  -- A closing bracket that comes first is a member.
  | '!' :: c :: t =>
    (Text.cut? [']'] t).map fun (members, rest) => (.except (Spec.parse (c :: members)), rest)
  | '!' :: [] => none
  | c :: t =>
    (Text.cut? [']'] t).map fun (members, rest) => (.within (Spec.parse (c :: members)), rest)
  | [] => none

/-- The tokens of a pattern. `fresh` says that a slash, or nothing, stands before it. There are none
if the pattern is not valid. -/
def tokens? (fresh : Bool) (t : Text) : Option (List Token) :=
  match t with
  | [] => some []
  -- Two stars must be a whole part of the pattern, and three are never allowed.
  | '*' :: '*' :: '*' :: _ => none
  | '*' :: '*' :: '/' :: rest =>
    if fresh then (tokens? true rest).map (.anyDirectories :: ·) else none
  | ['*', '*'] => if fresh then some [.anyDirectories] else none
  | '*' :: '*' :: _ => none
  | '*' :: rest => (tokens? false rest).map (.anySequence :: ·)
  | '?' :: rest => (tokens? false rest).map (.anyChar :: ·)
  | '[' :: rest =>
    match set? rest with
    | none => none
    | some (token, after) =>
      if after.length < rest.length then (tokens? false after).map (token :: ·) else none
  | c :: rest => (tokens? (c == '/') rest).map (.char c :: ·)
termination_by t.length

def «matches» : List Token → Text → Bool
  | [], t => t.isEmpty
  | .char c :: ts, d :: t => c == d && «matches» ts t
  | .anyChar :: ts, _ :: t => «matches» ts t
  | .within specs :: ts, c :: t => specs.any (Spec.holds c) && «matches» ts t
  | .except specs :: ts, c :: t => !specs.any (Spec.holds c) && «matches» ts t
  | .anySequence :: ts, [] => «matches» ts []
  | .anySequence :: ts, c :: t => «matches» ts (c :: t) || «matches» (.anySequence :: ts) t
  | .anyDirectories :: ts, [] => «matches» ts []
  | .anyDirectories :: ts, c :: t => «matches» ts (c :: t) || «matches» (.anyDirectories :: ts) t
  | _ :: _, [] => false
termination_by ts t => ts.length + t.length

/-- The text of a part without wildcards. Such a part names an entry, which is looked up and not
searched for. -/
def literal? : List Token → Option Text
  | [] => some []
  | .char c :: ts => (literal? ts).map (c :: ·)
  | _ :: _ => none

/-- The part stands for directories of any depth. -/
def isDeep (part : List Token) : Bool := part.contains .anyDirectories

/-- The parts between slashes; a slash at the end begins none. Two slashes next to each other have
an empty part between them. -/
def pieces (t : Text) : List Text :=
  let ps := t.splitOn '/'
  if ps.getLast? == some [] then ps.dropLast else ps

/-- A pattern: whether it starts at the root, its parts, and whether it asks for directories. -/
structure Pattern where
  rooted : Bool
  parts : List (List Token)
  onlyDirs : Bool
  deriving DecidableEq, Repr

/-- Read a pattern. It has to be right as a whole and in every part. A pattern that is right as a
whole may be wrong in a part, because slashes divide sets as well. -/
def Pattern.ofText? (t : Text) : Option Pattern := do
  let _ ← tokens? true t
  let rooted := Path.isAbsolute t
  let parts ← (pieces (if rooted then t.drop 1 else t)).mapM (tokens? true)
  return { rooted, parts, onlyDirs := t.getLast? == some '/' }

/-- A name in the directory `dir`; names in the working directory are written without it. -/
def child (dir name : Text) : Text := if Path.same dir ['.'] then name else Path.join dir name

mutual
/-- What `own` answers for a node and for all nodes below it, each before those below. The tree is
walked depth first, in the order of the entries. -/
def visit (own : Text → Bool → List Text) (path : Text) : Node → List Text
  | .file _ => own path false
  | .dir entries => own path true ++ visitAll own path entries

/-- The same for the entries of a directory. -/
def visitAll (own : Text → Bool → List Text) (dir : Text) : List (Text × Node) → List Text
  | [] => []
  | (name, node) :: entries =>
    visit own (child dir name) node ++ visitAll own dir entries
end

/-- The paths from `dir` on that the parts of a pattern match. Names come in increasing order, and a
directory before what is in it. Only a part that begins with a dot matches `.` or `..`. -/
def expandFrom (h : Host) (onlyDirs : Bool) : List (List Token) → Text → List Text
  | [], path => if !onlyDirs || h.isDir path then [path] else []
  | part :: parts, dir =>
    match literal? part with
    | some name =>
      let path := child dir name
      -- A directory has these two names, though they are not among its entries.
      if name == ['.'] || name == ['.', '.'] then
        if h.isDir dir then expandFrom h onlyDirs parts path else []
      else if h.exists path then expandFrom h onlyDirs parts path
      else []
    | none =>
      if !h.isDir dir then []
      else if isDeep part then deepFrom h onlyDirs parts dir
      else
        -- They match no wildcard at the front of a part.
        let dots := if part.head? == some (.char '.') then [['.', '.'], ['.']] else []
        let special := (dots.filter («matches» part)).flatMap fun name =>
          expandFrom h onlyDirs parts (Path.join dir name)
        let named := (h.entries dir).flatMap fun entry =>
          if «matches» part entry.1 then expandFrom h onlyDirs parts (child dir entry.1) else []
        special ++ named
where
  /-- Parts behind two stars, at any depth below `dir`. -/
  deepFrom (h : Host) (onlyDirs : Bool) : List (List Token) → Text → List Text
    | [], dir => visitAll (fun path isDir => if isDir then [path] else []) dir (h.entries dir)
    | part :: parts, dir =>
      if isDeep part then deepFrom h onlyDirs parts dir
      else
        visitAll (fun path _ =>
            if (Path.fileName? path).any («matches» part) then expandFrom h onlyDirs parts path
            else [])
          dir (h.entries dir)

def Pattern.expand (h : Host) (p : Pattern) : List Text :=
  expandFrom h p.onlyDirs p.parts (if p.rooted then ['/'] else ['.'])

def isPattern (t : Text) : Bool := t.any fun c => c == '*' || c == '?' || c == '['

end Reflow.Glob
