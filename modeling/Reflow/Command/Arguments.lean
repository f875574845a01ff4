import Reflow.Text.Basic
import Reflow.Text.CharacterClass

/-!
The arguments of the command. Options take their value from the same argument or from the next one;
a value from the next argument is checked only when something else is read, so that an unknown
argument behind it is the first error.
-/

namespace Reflow.Command

/-- What the user asked for. Of an option that was not given nothing is set; the settings of files
and the defaults are laid under them later. -/
structure Arguments where
  inputs : List Text := []
  column : Option Nat := none
  tabWidth : Option Nat := none
  lang : Option Text := none
  write : Bool := false
  verbose : Bool := false
  exclude : List Text := []
  config : Option Text := none
  jobs : Option Nat := none
  debug : Bool := false
  deriving DecidableEq, Repr

/-- Why arguments are not carried out. Help and version are asked for in this way too. -/
inductive Refusal where
  | unknownArgument
  /-- A value that is not a number. -/
  | badNumber
  /-- A value that is missing. -/
  | missingValue
  /-- An option that is given twice. -/
  | repeated
  /-- A value for an option that takes none. -/
  | unwantedValue
  | help
  | version
  deriving DecidableEq, Repr

namespace Refusal

/-- The user asked for something to be explained. Such a refusal is no error, and its answer goes to
the output. -/
def isRequest : Refusal → Bool
  | help => true
  | version => true
  | _ => false

def message : Refusal → Text
  | unknownArgument => "unexpected argument".toList
  | badNumber => "invalid value, a number is expected".toList
  | missingValue => "a value is required".toList
  | repeated => "an option cannot be used multiple times".toList
  | unwantedValue => "unexpected value for an option that takes none".toList
  | help => []
  | version => []

end Refusal

inductive Flag where
  | write | verbose | debug | help | version
  deriving DecidableEq, Repr

inductive Setting where
  | column | tabWidth | lang | exclude | config | jobs
  deriving DecidableEq, Repr

inductive Switch where
  | flag (f : Flag)
  | setting (s : Setting)
  deriving DecidableEq, Repr

def longOption? (name : Text) : Option Switch :=
  [("write", .flag .write), ("verbose", .flag .verbose), ("debug", .flag .debug),
    ("help", .flag .help), ("version", .flag .version), ("column", .setting .column),
    ("tab-width", .setting .tabWidth), ("lang", .setting .lang), ("exclude", .setting .exclude),
    ("config", .setting .config), ("jobs", .setting .jobs)].findSome? fun (n, o) =>
      if n.toList = name then some o else none

def shortOption? : Char → Option Switch
  | 'c' => some (.setting .column)
  | 'j' => some (.setting .jobs)
  | 'w' => some (.flag .write)
  | 'v' => some (.flag .verbose)
  | 'D' => some (.flag .debug)
  | 'h' => some (.flag .help)
  | 'V' => some (.flag .version)
  | _ => none

/-- A number of 64 bits in decimal digits, perhaps behind a plus sign. Larger numbers are refused;
they are not cut. -/
def number? (t : Text) : Option Nat :=
  let digits := (Text.dropPrefix? ['+'] t).getD t
  if digits.isEmpty || !digits.all isAsciiDigit then none
  else
    let n := digits.foldl (fun n c => 10 * n + (c.toNat - 48)) 0
    if n < UInt64.size then some n else none

def names (t : Text) : List Text := ((t.splitOn ',').map Text.trim).filter (!List.isEmpty ·)

namespace Arguments

/-- Set a number that may be set only once. A second value is refused before it is looked at. -/
def setNumber (old : Option Nat) (t : Text) : Except Refusal (Option Nat) :=
  if old.isSome then .error .repeated
  else
    match number? t with
    | some n => .ok (some n)
    | none => .error .badNumber

/-- Set a text that may be set only once. -/
def setText (old : Option Text) (t : Text) : Except Refusal (Option Text) :=
  if old.isSome then .error .repeated else .ok (some t)

/-- Carry out an option with its value. Exclusions add up; every other option may be given only
once. -/
def set (a : Arguments) (s : Setting) (t : Text) : Except Refusal Arguments :=
  match s with
  | .column => return { a with column := ← setNumber a.column t }
  | .tabWidth => return { a with tabWidth := ← setNumber a.tabWidth t }
  | .jobs => return { a with jobs := ← setNumber a.jobs t }
  | .lang => return { a with lang := ← setText a.lang t }
  | .exclude => return { a with exclude := a.exclude ++ names t }
  | .config => do
    let config ← setText a.config t
    if t.isEmpty then throw .missingValue
    return { a with config }

/-- Carry out an option without a value. Asking for help or for the version ends the reading of the
arguments at once. -/
def raise (a : Arguments) (f : Flag) : Except Refusal Arguments :=
  match f with
  | .write => if a.write then .error .repeated else .ok { a with write := true }
  | .verbose => if a.verbose then .error .repeated else .ok { a with verbose := true }
  | .debug => if a.debug then .error .repeated else .ok { a with debug := true }
  | .help => .error .help
  | .version => .error .version

end Arguments

/-- An option whose value comes from the next argument, and the value once it is there. The value is
not checked before the next option or input is read. -/
structure Pending where
  setting : Setting
  value : Option Text
  deriving DecidableEq, Repr

/-- How far the arguments have been read. -/
structure Progress where
  arguments : Arguments := {}
  pending : Option Pending := none
  deriving DecidableEq, Repr

namespace Progress

def settle (p : Progress) : Except Refusal Arguments :=
  match p.pending with
  | none => .ok p.arguments
  | some { value := none, .. } => .error .missingValue
  | some { setting, value := some t } => p.arguments.set setting t

/-- An option that takes a value: the value in the same argument, or the next argument. An option
that waits for its value before this one is carried out first. -/
def option (p : Progress) (s : Setting) (value : Option Text) : Except Refusal Progress := do
  let a ← p.settle
  match value with
  | some t => return { arguments := ← a.set s t }
  | none => return { arguments := a, pending := some { setting := s, value := none } }

def flag (p : Progress) (f : Flag) : Except Refusal Progress := do
  return { arguments := ← (← p.settle).raise f }

def input (p : Progress) (t : Text) : Except Refusal Progress := do
  let a ← p.settle
  return { arguments := { a with inputs := a.inputs ++ [t] } }

/-- An argument that is no option: the value that an option waits for, or an input. -/
def word (p : Progress) (t : Text) : Except Refusal Progress :=
  match p.pending with
  | some { setting, value := none } =>
    .ok { p with pending := some { setting, value := some t } }
  | _ => p.input t

/-- An argument behind two hyphens, perhaps with a value behind an equals sign. A name is not
abbreviated: only a whole name is an option. -/
def long (p : Progress) (t : Text) : Except Refusal Progress :=
  let (name, value) := match Text.cut? ['='] t with
    | some (name, value) => (name, some value)
    | none => (t, none)
  match longOption? name, value with
  | none, _ => .error .unknownArgument
  | some (.flag _), some _ => .error .unwantedValue
  | some (.flag f), none => p.flag f
  | some (.setting s), value => p.option s value

/-- The letters behind one hyphen. Flags may stand together behind one hyphen, and a setting among
them takes the rest. -/
def short (p : Progress) : Text → Except Refusal Progress
  | [] => .ok p
  | c :: t =>
    match shortOption? c with
    | none => .error .unknownArgument
    | some (.flag f) => do short (← p.flag f) t
    -- What follows the letter, perhaps behind an equals sign, is the value.
    | some (.setting s) =>
      p.option s (if t.isEmpty then none else some ((Text.dropPrefix? ['='] t).getD t))

/-- Read arguments one by one. The first refusal ends the reading. -/
def readAll (p : Progress) : List Text → Except Refusal Arguments
  | [] => p.settle
  | t :: ts =>
    match t with
    -- Behind two hyphens alone all arguments are inputs.
    | ['-', '-'] => do (← ts.foldlM input p).settle
    | '-' :: '-' :: rest => do readAll (← p.long rest) ts
    | '-' :: c :: rest => do readAll (← p.short (c :: rest)) ts
    | t => do readAll (← p.word t) ts

end Progress

def Arguments.parse (args : List Text) : Except Refusal Arguments := Progress.readAll {} args

end Reflow.Command
