import Reflow.Command.Arguments
import Reflow.Command.Usage
import Reflow.Config.Discovery
import Reflow.Expansion
import Reflow.Source

/-!
A run of the command as a function: from the arguments, the standard input and the machine to what
is printed, the exit status and the machine afterwards. Files are taken one after the other.
-/

namespace Reflow.Command

/-- Why a run, or the work on one file, fails. Each carries what its message names. -/
inductive Failure where
  | config (e : Config.FileError)
  | invalid (fault : ConfigFault)
  | expansion (e : Expansion.Error)
  | language (e : Language.ResolveError)
  | unreadable (path : Text) (e : PathError)
  /-- There are no inputs, and the standard input is a terminal. -/
  | nothingToRead
  /-- Some of the files failed. -/
  | files (failed total : Nat)
  deriving DecidableEq, Repr

namespace Failure

def message : Failure → Text
  | config e => e.message
  | invalid fault => "Invalid configuration: ".toList ++ fault.message
  | expansion e => e.message
  | language e => e.message
  | unreadable path e => "read ".toList ++ path ++ ": ".toList ++ e.message
  | nothingToRead => "no input files given and stdin is a terminal".toList
  | files failed total =>
    "failed to rewrap ".toList ++ Nat.toDigits 10 failed ++ " of ".toList ++
      Nat.toDigits 10 total ++
      " files".toList

end Failure

inductive Report where
  | run (f : Failure)
  | file (path : Text) (f : Failure)
  deriving DecidableEq, Repr

namespace Report

def line : Report → Text
  | run f => "Error: ".toList ++ f.message
  | file path f => "Error rewrapping ".toList ++ path ++ ": ".toList ++ f.message

end Report

/-- What a run leaves behind. The files that it wrote are listed in order; `host` has them. A run
that fails still has an outcome, whose exit status is not zero. -/
structure Outcome where
  code : Nat
  stdout : ByteArray
  reports : List Report
  written : List (Text × ByteArray) := []
  host : Host

/-- The settings for an input: from the named file, or from the files that are found. The arguments
are laid over them and win, and the result is checked at the end, wherever a value comes from. -/
def configFor (a : Arguments) (h : Host) (path : Text) : Except Failure Config :=
  let found : Except Failure Config := match a.config with
    | some file =>
      match Config.ofFile h file with
      | .ok c => .ok c
      | .error e => .error (.config e)
    | none => .ok (Config.ofDiscovered h path)
  match found with
  | .error e => .error e
  | .ok c =>
    -- Arguments win over files, and add to their exclusions.
    let c := { c with
      column := a.column.getD c.column
      tabWidth := a.tabWidth.getD c.tabWidth
      exclude := c.exclude ++ a.exclude }
    match c.fault? with
    | some fault => .error (.invalid fault)
    | none => .ok c

/-- The settings of the run itself, found from the working directory. They say which files a
directory or a pattern stands for, before any file is looked at. -/
def baseConfig (a : Arguments) (h : Host) : Except Failure Config := configFor a h h.cwdPath

/-- The settings of one file: those of the run if they are from a named file, and otherwise those
found from the file. -/
def fileConfig (a : Arguments) (base : Config) (h : Host) (path : Text) : Except Failure Config :=
  if a.config.isSome then .ok base else configFor a h path

/-- The content of a file and its content after rewrapping, by the settings that were found for it.
An unreadable file is reported before its language is asked for. -/
def rewrapFound (a : Arguments) (found : Except Failure Config) (h : Host) (path : Text) :
    Except Failure (ByteArray × ByteArray) :=
  match found with
  | .error e => .error e
  | .ok c =>
    match h.read path with
    | .error e => .error (.unreadable path e)
    | .ok content =>
      match Language.resolve (some path) a.lang c.extensions with
      | .error e => .error (.language e)
      | .ok lang => .ok (content, Source.rewrapBytes c.layout lang content)

def rewrapFile (a : Arguments) (base : Config) (h : Host) (path : Text) :
    Except Failure (ByteArray × ByteArray) :=
  rewrapFound a (fileConfig a base h path) h path

/-- What has been done so far: the output, the machine, the files that were written, and the files
that failed. Files are listed in the order in which they were worked on. -/
structure Work where
  stdout : ByteArray := ByteArray.empty
  host : Host
  written : List (Text × ByteArray) := []
  failed : List (Text × Failure) := []

namespace Work

def put (w : Work) (path : Text) (content : ByteArray) : Work :=
  { w with host := w.host.write path content, written := w.written ++ [(path, content)] }

def print (w : Work) (bytes : ByteArray) : Work := { w with stdout := w.stdout ++ bytes }

/-- Carry out what was found for a file. With `--write` nothing is printed, and without it nothing
is written. -/
def record (a : Arguments) (w : Work) (path : Text) :
    Except Failure (ByteArray × ByteArray) → Work
  | .error e => { w with failed := w.failed ++ [(path, e)] }
  | .ok (old, new) =>
    if a.write then
      -- A file that does not change is not written.
      let w := if new == old then w else w.put path new
      if a.verbose then w.print (String.ofList (path ++ ['\n'])).toUTF8 else w
    else w.print new

def file (a : Arguments) (base : Config) (w : Work) (path : Text) : Work :=
  w.record a path (rewrapFile a base w.host path)

def outcome (w : Work) (total : Nat) : Outcome where
  code := if w.failed.isEmpty then 0 else 1
  stdout := w.stdout
  reports := (w.failed.map fun (path, f) => Report.file path f) ++
    if w.failed.isEmpty then [] else [.run (.files w.failed.length total)]
  written := w.written
  host := w.host

end Work

/-- The outcome of a run that fails before it does anything. The machine is left as it was, and
there is one report. -/
def Outcome.failed (h : Host) (f : Failure) : Outcome :=
  { code := 1, stdout := ByteArray.empty, reports := [.run f], host := h }

/-- Rewrap the standard input; its language is asked for by name only. There is no path that an
extension could come from, so without a name it is plain text. -/
def runStdin (a : Arguments) (c : Config) (stdin : ByteArray) (h : Host) : Outcome :=
  match Language.resolve none a.lang c.extensions with
  | .error e => .failed h (.language e)
  | .ok lang =>
    { code := 0, stdout := Source.rewrapBytes c.layout lang stdin, reports := [], host := h }

/-- Rewrap the files that the inputs stand for. If one of the inputs stands for no file, none is
rewrapped. -/
def runFiles (a : Arguments) (c : Config) (h : Host) : Outcome :=
  match Expansion.expand h c.exclude c.extensions a.inputs with
  | .error e => .failed h (.expansion e)
  | .ok files => (files.foldl (Work.file a c) { host := h }).outcome files.length

/-- Carry out the arguments. Inputs come before the standard input, which is not read if there are
any. -/
def run (a : Arguments) (stdin : Option ByteArray) (h : Host) : Outcome :=
  -- There is no standard input if it is a terminal.
  if a.inputs.isEmpty && stdin.isNone then
    { Outcome.failed h .nothingToRead with stdout := (String.ofList usageText).toUTF8 }
  else
    match baseConfig a h with
    | .error e => .failed h e
    | .ok c =>
      if a.inputs.isEmpty then runStdin a c (stdin.getD ByteArray.empty) h else runFiles a c h

/-- A run of the command. Arguments that are refused end it with status two. -/
def execute (args : List Text) (stdin : Option ByteArray) (h : Host) : Outcome :=
  match Arguments.parse args with
  | .ok a => run a stdin h
  | .error refusal =>
    -- Help and version are asked for in this way, but are no errors.
    let answer := match refusal with
      | .help => helpText
      | .version => versionLine
      | _ => []
    { code := if refusal.isRequest then 0 else 2, stdout := (String.ofList answer).toUTF8,
      reports := [], host := h }

end Reflow.Command
