import Reflow.Toml.Scalar
import Reflow.Toml.Tree

/-!
Reading a TOML document. A text that breaks a rule of the format is no document.
-/

namespace Reflow.Toml

/-- A comment at the start of the text is dropped; it may not hold control characters. -/
def dropComment (t : Text) : Text :=
  match t with
  | '#' :: rest => rest.dropWhile isPrintable
  | t => t

/-- What follows the end of a line: spaces, perhaps a comment, and a line ending or the end of the
text. -/
def endOfLine? (t : Text) : Option Text :=
  match dropComment (skipSpace t) with
  | [] => some []
  | t => newline? t

/-- Drop spaces, comments and line endings. This goes on up to the first visible character that
begins no comment. -/
def skipLines (t : Text) : Text :=
  let u := dropComment (skipSpace t)
  match newline? u with
  | none => u
  | some rest => if rest.length < t.length then skipLines rest else rest
termination_by t.length

def isBareKeyChar (c : Char) : Bool := isAsciiAlphanumeric c || c == '_' || c == '-'

/-- One key of a dotted key. -/
def simpleKey? (t : Text) : Option (Text × Text) :=
  match t with
  | '"' :: rest => basic? rest
  | '\'' :: rest => literal? rest
  | t =>
    let key := t.takeWhile isBareKeyChar
    if key.isEmpty then none else some (key, t.drop key.length)

/-- The keys of a dotted key in order, at least one, with the space around dots. A key may be
quoted, and then it may hold a dot. -/
def keys? (t : Text) : Option (List Text × Text) :=
  match simpleKey? (skipSpace t) with
  | none => none
  | some (key, rest) =>
    match skipSpace rest with
    | '.' :: after =>
      if after.length < t.length then (keys? after).map fun (keys, u) => (key :: keys, u) else none
    | u => some ([key], u)
termination_by t.length

/-- Tables and arrays stand inside each other in fewer levels than this. A document that is nested
more deeply is refused. -/
def maxDepth : Nat := 80

/-- A dotted key. It may not lead deeper than values may be nested. -/
def key? (t : Text) : Option (List Text × Text) :=
  (keys? t).filter fun (keys, _) => keys.length < maxDepth

def splitKey (keys : List Text) : List Text × Text := (keys.dropLast, (keys.getLast?).getD [])

/-- The values of an array, behind its opening bracket or a comma. They need not be of one kind. -/
def items? (value : Text → Option (Value × Text)) (t : Text) : Option (List Value × Text) :=
  -- Values may stand on several lines, and a comma may follow the last one.
  match skipLines t with
  | ']' :: rest => some ([], rest)
  | u =>
    match value u with
    | none => none
    | some (v, after) =>
      match skipLines after with
      | ']' :: rest => some ([v], rest)
      | ',' :: rest =>
        if rest.length < t.length then (items? value rest).map fun (vs, w) => (v :: vs, w) else none
      | _ => none
termination_by t.length

/-- The entries of an inline table, behind its opening brace or a comma. They stand on one line, and
no comma follows the last one. -/
def pairs? (value : Text → Option (Value × Text)) (entries : Entries) (t : Text) :
    Option (Entries × Text) :=
  match key? t with
  | none => none
  | some (keys, u) =>
    match Text.dropPrefix? ['='] u with
    | none => none
    | some u =>
      match value (skipSpace u) with
      | none => none
      | some (v, after) =>
        let (path, key) := splitKey keys
        match Tree.define path key v .header entries with
        | none => none
        | some entries =>
          match skipSpace after with
          | '\x7d' :: rest => some (entries, rest)
          | ',' :: rest => if rest.length < t.length then pairs? value entries rest else none
          | _ => none
termination_by t.length

/-- A value, with fewer than `depth` arrays and inline tables inside each other. -/
def value? (depth : Nat) (t : Text) : Option (Value × Text) :=
  match depth with
  | 0 => none
  | depth + 1 =>
    match t with
    | [] => none
    | '[' :: rest =>
      if depth = 0 then none
      else (items? (value? depth) rest).map fun (vs, u) => (.array vs, u)
    | '\x7b' :: rest =>
      if depth = 0 then none
      else
        match skipSpace rest with
        | '\x7d' :: u => some (.table [], u)
        | u => (pairs? (value? depth) [] u).map fun (entries, w) =>
            (.table (Tree.entriesToValues entries), w)
    | '"' :: _ | '\'' :: _ => (string? t).map fun (s, u) => (.string s, u)
    | _ =>
      match Text.dropPrefix? "true".toList t, Text.dropPrefix? "false".toList t with
      | some u, _ => some (.boolean true, u)
      | none, some u => some (.boolean false, u)
      | none, none => numeric? t

/-- A document while it is read: its tables, and the path of the header that was read last. The path
is empty before the first header. -/
structure Draft where
  root : Entries := []
  header : List Text := []

/-- Read one line that is neither blank nor a comment: a header, or a key with its value. What
follows the line is answered with the new draft. -/
def line? (d : Draft) (t : Text) : Option (Draft × Text) :=
  match t with
  | '[' :: '[' :: rest => do
    let (keys, u) ← key? rest
    let u ← Text.dropPrefix? [']', ']'] u
    let (path, key) := splitKey keys
    let root ← Tree.openArrayTable path key d.root
    return ({ root, header := keys }, ← endOfLine? u)
  | '[' :: rest => do
    let (keys, u) ← key? rest
    let u ← Text.dropPrefix? [']'] u
    let (path, key) := splitKey keys
    let root ← Tree.openTable path key d.root
    return ({ root, header := keys }, ← endOfLine? u)
  | t => do
    let (keys, u) ← key? t
    let u ← Text.dropPrefix? ['='] u
    let (v, u) ← value? maxDepth (skipSpace u)
    let (path, key) := splitKey keys
    let root ← Tree.defineUnder d.header path key v d.root
    return ({ d with root }, ← endOfLine? u)

def lines? (d : Draft) (t : Text) : Option Draft :=
  match skipLines t with
  | [] => some d
  | u =>
    match line? d u with
    | none => none
    | some (d, rest) => if rest.length < t.length then lines? d rest else none
termination_by t.length

/-- The entries of a document. They come in the order in which they were first named. -/
def parse? (t : Text) : Option (List (Text × Value)) :=
  -- The document may start with a byte order mark.
  let t := (Text.dropPrefix? ['\ufeff'] t).getD t
  (lines? {} t).map fun d => Tree.entriesToValues d.root

end Reflow.Toml
