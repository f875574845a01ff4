import Reflow.Language.Basic

/-!
The lines of a source text as segments of code, line comments and block comments.
-/

namespace Reflow

inductive SegmentKind where
  | code
  /-- Line comments that share their indentation and token. The marker is the token, and a space
  behind it if any of the lines has one. -/
  | lineComment (marker : Text)
  | blockComment (opening closing : Text)
  deriving DecidableEq, Repr

/-- A run of lines of one kind. The indentation is that of the first line, and empty for code. A
block comment keeps all of its lines, whatever their indentation. -/
structure Segment where
  kind : SegmentKind
  indent : Text
  lines : List Text
  deriving DecidableEq, Repr

namespace Segment

def isComment (s : Segment) : Bool := s.kind != .code

/-- The indentation and marker of a line comment. A line that is an instruction to a tool is no
comment in this sense. -/
def matchLine? (lang : Language) (line : Text) : Option (Text × Text) :=
  let (indent, body) := Text.splitIndent line
  if body.isEmpty then none
  else
    match lang.lineMarkers.find? (Text.startsWith body) with
    | none => none
    | some token =>
      let rest := body.drop token.length
      -- An instruction to a tool is no comment.
      if lang.directives.any (Text.startsWith rest) then none
      else some (indent, if Text.startsWith rest [' '] then token ++ [' '] else token)

/-- A line comment behind `indent` and the token `base`, and its marker. The marker says whether a
space follows the token. -/
def marker? (lang : Language) (indent base : Text) (line : Text) : Option Text :=
  match matchLine? lang line with
  | some (i, marker) => if i = indent && Text.dropEndSpaces marker = base then some marker else none
  | none => none

/-- The opening token that a line starts with, the token that closes it, and the rest of the line.
There may be no closing token, and then this opens no comment. -/
structure Opening where
  indent : Text
  opening : Text
  closing : Option Text
  rest : Text
  deriving DecidableEq, Repr

def opening? (lang : Language) (line : Text) : Option Opening :=
  let (indent, body) := Text.splitIndent line
  match lang.blockStart.findIdx? (Text.startsWith body) with
  | none => none
  | some index =>
    let opening := (lang.blockStart[index]?).getD []
    some { indent, opening, closing := lang.blockEndFor index, rest := body.drop opening.length }

def startsComment (lang : Language) (line : Text) : Bool :=
  (opening? lang line).isSome || (matchLine? lang line).isSome

/-- The longer of two markers, the first if they are equally long. It is how a run of comments
settles on one marker. -/
def longer (a b : Text) : Text := if a.length < b.length then b else a

/-- The lines of the comment that `line` opens: how many lines after it belong to it. There is no
answer if the comment is never closed. -/
def blockMore? (o : Opening) (closing : Text) (rest : List Text) : Option Nat :=
  if Text.contains o.rest closing then some 0
  else (rest.findIdx? (Text.contains · closing)).map (· + 1)

/-- The segment that starts with `line`: what it is, and how many of the lines after it belong to
it. It has at least one line. Whether a block comment starts is asked before line comments are. -/
def first (lang : Language) (line : Text) (rest : List Text) : Segment :=
  let block := (opening? lang line).bind fun o => o.closing.map fun closing => (o, closing)
  match block with
  | some (o, closing) =>
    match blockMore? o closing rest with
    | some more =>
      { kind := .blockComment o.opening closing, indent := o.indent
        lines := line :: rest.take more }
    -- A block comment that is never closed is code up to the end.
    | none => { kind := .code, indent := [], lines := line :: rest }
  | none =>
    match matchLine? lang line with
    | some (indent, marker) =>
      let base := Text.dropEndSpaces marker
      let run := rest.takeWhile fun l => (marker? lang indent base l).isSome
      let markers := run.filterMap (marker? lang indent base)
      { kind := .lineComment (markers.foldl longer marker), indent, lines := line :: run }
    | none =>
      { kind := .code, indent := [], lines := line :: rest.takeWhile (!startsComment lang ·) }

/-- Put a segment before others; code before code becomes one segment. Two comments next to each
other stay two segments. -/
def attach (s : Segment) : List Segment → List Segment
  | [] => [s]
  | t :: ts =>
    if s.kind = .code && t.kind = .code then { s with lines := s.lines ++ t.lines } :: ts
    else s :: t :: ts

/-- The segments of a source text, each as long as it can be. Their lines are those of the text in
order. -/
def ofSource (lang : Language) (lines : List Text) : List Segment :=
  match lines with
  | [] => []
  | line :: rest =>
    let s := first lang line rest
    attach s (ofSource lang (rest.drop (s.lines.length - 1)))
termination_by lines.length
decreasing_by simp only [List.length_drop, List.length_cons]; omega

/-- The segments of lines; without a language all lines are code. There is no empty segment. -/
def classify (lang : Option Language) (lines : List Text) : List Segment :=
  match lang with
  | some lang => ofSource lang lines
  | none => if lines.isEmpty then [] else [{ kind := .code, indent := [], lines }]

end Segment

end Reflow
