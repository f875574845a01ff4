import Reflow.Paragraph.Wrap

/-!
Rewrapping of block comments into one form: the opening token on a line of its own, the text behind
a gutter, and the closing token on a line of its own.
-/

namespace Reflow.BlockComment

/-- A line between the first and the last, without indentation and the star of an old gutter. Only
one star is taken, and only one space behind it. -/
def interiorText (line : Text) : Text :=
  let (_, t) := Text.splitIndent line
  ((Text.dropPrefix? ['*', ' '] t).or (Text.dropPrefix? ['*'] t)).getD t

def isStar (c : Char) : Bool := c == '*'

def splitFirst (opening line : Text) : Text × Text :=
  let (_, t) := Text.splitIndent line
  let (token, rest) := (Text.splitBytes? (Text.byteLength opening) t).getD (t, [])
  (token ++ rest.takeWhile isStar, Text.trim (rest.dropWhile isStar))

def lastText (before : Text) : Text := Text.trim ((Text.trim before).dropWhile isStar)

/-- A text, or nothing for the empty one. It keeps an empty first or last line from becoming a blank
line of the text. -/
def unlessEmpty (t : Text) : List Text := if t.isEmpty then [] else [t]

/-- Rewrap a comment of the lines `first`, `middle` and `last`. Unless it is kept, its tokens stand
on lines of their own afterwards, even if no text was beside them. -/
def renderLines (L : Layout) (indent opening closing gutter : Text)
    (first : Text) (middle : List Text) (last : Text) : List Text :=
  match Text.cut? closing (Text.splitIndent last).2 with
  -- The comment is kept as it is if the last line does not close it, or if code follows on it.
  | none => first :: middle ++ [last]
  | some (before, after) =>
    if !Text.allBlank after then first :: middle ++ [last]
    else
      let (token, firstText) := splitFirst opening first
      let text := Text.unlines
        (unlessEmpty firstText ++ middle.map interiorText ++ unlessEmpty (lastText before))
      let margin := indent ++ gutter
      (indent ++ token) :: (if Text.allBlank text then [] else wrap L margin margin text) ++
        [indent ++ ' ' :: closing]

/-- Rewrap a block comment. -/
def render (L : Layout) (indent opening closing gutter : Text) (lines : List Text) : List Text :=
  match lines with
  | [] => []
  -- A comment of a single line is kept as it is.
  | [line] => [line]
  | first :: second :: rest =>
    renderLines L indent opening closing gutter first
      ((second :: rest).dropLast) ((second :: rest).getLast (by simp))

end Reflow.BlockComment
