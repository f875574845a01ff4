import Reflow.Text.Basic
import Reflow.Text.CharacterClass

/-!
Shapes of a single line of comment text: rulers, list markers and headings.
-/

namespace Reflow

/-- The characters that a ruler line may be made of. Some of them are marks of lists and headings as
well. -/
def isRulerChar (c : Char) : Bool :=
  c == '=' || c == '-' || c == '*' || c == '#' || c == '~' || c == '+' || c == '_' || c == '.'

/-- A decoration such as `=====`: ruler characters only, at least one, blank edges aside. A single
dash or star is one too. -/
def isDecoration (line : Text) : Bool :=
  let t := Text.trim line
  !t.isEmpty && t.all isRulerChar

/-- What makes a line a list item. -/
inductive ListMarker where
  | bullet (c : Char)
  | number (digits : Text)
  deriving DecidableEq, Repr

namespace ListMarker

def isNumber : ListMarker → Bool
  | bullet _ => false
  | number _ => true

/-- The digits of a numbered marker. -/
def number? : ListMarker → Option Text
  | bullet _ => none
  | number digits => some digits

def isBulletChar (c : Char) : Bool := c == '-' || c == '*' || c == '+' || c == '•'

/-- Text that may follow a marker: it begins with a space or tab and stays on one line. Nothing at
all does not follow, so a bare marker is no item. -/
def isRest : Text → Bool
  | [] => false
  | c :: t => isGap c && t.all (· != '\n')

/-- The marker at the very start of a line and the text behind it. A number is written with a dot or
a closing parenthesis. The line must not be indented. -/
def ofLine? (line : Text) : Option (ListMarker × Text) :=
  match line with
  | [] => none
  | c :: t =>
    if isBulletChar c then
      if isRest t then some (bullet c, t) else none
    else
      let digits := line.takeWhile isAsciiDigit
      match line.dropWhile isAsciiDigit with
      | [] => none
      | d :: rest =>
        if !digits.isEmpty && (d == '.' || d == ')') && isRest rest then
          some (number digits, rest)
        else none

end ListMarker

def startsHeading : Text → Bool
  | '#' :: c :: _ => isGap c
  | _ => false

end Reflow
