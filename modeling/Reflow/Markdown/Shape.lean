import Reflow.Markdown.Line
import Reflow.Text.CharacterClass

/-!
Shapes of a line, read behind its containers and its indentation: thematic breaks, headings, code
fences and list items.
-/

namespace Reflow.Markdown

/-- Three or more stars, hyphens or underscores, with spaces and tabs between them. All of them are
the same character. -/
def isThematicBreak (t : Text) : Bool :=
  match t with
  | [] => false
  | c :: _ =>
    (c == '*' || c == '-' || c == '_') && t.all (fun d => d == c || isGap d) && 3 ≤ t.count c

/-- One to six number signs, and a blank or the end of the line. -/
def isHashHeading (t : Text) : Bool :=
  let level := (t.takeWhile (· == '#')).length
  let next := (t.dropWhile (· == '#')).head?
  1 ≤ level && level ≤ 6 && next.all fun c => isLineSpace c

/-- A line of equals signs or of hyphens that turns the paragraph above into a heading. One of them
is enough. -/
def isUnderline (t : Text) : Bool :=
  match t with
  | [] => false
  | c :: _ => (c == '=' || c == '-') && isBlankRest (t.dropWhile (· == c))

/-- A code fence: its character and how many of them it has. Only a fence of the same character and
at least this length closes the code. -/
structure Fence where
  char : Char
  length : Nat
  deriving DecidableEq, Repr

/-- The fence that opens code; `whole` is the line from the fence up to its line feed. Three
characters are the least. -/
def fence? (t whole : Text) : Option Fence :=
  match t with
  | [] => none
  | c :: _ =>
    let length := (t.takeWhile (· == c)).length
    -- No backtick may follow a fence of backticks.
    let tick := c == '\x60'
    if (tick || c == '~') && 3 ≤ length && !(tick && List.elem c (whole.drop length)) then
      some { char := c, length }
    else none

/-- The line closes code that `fence` opened. It may be longer than that, and only spaces may follow
it. -/
def Fence.closes (fence : Fence) (t : Text) : Bool :=
  fence.length ≤ (t.takeWhile (· == fence.char)).length &&
    (t.dropWhile (· == fence.char)).all (· == ' ')

/-- A list marker at the front of a line: its last character, its length, and the number of an
ordered item. The number has at most nine digits. -/
structure Bullet where
  delimiter : Char
  length : Nat
  number : Option Nat
  deriving DecidableEq, Repr

def decimalValue (digits : Text) : Nat := digits.foldl (fun n c => 10 * n + (c.toNat - 48)) 0

/-- The list marker at the front of a line, whatever follows it. That a blank has to follow it is
asked elsewhere. -/
def bullet? (t : Text) : Option Bullet :=
  match t with
  | [] => none
  | c :: _ =>
    if c == '-' || c == '+' || c == '*' then some { delimiter := c, length := 1, number := none }
    else
      let digits := t.takeWhile isAsciiDigit
      match t.dropWhile isAsciiDigit with
      | [] => none
      | d :: _ =>
        if 1 ≤ digits.length && digits.length ≤ 9 && (d == '.' || d == ')') then
          some { delimiter := d, length := digits.length + 1, number := some (decimalValue digits) }
        else none

end Reflow.Markdown
