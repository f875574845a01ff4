import Reflow.Markdown.Line
import Reflow.Text.CharacterClass

/-!
The first two rows of a table: a heading row, and a delimiter row with the same number of columns.
-/

namespace Reflow.Markdown.Table

/-- What has been read of a delimiter row: the columns that ended, whether the current column is
still empty and whether it has a hyphen, and whether the row has a bar and a hyphen at all. It is
read from left to right in one pass. -/
structure Delimiters where
  columns : Nat := 0
  empty : Bool := true
  hyphenInColumn : Bool := false
  bar : Bool := false
  hyphen : Bool := false
  deriving DecidableEq, Repr

namespace Delimiters

/-- Read one character. -/
def read? (d : Delimiters) (c : Char) : Option Delimiters :=
  if c == ' ' then some d
  else if c == ':' then some { d with empty := false }
  else if c == '-' then some { d with empty := false, hyphenInColumn := true, hyphen := true }
  else if c == '|' then
    -- A column that a bar ends needs a hyphen.
    if d.hyphenInColumn then
      some { d with columns := d.columns + 1, empty := true, hyphenInColumn := false, bar := true }
    else none
  else none

end Delimiters

/-- The number of columns of a delimiter row, which has at least one bar and one hyphen and is
indented by less than four columns. Alignment is passed over. -/
def delimiterColumns? (t : Text) : Option Nat :=
  let indent := t.takeWhile isGap
  let row := t.dropWhile isGap
  if 3 < indent.length || indent.contains '\t' || row.isEmpty then none
  else
    let start : Delimiters × Text := match row with
      | '|' :: rest => ({ bar := true }, rest)
      | row => ({}, row)
    match start.2.foldlM Delimiters.read? start.1 with
    | none => none
    | some d =>
      if d.bar && d.hyphen then some (if d.empty then d.columns else d.columns + 1) else none

/-- The number of bars that no backslash stands before, and what follows the last of them. `escaped`
says that a backslash stands before the text. A bar behind a backslash is text. -/
def bars (escaped : Bool) : Text → Nat × Option Text
  | [] => (0, none)
  | c :: t =>
    let (n, tail) := bars (c == '\\') t
    if c == '|' && !escaped then (n + 1, some (tail.getD t)) else (n, tail)

/-- The number of columns of a heading row: none, if the row has no bars. Cells may be empty. -/
def headingColumns (row : Text) : Nat :=
  let (count, tail) := bars false row
  -- Bars at the edges divide nothing.
  let leading := if Text.startsWith (row.dropWhile isLineSpace) ['|'] then 1 else 0
  let trailing := if tail.all isBlankRest then 0 else 1
  count - leading + trailing

/-- The line ends in a backslash that no other backslash takes the meaning from. -/
def endsInBackslash (t : Text) : Bool := (t.reverse.takeWhile (· == '\\')).length % 2 == 1

/-- The line `row` and the line `below` it start a table. Their columns have to be the same in
number. -/
def starts (row below : Text) : Bool :=
  -- A line break that is written as a backslash keeps the two together as text.
  !endsInBackslash row && (bars false row).1 != 0 &&
    delimiterColumns? below == some (headingColumns row)

/-- The line `row`, which begins with a bar, and the line `below` it end a paragraph as a table
would. Without the bar at its start, the row would be read as a line of the paragraph. -/
def interrupts (row below : Text) : Bool :=
  Text.startsWith row ['|'] && delimiterColumns? below == some (headingColumns row)

/-- A row without cells: at most a bar and blanks behind it. Such a row ends the table. All other
rows go on with it, whatever they hold. -/
def isEmptyRow (row : Text) : Bool := isBlankRest ((Text.dropPrefix? ['|'] row).getD row)

end Reflow.Markdown.Table
