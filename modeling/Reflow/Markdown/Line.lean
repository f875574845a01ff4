import Reflow.Text.Basic

/-!
The lines of a Markdown document and a cursor that reads indentation from the start of a line. A
line ends in a line feed, a carriage return, or both; the columns of a tab can be read one by one.
-/

namespace Reflow.Markdown

/-- A line and the characters that end it, of which the last line of a document may have none. In a
line of a document, neither a line feed nor a return stands before the ending. -/
structure Line where
  text : Text
  ending : Text
  deriving DecidableEq, Repr

namespace Line

/-- The line as it stands in the document. -/
def whole (l : Line) : Text := l.text ++ l.ending

def endsInLineFeed (l : Line) : Bool := l.ending.getLast? == some '\n'

/-- Put a character in front of the first line. Without any line it becomes one. -/
def prepend (c : Char) : List Line → List Line
  | [] => [{ text := [c], ending := [] }]
  | l :: ls => { l with text := c :: l.text } :: ls

/-- The lines of a document; a document that ends in a line ending has no line behind it. A return
and a line feed behind it are one ending. -/
def ofText : Text → List Line
  | [] => []
  | '\r' :: '\n' :: t => { text := [], ending := ['\r', '\n'] } :: ofText t
  | '\r' :: t => { text := [], ending := ['\r'] } :: ofText t
  | '\n' :: t => { text := [], ending := ['\n'] } :: ofText t
  | c :: t => prepend c (ofText t)

theorem flatMap_whole_prepend (c : Char) (ls : List Line) :
    (prepend c ls).flatMap whole = c :: ls.flatMap whole := by
  cases ls <;> simp [prepend, whole]

/-- Dividing a document into lines loses nothing. So ranges of lines can be given back to the
text. -/
theorem flatMap_whole_ofText (t : Text) : (ofText t).flatMap whole = t := by
  fun_induction ofText t with
  | case1 => rfl
  | case2 t ih => simp [whole, ih]
  | case3 t _ ih => simp [whole, ih]
  | case4 t ih => simp [whole, ih]
  | case5 c t _ _ _ ih => rw [flatMap_whole_prepend, ih]

/-- The text of the first lines up to the first line feed. What returns divide is put together
again, without them. -/
def untilLineFeed : List Line → Text
  | [] => []
  | l :: ls => if l.endsInLineFeed then l.text else l.text ++ untilLineFeed ls

end Line

/-- The characters that a blank line is made of. Other blanks of Unicode are visible to Markdown. -/
def isLineSpace (c : Char) : Bool := c == ' ' || c == '\t' || c == '\x0b' || c == '\x0c'

def isBlankRest (t : Text) : Bool := t.all isLineSpace

/-- A place in a line from which indentation is read. A tab may be read in part, if an indentation
ends inside of it. -/
structure Cursor where
  rest : Text
  /-- The columns passed since the start of the line or since the last tab. -/
  offset : Nat := 0
  /-- Columns of the last tab that have not been read yet. -/
  pending : Nat := 0
  deriving DecidableEq, Repr

namespace Cursor

/-- Read up to `n` columns of spaces and tabs; the second part counts the columns that were not
there. Tabs stop at every fourth column. -/
def skipFrom (n offset pending : Nat) : Text → Cursor × Nat
  | [] => ({ rest := [], offset, pending }, n)
  | c :: t =>
    if n = 0 then ({ rest := c :: t, offset, pending }, 0)
    else if c = ' ' then skipFrom (n - 1) (offset + 1) pending t
    else if c = '\t' then
      let columns := 4 - offset % 4
      skipFrom (n - min columns n) 0 (columns - min columns n) t
    else ({ rest := c :: t, offset, pending }, n)

/-- Read up to `n` columns of indentation; the second part counts the columns that were not
there. -/
def skip (n : Nat) (c : Cursor) : Cursor × Nat :=
  let ready := min c.pending n
  skipFrom (n - ready) c.offset (c.pending - ready) c.rest

def atEnd (c : Cursor) : Bool := c.rest.isEmpty

def skipAll (c : Cursor) : Text := c.rest.dropWhile isGap

def read? (ch : Char) (c : Cursor) : Option Cursor :=
  match c.rest with
  | [] => none
  | d :: t => if d = ch then some { c with rest := t, offset := c.offset + 1 } else none

/-- Read `n` characters that are neither spaces nor tabs. -/
def drop (n : Nat) (c : Cursor) : Cursor := { c with rest := c.rest.drop n, offset := c.offset + n }

end Cursor

end Reflow.Markdown
