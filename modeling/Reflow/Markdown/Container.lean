import Reflow.Markdown.Shape

/-!
Block quotes and lists, the blocks that hold other blocks, and which of them a line continues,
closes and opens.
-/

namespace Reflow.Markdown

inductive Container where
  | quote
  /-- A list; its items share the character that ends their markers. -/
  | list (tight : Bool) (delimiter : Char)
  /-- A list item, whose content is indented by that many columns. -/
  | item (indent : Nat)
  deriving DecidableEq, Repr

namespace Container

/-- Read what a line needs to stay in a container. A blank line stays in an item, and in a list
every line does. A quote needs its mark on every line of its own, so a line without one can only
continue a paragraph in it. -/
def continue? (c : Cursor) : Container → Option Cursor
  | quote => ((c.skip 3).1.read? '>').map fun after => (after.skip 1).1
  | list .. => some c
  | item indent =>
    let (after, missing) := c.skip indent
    if missing = 0 || after.atEnd then some after else none

/-- How many containers, the outermost first, a line stays in, and where its content starts. Behind
the first container that the line leaves, the others are not looked at. -/
def enter (c : Cursor) : List Container → Nat × Cursor
  | [] => (0, c)
  | k :: ks =>
    match k.continue? c with
    | none => (0, c)
    | some after =>
      let (n, inner) := enter after ks
      (n + 1, inner)

end Container

/-- The containers that are open, the innermost first, and what is known of the last lines. This is
all that is carried from one line of a document to the next. -/
structure Nesting where
  open_ : List Container := []
  /-- The last marker started an item without text on its line. -/
  bareItem : Bool := false
  /-- The last line was blank. -/
  blank : Bool := false
  deriving DecidableEq, Repr

namespace Nesting

/-- Where the content of a line starts, and whether the line stays in all open containers.
Containers that the line opens are not among these. -/
def enter (n : Nesting) (t : Text) : Cursor × Bool :=
  let (count, c) := Container.enter { rest := t } n.open_.reverse
  (c, count == n.open_.length)

def close (n : Nesting) : Nesting :=
  match n.open_ with
  | [] => n
  | .list true _ :: ks => { n with open_ := ks, bareItem := false }
  | _ :: ks => { n with open_ := ks }

def closeTo (n : Nesting) (count : Nat) : Nesting := Nat.repeat close (n.open_.length - count) n

/-- An item that starts with two blank lines ends there. Any other item may go on behind blank
lines. -/
def closeBareItem (n : Nesting) : Nesting :=
  let n' := match n.open_ with
    | .item _ :: _ => if n.bareItem && n.blank then n.close else n
    | _ => n
  { n' with bareItem := false }

/-- The list around the innermost container is no longer tight. A tight list takes back the note of
an item without text when it closes, any other one leaves it. -/
def loosen (n : Nesting) : Nesting :=
  match n.open_ with
  | k :: .list _ d :: ks => { n with open_ := k :: .list false d :: ks }
  | _ => n

/-- Something other than a list item follows: a list whose item has ended is closed. -/
def closeList (n : Nesting) : Nesting :=
  let n := n.closeBareItem
  let n := match n.open_ with
    | .list .. :: _ => n.close
    | _ => n
  if n.blank then { n.loosen with blank := false } else n

/-- Open an item of a list whose markers end in `delimiter`: the list is continued, or a new one
starts. Another delimiter starts another list. -/
def openItem (n : Nesting) (delimiter : Char) (indent : Nat) : Nesting :=
  let n := n.closeBareItem
  let start (n : Nesting) : Nesting :=
    { n with open_ := .list true delimiter :: n.open_, blank := false }
  let n := match n.open_ with
    | [] => start n
    | .list tight d :: ks =>
      if d = delimiter then { n with open_ := .list (tight && !n.blank) d :: ks, blank := false }
      else start n.closeList
    | _ => start n.closeList
  { n with open_ := .item indent :: n.open_ }

def openQuote (n : Nesting) : Nesting :=
  let n := n.closeList
  { n with open_ := .quote :: n.open_ }

/-- The nesting behind a blank line. A blank line closes no list; what follows it does. -/
def passBlank (n : Nesting) : Nesting :=
  match n.open_ with
  | .quote :: _ => n
  -- An item that has no text yet then takes lines of any indentation.
  | .item _ :: ks => if n.bareItem then { n with open_ := .item 0 :: ks, blank := true }
    else { n with blank := true }
  | _ => { n with blank := true }

end Nesting

/-- A list item that starts at the cursor: the character that ends its marker, the indentation of
its content, and the place of the content. Its number is not kept. -/
structure ItemStart where
  delimiter : Char
  indent : Nat
  content : Cursor
  deriving DecidableEq, Repr

/-- The list item that starts at the cursor, which is indented by `outer` columns. A thematic break
has the form of an item too, and comes first. -/
def itemStart? (outer : Nat) (c : Cursor) : Option ItemStart :=
  if isThematicBreak c.rest then none
  else
    match bullet? c.rest with
    | none => none
    | some b =>
      let (after, missing) := (c.drop b.length).skip 1
      if missing = 0 || after.atEnd then
        let indent := outer + b.length + 1
        if isBlankRest after.rest then
          some { delimiter := b.delimiter, indent, content := after }
        else
          -- Up to four spaces behind the marker belong to the indentation of the content.
          let (content, left) := after.skip 4
          if left = 0 then some { delimiter := b.delimiter, indent, content := after }
          else some { delimiter := b.delimiter, indent := indent + (4 - left), content }
      else none

end Reflow.Markdown
