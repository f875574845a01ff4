import Reflow.Document
import Reflow.Markdown.Reference

/-!
The block structure of a Markdown document, as far as it decides which lines are paragraphs that no
other block holds. The document is read block by block: a line opens and closes containers, and what
is left of it starts a block that takes so many of the lines below.
-/

namespace Reflow.Markdown

/-- Open the containers that start at the cursor. One line may open several of them, an item inside
a quote for instance. Without a cursor in the answer, nothing is left of the line. -/
def openContainers (n : Nesting) (c : Cursor) : Nesting × Option Cursor :=
  let (start, left) := c.skip 4
  if left = 0 then (n, some c)
  else
    match itemStart? (4 - left) start with
    | some item =>
      let n := n.openItem item.delimiter item.indent
      -- Behind a marker without text there is nothing left to read.
      if isBlankRest item.content.rest then ({ n with bareItem := true }, none)
      else if item.content.rest.length < c.rest.length then openContainers n item.content
      else (n, some item.content)
    | none =>
      match start.read? '>' with
      | some after =>
        let after := (after.skip 1).1
        if after.rest.length < c.rest.length then openContainers n.openQuote after
        else (n.openQuote, some after)
      | none => (n, some c)
termination_by c.rest.length

/-- How many lines continue a paragraph, and whether the last of them makes it a heading. A line may
continue it though it has left the open containers. -/
def paragraphRun (n : Nesting) : List Line → Nat × Bool
  | [] => (0, false)
  | l :: ls =>
    let (c, inside) := n.enter l.text
    let (after, missing) := c.skip 4
    if 0 < missing && inside && isUnderline after.rest then (1, true)
    else if 0 < missing &&
        interruptsParagraph n inside { rest := after.rest, line := l, below := ls } then (0, false)
    else if after.skipAll.isEmpty then (0, false)
    else
      let (run, heading) := paragraphRun n ls
      (run + 1, heading)

/-- How many lines are rows of a table. A table goes on without bars, up to an empty row or a line
that would end a paragraph. -/
def tableRun (n : Nesting) : List Line → Nat
  | [] => 0
  | l :: ls =>
    let (c, inside) := n.enter l.text
    let place : Place := { rest := c.skipAll, line := l, below := ls }
    if inside && !place.endsParagraph true && !Table.isEmptyRow place.rest then tableRun n ls + 1
    else 0

/-- How many lines are indented code, and whether the last of them is blank. -/
def codeRun (n : Nesting) (open_ blank : Bool) : List Line → Nat × Bool
  | [] => (0, blank)
  | l :: ls =>
    -- A carriage return alone ends no line of code, so that the line before is still open.
    if open_ then
      let (run, last) := codeRun n (!l.endsInLineFeed) blank ls
      (run + 1, last)
    else
      let (c, inside) := n.enter l.text
      let (after, missing) := c.skip 4
      if inside && (missing = 0 || after.atEnd) then
        let (run, last) := codeRun n (!l.endsInLineFeed) (isBlankRest after.rest) ls
        (run + 1, last)
      else (0, blank)

/-- How many lines belong to code behind a fence that is indented by `indent` columns. Without a
closing fence, the code reaches to the end of its container. -/
def fenceRun (n : Nesting) (fence : Fence) (indent : Nat) (open_ : Bool) : List Line → Nat
  | [] => 0
  | l :: ls =>
    if open_ then fenceRun n fence indent (!l.endsInLineFeed) ls + 1
    else
      let (c, inside) := n.enter l.text
      let (start, missing) := (c.skip indent).1.skip (4 - indent)
      if !inside then 0
      else if 0 < missing && fence.closes start.rest then 1
      else fenceRun n fence indent (!l.endsInLineFeed) ls + 1

/-- How many lines belong to HTML that ends with the line that holds `mark`; `current` is the part
of the last line that was read. -/
def markRun (n : Nesting) (mark : Text) (current : Text) (open_ : Bool) : List Line → Nat
  | [] => 0
  | l :: ls =>
    if open_ then markRun n mark (current ++ '\r' :: l.text) (!l.endsInLineFeed) ls + 1
    else if Text.contains current mark then 0
    else
      let (c, inside) := n.enter l.text
      if inside then markRun n mark c.rest (!l.endsInLineFeed) ls + 1 else 0

/-- How many lines belong to HTML that ends before a blank line. -/
def htmlRun (n : Nesting) (open_ : Bool) : List Line → Nat
  | [] => 0
  | l :: ls =>
    if open_ then htmlRun n (!l.endsInLineFeed) ls + 1
    else
      let (c, inside) := n.enter l.text
      if inside && !isBlankRest c.rest then htmlRun n (!l.endsInLineFeed) ls + 1 else 0

/-- The start of a table: the line at `rest` and the line below it. The line below must stay in the
open containers. -/
def startsTable (n : Nesting) (rest : Text) : List Line → Bool
  | [] => false
  | l :: _ =>
    let (c, inside) := n.enter l.text
    inside && Table.starts rest c.rest

/-- A block that holds no other blocks: the lines below that belong to it, the nesting behind it,
and where its text starts if it is a paragraph: behind how many lines, and with what on the line.
Lines of any other block are only counted. -/
structure Leaf where
  more : Nat
  nesting : Nesting
  paragraph : Option (Nat × Text) := none

/-- The block that starts at a place where no other block does: definitions, and behind them a
table, a heading or a paragraph. If nothing follows the definitions, they are a block by
themselves. -/
def Leaf.ofText (n : Nesting) (p : Place) : Leaf :=
  match skipDefinitions n p with
  | (count, none) => { more := count - 1, nesting := n }
  | (count, some text) =>
    if startsTable n text.rest text.below then
      { more := count + 1 + tableRun n (text.below.drop 1), nesting := n }
    else
      let (run, heading) := paragraphRun n text.below
      let paragraph := if heading then none else some (count, text.rest)
      { more := count + run, nesting := n, paragraph }

def Leaf.start (n : Nesting) (c : Cursor) (l : Line) (below : List Line) : Leaf :=
  let (start, left) := c.skip 4
  let place : Place := { rest := start.rest, line := l, below }
  let unended := !l.endsInLineFeed
  if left = 0 then
    let (more, blank) := codeRun n unended false below
    { more, nesting := { n with blank } }
  else
    match htmlStart? false start.rest with
    | some (.mark m) => { more := markRun n m start.rest unended below, nesting := n }
    | some .blankLine => { more := htmlRun n unended below, nesting := n }
    | none =>
      if isThematicBreak start.rest || isHashHeading start.rest then { more := 0, nesting := n }
      else
        match place.fence? with
        | some fence => { more := fenceRun n fence (4 - left) unended below, nesting := n }
        | none => Leaf.ofText n place

def Leaf.read (n : Nesting) (l : Line) (below : List Line) : Leaf :=
  let (count, c) := Container.enter { rest := l.text } n.open_.reverse
  match openContainers (n.closeTo count) c with
  | (n, none) => { more := 0, nesting := n }
  | (n, some c) =>
    if isBlankRest c.rest then { more := 0, nesting := n.passBlank }
    else Leaf.start n.closeList c l below

def lineFeeds (ls : List Line) : Nat := (ls.filter Line.endsInLineFeed).length

/-- The lines of a paragraph that starts on line `line` with the text `t`, less the blank ones at
its end. -/
def paragraphRange? (line : Nat) (t : Text) : Option LineRange :=
  let t := Text.trimEnd t
  if t.isEmpty then none else some { start := line, stop := line + t.count '\n' + 1 }

/-- The lines of a paragraph in a block that takes `lines` from line `line` of the document on. A
block that is no paragraph has no range. -/
def Leaf.range? (leaf : Leaf) (line : Nat) (lines : List Line) : Option LineRange :=
  leaf.paragraph.bind fun (count, t) =>
    match lines.drop count with
    | [] => none
    | l :: rest =>
      paragraphRange? (line + lineFeeds (lines.take count))
        (t ++ l.ending ++ rest.flatMap Line.whole)

/-- The paragraphs that no other block holds, in lines that start at line `line` of the document.
Ranges come in the order of the document, as each block is read from behind the one before. -/
def rangesFrom (n : Nesting) (line : Nat) (lines : List Line) : List LineRange :=
  match lines with
  | [] => []
  | l :: below =>
    let leaf := Leaf.read n l below
    let taken := l :: below.take leaf.more
    let range := if leaf.nesting.open_.isEmpty then leaf.range? line taken else none
    range.toList ++ rangesFrom leaf.nesting (line + lineFeeds taken) (below.drop leaf.more)
termination_by lines.length
decreasing_by simp only [List.length_drop, List.length_cons]; omega

/-- The lines of the top-level paragraphs of a Markdown document. These are the only lines of a
document that are rewrapped. -/
def paragraphRanges (t : Text) : List LineRange := rangesFrom {} 0 (Line.ofText t)

end Reflow.Markdown
