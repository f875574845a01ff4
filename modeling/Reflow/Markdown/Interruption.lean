import Reflow.Markdown.Container
import Reflow.Markdown.Html
import Reflow.Markdown.Table

/-!
Which lines end a paragraph. A line that ends none is a continuation of the paragraph, even if it
has left the containers that the paragraph is in.
-/

namespace Reflow.Markdown

/-- A line that is going to be read from `rest` on, with the lines below it. Lines below are needed
for what is only known by the next line, such as a table. -/
structure Place where
  rest : Text
  line : Line
  below : List Line

namespace Place

def untilLineFeed (p : Place) : Text :=
  if p.line.endsInLineFeed then p.rest else p.rest ++ Line.untilLineFeed p.below

def fence? (p : Place) : Option Fence := Markdown.fence? p.rest p.untilLineFeed

/-- A list item starts here and may end a paragraph. `free` says that no paragraph has to be kept
together. Otherwise a number at the start of a line would break up prose. -/
def startsItem (p : Place) (free : Bool) : Bool :=
  match bullet? p.rest with
  | none => false
  | some b =>
    let after := p.rest.drop b.length
    -- An item without text ends no paragraph, nor does one with a number other than one.
    after.head?.all isGap &&
      (free || (b.number.all (· == 1) && !isBlankRest after))

/-- A line that ends a paragraph without starting a table. An underline is not among these, since it
turns the paragraph into a heading. -/
def endsParagraph (p : Place) (free : Bool) : Bool :=
  p.rest.isEmpty || isThematicBreak p.rest || isHashHeading p.rest || p.fence?.isSome ||
    Text.startsWith p.rest ['>'] || p.startsItem free || (htmlStart? true p.rest).isSome

end Place

/-- The line ends the paragraph before it. `inside` says that it stays in all open containers. A
line that leaves a container and interrupts nothing continues the paragraph all the same. -/
def interruptsParagraph (n : Nesting) (inside : Bool) (p : Place) : Bool :=
  p.endsParagraph (!inside) ||
    match p.below with
    | [] => false
    | l :: _ =>
      let (c, stays) := n.enter l.text
      stays && Table.interrupts p.rest c.rest

end Reflow.Markdown
