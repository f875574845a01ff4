import Reflow.Inline.Basic

/-!
The blocks that a structured comment is made of.
-/

namespace Reflow.Doc

/-- A list item: its number, unless it is a bullet, and its paragraphs. The text of a number is kept
as it was written, leading zeros included. -/
structure Item where
  number : Option Text
  paragraphs : List (List Inline.Span)
  deriving Repr

structure ItemList where
  items : List Item
  /-- A blank line stood between the list and the block before it. -/
  forceBlankBefore : Bool
  /-- A blank line stood somewhere inside the list. -/
  forceBlankBetween : Bool
  deriving Repr

inductive Block where
  | paragraph (spans : List Inline.Span)
  | heading (spans : List Inline.Span)
  /-- Code without its common indentation; a blank line of it is empty. -/
  | code (lines : List Text)
  | list (l : ItemList)
  deriving Repr

namespace ItemList

/-- The items are set apart by blank lines: one stood between them, or an item does not have exactly
one paragraph. This holds for all items of a list together. -/
def blankBetween (l : ItemList) : Bool :=
  l.forceBlankBetween || l.items.any fun item => item.paragraphs.length != 1

/-- The list is set apart by a blank line from a paragraph before it. From a block of any other kind
it always is. -/
def blankBefore (l : ItemList) : Bool := l.forceBlankBefore || l.blankBetween

end ItemList

end Reflow.Doc
