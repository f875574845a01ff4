import Reflow.Paragraph.Packing

/-!
Wrapping of text that may hold several paragraphs. Blank lines separate paragraphs, and a line break
inside a paragraph counts as one space.
-/

namespace Reflow

/-- The paragraphs of a text: runs of lines that are not blank, trimmed and joined by one space. No
paragraph is empty, and blank lines are not counted. -/
def paragraphs (t : Text) : List Text :=
  (((Text.lines t).map Text.trim).splitOnP List.isEmpty |>.filter (!List.isEmpty ·)).map
    (List.intercalate [' '])

/-- Pack one paragraph onto lines behind the margins `first` and `next`. A text without words has no
lines. -/
def wrapParagraph (L : Layout) (first next : Text) (t : Text) : List Text :=
  Packing.write L first next (Packing.divide L first next (Token.ofText t))

/-- Wrap a text. The first line of the first paragraph stands behind `first` and every other line
behind `next`; two paragraphs are separated by `next` without its final spaces. Blank lines at the
edges of the text are dropped. -/
def wrap (L : Layout) (first next : Text) (t : Text) : List Text :=
  match paragraphs t with
  -- A text without words still gives a line.
  | [] => [first]
  | p :: ps =>
    wrapParagraph L first next p ++
      ps.flatMap fun q => Text.dropEndSpaces next :: wrapParagraph L next next q

end Reflow
