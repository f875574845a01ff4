import Reflow.Doc.Parser
import Reflow.Paragraph.Wrap

/-!
Writing blocks as comment lines, and rewrapping a structured comment by reading and writing it.
-/

namespace Reflow.Doc

def textMargin (bare : Text) : Text := bare ++ [' ']

def bulletText (item : Item) : Text :=
  match item.number with
  | some n => n ++ ['.', ' ']
  | none => ['-', ' ']

/-- An item: its first line behind the bullet, all others in line with the text behind the bullet,
and a bare marker between two paragraphs. An item without a paragraph has no line at all. -/
def itemLines (L : Layout) (bare : Text) (item : Item) : List Text :=
  let first := textMargin bare ++ [' ', ' '] ++ bulletText item
  let next := textMargin bare ++ List.replicate (2 + (bulletText item).length) ' '
  match item.paragraphs with
  | [] => []
  | p :: ps =>
    wrap L first next (Inline.flatten p) ++
      ps.flatMap fun q => bare :: wrap L next next (Inline.flatten q)

def listLines (L : Layout) (bare : Text) (l : ItemList) : List Text :=
  match l.items with
  | [] => []
  | item :: items =>
    itemLines L bare item ++ items.flatMap fun item =>
      (if l.blankBetween then [bare] else []) ++ itemLines L bare item

/-- Lines of one block. -/
def blockLines (L : Layout) (bare : Text) : Block → List Text
  | .paragraph spans => wrap L (textMargin bare) (textMargin bare) (Inline.flatten spans)
  | .heading spans => [textMargin bare ++ ['#', ' '] ++ Inline.flatten spans]
  -- Code stands behind a tab, but its blank lines are bare markers.
  | .code ls => ls.map fun l => if l.isEmpty then bare else bare ++ '\t' :: l
  | .list l => listLines L bare l

/-- A bare marker separates two blocks, unless the second is a list that may stand right below a
paragraph. Without it the two would be read back as one block or as other blocks. -/
def needsSeparator : Block → Block → Bool
  | .paragraph _, .list l => l.blankBefore
  | _, _ => true

def blocksLines (L : Layout) (bare : Text) : List Block → List Text
  | [] => []
  | [b] => blockLines L bare b
  | b :: c :: bs =>
    blockLines L bare b ++ (if needsSeparator b c then [bare] else []) ++
      blocksLines L bare (c :: bs)

/-- The number of blank lines at the start and at the end. No line is counted twice. -/
def blankEdges (lines : List Text) : Nat × Nat :=
  let leading := (lines.takeWhile Text.allBlank).length
  -- If all lines are blank they all stand at the start.
  if leading == lines.length then (leading, 0)
  else (leading, (lines.reverse.takeWhile Text.allBlank).length)

def interior (lines : List Text) : List Text :=
  let (leading, trailing) := blankEdges lines
  (lines.take (lines.length - trailing)).drop leading

/-- Rewrap a structured comment behind the marker `bare`, indentation included. Blank lines at its
edges are kept as bare markers. Between the edges, the comment is read as blocks and these are
written. -/
def render (L : Layout) (bare : Text) (lines : List Text) : List Text :=
  let (leading, trailing) := blankEdges lines
  List.replicate leading bare ++ blocksLines L bare (parse (interior lines)) ++
    List.replicate trailing bare

end Reflow.Doc
