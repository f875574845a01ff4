import Reflow.Paragraph.Checked
import Reflow.Source

/-!
Rewrapping with checked arithmetic. Widths are counted only where a text is wrapped, so a rewrapping
has a result exactly if every text that it wraps can be counted. These texts are listed here, with
the margins of their lines, for every way in which a comment or a document is written.
-/

namespace Reflow

/-- A text that is wrapped, and the margins of its lines. What a text is wrapped to depends on
nothing else but the layout. -/
structure Wrapping where
  first : Text
  next : Text
  text : Text
  deriving DecidableEq, Repr

namespace Wrapping

def lines (L : Layout) (w : Wrapping) : List Text := wrap L w.first w.next w.text

/-- Checked arithmetic gets through with the text. It need not fit: a word that is wider than the
column can be counted all the same. -/
def isCounted (L : Layout) (w : Wrapping) : Bool := (wrap? L w.first w.next w.text).isSome

end Wrapping

/-- What is written where some texts are wrapped, unless one of them cannot be counted. The result
itself is the unchecked one, so the two can differ only in whether there is a result. -/
def checked? {α : Type} (L : Layout) (ws : List Wrapping) (out : α) : Option α :=
  if ws.all (Wrapping.isCounted L) then some out else none

namespace Doc

/-- The paragraphs of an item. The first stands behind the bullet, all others in line with it. The
second margin has a column for every character of the bullet, not for its width. -/
def itemWrappings (bare : Text) (item : Item) : List Wrapping :=
  let first := textMargin bare ++ [' ', ' '] ++ bulletText item
  let next := textMargin bare ++ List.replicate (2 + (bulletText item).length) ' '
  match item.paragraphs with
  | [] => []
  | p :: ps => ⟨first, next, Inline.flatten p⟩ :: ps.map fun q => ⟨next, next, Inline.flatten q⟩

/-- Headings and code are not wrapped. Of a list, every paragraph of every item is wrapped. -/
def blockWrappings (bare : Text) : Block → List Wrapping
  | .paragraph spans => [⟨textMargin bare, textMargin bare, Inline.flatten spans⟩]
  | .heading _ => []
  | .code _ => []
  | .list l => l.items.flatMap (itemWrappings bare)

def wrappings (bare : Text) (lines : List Text) : List Wrapping :=
  (parse (interior lines)).flatMap (blockWrappings bare)

/-- Rewrap a structured comment, unless a count leaves the register. -/
def render? (L : Layout) (bare : Text) (lines : List Text) : Option (List Text) :=
  checked? L (wrappings bare lines) (render L bare lines)

end Doc

namespace LineComment

def pieceWrappings (lang : Language) (indent marker : Text) (contents : List Text) :
    List Wrapping :=
  if lang.hasDocComments marker then Doc.wrappings (indent ++ Text.dropEndSpaces marker) contents
  else
    let margin := indent ++ marker
    let body := Doc.interior contents
    if body.isEmpty then [] else [⟨margin, margin, Text.unlines body⟩]

/-- The texts of the comment lines `lines` behind the contents `piece`. Decorations end a piece.
They are texts of pieces, and a piece is written as soon as a decoration or the end of the run
closes it. -/
def wrappingsFrom (lang : Language) (indent marker : Text) (piece : List Text) :
    List Text → List Wrapping
  | [] => if piece.isEmpty then [] else pieceWrappings lang indent marker piece
  | line :: lines =>
    let t := content indent (Text.dropEndSpaces marker) line
    if isDecoration t then
      (if piece.isEmpty then [] else pieceWrappings lang indent marker piece) ++
        wrappingsFrom lang indent marker [] lines
    else wrappingsFrom lang indent marker (piece ++ [t]) lines

def wrappings (lang : Language) (indent marker : Text) (lines : List Text) : List Wrapping :=
  wrappingsFrom lang indent marker [] lines

/-- Rewrap a run of line comments, unless a count leaves the register. -/
def render? (L : Layout) (lang : Language) (indent marker : Text) (lines : List Text) :
    Option (List Text) :=
  checked? L (wrappings lang indent marker lines) (render L lang indent marker lines)

end LineComment

namespace BlockComment

/-- The text between the tokens of a comment, if the comment is rewrapped and holds any. A comment
that is kept as it is wraps nothing, and its widths are not counted. -/
def wrappingsOfLines (indent opening closing gutter first : Text) (middle : List Text)
    (last : Text) : List Wrapping :=
  match Text.cut? closing (Text.splitIndent last).2 with
  | none => []
  | some (before, after) =>
    let text := Text.unlines (unlessEmpty (splitFirst opening first).2 ++
      middle.map interiorText ++ unlessEmpty (lastText before))
    let margin := indent ++ gutter
    if !Text.allBlank after || Text.allBlank text then [] else [⟨margin, margin, text⟩]

def wrappings (indent opening closing gutter : Text) (lines : List Text) : List Wrapping :=
  match lines with
  | [] => []
  | [_] => []
  | first :: second :: rest =>
    wrappingsOfLines indent opening closing gutter first ((second :: rest).dropLast)
      ((second :: rest).getLast (List.cons_ne_nil _ _))

/-- Rewrap a block comment, unless a count leaves the register. -/
def render? (L : Layout) (indent opening closing gutter : Text) (lines : List Text) :
    Option (List Text) :=
  checked? L (wrappings indent opening closing gutter lines)
    (render L indent opening closing gutter lines)

end BlockComment

namespace Document

/-- The texts of the ranges that are wrapped, those from index `next` on. A range that is out of
order, empty or beyond the text is passed over, as it is where the document is written. -/
def wrappingsFrom (lines : List Text) (next : Nat) : List LineRange → List Wrapping
  | [] => []
  | r :: rs =>
    let stop := min r.stop lines.length
    if r.start < next || stop ≤ r.start then wrappingsFrom lines next rs
    else ⟨[], [], Text.unlines (slice lines r.start stop)⟩ :: wrappingsFrom lines stop rs

def wrappings (ranges : List LineRange) (text : Text) : List Wrapping :=
  wrappingsFrom (Text.lines text) 0 ranges

/-- Rewrap the given ranges of a document, unless a count leaves the register. -/
def rewrap? (L : Layout) (ranges : List LineRange) (text : Text) : Option Text :=
  checked? L (wrappings ranges text) (rewrap L ranges text)

end Document

namespace Source

def segmentWrappings (lang : Language) (s : Segment) : List Wrapping :=
  match s.kind with
  | .code => []
  | .lineComment marker => LineComment.wrappings lang s.indent marker s.lines
  | .blockComment opening closing =>
    BlockComment.wrappings s.indent opening closing lang.blockGutter s.lines

/-- The texts that are wrapped in a text whose lines end in line feeds. Which of the three ways a
text is taken apart depends on the language alone. -/
def wrappings (locate : Text → List LineRange) (lang : Option Language) (t : Text) :
    List Wrapping :=
  match lang with
  | none => [⟨[], [], t⟩]
  | some lang =>
    if lang.isDocument then Document.wrappings (locate t) t
    else (Segment.ofSource lang (Text.lines t)).flatMap (segmentWrappings lang)

/-- Rewrap a text, unless a count leaves the register. The ranges of a document come from `locate`,
whose own work is not counted. -/
def rewrapWith? (locate : Text → List LineRange) (L : Layout) (lang : Option Language) (t : Text) :
    Option Text :=
  checked? L (wrappings locate lang (unifyEndings t)) (rewrapWith locate L lang t)

/-- Rewrap a text, where documents are in Markdown, unless a count leaves the register. -/
def rewrap? (L : Layout) (lang : Option Language) (t : Text) : Option Text :=
  rewrapWith? Markdown.paragraphRanges L lang t

/-- Rewrap the bytes of a text in UTF-8, unless a count leaves the register; any other bytes are
kept. -/
def rewrapBytes? (L : Layout) (lang : Option Language) (bytes : ByteArray) : Option ByteArray :=
  match String.fromUTF8? bytes with
  | some s => (rewrap? L lang s.toList).map fun out => (String.ofList out).toUTF8
  | none => some bytes

end Source

end Reflow
