import Reflow.Doc.Printer
import Reflow.Language.Basic

/-!
Rewrapping of line comments. Decorations are kept and divide the comment into pieces that are
rewrapped on their own.
-/

namespace Reflow.LineComment

/-- The text of a comment line: without its indentation, its token, and one space behind it. What a
line lacks of these is passed over, so every line has a content. -/
def content (indent base line : Text) : Text :=
  let t := ((Text.splitBytes? (Text.byteLength indent) line).map Prod.snd).getD line
  let t := (Text.dropPrefix? base t).getD t
  (Text.dropPrefix? [' '] t).getD t

/-- A piece of plain comment text behind the margin of indentation and marker. Blank lines at its
edges are kept as bare markers. The text between is wrapped as one text, with blank lines between
its paragraphs. -/
def renderPlain (L : Layout) (indent marker : Text) (contents : List Text) : List Text :=
  let (leading, trailing) := Doc.blankEdges contents
  let bare := indent ++ Text.dropEndSpaces marker
  let margin := indent ++ marker
  let body := Doc.interior contents
  List.replicate leading bare ++
    (if body.isEmpty then [] else wrap L margin margin (Text.unlines body)) ++
    List.replicate trailing bare

def renderPiece (L : Layout) (lang : Language) (indent marker : Text) (contents : List Text) :
    List Text :=
  if lang.hasDocComments marker then
    Doc.render L (indent ++ Text.dropEndSpaces marker) contents
  else renderPlain L indent marker contents

/-- The comment lines `lines`, where `piece` holds the contents of the lines just before them that
are still to be rewrapped. A piece is closed by a decoration or by the end of the run, and what is
before a decoration is never joined with what is behind it. -/
def renderFrom (L : Layout) (lang : Language) (indent marker : Text) (piece : List Text) :
    List Text → List Text
  | [] => if piece.isEmpty then [] else renderPiece L lang indent marker piece
  | line :: lines =>
    let t := content indent (Text.dropEndSpaces marker) line
    if isDecoration t then
      (if piece.isEmpty then [] else renderPiece L lang indent marker piece) ++
        line :: renderFrom L lang indent marker [] lines
    else renderFrom L lang indent marker (piece ++ [t]) lines

def render (L : Layout) (lang : Language) (indent marker : Text) (lines : List Text) : List Text :=
  renderFrom L lang indent marker [] lines

end Reflow.LineComment
