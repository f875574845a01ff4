import Reflow.Comment.Block
import Reflow.Comment.Line
import Reflow.Markdown.Block
import Reflow.Segment

/-!
Rewrapping of a whole text: comments of a source text, paragraphs of a document, or all of a plain
text.
-/

namespace Reflow.Source

/-- Every line ending becomes a line feed. So a rewrapped text has no carriage returns. -/
def unifyEndings : Text → Text
  | [] => []
  | '\r' :: '\n' :: t => '\n' :: unifyEndings t
  | '\r' :: t => '\n' :: unifyEndings t
  | c :: t => c :: unifyEndings t

def renderSegment (L : Layout) (lang : Language) (s : Segment) : List Text :=
  match s.kind with
  | .code => s.lines
  | .lineComment marker => LineComment.render L lang s.indent marker s.lines
  | .blockComment opening closing =>
    BlockComment.render L s.indent opening closing lang.blockGutter s.lines

def renderLines (L : Layout) (lang : Language) (lines : List Text) : List Text :=
  (Segment.ofSource lang lines).flatMap (renderSegment L lang)

/-- Rewrap a text whose lines end in line feeds. Document ranges are those that `locate` finds.
Without a language, the whole text is prose. -/
def render (locate : Text → List LineRange) (L : Layout) (lang : Option Language) (t : Text) :
    Text :=
  match lang with
  | none => Text.unlines (wrap L [] [] t)
  | some lang =>
    if lang.isDocument then Document.rewrap L (locate t) t
    else Text.unlines (renderLines L lang (Text.lines t))

def endsInLineFeed (t : Text) : Bool := t.getLast? == some '\n'

/-- Rewrap a text. A line feed at its end is kept. None is added behind one that is there
already. -/
def rewrapWith (locate : Text → List LineRange) (L : Layout) (lang : Option Language) (t : Text) :
    Text :=
  let t := unifyEndings t
  let out := render locate L lang t
  if endsInLineFeed t && !endsInLineFeed out then out ++ ['\n'] else out

/-- Rewrap a text, where documents are in Markdown. This is the function that a run applies to every
file. -/
def rewrap (L : Layout) (lang : Option Language) (t : Text) : Text :=
  rewrapWith Markdown.paragraphRanges L lang t

/-- Rewrap the bytes of a text in UTF-8; any other bytes are kept. Nothing else is done to bytes: a
byte order mark is text. -/
def rewrapBytes (L : Layout) (lang : Option Language) (bytes : ByteArray) : ByteArray :=
  match String.fromUTF8? bytes with
  | some s => (String.ofList (rewrap L lang s.toList)).toUTF8
  | none => bytes

end Reflow.Source
