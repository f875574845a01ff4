import Reflow.Markdown.Line
import Reflow.Text.CharacterClass

/-!
Where a block of HTML starts and what ends it.
-/

namespace Reflow.Markdown

inductive HtmlEnd where
  /-- On the line that holds this text. -/
  | mark (t : Text)
  /-- Before a blank line. -/
  | blankLine
  deriving DecidableEq, Repr

namespace Html

/-- Elements whose content is kept as it is up to their closing tag. Blank lines inside of them end
nothing. -/
def rawElements : List Text := ["pre", "style", "script", "textarea"].map String.toList

/-- Elements that start a block wherever they stand. Their names are compared in lower case. -/
def blockElements : List Text := [
  "address", "article", "aside", "base", "basefont", "blockquote", "body", "caption", "center",
  "col", "colgroup", "dd", "details", "dialog", "dir", "div", "dl", "dt", "fieldset",
  "figcaption", "figure", "footer", "form", "frame", "frameset", "h1", "h2", "h3", "h4", "h5",
  "h6", "head", "header", "hr", "html", "iframe", "legend", "li", "link", "main", "menu",
  "menuitem", "nav", "noframes", "ol", "optgroup", "option", "p", "param", "search", "section",
  "summary", "table", "tbody", "td", "tfoot", "th", "thead", "title", "tr", "track", "ul"].map
  String.toList

/-- The text that ends HTML whose start `t`, behind the angle bracket, runs to a fixed mark. The
mark may stand on the same line. -/
def mark? (t : Text) : Option Text :=
  let raw := rawElements.find? fun name =>
    Text.lower (t.take name.length) == name &&
      (t.drop name.length).head?.all fun c => isLineSpace c || c == '>'
  match raw with
  | some name => some ("</".toList ++ name ++ ['>'])
  | none =>
    if Text.startsWith t "!--".toList then some "-->".toList
    else if Text.startsWith t ['?'] then some "?>".toList
    else if Text.startsWith t "![CDATA[".toList then some "]]>".toList
    else
      match t with
      | '!' :: c :: _ => if isAsciiLetter c then some ['>'] else none
      | _ => none

/-- The tag of a block element, opening or closing, starts behind the angle bracket. The tag need
not be complete on this line. -/
def startsBlockElement (t : Text) : Bool :=
  let t := (Text.dropPrefix? ['/'] t).getD t
  let name := t.takeWhile isAsciiAlphanumeric
  let rest := t.dropWhile isAsciiAlphanumeric
  blockElements.contains (Text.lower name) &&
    (rest.head?.all (fun c => isGap c || c == '>') || Text.startsWith rest ['/', '>'])

def isAttributeStart (c : Char) : Bool := isAsciiLetter c || c == '_' || c == ':'

def isAttributeChar (c : Char) : Bool :=
  isAsciiAlphanumeric c || c == '_' || c == '.' || c == ':' || c == '-'

/-- Characters of a value that is not quoted. -/
def isBareValueChar (c : Char) : Bool :=
  !(c == '\'' || c == '"' || c == ' ' || c == '=' || c == '>' || c == '<' || c == '\x60')

/-- What follows the value of an attribute. -/
def afterValue? : Text → Option Text
  | [] => none
  | c :: t =>
    if c == '"' || c == '\'' then (Text.cut? [c] t).map Prod.snd
    else if c == ' ' || c == '=' || c == '>' || c == '<' || c == '\x60' then none
    else some ((c :: t).dropWhile isBareValueChar)

/-- What follows an attribute, with the blank before the next one. The value may be missing. -/
def afterAttribute? : Text → Option Text
  | [] => none
  | c :: t =>
    if isAttributeStart c then
      let rest := t.dropWhile isAttributeChar
      match rest.dropWhile isLineSpace with
      | '=' :: value => afterValue? (value.dropWhile isLineSpace)
      | _ => some rest
    else none

/-- The end of an opening tag behind its name: attributes, each behind a blank, an optional slash
and the closing bracket. The answer is what follows the tag. A tag that does not end on this line is
none. -/
def afterAttributes? (t : Text) : Option Text :=
  match t.dropWhile isLineSpace with
  | [] => none
  | '>' :: rest => some rest
  | '/' :: '>' :: rest => some rest
  | '/' :: _ => none
  | c :: rest =>
    if t.head?.any isLineSpace then
      match afterAttribute? (c :: rest) with
      | none => none
      | some after => if after.length < t.length then afterAttributes? after else none
    else none
termination_by t.length

/-- What follows a complete tag that starts behind the angle bracket. Any name will do. -/
def afterTag? (t : Text) : Option Text :=
  let closing := Text.startsWith t ['/']
  let name := if closing then t.drop 1 else t
  if !name.head?.any isAsciiLetter then none
  else
    let rest := name.dropWhile fun c => isAsciiAlphanumeric c || c == '-'
    if closing then Text.dropPrefix? ['>'] (rest.dropWhile isLineSpace) else afterAttributes? rest

def isLoneTag (t : Text) : Bool := (afterTag? t).any isBlankRest

end Html

/-- The HTML block that a line starts. The line is given behind its indentation, which must be less
than that of code. -/
def htmlStart? (insideParagraph : Bool) : Text → Option HtmlEnd
  | '<' :: t =>
    match Html.mark? t with
    | some m => some (.mark m)
    | none =>
      -- Inside a paragraph a tag that is alone on its line starts no block.
      if Html.startsBlockElement t || (!insideParagraph && Html.isLoneTag t) then some .blankLine
      else none
  | _ => none

end Reflow.Markdown
