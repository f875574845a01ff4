import Reflow.Inline.Basic
import Reflow.Text.CharacterClass

/-!
The three kinds of inline markup, each recognised at the front of a text. A recogniser is given the
character before the text, if there is one, and answers the text it covers.
-/

namespace Reflow.Inline

/-- No word ends right before this place. At the edge of the text none does. -/
def wordEnds (neighbour : Option Char) : Bool := !neighbour.any isWordChar

/-- The schemes that begin an automatic link. The first that fits is taken. -/
def schemes : List Text :=
  ["https://", "http://", "ftp://", "file://", "gopher://", "mailto://", "nntp://"].map
  String.toList

def isLinkChar (c : Char) : Bool := !isBlank c && c != '<' && c != '>'

/-- Punctuation that a link does not end with. It may stand inside of one. -/
def isLinkTail (c : Char) : Bool := ".,:;?!'\")]".toList.contains c

/-- An automatic link: a scheme where no word is going on, and all text up to a blank or an angle
bracket, less the punctuation at its end. What is left behind the scheme must not be empty. -/
def link? (before : Option Char) (t : Text) : Option Text :=
  if !wordEnds before then none
  else
    match schemes.findSome? fun s => (Text.dropPrefix? s t).map fun rest => (s, rest) with
    | none => none
    | some (scheme, rest) =>
      let body := Text.dropEndWhile isLinkTail (rest.takeWhile isLinkChar)
      if body.isEmpty then none else some (scheme ++ body)

def isNameStart (c : Char) : Bool := isAsciiLetter c || c == '_'

def isNameChar (c : Char) : Bool := isAsciiAlphanumeric c || c == '_'

def isName : Text → Bool
  | [] => false
  | c :: t => isNameStart c && t.all isNameChar

/-- A part of an import path. -/
def isPathPart (t : Text) : Bool :=
  !t.isEmpty && t.all fun c => isNameChar c || c == '.' || c == '-'

/-- What a reference may name: an identifier behind at most one star, qualified either by an import
path or by up to two selectors. Whether anything of that name exists is not asked. -/
def isReferenceName (t : Text) : Bool :=
  let t := match t with
    | '*' :: rest => rest
    | t => t
  match t.splitOn '/' with
  | [single] => (single.splitOn '.').all isName && (single.splitOn '.').length ≤ 3
  | name :: parts => isName name && parts.all isPathPart
  | [] => false

/-- The name inside a bracketed reference. Brackets in brackets make no reference. -/
def referenceName? : Text → Option Text
  | '[' :: t =>
    match Text.cut? [']'] t with
    | some (name, _) => if isReferenceName name then some name else none
    | none => none
  | _ => none

/-- Characters that may not touch a reference on either side. A reference inside a word is none. -/
def touches (c : Char) : Bool := isAlphanumeric c || c == '_'

/-- A bracketed reference stands alone: no letter or number touches it, and no bracket or colon
follows it. The latter would make it a link of another kind or a definition. -/
def standsAlone (before after : Option Char) : Bool :=
  !before.any touches && !after.any fun c => touches c || c == '(' || c == '[' || c == ':'

/-- The text between two underscores that no word touches from outside. It stays on one line and
begins and ends with something that can be seen. -/
def emphasis? (before : Option Char) : Text → Option Text
  | '_' :: t =>
    match Text.cut? ['_'] t with
    | none => none
    | some (inner, after) =>
      if wordEnds before && wordEnds after.head? && inner.all (· != '\n') &&
          !inner.head?.all isBlank && !inner.getLast?.all isBlank then
        some inner
      else none
  | _ => none

/-- Markup found at the front of a text: the text it covers, and its span. Without a span, the text
is covered so that no markup is looked for inside of it. -/
structure Found where
  covered : Text
  span : Option Span

/-- The markup at the front of a text. Links come first, then references and emphasis, and the first
that fits is taken. -/
def find? (before : Option Char) (t : Text) : Option Found :=
  match link? before t with
  | some url => some { covered := url, span := some (.link [.plain url]) }
  | none =>
    match referenceName? t with
    | some name =>
      -- What has the form of a reference but does not stand alone is covered and has no span.
      let covered := '[' :: name ++ [']']
      let span := if standsAlone before (t.drop covered.length).head? then
        some (.reference [.plain name]) else none
      some { covered, span }
    | none => (emphasis? before t).map fun inner =>
        { covered := '_' :: inner ++ ['_'], span := some (.emphasis inner) }

end Reflow.Inline
