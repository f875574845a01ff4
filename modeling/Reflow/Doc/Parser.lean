import Reflow.Doc.Block
import Reflow.Doc.Span
import Reflow.Inline.Parser

/-!
Reading the lines of a structured comment as blocks.
-/

namespace Reflow.Doc

/-- A line of a list starts an item, goes on with one, or is blank. What it is depends on the line
and on the kind of the list alone, not on the lines around it. -/
inductive Entry where
  | item (number : Option Text) (text : Text)
  | text (t : Text)
  | blank
  deriving DecidableEq, Repr

namespace Entry

def isItem : Entry → Bool
  | item .. => true
  | _ => false

def isBlank : Entry → Bool
  | blank => true
  | _ => false

/-- The text that a line adds to its item. A blank line adds none. -/
def text? : Entry → Option Text
  | item _ t => some t
  | text t => some t
  | blank => none

/-- Read a line of a list. Only a marker of the list's kind that is indented no deeper than the
first one starts an item; any other marker is text. So a list has one kind and no lists in it. -/
def ofLine (numbered : Bool) (indent : Nat) (line : Text) : Entry :=
  let whole :=
    let t := Text.trim line
    if t.isEmpty then blank else text t
  match item? line with
  | none => whole
  | some (marker, rest) =>
    if marker.isNumber == numbered && indentWidth line ≤ indent then
      item marker.number? (Text.trim rest)
    else whole

end Entry

/-- The paragraphs of an item: its texts, divided at blank lines. Markup is read in each paragraph
as a whole, across its lines. -/
def itemParagraphs (entries : List Entry) : List (List Inline.Span) :=
  ((entries.map Entry.text?).splitOnP Option.isNone |>.map (·.filterMap id)
    |>.filter (!List.isEmpty ·)).map fun texts => Inline.parse (Text.unlines texts)

/-- The items of a list; entries before the first item belong to none. An item goes on to the next
one. -/
def Item.ofEntries (entries : List Entry) : List Item :=
  match entries with
  | [] => []
  | .item number t :: rest =>
    { number, paragraphs := itemParagraphs (.text t :: rest.takeWhile (!Entry.isItem ·)) } ::
      Item.ofEntries rest
  | _ :: rest => Item.ofEntries rest

/-- A list from the lines of its span. Its first line is an item, since otherwise it would not be
the span of a list. -/
def ItemList.ofLines (forceBlankBefore : Bool) (lines : List Text) : ItemList :=
  -- The first line decides whether the list is numbered.
  let first := lines.head?.getD []
  let numbered := (item? first).any fun item => item.1.isNumber
  let entries := lines.map (Entry.ofLine numbered (indentWidth first))
  { items := Item.ofEntries entries, forceBlankBefore,
    forceBlankBetween := entries.any Entry.isBlank }

/-- The longest text that both texts start with. -/
def commonStart : Text → Text → Text
  | a :: s, b :: t => if a = b then a :: commonStart s t else []
  | _, _ => []

/-- The leading spaces and tabs that all lines share, empty lines aside. Spaces and tabs are
compared as characters and not by width. -/
def sharedIndent (ls : List Text) : Text :=
  match (ls.filter (!List.isEmpty ·)).map fun l => l.takeWhile isGap with
  | [] => []
  | indent :: indents => indents.foldl commonStart indent

def unindent (ls : List Text) : List Text := ls.map (·.drop (sharedIndent ls).length)

/-- The block of a span. `detached` says that a blank line stands before it. Only a list remembers
whether it was detached. -/
def Block.ofSpan (detached : Bool) (s : Span) : Block :=
  match s.kind with
  | .paragraph => .paragraph (Inline.parse (Text.unlines s.lines))
  | .heading => .heading (Inline.parse (Text.trim ((s.lines.head?.getD []).drop 1)))
  | .code => .code (unindent s.lines)
  | .list => .list (ItemList.ofLines detached s.lines)

/-- The blocks of spans, the first of which follows the line before index `stop`. A span is detached
if it does not start right after that line. -/
def blocksFrom (stop : Nat) : List Span → List Block
  | [] => []
  | s :: ss => Block.ofSpan (stop < s.start) s :: blocksFrom s.stop ss

/-- A line of blanks is read as the empty line. -/
def eraseBlank (line : Text) : Text := if Text.allBlank line then [] else line

/-- The blocks of a comment, given without its markers. -/
def parse (lines : List Text) : List Block := blocksFrom 0 (spans (lines.map eraseBlank))

end Reflow.Doc
