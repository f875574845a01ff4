import Reflow.LineShape

/-!
How the lines of a structured comment fall into spans, each the source of one block. Lines are given
without comment markers, and a blank line is the empty one.

A span that starts with an indented line is a list or code and runs on over blank lines. A span that
starts with an unindented line is a list, or a paragraph or heading that ends at the first blank or
indented line. A paragraph whose last lines look like the start of what is indented below them hands
these lines over: they are then read as indented.
-/

namespace Reflow.Doc

def isIndented : Text → Bool
  | [] => false
  | c :: _ => isGap c

/-- The marker of a list item and the text behind it, which may not be blank. The line may be
indented. -/
def item? (line : Text) : Option (ListMarker × Text) :=
  (ListMarker.ofLine? (Text.trim line)).filter fun item => !Text.allBlank item.2

def isItem (line : Text) : Bool := (item? line).isSome

/-- A heading line has text behind its number sign. It is a heading only if it is not indented and
stands alone. -/
def isHeading (line : Text) : Bool := startsHeading line && Text.trim line != ['#']

/-- The width of the leading spaces and tabs, a tab counting as four. The stops of tabs play no part
in this. -/
def indentWidth (line : Text) : Nat :=
  (line.takeWhile isGap).foldr (fun c n => (if c == '\t' then 4 else 1) + n) 0

inductive SpanKind where
  | paragraph | heading | code | list
  deriving DecidableEq, Repr

/-- A span: its kind, the index of its first line, and its lines. The lines are those that its block
is made of; blank lines behind them belong to no span. -/
structure Span where
  kind : SpanKind
  start : Nat
  lines : List Text
  deriving DecidableEq, Repr

namespace Span

/-- The index after the last line. -/
def stop (s : Span) : Nat := s.start + s.lines.length

end Span

/-- How far a span reaches: its kind, the number of lines after its first, and how many of the lines
behind it are to be read as indented. Prose hands lines over, and what a span does not take of them
is handed on. -/
structure Extent where
  kind : SpanKind
  more : Nat
  forced : Nat

/-- The first line behind a run of blanks starts a block of the other indented kind: a list item
behind spaces ends code, and a line behind a tab that is no item ends a list. -/
def switchesKind (list : Bool) (ls : List Text) : Bool :=
  match ls.find? (!List.isEmpty ·) with
  | none => false
  | some next =>
    let tabbed := next.head? == some '\t'
    isIndented next && if list then !isItem next && tabbed else isItem next && !tabbed

/-- How many lines continue an indented span, the first `forced` of which are read as indented.
`itemsToo` says that lines may also be items without indentation. -/
def indentedRun (list itemsToo : Bool) (forced : Nat) : List Text → Nat
  | [] => 0
  | x :: xs =>
    if x.isEmpty then
      -- Items without indentation continue the span up to the first blank line.
      if switchesKind list xs then 0 else indentedRun list false (forced - 1) xs + 1
    else if 0 < forced || isIndented x || (itemsToo && isItem x) then
      indentedRun list itemsToo (forced - 1) xs + 1
    else 0

def dropBlankEnd (ls : List Text) : List Text := (ls.reverse.dropWhile List.isEmpty).reverse

/-- A span whose first line `l` is indented, or read so. Whether it is a list or code depends on
this line alone. -/
def indentedExtent (forced : Nat) (l : Text) (rest : List Text) : Extent :=
  let list := isItem l
  let run := indentedRun list (list && 0 < forced) (forced - 1) rest
  let body := (dropBlankEnd (rest.take run)).length
  -- A closing brace right below belongs to the span.
  let more := if ((rest.drop body).head?.any (Text.startsWith · ['}'])) then body + 1 else body
  { kind := if list then .list else .code, more, forced := forced - 1 - more }

/-- How many lines continue an unindented list: blank lines do so only if an item follows them. Any
other line goes on with the item above it. -/
def itemRun : List Text → Nat
  | [] => 0
  | x :: xs =>
    if !x.isEmpty || (xs.find? (!List.isEmpty ·)).any isItem then itemRun xs + 1 else 0

/-- The line opens the code below it. -/
def opensCode (l : Text) : Bool := l.getLast? == some '{' || l.getLast? == some '\\'

/-- A span whose first line `l` is unindented and no list item. -/
def proseExtent (l : Text) (rest : List Text) : Extent :=
  let run := (rest.takeWhile fun x => !x.isEmpty && !isIndented x).length
  let last := ((l :: rest.take run).getLast?).getD l
  let meetsCode := (rest.drop run).head?.any fun x => !x.isEmpty && !isItem x
  -- The lines at the end that the code takes: the items above it, or the line that opens it.
  let handed :=
    if !meetsCode then 0
    else if isItem last then ((rest.take run).reverse.takeWhile isItem).length
    else if opensCode last then 1
    else 0
  -- A paragraph that hands all of its lines over is none.
  if run < handed then indentedExtent 1 l rest
  else
    let more := run - handed
    let alone := more == 0 && rest.head?.all List.isEmpty
    { kind := if alone && isHeading l then .heading else .paragraph, more, forced := handed }

/-- The span that starts with the line `l`, which is not blank. It is at least one line long, so the
search comes to an end. -/
def extent (forced : Nat) (l : Text) (rest : List Text) : Extent :=
  if 0 < forced || isIndented l then indentedExtent forced l rest
  else if isItem l then { kind := .list, more := itemRun rest, forced := 0 }
  else proseExtent l rest

/-- The spans of the lines from index `start` on, the first `forced` of which are read as indented.
These were handed over by the span before. -/
def spansFrom (start forced : Nat) (ls : List Text) : List Span :=
  match ls with
  | [] => []
  | l :: rest =>
    if l.isEmpty then spansFrom (start + 1) (forced - 1) rest
    else
      let e := extent forced l rest
      { kind := e.kind, start, lines := l :: rest.take e.more } ::
        spansFrom (start + 1 + e.more) e.forced (rest.drop e.more)
termination_by ls.length
decreasing_by all_goals simp; try omega

def spans (ls : List Text) : List Span := spansFrom 0 0 ls

end Reflow.Doc
