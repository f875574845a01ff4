import Reflow.Markdown.Interruption

/-!
Definitions of link references. A definition is a label in brackets, a colon, a destination and
perhaps a title; it may run over several lines of what would otherwise be a paragraph. Definitions
stand at the front of a paragraph: the lines behind them continue it.
-/

namespace Reflow.Markdown

/-- How far a definition has been read: the rest of a line, the lines below it, and the number of
lines that were left behind. Lines that are left behind count as part of the definition once it is
complete. -/
structure Reading where
  rest : Text
  line : Line
  below : List Line
  taken : Nat
  deriving DecidableEq, Repr

namespace Reading

/-- Go to the next line, unless it would end a paragraph or turn it into a heading. The containers
of the paragraph are read off its front. -/
def nextLine? (n : Nesting) (r : Reading) : Option Reading :=
  match r.below with
  | [] => none
  | l :: ls =>
    let (c, inside) := n.enter l.text
    let (after, missing) := c.skip 4
    let place : Place := { rest := after.rest, line := l, below := ls }
    if 0 < missing && (interruptsParagraph n inside place || isUnderline after.rest) then none
    else if isBlankRest after.rest then none
    else some { rest := after.rest, line := l, below := ls, taken := r.taken + 1 }

theorem length_below_of_nextLine? {n : Nesting} {r s : Reading} (h : r.nextLine? n = some s) :
    s.below.length < r.below.length := by
  unfold nextLine? at h
  split at h
  · simp at h
  next l ls heq =>
    simp only at h
    split at h
    · simp at h
    · split at h
      · simp at h
      · cases h
        simp [heq]

/-- Read spaces, and one line end at most; the second part says whether one was read. A second line
end would be a blank line, which ends the paragraph. -/
def skipSpace? (n : Nesting) (r : Reading) : Option (Reading × Bool) :=
  let rest := r.rest.dropWhile isLineSpace
  if !rest.isEmpty then some ({ r with rest }, false)
  else (r.nextLine? n).map fun s => ({ s with rest := s.rest.dropWhile isLineSpace }, true)

/-- The length of a line break in a label: the line ending of `r`, and what stands before the place
`s` in the next line. It counts towards the length of the label. -/
def breakLength (r s : Reading) : Nat :=
  r.line.ending.length + (s.line.text.length - s.rest.length)

/-- The length that a character adds to a label. Visible characters of the ASCII range are free. -/
def labelLength (c : Char) : Nat :=
  if isLineSpace c then 1 else if c.toNat < 128 then 0 else c.utf8Size

/-- Read a label up to its closing bracket. Its length is less than a thousand, where an escaped
character adds two; at least one character is visible, and an opening bracket is escaped. Which
label it is has no effect on the lines that it takes. -/
def afterLabel? (n : Nesting) (length : Nat) (visible : Bool) (r : Reading) : Option Reading :=
  if 1000 ≤ length then none
  else
    match hr : r.rest with
    | [] =>
      match _hn : r.nextLine? n with
      | none => none
      | some s => afterLabel? n (length + r.breakLength s) visible s
    | '[' :: _ => none
    | ']' :: t => if visible then some { r with rest := t } else none
    | '\\' :: c :: t =>
      if isAsciiPunctuation c then afterLabel? n (length + 2) true { r with rest := t }
      else afterLabel? n length true { r with rest := c :: t }
    | c :: t =>
      afterLabel? n (length + labelLength c) (visible || !isLineSpace c) { r with rest := t }
termination_by (r.below.length, r.rest.length)
decreasing_by
  · exact Prod.Lex.left _ _ (length_below_of_nextLine? _hn)
  · exact Prod.Lex.right _ (by simp only [hr, List.length_cons]; omega)
  · exact Prod.Lex.right _ (by simp only [hr, List.length_cons]; omega)
  · exact Prod.Lex.right _ (by simp only [hr, List.length_cons]; omega)

def afterPointy? : Text → Option Text
  | [] => none
  | '<' :: _ => none
  | '>' :: t => some t
  | '\\' :: c :: t => if isAsciiPunctuation c then afterPointy? t else afterPointy? (c :: t)
  | _ :: t => afterPointy? t

/-- Parentheses may be opened in a destination while at most so many are open. A destination that
opens one more is none. -/
def maxDepth : Nat := 1

/-- What follows a destination that ends at a blank, with `depth` parentheses open. A closing
parenthesis that was not opened ends it as well. -/
def afterBare? (depth : Nat) : Text → Option Text
  | [] => if depth = 0 then some [] else none
  | '\\' :: c :: t =>
    if isAsciiPunctuation c then afterBare? depth t else afterBare? depth (c :: t)
  | '(' :: t => if maxDepth < depth then none else afterBare? (depth + 1) t
  | ')' :: t => if depth = 0 then some (')' :: t) else afterBare? (depth - 1) t
  | c :: t =>
    if c.toNat ≤ 0x20 then if depth = 0 then some (c :: t) else none else afterBare? depth t

def afterDestination? : Text → Option Text
  | '<' :: t => afterPointy? t
  | t => (afterBare? 0 t).filter fun rest => rest.length < t.length

/-- Read a title up to the character that closes it. It may run over several lines, none of which is
blank. -/
def afterTitle? (n : Nesting) (closing : Char) (r : Reading) : Option Reading :=
  match _hr : r.rest with
  | [] =>
    match _hn : r.nextLine? n with
    | none => none
    | some s => afterTitle? n closing s
  | '\\' :: _ :: t => afterTitle? n closing { r with rest := t }
  | c :: t =>
    if c = closing then some { r with rest := t }
    else if c = '(' && closing = ')' then none
    else afterTitle? n closing { r with rest := t }
termination_by (r.below.length, r.rest.length)
decreasing_by
  · exact Prod.Lex.left _ _ (length_below_of_nextLine? _hn)
  · exact Prod.Lex.right _ (by simp only [_hr, List.length_cons]; omega)
  · exact Prod.Lex.right _ (by simp [_hr])

def title? (n : Nesting) (r : Reading) : Option Reading :=
  match r.rest with
  | '"' :: t => afterTitle? n '"' { r with rest := t }
  | '\'' :: t => afterTitle? n '\'' { r with rest := t }
  | '(' :: t => afterTitle? n ')' { r with rest := t }
  | _ => none

/-- Read the end of a definition, whose destination ends at `r`: a title, or nothing. If a title
does not end its line, the definition may still end before it. -/
def afterTail? (n : Nesting) (r : Reading) : Option Nat :=
  match r.skipSpace? n with
  | none => some r.taken
  | some (s, brokeLine) =>
    if !brokeLine && s.rest.length == r.rest.length then none
    else
      let whole := ((s.title? n).filter fun e => isBlankRest e.rest).map Reading.taken
      -- A line of its own that is no title does not belong to the definition.
      if brokeLine then some (whole.getD r.taken) else whole

end Reading

/-- The number of lines after the first that a definition of a link reference takes, if one starts
at the place. A line that merely looks like one at its start is text. -/
def definition? (n : Nesting) (p : Place) : Option Nat :=
  match p.rest with
  | '[' :: t => do
    let start : Reading := { rest := t, line := p.line, below := p.below, taken := 0 }
    let label ← start.afterLabel? n 0 false
    let t ← Text.dropPrefix? [':'] label.rest
    let (r, _) ← { label with rest := t : Reading }.skipSpace? n
    let t ← Reading.afterDestination? r.rest
    { r with rest := t : Reading }.afterTail? n
  | _ => none

/-- Skip the definitions that start at the place: the number of lines they take, and the place of
the text behind them, unless a blank line or another block follows. They are no paragraph, and are
kept as they are. -/
def skipDefinitions (n : Nesting) (p : Place) : Nat × Option Place :=
  match definition? n p with
  | none => (0, some p)
  | some more =>
    match _hb : p.below.drop more with
    | [] => (more + 1, none)
    | l :: below =>
      let (c, inside) := n.enter l.text
      let (after, missing) := c.skip 4
      let next : Place := { rest := after.rest, line := l, below }
      if isBlankRest after.rest || (0 < missing && interruptsParagraph n inside next) then
        (more + 1, none)
      else
        let (count, text) := skipDefinitions n { next with rest := after.skipAll }
        (more + 1 + count, text)
termination_by p.below.length
decreasing_by
  have h := congrArg List.length _hb
  simp only [List.length_drop, List.length_cons] at h
  omega

end Reflow.Markdown
