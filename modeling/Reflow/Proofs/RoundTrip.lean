import Reflow.Proofs.Comment.Structured
import Reflow.Proofs.Doc.Canonical

/-!
Canonical blocks are read back from the lines they are written on. Each block is a section of the
page, found again as one span: what stands below it begins with a blank line or, below a paragraph,
with the first item of a list. The text of a paragraph comes back with line breaks for some of its
spaces, and a list with a note of the blank lines that were written before it and inside it.
-/

namespace Reflow.Doc

/-- The text of `p` with line breaks for some of its spaces, read again. Which spaces became line
breaks is left open, since that depends on the page. -/
def Rebroken (p q : List Inline.Span) : Prop :=
  ∃ ls, Inline.flatten p = List.intercalate [' '] ls ∧ q = Inline.parse (Text.unlines ls)

/-- The item comes back with its number and with all of its paragraphs, each of them broken anew. -/
structure Item.ReadsAs (item other : Item) : Prop where
  number : other.number = item.number
  paragraphs : List.Forall₂ Rebroken item.paragraphs other.paragraphs

/-- The items come back, with the blank lines that were written before and between them. The hint of
the original, whether it had blank lines, is not kept but replaced by what was written. -/
structure ItemList.ReadsAs (detached : Bool) (l m : ItemList) : Prop where
  items : List.Forall₂ Item.ReadsAs l.items m.items
  before : m.forceBlankBefore = detached
  between : m.forceBlankBetween = l.blankBetween

/-- The second block is what the first is read back as. `detached` says that a blank line was
written before it. Blocks of different kinds never read as each other. -/
def Block.ReadsAs (detached : Bool) : Block → Block → Prop
  | .paragraph p, .paragraph q => Rebroken p q
  | .heading p, .heading q => q = Inline.parse (Inline.flatten p)
  | .code ls, .code ms => ms = ls
  | .list l, .list m => l.ReadsAs detached m
  | _, _ => False

variable {L : Layout} {bare : Text}

section Lists

/-- An item as it is read from its lines, where each paragraph is broken as it was written. -/
def Item.reread (L : Layout) (bare : Text) (item : Item) : Item where
  number := item.number
  paragraphs := (item.wrapped L bare).map fun p => Inline.parse (Text.unlines p)

section Page

variable {l : ItemList} (h : l.Canonical) {s : Stanza} {rest : List (Bool × Stanza)}
  (hPrinted : ∀ apart, Printed L bare ((apart, s) :: rest))
  (hShows : List.Forall₂ (Stanza.Shows L bare) l.items (s :: rest.map Prod.snd))
include h hPrinted hShows

end Page

end Lists

end Reflow.Doc
