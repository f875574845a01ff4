import Reflow.Proofs.Doc.Page

/-!
Canonical blocks: words with single spaces between them, no paragraph that begins like a heading or
a list item, no code that begins like a list, and no two lists or blocks of code in a row.
-/

namespace Reflow

theorem isWord_of_mem_words {t w : Text} (hw : w ∈ Text.words t) : IsWord w := by
  obtain ⟨hPart, hNe⟩ := List.mem_filter.mp hw
  exact ⟨by simpa using hNe, fun c hc => (mem_of_mem_splitOnP hPart hc).2⟩

/-- At least one word, and a single space between each two. A phrase has no blanks at its edges. -/
def IsPhrase (t : Text) : Prop := t ≠ [] ∧ List.intercalate [' '] (Text.words t) = t

instance (t : Text) : Decidable (IsPhrase t) := inferInstanceAs (Decidable (_ ∧ _))

theorem words_intercalate {ws : List Text} (hws : ∀ w ∈ ws, IsWord w) :
    Text.words (List.intercalate [' '] ws) = ws := by
  induction ws with
  | nil => rfl
  | cons w ws ih =>
      obtain ⟨hw, hRest⟩ := List.forall_mem_cons.mp hws
      cases ws with
      | nil => rw [List.intercalate_singleton, hw.words]
      | cons v ws =>
          rw [List.intercalate_cons_cons, List.append_assoc, List.singleton_append,
            blankBlind_words.append_blank _ _ _ rfl, ih hRest, hw.words, List.singleton_append]

/-- The phrases are what words make when they are joined by single spaces. The definition is the one
that can be evaluated, and this the one that proofs use. -/
theorem isPhrase_iff {t : Text} : IsPhrase t ↔
    ∃ ws : List Text, ws ≠ [] ∧ (∀ w ∈ ws, IsWord w) ∧ t = List.intercalate [' '] ws := by
  constructor
  · intro h
    refine ⟨Text.words t, fun hNil => h.1 ?_, fun w => isWord_of_mem_words, h.2.symm⟩
    rw [← h.2, hNil]
    rfl
  · rintro ⟨ws, hNe, hws, rfl⟩
    refine ⟨fun hNil => hNe ?_, by rw [words_intercalate hws]⟩
    rw [← words_intercalate hws, hNil, blankBlind_words.nil]

namespace IsPhrase

variable {t : Text} (h : IsPhrase t)
include h

theorem trim_eq : Text.trim t = t := by
  have hTrim := trim_intercalate_words fun w => isWord_of_mem_words (t := t)
  rwa [h.2] at hTrim

theorem isTextLine : Doc.IsTextLine t where
  spaced := by
    have hSpaced := singleSpaced_intercalate fun w => isWord_of_mem_words (t := t)
    rwa [h.2] at hSpaced
  visible := by
    rw [Bool.eq_false_iff, ne_eq, ← Text.trim_eq_nil_iff, h.trim_eq]
    exact h.1
  feed := by
    intro hFeed
    rw [← h.2] at hFeed
    rcases mem_intercalate hFeed with hSpace | ⟨w, hw, hFeed⟩
    · cases hSpace
    · cases (isWord_of_mem_words hw).visible _ hFeed

end IsPhrase

namespace Doc

/-- A word that makes a heading or a list item of the line it begins. Other words do not, wherever
they are broken to. -/
def isMark (w : Text) : Bool :=
  w == ['#'] || (w.length == 1 && w.all ListMarker.isBulletChar) ||
    (!w.dropLast.isEmpty && w.dropLast.all isAsciiDigit &&
      (w.getLast? == some '.' || w.getLast? == some ')'))

section FirstWord

variable {w rest : Text} (hw : IsWord w) (hRest : ∀ c, rest.head? = some c → isBlank c = true)
include hw hRest

end FirstWord

/-- The item is numbered by digits, or not at all, and each paragraph is a phrase. Its paragraphs
may begin with marks, as they stand behind a bullet or hang below one. -/
def Item.Canonical (item : Item) : Prop :=
  (∀ n ∈ item.number, n ≠ [] ∧ n.all isAsciiDigit = true) ∧
    item.paragraphs ≠ [] ∧ ∀ p ∈ item.paragraphs, IsPhrase (Inline.flatten p)

instance (item : Item) : Decidable item.Canonical := inferInstanceAs (Decidable (_ ∧ _ ∧ _))

/-- All items are numbered or none is, and only a list with room for a blank line asks for one.
Where an item has several paragraphs a blank line is written in any case. -/
def ItemList.Canonical (l : ItemList) : Prop :=
  l.items ≠ [] ∧ (∀ item ∈ l.items, item.Canonical) ∧
    ((∀ item ∈ l.items, item.number.isSome = true) ∨
      ∀ item ∈ l.items, item.number.isSome = false) ∧
    (l.forceBlankBetween = true →
      2 ≤ l.items.length ∨ ∃ item ∈ l.items, 2 ≤ item.paragraphs.length)

instance (l : ItemList) : Decidable l.Canonical := inferInstanceAs (Decidable (_ ∧ _ ∧ _ ∧ _))

/-- Code starts and ends with a line that is not blank, its blank lines are empty, it does not start
with a list item, and neither a space nor a tab stands before all other lines. The last two clauses
say that nothing would be taken off as shared indentation. -/
def CanonicalCode (ls : List Text) : Prop :=
  ls.head?.any (fun l => !Text.allBlank l && !isItem l) = true ∧
    ls.getLast?.any (!Text.allBlank ·) = true ∧
    (∀ l ∈ ls, l = [] ∨ Text.allBlank l = false) ∧
    (∃ l ∈ ls, l ≠ [] ∧ l.head? ≠ some ' ') ∧ ∃ l ∈ ls, l ≠ [] ∧ l.head? ≠ some '\t'

instance (ls : List Text) : Decidable (CanonicalCode ls) :=
  inferInstanceAs (Decidable (_ ∧ _ ∧ _ ∧ _ ∧ _))

/-- A paragraph must not begin with a mark, as its first line would be read as an item or a heading.
Headings and items may. -/
def Block.Canonical : Block → Prop
  | .paragraph p => IsPhrase (Inline.flatten p) ∧
      (Text.words (Inline.flatten p)).head?.all (!isMark ·) = true
  | .heading p => IsPhrase (Inline.flatten p)
  | .code ls => CanonicalCode ls
  | .list l => l.Canonical

instance : (b : Block) → Decidable b.Canonical
  | .paragraph _ => inferInstanceAs (Decidable (_ ∧ _))
  | .heading p => inferInstanceAs (Decidable (IsPhrase (Inline.flatten p)))
  | .code ls => inferInstanceAs (Decidable (CanonicalCode ls))
  | .list l => inferInstanceAs (Decidable l.Canonical)

/-- Canonical blocks, in an order in which each of them keeps its lines. Two lists, or two blocks of
code, would be read back as one. -/
def Canonical (bs : List Block) : Prop :=
  (∀ b ∈ bs, b.Canonical) ∧
    bs.IsChain fun b c => b.kind = c.kind → b.kind ≠ .code ∧ b.kind ≠ .list

instance (bs : List Block) : Decidable (Canonical bs) := inferInstanceAs (Decidable (_ ∧ _))

end Doc

end Reflow
