import Mathlib.Data.List.TakeWhile
import Reflow.Paragraph.Token
import Reflow.Proofs.Text

/-!
The words of a text: what a tokenizer answers is a sequence of proper tokens, and proper tokens
written one after the other are read back.
-/

namespace Reflow.Token

/-- A token as it is read from text: a word without gaps behind a gap without words. Nothing is said
about the length of the gap: the first word of a text may have none. -/
structure Proper (t : Token) : Prop where
  word_ne_nil : t.word ≠ []
  word_solid : ∀ c ∈ t.word, isGap c = false
  gap_open : ∀ c ∈ t.gap, isGap c = true

/-- The text that a token takes up, in the order in which it is read: first the gap, then the
word. -/
def text (t : Token) : Text := t.gap ++ t.word

/-- A text that starts with a gap, if it is not empty. Behind a word this keeps the word from going
on. -/
def OpensWithGap (t : Text) : Prop := ∀ c, t.head? = some c → isGap c = true

/-- A text of gaps only has no words. Other blanks, as a form feed, are not gaps here and would make
a word. -/
theorem ofText_eq_nil {t : Text} (h : ∀ c ∈ t, isGap c = true) : ofText t = [] := by
  rw [ofText]
  split
  · rfl
  next c rest hDrop =>
    rw [List.dropWhile_eq_nil_iff.mpr h] at hDrop
    cases hDrop

/-- A proper token at the front of a text is read first, if its word ends there. The condition on
the rest is needed, since a word that goes on would be read as one with what follows. -/
theorem ofText_append {t : Token} (ht : t.Proper) {rest : Text} (hRest : OpensWithGap rest) :
    ofText (t.text ++ rest) = t :: ofText rest := by
  obtain ⟨c, word, hWord⟩ := List.exists_cons_of_ne_nil ht.word_ne_nil
  have hc : isGap c = false := ht.word_solid c (by simp [hWord])
  have hSolid : ∀ d ∈ word, (!isGap d) = true := fun d hd => by
    simp [ht.word_solid d (by simp [hWord, hd])]
  have hDrop : (t.text ++ rest).dropWhile isGap = c :: (word ++ rest) := by
    rw [text, hWord, List.append_assoc, List.dropWhile_append_of_pos ht.gap_open]
    simp [hc]
  have hTake : (t.text ++ rest).takeWhile isGap = t.gap := by
    rw [text, hWord, List.append_assoc, List.takeWhile_append_of_pos ht.gap_open]
    simp [hc]
  have hStop : rest.takeWhile (!isGap ·) = [] ∧ rest.dropWhile (!isGap ·) = rest := by
    cases rest with
    | nil => simp
    | cons d rest => simp [hRest d rfl]
  rw [ofText]
  split
  next hNil => simp [hDrop] at hNil
  next d rest' hCons =>
    rw [hDrop] at hCons
    cases hCons
    rw [hTake, List.takeWhile_append_of_pos hSolid, List.dropWhile_append_of_pos hSolid, hStop.1,
      hStop.2, List.append_nil, ← hWord]

/-- A text is gaps only, or it starts with a proper token and goes on with a gap. The two cases are
what the reader of words distinguishes, so proofs need not open it. -/
theorem ofText_cases (t : Text) :
    (∀ c ∈ t, isGap c = true) ∨
      ∃ first rest, first.Proper ∧ OpensWithGap rest ∧ t = text first ++ rest := by
  cases hDrop : t.dropWhile isGap with
  | nil => exact Or.inl (List.dropWhile_eq_nil_iff.mp hDrop)
  | cons c body =>
      have hc : isGap c = false := eq_false_of_head?_dropWhile (by rw [hDrop, List.head?_cons])
      refine Or.inr ⟨⟨t.takeWhile isGap, c :: body.takeWhile (!isGap ·)⟩,
        body.dropWhile (!isGap ·), ⟨by simp, ?_, fun d hd => List.mem_takeWhile_imp hd⟩, ?_, ?_⟩
      · intro d hd
        rcases List.mem_cons.mp hd with rfl | hd
        · exact hc
        · simpa using List.mem_takeWhile_imp hd
      · intro d hd
        simpa using eq_false_of_head?_dropWhile hd
      · rw [text, List.append_assoc, List.cons_append, List.takeWhile_append_dropWhile, ← hDrop,
          List.takeWhile_append_dropWhile]

/-- Induction along the words of a text, one token at a time from the front. The case of gaps alone
also stands for the gap behind the last word, which belongs to no token. -/
theorem ofText_induction {motive : Text → Prop}
    (gaps : ∀ t, (∀ c ∈ t, isGap c = true) → motive t)
    (word : ∀ first rest, first.Proper → OpensWithGap rest → motive rest →
      motive (text first ++ rest)) (t : Text) : motive t := by
  induction hn : t.length using Nat.strong_induction_on generalizing t with
  | _ n ih =>
      rcases ofText_cases t with hGaps | ⟨first, rest, hFirst, hRest, rfl⟩
      · exact gaps t hGaps
      · refine word first rest hFirst hRest (ih rest.length ?_ rest rfl)
        have hLength := List.length_pos_iff.mpr hFirst.word_ne_nil
        simp only [text, List.length_append] at hn
        omega

/-- Whatever text they are read from, tokens are proper. The lemmas about lines ask for this and for
nothing else about where their words came from. -/
theorem proper_of_mem_ofText {t : Text} {u : Token} (h : u ∈ ofText t) : u.Proper := by
  induction t using ofText_induction with
  | gaps t hGaps => simp [ofText_eq_nil hGaps] at h
  | word first rest hFirst hRest ih =>
      rw [ofText_append hFirst hRest] at h
      rcases List.mem_cons.mp h with rfl | h
      · exact hFirst
      · exact ih h

end Reflow.Token
