import Reflow.Text.Basic

/-!
A paragraph as words, each with the spaces and tabs that stand before it.
-/

namespace Reflow

/-- A word and the gap that preceded it. A word that is read from a text is not empty and holds no
space or tab. -/
structure Token where
  gap : Text
  word : Text
  deriving DecidableEq, Repr

namespace Token

theorem length_dropWhile_le (p : Char → Bool) (t : Text) :
    (t.dropWhile p).length ≤ t.length := by
  induction t with
  | nil => simp
  | cons c t ih =>
      rw [List.dropWhile_cons]
      split
      · simp only [List.length_cons]
        omega
      · exact Nat.le_refl _

/-- The words of a text in order. A gap at the end of the text belongs to no word. The gap of the
first word is the indentation of the text. -/
def ofText (t : Text) : List Token :=
  match _h : t.dropWhile isGap with
  | [] => []
  | c :: rest =>
    { gap := t.takeWhile isGap, word := c :: rest.takeWhile (!isGap ·) } ::
      ofText (rest.dropWhile (!isGap ·))
termination_by t.length
decreasing_by
  have h₁ := length_dropWhile_le isGap t
  have h₂ := length_dropWhile_le (!isGap ·) rest
  rw [_h] at h₁
  simp only [List.length_cons] at h₁
  omega

end Token

end Reflow
