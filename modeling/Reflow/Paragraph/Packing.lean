import Reflow.Layout
import Reflow.Paragraph.Token

/-!
Greedy packing of words onto lines. `divide` decides which words share a line, and `lineText` writes
a line; how a division is chosen and how it is written are separate, so that other divisions of the
same words can be compared with this one.
-/

namespace Reflow.Packing

/-- The columns that a gap takes inside a line, at least one. It is measured as if the gap began a
line, although a tab may be of another width where it stands. -/
def gapWidth (L : Layout) (t : Token) : Nat := max (L.width t.gap) 1

/-- The width of a line of width `w` after one more word. The sum is formed in the register. -/
def extend (L : Layout) (w : Nat) (t : Token) : Nat :=
  L.add (L.add w (gapWidth L t)) (L.width t.word)

/-- The words that still fit on a line of width `w`, and the words that do not. Filling stops at the
first word that does not fit, even if a later one would. -/
def fill (L : Layout) (room : Nat) (w : Nat) : List Token → List Token × List Token
  | [] => ([], [])
  | t :: ts =>
    if extend L w t ≤ room then
      let (line, rest) := fill L room (extend L w t) ts
      (t :: line, rest)
    else ([], t :: ts)

/-- Filling a line keeps every word, in order. -/
theorem fill_append (L : Layout) (room w : Nat) (ts : List Token) :
    (fill L room w ts).1 ++ (fill L room w ts).2 = ts := by
  induction ts generalizing w with
  | nil => rfl
  | cons t ts ih =>
      rw [fill]
      split
      · simpa using ih (extend L w t)
      · rfl

theorem length_fill_snd_le (L : Layout) (room w : Nat) (ts : List Token) :
    (fill L room w ts).2.length ≤ ts.length := by
  have h := congrArg List.length (fill_append L room w ts)
  rw [List.length_append] at h
  omega

/-- Divide words into lines: each line takes the next word, and then every word that still fits. The
first line stands beside the margin `first` and all others beside `next`. A line takes its first
word even if that is wider than the room. -/
def divide (L : Layout) (first next : Text) : List Token → List (List Token)
  | [] => []
  | t :: ts =>
    (t :: (fill L (L.room first) (L.width t.word) ts).1) ::
      divide L next next (fill L (L.room first) (L.width t.word) ts).2
termination_by ts => ts.length
decreasing_by
  have h := length_fill_snd_le L (L.room first) (L.width t.word) ts
  simp only [List.length_cons]
  omega

/-- What stands between a word and the word before it on the same line: the gap as it was written,
or one space for a gap of no width. A gap between two words has a width, unless that is lost in the
register. -/
def spacer (L : Layout) (t : Token) : Text := if 0 < L.width t.gap then t.gap else [' ']

def lineText (L : Layout) : List Token → Text
  | [] => []
  | t :: ts => t.word ++ ts.flatMap fun u => spacer L u ++ u.word

/-- Write each line behind its margin. Margins are written as they are, also in front of a single
word. -/
def write (L : Layout) (first next : Text) : List (List Token) → List Text
  | [] => []
  | l :: ls => (first ++ lineText L l) :: ls.map fun m => next ++ lineText L m

/-- Dividing into lines keeps every word, in order. -/
theorem flatten_divide (L : Layout) (first next : Text) (ts : List Token) :
    (divide L first next ts).flatten = ts := by
  fun_induction divide L first next ts with
  | case1 => rfl
  | case2 first t ts ih => simp [ih, fill_append]

end Reflow.Packing
