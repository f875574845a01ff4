import Reflow.Text.Basic

/-!
Display columns: where the tab stops are, how wide a text is, and how much room a line has beside
its margin. Widths are counted by a register of `2 ^ 64` states; modulus `0` counts without bound.
Past the end of the register, arithmetic that is not checked starts again at zero, and arithmetic
that is checked stops. `add`, `advance`, `width` and `room` count in the first way, and `add?`,
`advance?`, `width?` and `room?` in the second: they have no result if a sum leaves the register.
-/

namespace Reflow

/-- The page that text is set on. Nothing is required of the three numbers: a column of zero leaves
room for one character on each line. -/
structure Layout where
  /-- The target width of a line, margin included. -/
  column : Nat
  /-- The distance between two tab stops; `0` is read as `1`. -/
  tab : Nat
  /-- Widths are counted modulo this number, and without bound if it is `0`. -/
  modulus : Nat := UInt64.size
  deriving DecidableEq, Repr

namespace Layout

/-- The distance between two tab stops, never zero. Every use of the distance goes through this, so
zero is not treated anywhere else. -/
def stop (L : Layout) : Nat := max L.tab 1

/-- The register counts up to `n`. Without bound it counts up to every number. -/
def Counts (L : Layout) (n : Nat) : Prop := L.modulus = 0 ∨ n < L.modulus

instance (L : Layout) (n : Nat) : Decidable (L.Counts n) := inferInstanceAs (Decidable (_ ∨ _))

/-- Add two widths in the register, where a sum that leaves it starts again at zero. With modulus
zero this is the sum itself. -/
def add (L : Layout) (a b : Nat) : Nat := (a + b) % L.modulus

/-- Add two widths in the register, unless their sum leaves it. Without bound there always is
one. -/
def add? (L : Layout) (a b : Nat) : Option Nat := if L.Counts (a + b) then some (a + b) else none

/-- The column after `c` is written in column `col`: a tab goes to the next stop. A tab in a column
that is a stop goes to the next one. -/
def advance (L : Layout) (col : Nat) (c : Char) : Nat :=
  if c = '\t' then L.add col (L.stop - col % L.stop) else L.add col 1

def width (L : Layout) (t : Text) : Nat := t.foldl L.advance 0

/-- The column after `c` is written in column `col`, unless that column leaves the register. -/
def advance? (L : Layout) (col : Nat) (c : Char) : Option Nat :=
  if c = '\t' then L.add? col (L.stop - col % L.stop) else L.add? col 1

/-- The width of a text, unless a column on the way to its end leaves the register. -/
def width? (L : Layout) (t : Text) : Option Nat := t.foldlM L.advance? 0

/-- The columns left beside a margin; there is always room for one. -/
def room (L : Layout) (margin : Text) : Nat := max (L.column - L.width margin) 1

/-- The columns left beside a margin, unless its width leaves the register. A margin that is wider
than the page leaves one column, as before. -/
def room? (L : Layout) (margin : Text) : Option Nat :=
  (L.width? margin).map fun w => max (L.column - w) 1

@[simp] theorem width_nil (L : Layout) : L.width [] = 0 := rfl

theorem stop_pos (L : Layout) : 0 < L.stop := by
  unfold stop
  omega

end Layout

end Reflow
