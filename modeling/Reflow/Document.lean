import Reflow.Paragraph.Wrap

/-!
Rewrapping the lines of a document that belong to given ranges. Who found the ranges does not
matter: ranges that are empty, reversed, out of order or behind the end are passed over.
-/

namespace Reflow

/-- The lines from index `start` on and before index `stop`. It may be empty, or reversed, or reach
beyond the document. -/
structure LineRange where
  start : Nat
  stop : Nat
  deriving DecidableEq, Repr

namespace Document

def slice (lines : List Text) (start stop : Nat) : List Text := (lines.take stop).drop start

/-- The lines from index `next` on, with every range wrapped that starts there or later. What lies
between two ranges, and what lies behind the last one, is kept line by line. -/
def rewrapFrom (L : Layout) (lines : List Text) (next : Nat) : List LineRange → List Text
  | [] => lines.drop next
  | r :: rs =>
    let stop := min r.stop lines.length
    if r.start < next || stop ≤ r.start then rewrapFrom L lines next rs
    else
      slice lines next r.start ++ wrap L [] [] (Text.unlines (slice lines r.start stop)) ++
        rewrapFrom L lines stop rs

def rewrap (L : Layout) (ranges : List LineRange) (text : Text) : Text :=
  Text.unlines (rewrapFrom L (Text.lines text) 0 ranges)

end Document

end Reflow
