import Reflow.Paragraph.Wrap

/-!
Wrapping with checked arithmetic. It packs in one pass and writes each line as it goes; a sum that
leaves the register ends it without a result, where `wrap` would count on from zero.
-/

namespace Reflow

/-- Pack words behind a line that is begun: `line` stands behind `margin`, it is `w` columns wide,
and there are `room` columns for it. A word without room starts the next line, behind `next`. -/
def packFrom? (L : Layout) (next margin : Text) (room w : Nat) (line : Text) :
    List Token → Option (List Text)
  | [] => some [margin ++ line]
  | t :: ts => do
    let word ← L.width? t.word
    let gap ← L.width? t.gap
    -- A gap counts for one column at least.
    let behindGap ← L.add? w (max gap 1)
    let wider ← L.add? behindGap word
    if wider ≤ room then
      packFrom? L next margin room wider (line ++ (if 0 < gap then t.gap else [' ']) ++ t.word) ts
    else
      let below ← L.room? next
      let lines ← packFrom? L next next below word t.word ts
      return (margin ++ line) :: lines

/-- Pack one paragraph onto lines behind the margins `first` and `next`, unless a count leaves the
register. -/
def wrapParagraph? (L : Layout) (first next : Text) (t : Text) : Option (List Text) :=
  match Token.ofText t with
  | [] => some []
  | t :: ts => do
    let room ← L.room? first
    let word ← L.width? t.word
    packFrom? L next first room word t.word ts

/-- Wrap a text, unless a count leaves the register. Paragraphs are taken one after the other, so
nothing is written of a text that has one that cannot be counted. -/
def wrap? (L : Layout) (first next : Text) (t : Text) : Option (List Text) :=
  match paragraphs t with
  | [] => some [first]
  | p :: ps => do
    let head ← wrapParagraph? L first next p
    let rest ← ps.mapM fun q => do
      let lines ← wrapParagraph? L next next q
      return Text.dropEndSpaces next :: lines
    return head ++ rest.flatten

end Reflow
