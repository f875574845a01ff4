import Reflow.Inline.Markup

/-!
Reading inline markup. Text outside the markup becomes plain spans, one between each two pieces of
markup.
-/

namespace Reflow.Inline

def plainSpan (t : Text) : List Span := if t.isEmpty then [] else [.plain t]

/-- The spans of `t`, where `plain` is plain text that was read just before it and `before` is the
character before `t`. Plain text is gathered until markup follows it or the text ends. -/
def spansFrom (before : Option Char) (plain : Text) (t : Text) : List Span :=
  match t with
  | [] => plainSpan plain
  | c :: rest =>
    match find? before (c :: rest) with
    | none => spansFrom (some c) (plain ++ [c]) rest
    | some found =>
      let remaining := rest.drop (found.covered.length - 1)
      let last := some (found.covered.getLast?.getD c)
      match found.span with
      | none => spansFrom last (plain ++ found.covered) remaining
      | some span => plainSpan plain ++ span :: spansFrom last [] remaining
termination_by t.length
decreasing_by all_goals simp; try omega

def parse (t : Text) : List Span := spansFrom none [] t

end Reflow.Inline
