import Reflow.Text.Basic

/-!
Inline markup as spans, and the text that spans stand for.
-/

namespace Reflow.Inline

inductive Span where
  | plain (t : Text)
  /-- Text between underscores, held without them. -/
  | emphasis (t : Text)
  /-- An automatic link. -/
  | link (inner : List Span)
  /-- A reference in brackets, held without them. -/
  | reference (inner : List Span)
  deriving Repr

mutual
/-- The source text of a span: emphasis gets its underscores back and a reference its brackets. It
is the text that the span was read from, character by character. -/
def Span.text : Span → Text
  | .plain t => t
  | .emphasis t => '_' :: t ++ ['_']
  | .link inner => flatten inner
  | .reference inner => '[' :: flatten inner ++ [']']

/-- The source text of spans in order. This forgets where one span ends and the next begins. -/
def flatten : List Span → Text
  | [] => []
  | s :: ss => s.text ++ flatten ss
end

@[simp] theorem flatten_nil : flatten [] = [] := by simp [flatten]

@[simp] theorem flatten_cons (s : Span) (ss : List Span) :
    flatten (s :: ss) = s.text ++ flatten ss := by simp [flatten]

theorem flatten_append (ss ts : List Span) : flatten (ss ++ ts) = flatten ss ++ flatten ts := by
  induction ss with
  | nil => simp
  | cons s ss ih => simp [ih]

end Reflow.Inline
