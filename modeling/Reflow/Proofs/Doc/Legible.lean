import Mathlib.Data.List.Chain
import Reflow.Proofs.Doc.Span

/-!
When a rewrapped comment can be read again as it was written. Not every comment can: a wrapped
paragraph may begin with what looks like an item, a decoration may cut an item off from its bullet,
and two lists with only a blank line between them are read as one.
-/

namespace Reflow.Doc

/-- The line is an item of a numbered list. -/
def isNumbered (l : Text) : Bool := (item? l).any fun item => item.1.isNumber

/-- The span is written as it stands. Code stands behind a tab. A list starts with a bullet behind
two spaces, every other bullet behind two spaces is of the same kind, and if there is a blank line
in the list then there is one above every bullet but the first. Paragraphs and headings are always
written as they stand. -/
def Span.Legible (s : Span) : Prop :=
  (s.kind = .code → (s.lines.head?.getD []).head? = some '\t') ∧
    (s.kind = .list → indentWidth (s.lines.head?.getD []) = 2 ∧
      (∀ l ∈ s.lines, indentWidth l = 2 → isNumbered l = isNumbered (s.lines.head?.getD [])) ∧
      ([] ∈ s.lines → s.lines.IsChain fun a b => indentWidth b = 2 → a = []))

instance (s : Span) : Decidable s.Legible := inferInstanceAs (Decidable (_ ∧ _))

/-- A list with a blank line in it does not stand right below another span. Read again it would be
set apart, and a line added. -/
def Span.Clears (p s : Span) : Prop := s.kind = .list → [] ∈ s.lines → p.stop < s.start

instance (p s : Span) : Decidable (p.Clears s) := inferInstanceAs (Decidable (_ → _))

/-- Every span is written as it stands, and no list has to be moved away from what is above it. -/
def SpansLegible (ss : List Span) : Prop := (∀ s ∈ ss, s.Legible) ∧ ss.IsChain Span.Clears

instance (ss : List Span) : Decidable (SpansLegible ss) := inferInstanceAs (Decidable (_ ∧ _))

theorem spansLegible_nil : SpansLegible [] := ⟨nofun, .nil⟩

theorem spansLegible_cons {s : Span} {ss : List Span} :
    SpansLegible (s :: ss) ↔
      s.Legible ∧ (∀ t, ss.head? = some t → s.Clears t) ∧ SpansLegible ss := by
  rw [SpansLegible, SpansLegible, List.forall_mem_cons, List.isChain_cons]
  constructor
  · exact fun ⟨⟨hFirst, hRest⟩, hHead, hChain⟩ => ⟨hFirst, hHead, hRest, hChain⟩
  · exact fun ⟨hFirst, hHead, hRest, hChain⟩ => ⟨⟨hFirst, hRest⟩, hHead, hChain⟩

/-- The lines `out` are `ls` if `p` holds, and part from them if not, whatever follows either. To
part is more than to differ: one may not be the beginning of the other, so that the difference is
not made up for by later lines. -/
structure Recovers (p : Prop) (out ls : List Text) : Prop where
  eq : p → out = ls
  parts : ¬p → ∀ xs ys, out ++ xs ≠ ls ++ ys

namespace Recovers

theorem of_eq {p : Prop} {out ls : List Text} (hp : p) (h : out = ls) : Recovers p out ls :=
  ⟨fun _ => h, fun hNot => absurd hp hNot⟩

theorem of_parts {p : Prop} {out ls : List Text} (hp : ¬p) (h : ∀ xs ys, out ++ xs ≠ ls ++ ys) :
    Recovers p out ls :=
  ⟨fun h => absurd h hp, fun _ => h⟩

theorem congr {p q : Prop} {out ls : List Text} (h : Recovers p out ls) (hpq : p ↔ q) :
    Recovers q out ls :=
  ⟨fun hq => h.eq (hpq.mpr hq), fun hq => h.parts fun hp => hq (hpq.mp hp)⟩

/-- Parts of a page are recovered one by one. Because they part rather than differ, the conditions
of both are needed and are enough. -/
theorem append {p q : Prop} {out ls more ms : List Text} (h : Recovers p out ls)
    (hMore : Recovers q more ms) : Recovers (p ∧ q) (out ++ more) (ls ++ ms) := by
  refine ⟨fun ⟨hp, hq⟩ => by rw [h.eq hp, hMore.eq hq], fun hNot xs ys hEq => ?_⟩
  rw [List.append_assoc, List.append_assoc] at hEq
  by_cases hp : p
  · rw [h.eq hp] at hEq
    exact hMore.parts (fun hq => hNot ⟨hp, hq⟩) xs ys (List.append_cancel_left hEq)
  · exact h.parts hp _ _ hEq

theorem append_right {p : Prop} {out ls : List Text} (h : Recovers p out ls) (common : List Text) :
    Recovers p (out ++ common) (ls ++ common) :=
  (h.append (of_eq trivial rfl)).congr (iff_of_eq (and_true p))

/-- Common lines in front do not matter, and neither do common lines behind. -/
theorem append_left {p : Prop} {out ls : List Text} (h : Recovers p out ls) (common : List Text) :
    Recovers p (common ++ out) (common ++ ls) :=
  ((of_eq trivial rfl).append h).congr (iff_of_eq (true_and p))

/-- What is recovered under a condition is equal exactly under this condition. All that came before
was made to get this equivalence. -/
theorem eq_iff {p : Prop} {out ls : List Text} (h : Recovers p out ls) : out = ls ↔ p := by
  refine ⟨fun hEq => ?_, h.eq⟩
  by_contra hp
  exact h.parts hp [] [] (by rw [hEq])

end Recovers

/-- Lines that differ in the first place part there, whatever is written below them. -/
theorem parts_of_head_ne {a b : Text} (h : a ≠ b) (as bs xs ys : List Text) :
    a :: as ++ xs ≠ b :: bs ++ ys := fun hEq => h (List.cons.inj hEq).1

end Reflow.Doc
