import Reflow.Doc.Printer
import Reflow.Proofs.Text

/-!
The blank edges of a comment and the lines between them.
-/

namespace Reflow.Doc

/-- Lines that start and end with a line that is not blank; no lines at all do so too. -/
def Trimmed (ls : List Text) : Prop :=
  (∀ l, ls.head? = some l → Text.allBlank l = false) ∧
    ∀ l, ls.getLast? = some l → Text.allBlank l = false

theorem takeWhile_append_allBlank {a m : List Text} (ha : ∀ l ∈ a, Text.allBlank l = true)
    (hm : ∀ l, m.head? = some l → Text.allBlank l = false) :
    (a ++ m).takeWhile Text.allBlank = a := by
  rw [List.takeWhile_append_of_pos ha]
  cases m with
  | nil => simp
  | cons l m => simp [hm l rfl]

/-- Lines between blank edges are told from the edges. There has to be such a line, or the two edges
would be one. -/
theorem blankEdges_append {a m b : List Text} (ha : ∀ l ∈ a, Text.allBlank l = true)
    (hb : ∀ l ∈ b, Text.allBlank l = true) (hm : Trimmed m) (hNe : m ≠ []) :
    blankEdges (a ++ m ++ b) = (a.length, b.length) := by
  have hLeading : (a ++ m ++ b).takeWhile Text.allBlank = a := by
    rw [List.append_assoc]
    refine takeWhile_append_allBlank ha fun l hl => hm.1 l ?_
    rwa [List.head?_append, Option.or_of_isSome (by simpa using hNe)] at hl
  have hTrailing : (a ++ m ++ b).reverse.takeWhile Text.allBlank = b.reverse := by
    rw [List.reverse_append]
    refine takeWhile_append_allBlank (fun l hl => hb l (List.mem_reverse.mp hl)) fun l hl =>
      hm.2 l ?_
    rwa [List.head?_reverse, List.getLast?_append, Option.or_of_isSome (by simpa using hNe)] at hl
  have hLength : (a.length == (a ++ m ++ b).length) = false := by
    have hPos := List.length_pos_iff.mpr hNe
    simp only [List.length_append, beq_eq_false_iff_ne, ne_eq]
    omega
  simp only [blankEdges, hLeading, hTrailing, hLength, List.length_reverse]
  rfl

/-- Blank lines alone are all counted at the start, and none at the end. -/
theorem blankEdges_of_allBlank {a : List Text} (ha : ∀ l ∈ a, Text.allBlank l = true) :
    blankEdges a = (a.length, 0) := by
  have hLeading : a.takeWhile Text.allBlank = a := List.takeWhile_eq_self_iff.mpr ha
  simp [blankEdges, hLeading]

/-- The lines between blank edges are what is rewrapped of a comment. -/
theorem interior_append {a m b : List Text} (ha : ∀ l ∈ a, Text.allBlank l = true)
    (hb : ∀ l ∈ b, Text.allBlank l = true) (hm : Trimmed m) (hNe : m ≠ []) :
    interior (a ++ m ++ b) = m := by
  have hTake : (a ++ m ++ b).length - b.length = (a ++ m).length := by
    rw [List.length_append, Nat.add_sub_cancel]
  simp only [interior, blankEdges_append ha hb hm hNe, hTake]
  rw [List.take_left, List.drop_left]

theorem interior_of_allBlank {a : List Text} (ha : ∀ l ∈ a, Text.allBlank l = true) :
    interior a = [] := by
  simp [interior, blankEdges_of_allBlank ha]

/-- Lines up to their last line that is not blank, and the blank lines behind it. The first part may
be empty. -/
theorem exists_trailing (ls : List Text) :
    ∃ m b, ls = m ++ b ∧ (∀ l ∈ b, Text.allBlank l = true) ∧
      ∀ l, m.getLast? = some l → Text.allBlank l = false := by
  refine ⟨(ls.reverse.dropWhile Text.allBlank).reverse,
    (ls.reverse.takeWhile Text.allBlank).reverse,
    ?_, fun l hl => List.mem_takeWhile_imp (List.mem_reverse.mp hl), fun l hl => ?_⟩
  · rw [← List.reverse_append, List.takeWhile_append_dropWhile, List.reverse_reverse]
  · rw [List.getLast?_reverse] at hl
    exact eq_false_of_head?_dropWhile hl

/-- All lines are blank, or they are blank edges around trimmed lines. A comment is taken apart like
this before anything is read from it, and proofs about edges have these two cases. -/
theorem edges_cases (ls : List Text) :
    (∀ l ∈ ls, Text.allBlank l = true) ∨
      ∃ a m b, (∀ l ∈ a, Text.allBlank l = true) ∧ (∀ l ∈ b, Text.allBlank l = true) ∧ Trimmed m ∧
        m ≠ [] ∧ ls = a ++ m ++ b := by
  have hFront : ls.takeWhile Text.allBlank ++ ls.dropWhile Text.allBlank = ls :=
    List.takeWhile_append_dropWhile
  cases hRest : ls.dropWhile Text.allBlank with
  | nil => exact Or.inl (List.dropWhile_eq_nil_iff.mp hRest)
  | cons first rest =>
      have hFirst : Text.allBlank first = false :=
        eq_false_of_head?_dropWhile (by rw [hRest, List.head?_cons])
      obtain ⟨m, b, hSplit, hb, hLast⟩ := exists_trailing (first :: rest)
      -- The first line is not blank, so it does not belong to the edge at the end.
      cases m with
      | nil =>
          have hBlank := hb first (by rw [← List.nil_append b, ← hSplit]; exact List.mem_cons_self)
          rw [hFirst] at hBlank
          cases hBlank
      | cons l m =>
          have hHead : first = l := (List.cons.inj hSplit).1
          refine Or.inr ⟨ls.takeWhile Text.allBlank, l :: m, b,
            fun l hl => List.mem_takeWhile_imp hl, hb, ⟨fun k hk => ?_, hLast⟩, by simp, ?_⟩
          · cases hk
            exact hHead ▸ hFirst
          · rw [List.append_assoc, ← hSplit, ← hRest, hFront]

/-- The lines between the edges hold everything that a blank line does not, so a view that sees
nothing in blank lines may ignore the edges. -/
theorem flatMap_interior {α : Type} {f : Text → List α}
    (hf : ∀ l, Text.allBlank l = true → f l = []) (ls : List Text) :
    (interior ls).flatMap f = ls.flatMap f := by
  have hNil : ∀ a : List Text, (∀ l ∈ a, Text.allBlank l = true) → a.flatMap f = [] := fun a ha =>
    List.flatMap_eq_nil_iff.mpr fun l hl => hf l (ha l hl)
  rcases edges_cases ls with hAll | ⟨a, m, b, ha, hb, hm, hNe, rfl⟩
  · rw [interior_of_allBlank hAll, hNil ls hAll]
    rfl
  · rw [interior_append ha hb hm hNe, List.flatMap_append, List.flatMap_append, hNil a ha,
      hNil b hb, List.append_nil, List.nil_append]

end Reflow.Doc
