import Reflow.Doc.Span
import Reflow.Proofs.Text

/-!
The spans of a comment: every span starts and ends with a line that is not blank, its kind agrees
with its first line, and the spans together hold every line that is not blank, in order.
-/

namespace Reflow.Doc

/-- What the kind of a span says about its lines. A span has a line, and neither the first nor the
last is blank; only lists and code may hold blank lines in between. -/
structure Span.Sound (s : Span) : Prop where
  first : ∃ l rest, s.lines = l :: rest ∧ l ≠ []
  last : s.lines.getLast? ≠ some []
  paragraph : s.kind = .paragraph → ∀ l ∈ s.lines, l ≠ []
  heading : s.kind = .heading → ∃ l, s.lines = [l] ∧ isHeading l = true
  list : s.kind = .list → ∃ l rest, s.lines = l :: rest ∧ isItem l = true
  code : s.kind = .code → ∃ l rest, s.lines = l :: rest ∧ isItem l = false

theorem dropBlankEnd_isPrefix (ls : List Text) : dropBlankEnd ls <+: ls := by
  rw [dropBlankEnd, ← List.reverse_suffix, List.reverse_reverse]
  exact List.dropWhile_suffix _

theorem getLast?_dropBlankEnd_ne (ls : List Text) : (dropBlankEnd ls).getLast? ≠ some [] := by
  rw [dropBlankEnd, List.getLast?_reverse]
  intro h
  cases eq_false_of_head?_dropWhile h

theorem getLast?_cons_ne {l : Text} (hl : l ≠ []) {ls : List Text}
    (hls : ls.getLast? ≠ some []) : (l :: ls).getLast? ≠ some [] := by
  cases ls with
  | nil => simpa using hl
  | cons m ls => rwa [List.getLast?_cons_cons]

/-- An indented span ends with the last line of its run that is not blank, or with a brace. The
brace stands at the margin and closes the code above it. -/
theorem getLast?_indentedExtent_ne (forced : Nat) {l : Text} (hl : l ≠ []) (rest : List Text) :
    (l :: rest.take (indentedExtent forced l rest).more).getLast? ≠ some [] := by
  generalize hRun : indentedRun (isItem l) (isItem l && 0 < forced) (forced - 1) rest = run
  have hBody : rest.take (dropBlankEnd (rest.take run)).length = dropBlankEnd (rest.take run) := by
    have hPrefix := (dropBlankEnd_isPrefix (rest.take run)).trans (List.take_prefix run rest)
    exact (List.prefix_iff_eq_take.mp hPrefix).symm
  have hLast := getLast?_cons_ne hl (getLast?_dropBlankEnd_ne (rest.take run))
  simp only [indentedExtent, hRun]
  split
  next hBrace =>
    obtain ⟨brace, after, hDrop⟩ : ∃ brace after,
        rest.drop (dropBlankEnd (rest.take run)).length = brace :: after := by
      cases hDrop : rest.drop (dropBlankEnd (rest.take run)).length with
      | nil => simp [hDrop] at hBrace
      | cons brace after => exact ⟨brace, after, rfl⟩
    have hNe : brace ≠ [] := by
      rintro rfl
      simp [hDrop, Text.startsWith, Text.dropPrefix?] at hBrace
    rw [List.take_add, hDrop, List.take_succ_cons, List.take_zero, ← List.cons_append,
      List.getLast?_concat]
    simpa using hNe
  · rwa [hBody]

/-- Blank lines continue an unindented list only before another item, so the list does not end in
one of them. -/
theorem getLast?_take_itemRun_ne (ls : List Text) :
    (ls.take (itemRun ls)).getLast? ≠ some [] ∧
      ((ls.find? (!List.isEmpty ·)).any isItem = true → 0 < itemRun ls) := by
  induction ls with
  | nil => simp [itemRun]
  | cons x xs ih =>
      rw [itemRun]
      cases x with
      | cons c x =>
          simp only [List.isEmpty_cons, Bool.not_false, Bool.true_or, if_true, List.take_succ_cons]
          exact ⟨getLast?_cons_ne (by simp) ih.1, fun _ => Nat.succ_pos _⟩
      | nil =>
          simp only [List.isEmpty_nil, Bool.not_true, Bool.false_or, List.find?_cons]
          split
          next hItem =>
            refine ⟨?_, fun _ => Nat.succ_pos _⟩
            have hPos := ih.2 hItem
            cases xs with
            | nil => simp at hItem
            | cons y ys =>
                obtain ⟨n, hn⟩ := Nat.exists_eq_succ_of_ne_zero hPos.ne'
                have hLast := ih.1
                rw [hn] at hLast ⊢
                rw [List.take_succ_cons, List.take_succ_cons, List.getLast?_cons_cons]
                exact hLast
          next hItem => exact ⟨by simp, fun h => absurd h hItem⟩

/-- A span that is read as indented is sound, whether it was indented or handed over by the
paragraph above it. -/
theorem sound_indentedExtent (start forced : Nat) {l : Text} (hl : l ≠ []) (rest : List Text) :
    Span.Sound { kind := (indentedExtent forced l rest).kind, start,
                 lines := l :: rest.take (indentedExtent forced l rest).more } where
  first := ⟨l, _, rfl, hl⟩
  last := getLast?_indentedExtent_ne forced hl rest
  paragraph h := by
    simp only [indentedExtent] at h
    split at h <;> cases h
  heading h := by
    simp only [indentedExtent] at h
    split at h <;> cases h
  list h := by
    simp only [indentedExtent] at h
    split at h
    next hItem => exact ⟨l, _, rfl, hItem⟩
    · cases h
  code h := by
    simp only [indentedExtent] at h
    split at h
    · cases h
    next hItem => exact ⟨l, _, rfl, by simpa using hItem⟩

/-- The lines that a paragraph may run over. -/
def proseRun (rest : List Text) : List Text := rest.takeWhile fun x => !x.isEmpty && !isIndented x

/-- A prose span is read as indented from its first line on, or it is a heading or paragraph within
its run. The lines that the paragraph hands over to the code below it are left out of the second
case. -/
theorem proseExtent_cases (l : Text) (rest : List Text) :
    proseExtent l rest = indentedExtent 1 l rest ∨
      ∃ more handed, more ≤ (proseRun rest).length ∧
        proseExtent l rest =
          { kind := if (more == 0 && rest.head?.all List.isEmpty) && isHeading l then .heading
              else .paragraph, more, forced := handed } := by
  unfold proseExtent
  extract_lets run last meetsCode handed
  split
  · exact Or.inl rfl
  · exact Or.inr ⟨run - handed, handed, Nat.sub_le _ _, rfl⟩

/-- A span that starts with an unindented line is sound: it is a paragraph without blank lines, a
heading on one line, or what stands below it was taken over. -/
theorem sound_proseExtent (start : Nat) {l : Text} (hl : l ≠ []) (rest : List Text) :
    Span.Sound { kind := (proseExtent l rest).kind, start,
                 lines := l :: rest.take (proseExtent l rest).more } := by
  rcases proseExtent_cases l rest with hIndented | ⟨more, handed, hMore, hProse⟩
  · rw [hIndented]
    exact sound_indentedExtent start 1 hl rest
  · have hLines : ∀ m ∈ l :: rest.take more, m ≠ [] := by
      intro m hm
      rcases List.mem_cons.mp hm with rfl | hm
      · exact hl
      · have hPrefix : rest.take more <+: proseRun rest :=
          List.prefix_of_prefix_length_le (List.take_prefix _ _) (List.takeWhile_prefix _)
            (by rw [List.length_take]; omega)
        have hRun := List.mem_takeWhile_imp (hPrefix.subset hm)
        simp only [Bool.and_eq_true, Bool.not_eq_true', List.isEmpty_eq_false_iff] at hRun
        exact hRun.1
    have hLast : (l :: rest.take more).getLast? ≠ some [] := fun h =>
      hLines [] (List.mem_of_getLast? h) rfl
    rw [hProse]
    refine ⟨⟨l, _, rfl, hl⟩, hLast, fun _ => hLines, fun hKind => ?_, fun hKind => ?_,
      fun hKind => ?_⟩
    · dsimp only at hKind ⊢
      split at hKind
      next hAlone =>
        simp only [Bool.and_eq_true, beq_iff_eq] at hAlone
        exact ⟨l, by rw [hAlone.1.1, List.take_zero], hAlone.2⟩
      · cases hKind
    · dsimp only at hKind
      split at hKind <;> cases hKind
    · dsimp only at hKind
      split at hKind <;> cases hKind

/-- Whichever way a span is read, it is sound, if its first line is not blank. -/
theorem sound_extent (start forced : Nat) {l : Text} (hl : l ≠ []) (rest : List Text) :
    Span.Sound { kind := (extent forced l rest).kind, start,
                 lines := l :: rest.take (extent forced l rest).more } := by
  unfold extent
  split
  · exact sound_indentedExtent start forced hl rest
  split
  next hItem =>
    exact ⟨⟨l, _, rfl, hl⟩, getLast?_cons_ne hl (getLast?_take_itemRun_ne rest).1, nofun, nofun,
      fun _ => ⟨l, _, rfl, hItem⟩, nofun⟩
  · exact sound_proseExtent start hl rest

/-- Every span of a comment is sound, whatever the lines are. All that is proved of blocks starts
from here. -/
theorem sound_of_mem_spansFrom {start forced : Nat} {ls : List Text} {s : Span}
    (h : s ∈ spansFrom start forced ls) : s.Sound := by
  fun_induction spansFrom start forced ls with
  | case1 => cases h
  | case2 start forced l rest hEmpty ih => exact ih h
  | case3 start forced l rest hEmpty e ih =>
      rcases List.mem_cons.mp h with rfl | h
      · exact sound_extent start forced (by simpa using hEmpty) rest
      · exact ih h

/-- The lines of a span are lines of the comment, so a condition on all of these is one on the
spans. -/
theorem mem_of_mem_spansFrom {start forced : Nat} {ls : List Text} {s : Span}
    (hs : s ∈ spansFrom start forced ls) {l : Text} (hl : l ∈ s.lines) : l ∈ ls := by
  fun_induction spansFrom start forced ls with
  | case1 => cases hs
  | case2 start forced l rest hEmpty ih => exact List.mem_cons_of_mem l (ih hs)
  | case3 start forced l rest hEmpty e ih =>
      rcases List.mem_cons.mp hs with rfl | hs
      · rcases List.mem_cons.mp hl with rfl | hl
        · exact List.mem_cons_self
        · exact List.mem_cons_of_mem _ (List.mem_of_mem_take hl)
      · exact List.mem_cons_of_mem l (List.mem_of_mem_drop (ih hs))

/-- The spans of a comment hold its lines in order; only empty lines may fall between them. For a
view that sees nothing in these, spans and lines show the same. -/
theorem flatMap_spansFrom {α : Type} {f : Text → List α} (hf : f [] = []) (start forced : Nat)
    (ls : List Text) : (spansFrom start forced ls).flatMap (·.lines.flatMap f) = ls.flatMap f := by
  fun_induction spansFrom start forced ls with
  | case1 => rfl
  | case2 start forced l rest hEmpty ih =>
      rw [ih, List.flatMap_cons, List.isEmpty_iff.mp hEmpty, hf, List.nil_append]
  | case3 start forced l rest hEmpty e ih =>
      rw [List.flatMap_cons, ih, List.flatMap_cons, List.flatMap_cons, List.append_assoc,
        ← List.flatMap_append, List.take_append_drop]

end Reflow.Doc
