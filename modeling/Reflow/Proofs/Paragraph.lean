import Reflow.Document
import Reflow.Paragraph.Wrap
import Reflow.Proofs.Token

/-!
What the paragraphs of a text are made of, and what stands between the words of a written line.
-/

namespace Reflow

theorem mem_of_mem_splitOnP {β : Type} {p : β → Bool} {xs part : List β}
    (h : part ∈ xs.splitOnP p) {x : β} (hx : x ∈ part) : x ∈ xs ∧ p x = false := by
  induction xs generalizing part with
  | nil => simp_all
  | cons y ys ih =>
      obtain ⟨first, rest, hSplit⟩ := List.exists_cons_of_ne_nil (List.splitOnP_ne_nil p ys)
      rw [List.splitOnP_cons_eq_if_modifyHead, hSplit] at h
      rw [hSplit] at ih
      split at h
      · rcases List.mem_cons.mp h with rfl | h
        · simp at hx
        · exact (ih h hx).imp_left (List.mem_cons_of_mem y)
      next hy =>
        rw [List.modifyHead_cons] at h
        rcases List.mem_cons.mp h with rfl | h
        · rcases List.mem_cons.mp hx with rfl | hx
          · exact ⟨List.mem_cons_self, by simpa using hy⟩
          · exact (ih List.mem_cons_self hx).imp_left (List.mem_cons_of_mem y)
        · exact (ih (List.mem_cons_of_mem first h) hx).imp_left (List.mem_cons_of_mem y)

/-- Splitting drops only what it splits at. A view that shows nothing of the separators therefore
shows the same before and after. -/
theorem flatMap_splitOnP {β γ : Type} {p : β → Bool} {f : β → List γ}
    (hf : ∀ x, p x = true → f x = []) (xs : List β) :
    (xs.splitOnP p).flatMap (List.flatMap f) = xs.flatMap f := by
  induction xs with
  | nil => rfl
  | cons x xs ih =>
      rw [List.splitOnP_cons_eq_if_modifyHead]
      split
      next hx =>
        rw [List.flatMap_cons, List.flatMap_nil, ih, List.flatMap_cons, hf x hx]
      · obtain ⟨first, rest, hSplit⟩ := List.exists_cons_of_ne_nil (List.splitOnP_ne_nil p xs)
        rw [hSplit] at ih ⊢
        rw [List.modifyHead_cons, List.flatMap_cons, List.flatMap_cons, List.append_assoc,
          ← List.flatMap_cons, ih, List.flatMap_cons]

theorem flatMap_filter_isEmpty {β γ : Type} {f : List β → List γ} (hf : f [] = [])
    (xs : List (List β)) : (xs.filter (!List.isEmpty ·)).flatMap f = xs.flatMap f := by
  induction xs with
  | nil => rfl
  | cons x xs ih =>
      cases x with
      | nil => simpa [hf] using ih
      | cons y x => simp [ih]

/-- A paragraph is made of lines of the text, each trimmed and none empty, with one space between
two of them. It does not say which lines, or that they stand next to each other. -/
theorem exists_of_mem_paragraphs {t p : Text} (h : p ∈ paragraphs t) :
    ∃ l ls, p = List.intercalate [' '] (l :: ls) ∧
      ∀ m ∈ l :: ls, m ≠ [] ∧ ∃ source ∈ Text.lines t, m = Text.trim source := by
  rw [paragraphs, List.mem_map] at h
  obtain ⟨part, hPart, rfl⟩ := h
  obtain ⟨hSplit, hNe⟩ := List.mem_filter.mp hPart
  cases part with
  | nil => simp at hNe
  | cons l ls =>
      refine ⟨l, ls, rfl, fun m hm => ?_⟩
      obtain ⟨hMem, hEmpty⟩ := mem_of_mem_splitOnP hSplit hm
      obtain ⟨source, hSource, rfl⟩ := List.mem_map.mp hMem
      exact ⟨by simpa using hEmpty, source, hSource, rfl⟩

/-- A paragraph has a word, so wrapping it writes at least one line. This is what lets the lines of
a paragraph be told from the blank line between two. -/
theorem ofText_ne_nil_of_mem_paragraphs {t p : Text} (h : p ∈ paragraphs t) :
    Token.ofText p ≠ [] := by
  obtain ⟨l, ls, rfl, hLines⟩ := exists_of_mem_paragraphs h
  obtain ⟨hNe, source, -, rfl⟩ := hLines l List.mem_cons_self
  obtain ⟨c, rest, hTrim⟩ := List.exists_cons_of_ne_nil hNe
  have hc : isGap c = false :=
    not_isGap_of_not_isBlank (Text.isBlank_head_trim (by rw [hTrim]; rfl))
  rcases Token.ofText_cases (List.intercalate [' '] (Text.trim source :: ls)) with
    hGaps | ⟨first, after, hFirst, hAfter, hSplit⟩
  · have hFirst := hGaps c (by cases ls <;> simp [hTrim])
    simp [hc] at hFirst
  · rw [hSplit, Token.ofText_append hFirst hAfter]
    simp

/-- A text is never wrapped to no lines. Without a paragraph there is one line still, the first
margin. -/
theorem wrap_ne_nil (L : Layout) (first next t : Text) : wrap L first next t ≠ [] := by
  rw [wrap]
  split
  · simp
  next p ps hParagraphs =>
    obtain ⟨u, us, hWords⟩ :=
      List.exists_cons_of_ne_nil
        (ofText_ne_nil_of_mem_paragraphs (t := t) (p := p) (by simp [hParagraphs]))
    simp [wrapParagraph, hWords, Packing.divide, Packing.write]

namespace Document

variable {lines : List Text}

theorem slice_append_drop {start stop : Nat} (h : start ≤ stop) :
    slice lines start stop ++ lines.drop stop = lines.drop start := by
  have hDrop : lines.drop stop = (lines.drop start).drop (stop - start) := by
    rw [List.drop_drop, Nat.add_sub_cancel' h]
  rw [slice, List.drop_take, hDrop, List.take_append_drop]

variable {L : Layout} {next : Nat} {r : LineRange}

/-- A range that starts at line `next` or later and holds a line of the document is wrapped; the
lines before it are kept, and the ranges that follow start behind it. -/
theorem rewrapFrom_wrap (h : next ≤ r.start ∧ r.start < min r.stop lines.length)
    (rs : List LineRange) :
    rewrapFrom L lines next (r :: rs) =
      slice lines next r.start ++
        wrap L [] [] (Text.unlines (slice lines r.start (min r.stop lines.length))) ++
        rewrapFrom L lines (min r.stop lines.length) rs := by
  have hWrap : ¬(r.start < next || min r.stop lines.length ≤ r.start) = true := by
    simp only [Bool.or_eq_true, decide_eq_true_eq]
    omega
  rw [rewrapFrom]
  exact if_neg hWrap

/-- Any other range is passed over: one that starts among lines already written, one that is empty
and one behind the end of the document. -/
theorem rewrapFrom_skip (h : ¬(next ≤ r.start ∧ r.start < min r.stop lines.length))
    (rs : List LineRange) : rewrapFrom L lines next (r :: rs) = rewrapFrom L lines next rs := by
  have hSkip : (r.start < next || min r.stop lines.length ≤ r.start) = true := by
    simp only [Bool.or_eq_true, decide_eq_true_eq]
    omega
  rw [rewrapFrom]
  exact if_pos hSkip

end Document

namespace Packing

/-- Two words on a line are always set apart, also where the gap between them had no width. -/
theorem spacer_ne_nil (L : Layout) (t : Token) : spacer L t ≠ [] := by
  unfold spacer
  split
  next h =>
    intro hNil
    simp [hNil] at h
  · simp

/-- A word is set apart from the word before it by spaces and tabs only, so a written line is read
back into the same words. -/
theorem isGap_of_mem_spacer (L : Layout) {t : Token} (ht : t.Proper) {c : Char}
    (hc : c ∈ spacer L t) : isGap c = true := by
  unfold spacer at hc
  split at hc
  · exact ht.gap_open c hc
  · simp only [List.mem_singleton] at hc
    rw [hc]
    rfl

end Packing

end Reflow
