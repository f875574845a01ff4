import Reflow.Doc.Printer
import Reflow.Proofs.Wrap

/-!
Where the lines of a structured comment stand: each is the bare marker, or text behind the bare
marker and a space or tab.
-/

namespace Reflow.Doc

/-- The line is the bare marker, or it has a gap right behind it. No directive can be made of it
that starts with a visible character. -/
def Behind (bare l : Text) : Prop := ∃ r, l = bare ++ r ∧ Token.OpensWithGap r

theorem Behind.isPrefix {bare l : Text} (h : Behind bare l) : bare <+: l := by
  obtain ⟨r, rfl, -⟩ := h
  exact List.prefix_append bare r

theorem behind_self (bare : Text) : Behind bare bare := ⟨[], by simp, nofun⟩

theorem behind_append_cons (bare : Text) {c : Char} (hc : isGap c = true) (t : Text) :
    Behind bare (bare ++ c :: t) :=
  ⟨c :: t, rfl, fun _ hd => Option.some.inj hd ▸ hc⟩

theorem behind_of_isPrefix {bare l : Text} (h : textMargin bare <+: l) : Behind bare l := by
  obtain ⟨t, rfl⟩ := h
  rw [textMargin, List.append_assoc]
  exact behind_append_cons bare rfl t

variable {bare : Text} (hBare : Text.dropEndSpaces bare = bare) (L : Layout)
include hBare

/-- Wrapped text stands behind the margin, also where the separator between two paragraphs has lost
its spaces. -/
theorem behind_of_mem_wrap {first t l : Text} {n : Nat} (hFirst : textMargin bare <+: first)
    (hl : l ∈ wrap L first (textMargin bare ++ List.replicate n ' ') t) : Behind bare l := by
  have hNext : textMargin bare <+: textMargin bare ++ List.replicate n ' ' :=
    List.prefix_append _ _
  rcases exists_written_of_mem_wrap hl with ⟨-, rfl⟩ | rfl | ⟨margin, body, hMargin, rfl, -⟩
  · exact behind_of_isPrefix hFirst
  · rw [Text.dropEndSpaces_append_replicate, textMargin, Text.dropEndSpaces_append_space, hBare]
    exact behind_self bare
  · apply behind_of_isPrefix
    rcases hMargin with rfl | rfl
    · exact hFirst.trans (List.prefix_append _ _)
    · exact hNext.trans (List.prefix_append _ _)

theorem behind_of_mem_itemLines {item : Item} {l : Text} (hl : l ∈ itemLines L bare item) :
    Behind bare l := by
  simp only [itemLines] at hl
  split at hl
  · cases hl
  · rcases List.mem_append.mp hl with hl | hl
    · apply behind_of_mem_wrap hBare L _ hl
      rw [List.append_assoc]
      exact List.prefix_append _ _
    · obtain ⟨r, -, hl⟩ := List.mem_flatMap.mp hl
      rcases List.mem_cons.mp hl with rfl | hl
      · exact behind_self _
      · exact behind_of_mem_wrap hBare L (List.prefix_append _ _) hl

/-- The lines of a block stand behind the bare marker: text behind a space, code behind a tab, and
blank lines as the marker itself. -/
theorem behind_of_mem_blockLines {b : Block} {l : Text} (hl : l ∈ blockLines L bare b) :
    Behind bare l := by
  cases b with
  | paragraph spans =>
      have hMargin : textMargin bare = textMargin bare ++ List.replicate 0 ' ' := by simp
      rw [blockLines, hMargin] at hl
      exact behind_of_mem_wrap hBare L (List.prefix_append _ _) hl
  | heading spans =>
      rw [List.mem_singleton.mp hl, List.append_assoc]
      exact behind_of_isPrefix (List.prefix_append _ _)
  | code ls =>
      obtain ⟨m, -, rfl⟩ := List.mem_map.mp hl
      split
      · exact behind_self bare
      · exact behind_append_cons bare rfl m
  | list list =>
      simp only [blockLines, listLines] at hl
      split at hl
      · cases hl
      · rcases List.mem_append.mp hl with hl | hl
        · exact behind_of_mem_itemLines hBare L hl
        · obtain ⟨item, -, hl⟩ := List.mem_flatMap.mp hl
          rcases List.mem_append.mp hl with hl | hl
          · split at hl
            · exact List.mem_singleton.mp hl ▸ behind_self _
            · cases hl
          · exact behind_of_mem_itemLines hBare L hl

theorem behind_of_mem_blocksLines (bs : List Block) :
    ∀ m ∈ blocksLines L bare bs, Behind bare m := by
  fun_induction blocksLines L bare bs with
  | case1 => exact List.forall_mem_nil _
  | case2 b => exact fun m => behind_of_mem_blockLines hBare L
  | case3 b c bs ih =>
      intro m hm
      rw [List.mem_append, List.mem_append] at hm
      rcases hm with (hm | hm) | hm
      · exact behind_of_mem_blockLines hBare L hm
      · split at hm
        · exact List.mem_singleton.mp hm ▸ behind_self _
        · cases hm
      · exact ih m hm

/-- Every line of a rewrapped structured comment stands behind the bare marker, blank edges
included. This is why the second pass reads all of them as lines of the comment. -/
theorem behind_of_mem_render {lines : List Text} {l : Text} (hl : l ∈ render L bare lines) :
    Behind bare l := by
  rw [render, List.mem_append, List.mem_append] at hl
  rcases hl with (hl | hl) | hl
  · exact List.eq_of_mem_replicate hl ▸ behind_self _
  · exact behind_of_mem_blocksLines hBare L _ l hl
  · exact List.eq_of_mem_replicate hl ▸ behind_self _

end Reflow.Doc
