import Reflow.Checked
import Reflow.Proofs.Checked
import Reflow.Proofs.Document
import Reflow.Proofs.Segment

/-!
Rewrapping with checked arithmetic. What is written depends on the page only through the texts that
are wrapped: two pages on which these are wrapped alike give the same result. So if checked
arithmetic gets through, a comment, a document or a whole text is written as it is without bound,
and arithmetic that is not checked writes it in the same way.
-/

namespace Reflow

variable {L P : Layout}

/-- Two pages on which some texts are wrapped alike. The pages may differ in everything else. -/
def WrapAlike (L P : Layout) (ws : List Wrapping) : Prop := ∀ w ∈ ws, w.lines L = w.lines P

theorem wrapAlike_append {vs ws : List Wrapping} :
    WrapAlike L P (vs ++ ws) ↔ WrapAlike L P vs ∧ WrapAlike L P ws :=
  List.forall_mem_append

theorem wrapAlike_flatMap {α : Type} {f : α → List Wrapping} {xs : List α} :
    WrapAlike L P (xs.flatMap f) ↔ ∀ x ∈ xs, WrapAlike L P (f x) :=
  List.forall_mem_flatMap

/-- Lines that are left out under some condition are written alike if they are where they are not
left out. -/
theorem ite_nil_congr {c : Prop} [Decidable c] {ws : List Wrapping} {xs ys : List Text}
    (h : WrapAlike L P (if c then [] else ws)) (hLines : WrapAlike L P ws → xs = ys) :
    (if c then [] else xs) = if c then [] else ys := by
  split
  · rfl
  next hKept =>
    rw [if_neg hKept] at h
    exact hLines h

namespace Doc

/-- The lines of an item depend on the page only through its paragraphs, the first of which stands
behind the bullet. -/
theorem itemLines_congr {bare : Text} {item : Item}
    (h : WrapAlike L P (itemWrappings bare item)) :
    itemLines L bare item = itemLines P bare item := by
  rw [itemLines, itemLines]
  rw [itemWrappings] at h
  split
  · rfl
  next p ps hCons =>
    rw [hCons] at h
    obtain ⟨hFirst, hRest⟩ := List.forall_mem_cons.mp h
    apply congrArg₂ (· ++ ·) hFirst
    apply List.flatMap_congr
    intro q hq
    exact congrArg (bare :: ·) (hRest _ (List.mem_map_of_mem hq))

theorem blockLines_congr {bare : Text} {b : Block} (h : WrapAlike L P (blockWrappings bare b)) :
    blockLines L bare b = blockLines P bare b := by
  cases b with
  | paragraph spans => exact h _ (List.mem_singleton_self _)
  | heading spans => rfl
  | code ls => rfl
  | list l =>
      have hItems := wrapAlike_flatMap.mp h
      rw [blockLines, blockLines, listLines, listLines]
      split
      · rfl
      next item items hCons =>
        rw [hCons, List.forall_mem_cons] at hItems
        rw [itemLines_congr hItems.1]
        congr 1
        apply List.flatMap_congr
        intro other hOther
        rw [itemLines_congr (hItems.2 other hOther)]

/-- The lines of blocks depend on the page only through the texts in them. The blank lines between
two blocks do not depend on it at all. -/
theorem blocksLines_congr {bare : Text} {bs : List Block}
    (h : WrapAlike L P (bs.flatMap (blockWrappings bare))) :
    blocksLines L bare bs = blocksLines P bare bs := by
  induction bs with
  | nil => rfl
  | cons b bs ih =>
      obtain ⟨hFirst, hRest⟩ := wrapAlike_append.mp h
      cases bs with
      | nil => exact blockLines_congr hFirst
      | cons c bs => rw [blocksLines, blocksLines, blockLines_congr hFirst, ih hRest]

/-- A structured comment is written alike on two pages if the texts in its blocks are wrapped alike.
How it is parsed does not depend on the page. -/
theorem render_congr {bare : Text} {lines : List Text}
    (h : WrapAlike L P (wrappings bare lines)) : render L bare lines = render P bare lines := by
  rw [render, render, blocksLines_congr h]

end Doc

namespace LineComment

variable {lang : Language} {indent marker : Text}

theorem renderPiece_congr {contents : List Text}
    (h : WrapAlike L P (pieceWrappings lang indent marker contents)) :
    renderPiece L lang indent marker contents = renderPiece P lang indent marker contents := by
  rw [renderPiece, renderPiece]
  rw [pieceWrappings] at h
  split
  next hDoc =>
    rw [if_pos hDoc] at h
    exact Doc.render_congr h
  next hPlain =>
    rw [if_neg hPlain] at h
    have hBody := ite_nil_congr h fun hAlike => hAlike _ (List.mem_singleton_self _)
    simp only [Wrapping.lines] at hBody
    dsimp only [renderPlain]
    rw [hBody]

/-- A run of line comments is written alike on two pages if the texts between its decorations are
wrapped alike. Decorations are kept on any page. -/
theorem renderFrom_congr {piece lines : List Text}
    (h : WrapAlike L P (wrappingsFrom lang indent marker piece lines)) :
    renderFrom L lang indent marker piece lines = renderFrom P lang indent marker piece lines := by
  induction lines generalizing piece with
  | nil => exact ite_nil_congr h renderPiece_congr
  | cons line lines ih =>
      rw [wrappingsFrom] at h
      rw [renderFrom, renderFrom]
      split
      next hDecoration =>
        rw [if_pos hDecoration] at h
        obtain ⟨hFirst, hRest⟩ := wrapAlike_append.mp h
        rw [ite_nil_congr hFirst renderPiece_congr, ih hRest]
      next hPlain =>
        rw [if_neg hPlain] at h
        exact ih h

end LineComment

namespace BlockComment

variable {indent opening closing gutter : Text}

/-- A block comment is written alike on two pages if its text is. Where it is left as it stands
there is no such text, and no condition. -/
theorem renderLines_congr {first last : Text} {middle : List Text}
    (h : WrapAlike L P (wrappingsOfLines indent opening closing gutter first middle last)) :
    renderLines L indent opening closing gutter first middle last =
      renderLines P indent opening closing gutter first middle last := by
  rw [renderLines, renderLines]
  rw [wrappingsOfLines] at h
  split
  · rfl
  next before after hCut =>
    rw [hCut] at h
    dsimp only at h ⊢
    split
    · rfl
    next hAfter =>
      split
      · rfl
      next hText =>
        rw [if_neg fun hOr => (Bool.or_eq_true_iff.mp hOr).elim hAfter hText] at h
        have hLines := h _ (List.mem_singleton_self _)
        rw [Wrapping.lines, Wrapping.lines] at hLines
        rw [hLines]

theorem render_congr {lines : List Text}
    (h : WrapAlike L P (wrappings indent opening closing gutter lines)) :
    render L indent opening closing gutter lines =
      render P indent opening closing gutter lines := by
  match lines with
  | [] => rfl
  | [line] => rfl
  | first :: second :: rest => exact renderLines_congr h

end BlockComment

namespace Document

/-- A document is written alike on two pages if the lines of its ranges are wrapped alike. Ranges
that are passed over do not count. -/
theorem rewrapFrom_congr {lines : List Text} {next : Nat} {ranges : List LineRange}
    (h : WrapAlike L P (wrappingsFrom lines next ranges)) :
    rewrapFrom L lines next ranges = rewrapFrom P lines next ranges := by
  induction ranges generalizing next with
  | nil => rfl
  | cons r rs ih =>
      rw [wrappingsFrom] at h
      rw [rewrapFrom, rewrapFrom]
      split
      next hSkip =>
        rw [if_pos hSkip] at h
        exact ih h
      next hWrap =>
        rw [if_neg hWrap] at h
        obtain ⟨hFirst, hRest⟩ := List.forall_mem_cons.mp h
        rw [Wrapping.lines, Wrapping.lines] at hFirst
        rw [ih hRest, hFirst]

theorem rewrap_congr {ranges : List LineRange} {t : Text}
    (h : WrapAlike L P (wrappings ranges t)) : rewrap L ranges t = rewrap P ranges t := by
  rw [rewrap, rewrap, rewrapFrom_congr h]

end Document

namespace Source

theorem renderSegment_congr {lang : Language} {s : Segment}
    (h : WrapAlike L P (segmentWrappings lang s)) :
    renderSegment L lang s = renderSegment P lang s := by
  rw [segmentWrappings] at h
  rw [renderSegment, renderSegment]
  split
  · rfl
  next marker hKind =>
    rw [hKind] at h
    exact LineComment.renderFrom_congr h
  next o closing hKind =>
    rw [hKind] at h
    exact BlockComment.render_congr h

/-- A whole text is rewrapped alike on two pages if all that is wrapped in it is wrapped alike. The
ranges of a document are found without regard to the page. -/
theorem rewrapWith_congr {locate : Text → List LineRange} {lang : Option Language} {t : Text}
    (h : WrapAlike L P (wrappings locate lang (unifyEndings t))) :
    rewrapWith locate L lang t = rewrapWith locate P lang t := by
  have hRender : render locate L lang (unifyEndings t) = render locate P lang (unifyEndings t) := by
    cases lang with
    | none => exact congrArg Text.unlines (h _ (List.mem_singleton_self _))
    | some lang =>
        rw [wrappings] at h
        rw [render, render]
        split
        next hDocument =>
          rw [if_pos hDocument] at h
          exact Document.rewrap_congr h
        next hSource =>
          rw [if_neg hSource] at h
          rw [renderLines, renderLines]
          congr 1
          exact List.flatMap_congr fun s hs => renderSegment_congr (wrapAlike_flatMap.mp h s hs)
  rw [rewrapWith, rewrapWith, hRender]

end Source

section Checked

variable {α : Type} {ws : List Wrapping}

theorem Wrapping.isCounted_iff {w : Wrapping} :
    w.isCounted L = true ↔ L.CountsAll (wrapCounts L.endless w.first w.next w.text) := by
  simp only [isCounted, Option.isSome_iff_exists, wrap?_eq_some_iff, exists_and_left, exists_eq,
    and_true]

/-- What is written where texts are wrapped is written exactly if all of them can be counted, and
then as it is without bound, provided that it depends on the page only through these texts. -/
theorem checked?_eq_some_iff (write : Layout → α) {out : α}
    (hWrite : ∀ P, WrapAlike L P ws → write L = write P) :
    checked? L ws (write L) = some out ↔
      (∀ w ∈ ws, L.CountsAll (wrapCounts L.endless w.first w.next w.text)) ∧
        out = write L.endless := by
  simp only [checked?, Option.ite_none_right_eq_some, List.all_eq_true, Wrapping.isCounted_iff,
    Option.some.injEq]
  apply and_congr_right
  intro hCounts
  rw [hWrite L.endless fun w hw => wrap_eq_endless (hCounts w hw), eq_comm]

/-- **Checked rewrapping.** A text is rewrapped exactly if every text that is wrapped in it can be
counted, and then it is rewrapped as it is without bound. -/
theorem Source.rewrapWith?_eq_some_iff {locate : Text → List LineRange} {lang : Option Language}
    {t out : Text} : rewrapWith? locate L lang t = some out ↔
      (∀ w ∈ wrappings locate lang (unifyEndings t),
        L.CountsAll (wrapCounts L.endless w.first w.next w.text)) ∧
        out = rewrapWith locate L.endless lang t :=
  checked?_eq_some_iff (fun L => rewrapWith locate L lang t) fun _ => rewrapWith_congr

/-- A structured comment by itself is rewrapped under the same condition on its own texts. Headings
and code may be of any width. -/
theorem Doc.render?_eq_some_iff {bare : Text} {lines out : List Text} :
    render? L bare lines = some out ↔
      (∀ w ∈ wrappings bare lines, L.CountsAll (wrapCounts L.endless w.first w.next w.text)) ∧
        out = render L.endless bare lines :=
  checked?_eq_some_iff (fun L => render L bare lines) fun _ => render_congr

/-- A run of line comments by itself is rewrapped under the same condition. Its decorations may be
of any width. -/
theorem LineComment.render?_eq_some_iff {lang : Language} {indent marker : Text}
    {lines out : List Text} : render? L lang indent marker lines = some out ↔
      (∀ w ∈ wrappings lang indent marker lines,
        L.CountsAll (wrapCounts L.endless w.first w.next w.text)) ∧
        out = render L.endless lang indent marker lines :=
  checked?_eq_some_iff (fun L => render L lang indent marker lines) fun _ => renderFrom_congr

/-- A block comment by itself is rewrapped under the same condition. If it is left as it stands,
nothing is counted and there always is a result. -/
theorem BlockComment.render?_eq_some_iff {indent opening closing gutter : Text}
    {lines out : List Text} : render? L indent opening closing gutter lines = some out ↔
      (∀ w ∈ wrappings indent opening closing gutter lines,
        L.CountsAll (wrapCounts L.endless w.first w.next w.text)) ∧
        out = render L.endless indent opening closing gutter lines :=
  checked?_eq_some_iff (fun L => render L indent opening closing gutter lines) fun _ =>
    render_congr

/-- The ranges of a document are rewrapped under the same condition on the lines in them; all other
lines may be of any width. -/
theorem Document.rewrap?_eq_some_iff {ranges : List LineRange} {t out : Text} :
    rewrap? L ranges t = some out ↔
      (∀ w ∈ wrappings ranges t, L.CountsAll (wrapCounts L.endless w.first w.next w.text)) ∧
        out = rewrap L.endless ranges t :=
  checked?_eq_some_iff (fun L => rewrap L ranges t) fun _ => rewrap_congr

end Checked

end Reflow
