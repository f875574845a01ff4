import Mathlib.Data.List.Basic
import Reflow.Document
import Reflow.Proofs.Paragraph

/-!
Views of text that some characters are invisible to, and what wrapping does to them. A view answers
a list for each text; at an invisible character it falls apart into the views of the two sides. The
words of a text are such a view for blanks, and so are its characters of any class that holds no
blank. Wrapping keeps every such view, so it neither loses nor repeats nor reorders anything that
can be seen. A view that sees some blanks is kept up to what trimming removes from the lines.
-/

namespace Reflow

/-- A view of text that sees nothing in a character of class `p` and never looks across one. The
second law gives the first for all such characters at the end of a text, and it is what wrapping
relies on where it moves, drops or adds gaps. -/
structure Blind (p : Char → Bool) {α : Type} (view : Text → List α) : Prop where
  nil : view [] = []
  append_blank (t : Text) (c : Char) (u : Text) (hc : p c = true) :
    view (t ++ c :: u) = view t ++ view u

/-- A view of text that sees nothing in a blank. The words of a text are one, and so are its
characters of any class without blanks. -/
abbrev BlankBlind {α : Type} (view : Text → List α) : Prop := Blind isBlank view

/-- The words of a text: the longest runs of characters that are not blank. Any blank ends a word
here, while lines are broken at spaces and tabs only. -/
def Text.words (t : Text) : List Text := (t.splitOnP isBlank).filter (!List.isEmpty ·)

theorem blankBlind_words : BlankBlind Text.words where
  nil := by simp [Text.words]
  append_blank t c u hc := by
    rw [Text.words, List.splitOnP_append_cons t u hc, List.filter_append, Text.words, Text.words]

/-- The characters of a class are a view for which those of any disjoint class are invisible. Their
order counts, so that such a view tells also when text is moved. -/
theorem blind_filter {p q : Char → Bool} (hp : ∀ c, p c = true → q c = false) :
    Blind p (List.filter q) where
  nil := rfl
  append_blank t c u hc := by
    rw [List.filter_append, List.filter_cons_of_neg (by simp [hp c hc])]

/-- The characters that comments, gutters and list items are marked with. Printing a comment may add
or remove these, so nothing is said about them where a comment is written anew. -/
def isMarkup (c : Char) : Bool := "/#*!-+•.)".toList.contains c

/-- The characters of a text that are neither blank nor markup, in order. Digits count, though a
numbered item is marked with them. -/
def Text.substance (t : Text) : Text := t.filter fun c => !isBlank c && !isMarkup c

theorem blankBlind_substance : BlankBlind Text.substance :=
  blind_filter fun c hc => by simp [hc]

@[simp] theorem Text.substance_nil : Text.substance [] = [] := rfl

@[simp] theorem Text.substance_append (t u : Text) :
    Text.substance (t ++ u) = Text.substance t ++ Text.substance u :=
  List.filter_append _ _

theorem Text.substance_cons (c : Char) (t : Text) :
    Text.substance (c :: t) = Text.substance [c] ++ Text.substance t :=
  Text.substance_append [c] t

/-- A text of blanks and markup only, as a margin or a bullet, has no substance, so it may be added
anywhere. -/
theorem Text.substance_eq_nil {t : Text} (h : ∀ c ∈ t, isBlank c = true ∨ isMarkup c = true) :
    Text.substance t = [] := by
  rw [Text.substance, List.filter_eq_nil_iff]
  intro c hc
  rcases h c hc with hBlank | hMarkup
  · simp [hBlank]
  · simp [hMarkup]

namespace Blind

variable {α : Type} {p : Char → Bool} {view : Text → List α} (hView : Blind p view)
include hView

theorem blank_append {t : Text} (ht : ∀ c ∈ t, p c = true) (u : Text) :
    view (t ++ u) = view u := by
  induction t with
  | nil => rfl
  | cons c t ih =>
      have hStep := hView.append_blank [] c (t ++ u) (ht c List.mem_cons_self)
      rw [hView.nil] at hStep
      exact hStep.trans (ih fun d hd => ht d (List.mem_cons_of_mem c hd))

theorem blank {t : Text} (ht : ∀ c ∈ t, p c = true) : view t = [] := by
  have h := hView.blank_append ht []
  rwa [List.append_nil, hView.nil] at h

/-- What stands on either side of a nonempty stretch of blanks is seen on its own. An empty stretch
would not do: the two sides could be one word. -/
theorem append_blanks (t : Text) {gap : Text} (hNe : gap ≠ []) (hGap : ∀ c ∈ gap, p c = true)
    (u : Text) : view (t ++ (gap ++ u)) = view t ++ view u := by
  obtain ⟨c, rest, rfl⟩ := List.exists_cons_of_ne_nil hNe
  rw [List.cons_append, hView.append_blank _ _ _ (hGap c List.mem_cons_self),
    hView.blank_append fun d hd => hGap d (List.mem_cons_of_mem c hd)]

/-- Blanks at the end of a text are not seen. A separator line may thus lose its final spaces. -/
theorem append_blank_end (t : Text) {gap : Text} (hGap : ∀ c ∈ gap, p c = true) :
    view (t ++ gap) = view t := by
  cases hEmpty : gap with
  | nil => rw [List.append_nil]
  | cons c rest =>
      have h := hView.append_blanks t (by rw [hEmpty]; simp) hGap []
      rwa [List.append_nil, hView.nil, List.append_nil, hEmpty] at h

/-- Texts that are joined by an invisible character are seen one by one, in their order. Lines
joined by spaces or by line feeds are the two uses of this. -/
theorem intercalate {c : Char} (hc : p c = true) (ts : List Text) :
    view (List.intercalate [c] ts) = ts.flatMap view := by
  induction ts with
  | nil => exact hView.nil
  | cons t ts ih =>
      cases ts with
      | nil => simp
      | cons u ts =>
          rw [List.intercalate_cons_cons, List.append_assoc, List.singleton_append,
            hView.append_blank _ _ _ hc, ih]
          rfl

section Words

variable (hGaps : ∀ c, isGap c = true → p c = true)
include hGaps

/-- Everything seen in a text is seen in its words. The gaps between them show nothing, whether they
are written again or not. -/
theorem ofText (t : Text) : (Token.ofText t).flatMap (view ·.word) = view t := by
  induction t using Token.ofText_induction with
  | gaps t hAll =>
      rw [Token.ofText_eq_nil hAll, hView.blank fun c hc => hGaps c (hAll c hc)]
      rfl
  | word first rest hFirst hRest ih =>
      have hGap : ∀ c ∈ first.gap, p c = true := fun c hc => hGaps c (hFirst.gap_open c hc)
      rw [Token.ofText_append hFirst hRest, List.flatMap_cons, ih, Token.text, List.append_assoc,
        hView.blank_append hGap]
      cases rest with
      | nil => rw [hView.nil, List.append_nil, List.append_nil]
      | cons c rest =>
          have hc : p c = true := hGaps c (hRest c rfl)
          have hSkip : view (c :: rest) = view rest := by
            simpa [hView.nil] using hView.append_blank [] c rest hc
          rw [hView.append_blank _ _ _ hc, hSkip]

/-- A written line shows what its words show. The spacers are gaps, of whatever width they are. -/
theorem lineText (L : Layout) {line : List Token} (hLine : ∀ t ∈ line, t.Proper) :
    view (Packing.lineText L line) = line.flatMap (view ·.word) := by
  cases line with
  | nil => exact hView.nil
  | cons t ts =>
      rw [Packing.lineText, List.flatMap_cons]
      have hTail : ∀ u ∈ ts, u.Proper := fun u hu => hLine u (List.mem_cons_of_mem t hu)
      clear hLine
      generalize t.word = front
      -- `front` grows by one word at a time, so that the words before it stay visible.
      induction ts generalizing front with
      | nil => simp
      | cons u ts ih =>
          have hBlank : ∀ c ∈ Packing.spacer L u, p c = true := fun c hc =>
            hGaps c (Packing.isGap_of_mem_spacer L (hTail u List.mem_cons_self) hc)
          have hRest := ih (fun v hv => hTail v (List.mem_cons_of_mem u hv)) u.word
          rw [List.flatMap_cons, List.append_assoc,
            hView.append_blanks _ (Packing.spacer_ne_nil L u) hBlank, hRest, List.flatMap_cons]

/-- Lines behind invisible margins show their words. Something visible in the first margin is seen
once, before all words. -/
theorem write (L : Layout) {first next : Text} (seen : List α)
    (hFirst : ∀ t, view (first ++ t) = seen ++ view t) (hNext : ∀ t, view (next ++ t) = view t)
    {l : List Token} {ls : List (List Token)} (hTokens : ∀ m ∈ l :: ls, ∀ t ∈ m, t.Proper) :
    (Packing.write L first next (l :: ls)).flatMap view =
      seen ++ (l :: ls).flatten.flatMap (view ·.word) := by
  have hRest : (ls.map fun m => next ++ Packing.lineText L m).flatMap view =
      ls.flatten.flatMap (view ·.word) := by
    rw [List.flatMap_map, List.flatten_eq_flatMap, List.flatMap_assoc]
    refine List.flatMap_congr fun m hm => ?_
    rw [hNext, hView.lineText hGaps L (hTokens m (List.mem_cons_of_mem l hm)), id]
  rw [Packing.write, List.flatMap_cons, hRest, hFirst,
    hView.lineText hGaps L (hTokens l List.mem_cons_self),
    List.flatten_cons, List.flatMap_append, List.append_assoc]

/-- Wrapping one paragraph keeps what is seen in it and adds what is seen in its first margin. A
paragraph without words has no lines, and not even that margin. -/
theorem wrapParagraph (L : Layout) {first next : Text} (seen : List α)
    (hFirst : ∀ t, view (first ++ t) = seen ++ view t) (hNext : ∀ t, view (next ++ t) = view t)
    {t : Text} (ht : Token.ofText t ≠ []) :
    (Reflow.wrapParagraph L first next t).flatMap view = seen ++ view t := by
  have hFlatten := Packing.flatten_divide L first next (Token.ofText t)
  rw [Reflow.wrapParagraph]
  cases hDivide : Packing.divide L first next (Token.ofText t) with
  | nil =>
      rw [hDivide] at hFlatten
      exact absurd hFlatten.symm ht
  | cons l ls =>
      rw [hDivide] at hFlatten
      have hTokens : ∀ m ∈ l :: ls, ∀ u ∈ m, u.Proper := fun m hm u hu =>
        Token.proper_of_mem_ofText (hFlatten ▸ List.mem_flatten_of_mem hm hu)
      rw [hView.write hGaps L seen hFirst hNext hTokens, hFlatten, hView.ofText hGaps]

/-- Wrapping keeps what is seen in the paragraphs of a text and adds what is seen in its first
margin. The other margin and the separators have to be invisible, as they are written any number of
times. -/
theorem wrap_paragraphs (L : Layout) {first next : Text} (seen : List α)
    (hFirst : ∀ t, view (first ++ t) = seen ++ view t) (hNext : ∀ t, view (next ++ t) = view t)
    (t : Text) :
    (Reflow.wrap L first next t).flatMap view = seen ++ (Reflow.paragraphs t).flatMap view := by
  rw [Reflow.wrap]
  split
  next hNil =>
    have hMargin := hFirst []
    rw [List.append_nil, hView.nil] at hMargin
    rw [hNil]
    simp [hMargin]
  next q qs hCons =>
    have hWords : ∀ r ∈ q :: qs, Token.ofText r ≠ [] := fun r hr =>
      ofText_ne_nil_of_mem_paragraphs (hCons ▸ hr)
    have hSeparator : view (Text.dropEndSpaces next) = [] := by
      obtain ⟨n, hn⟩ := Text.exists_eq_dropEndSpaces_append next
      have hSpaces : ∀ c ∈ List.replicate n ' ', p c = true := fun c hc =>
        hGaps c (by rw [List.eq_of_mem_replicate hc]; rfl)
      have hMargin := hNext []
      rw [List.append_nil, hView.nil, hn, hView.append_blank_end _ hSpaces] at hMargin
      exact hMargin
    rw [hCons, List.flatMap_append, hView.wrapParagraph hGaps L seen hFirst hNext
      (hWords q List.mem_cons_self), List.flatMap_assoc, List.flatMap_cons, List.append_assoc]
    congr 2
    refine List.flatMap_congr fun r hr => ?_
    rw [List.flatMap_cons, hSeparator, hView.wrapParagraph hGaps L [] (by simpa using hNext) hNext
      (hWords r (List.mem_cons_of_mem q hr))]
    rfl

/-- The paragraphs of a text show what its trimmed lines show. Views that see some blanks can be
used here, as what trimming removes is left out on both sides. -/
theorem paragraphs_lines (t : Text) :
    (Reflow.paragraphs t).flatMap view = (Text.lines t).flatMap fun l => view (Text.trim l) := by
  have hJoin : ∀ q : List Text, view (List.intercalate [' '] q) = q.flatMap view :=
    hView.intercalate (hGaps ' ' rfl)
  have hEmpty : ∀ l : Text, l.isEmpty = true → view l = [] := fun l hl => by
    rw [List.isEmpty_iff.mp hl, hView.nil]
  rw [Reflow.paragraphs, List.flatMap_map, List.flatMap_congr fun q _ => hJoin q,
    flatMap_filter_isEmpty (List.flatMap_nil), flatMap_splitOnP hEmpty, List.flatMap_map]

end Words

end Blind

namespace BlankBlind

variable {α : Type} {view : Text → List α} (hView : BlankBlind view)
include hView

theorem trim (t : Text) : view (Text.trim t) = view t := by
  obtain ⟨front, back, hFront, hBack, hSplit⟩ := Text.exists_eq_append_trim t
  calc view (Text.trim t) = view (front ++ Text.trim t ++ back) := by
        rw [hView.append_blank_end _ hBack, hView.blank_append hFront]
    _ = view t := by rw [← hSplit]

theorem unlines (ls : List Text) : view (Text.unlines ls) = ls.flatMap view :=
  hView.intercalate (by decide) ls

/-- A text shows what its lines show, since a line feed is a blank. -/
theorem lines (t : Text) : (Text.lines t).flatMap view = view t := by
  rw [← BlankBlind.unlines hView, Text.unlines_lines]

/-- Wrapping keeps what is seen in a text and adds what is seen in its first margin. Nothing is
lost, repeated or put in another order, however narrow the page. -/
theorem wrap (L : Layout) {first next : Text} (seen : List α)
    (hFirst : ∀ t, view (first ++ t) = seen ++ view t) (hNext : ∀ t, view (next ++ t) = view t)
    (t : Text) : (Reflow.wrap L first next t).flatMap view = seen ++ view t := by
  rw [hView.wrap_paragraphs (fun _ => isBlank_of_isGap) L seen hFirst hNext,
    hView.paragraphs_lines fun _ => isBlank_of_isGap,
    List.flatMap_congr fun l _ => BlankBlind.trim hView l, BlankBlind.lines hView]

/-- Wrapping without margins keeps what is seen. Plain text and the paragraphs of a document are
wrapped this way. -/
theorem wrap_nil (L : Layout) (t : Text) : (Reflow.wrap L [] [] t).flatMap view = view t :=
  hView.wrap L [] (fun _ => rfl) (fun _ => rfl) t

/-- Rewrapping any ranges of a document keeps what is seen from line `next` on. The ranges may
overlap, be out of order or lie behind the end. -/
theorem rewrapFrom (L : Layout) (lines : List Text) (next : Nat) (ranges : List LineRange) :
    (Document.rewrapFrom L lines next ranges).flatMap view = (lines.drop next).flatMap view := by
  induction ranges generalizing next with
  | nil => rfl
  | cons r rs ih =>
      by_cases hRange : next ≤ r.start ∧ r.start < min r.stop lines.length
      · rw [Document.rewrapFrom_wrap hRange, List.flatMap_append, List.flatMap_append,
          hView.wrap_nil, hView.unlines, ih, ← Document.slice_append_drop hRange.1,
          ← Document.slice_append_drop hRange.2.le, List.flatMap_append, List.flatMap_append,
          List.append_assoc]
      · rw [Document.rewrapFrom_skip hRange]
        exact ih next

theorem rewrap (L : Layout) (ranges : List LineRange) (t : Text) :
    view (Document.rewrap L ranges t) = view t := by
  rw [Document.rewrap, hView.unlines, hView.rewrapFrom, List.drop_zero, hView.lines]

end BlankBlind

end Reflow
