import Reflow.Proofs.Doc.Extent
import Reflow.Proofs.Doc.Lists

/-!
The sections of a printed page: prose, a heading, code, or a run of items. Each of them is found
again as one span if what stands below it ends a span of its kind.
-/

namespace Reflow.Doc

theorem isIndented_of_filled {L : Layout} {margin : Text} {ls : List Text} (h : Filled L margin ls)
    {l : Text} (hl : l ∈ ls) : isIndented l = false := by
  obtain ⟨c, t, rfl⟩ := List.exists_cons_of_ne_nil (h.line_ne_nil hl)
  exact not_isGap_of_not_isBlank (h.isBlank_head hl rfl)

theorem Hung.exists_eq_cons {l : Text} (h : Hung l) : ∃ t, l = ' ' :: t := by
  obtain ⟨n, t, rfl, -⟩ := h
  exact ⟨List.replicate (n + 3) ' ' ++ t, by rw [← List.cons_append, ← List.replicate_succ]⟩

variable {L : Layout} {bare : Text}

/-- The first line of a printed item is an item, as there is text behind its bullet. -/
theorem isItem_bullet {number : Option Text} {l : Text} {ls : List Text} {more : List (List Text)}
    (h : (Stanza.item number l ls more).Sound L bare) :
    isItem (' ' :: ' ' :: (bullet number ++ l)) = true := by
  rw [isItem, item?_bullet h.2.1 List.mem_cons_self h.1]
  rfl

/-- A stanza begins as a block of its kind does, with text, a tab or two spaces and a bullet. Text
may look like an item all the same. -/
theorem Stanza.opens {s : Stanza} (hs : s.Sound L bare) :
    ∃ x xs, s.lines = x :: xs ∧ Opens s.kind x := by
  cases s with
  | text ls =>
      obtain ⟨x, xs, rfl⟩ := List.exists_cons_of_ne_nil hs.ne_nil
      have hx : x ∈ x :: xs := List.mem_cons_self
      exact ⟨x, xs, rfl, hs.line_ne_nil hx, isIndented_of_filled hs hx⟩
  | heading t => exact ⟨_, [], rfl, by simp, rfl⟩
  | code ls => exact hs.toIsListing.edges.1
  | item number l ls more => exact ⟨_, _, rfl, rfl, isItem_bullet hs⟩

/-- A stanza of another kind ends a list or code above it, if a blank line sets it apart; and so
does the end of the page. -/
theorem closes_pageLines {list : Bool} {page : List (Bool × Stanza)}
    (hSound : ∀ p ∈ page, p.2.Sound L bare)
    (hHead : ∀ p, page.head? = some p →
      p.1 = true ∧ p.2.kind ≠ if list then .list else .code) : Closes list (pageLines page) := by
  cases page with
  | nil => exact Or.inl rfl
  | cons p rest =>
      obtain ⟨apart, t⟩ := p
      obtain ⟨rfl, hKind⟩ : apart = true ∧ t.kind ≠ if list then .list else .code := hHead _ rfl
      obtain ⟨x, xs, hLines, hOpens⟩ := Stanza.opens (hSound _ List.mem_cons_self)
      rw [pageLines_cons, hLines]
      exact closes_of_opens list hOpens hKind (xs ++ pageLines rest)

theorem getLast?_append_pageLines_ne {s : Stanza} {page : List (Bool × Stanza)}
    (hs : s.Sound L bare) (hSound : ∀ p ∈ page, p.2.Sound L bare) :
    (s.lines ++ pageLines page).getLast? ≠ some [] := by
  induction page generalizing s with
  | nil =>
      rw [show pageLines [] = [] from rfl, List.append_nil]
      exact (Stanza.edges hs).2
  | cons p page ih =>
      obtain ⟨apart, t⟩ := p
      obtain ⟨ht, hRest⟩ := List.forall_mem_cons.mp hSound
      obtain ⟨⟨x, xs, hLines, -⟩, -⟩ := Stanza.edges ht
      have hNe : t.lines ++ pageLines page ≠ [] := by simp [hLines]
      rw [pageLines_cons, ← List.append_assoc, List.getLast?_append_of_ne_nil _ hNe]
      exact ih ht hRest

section Spans

variable (start : Nat) {below : List Text}

/-- Prose is one span, unless its first line is an item. Below it there is a blank line, or a
list. -/
theorem spansFrom_filled {margin l : Text} {ls : List Text} (hFilled : Filled L margin (l :: ls))
    (hItem : isItem l = false)
    (hBelow : ∀ x, below.head? = some x → x = [] ∨ isIndented x = true ∧ isItem x = true) :
    spansFrom start 0 (l :: ls ++ below) =
      { kind :=
          if ((ls ++ below).head?.all List.isEmpty) && isHeading l then .heading else .paragraph,
        start, lines := l :: ls } :: spansFrom (start + (l :: ls).length) 0 below := by
  apply spansFrom_prose start (hFilled.line_ne_nil List.mem_cons_self)
    (isIndented_of_filled hFilled List.mem_cons_self) hItem _ hBelow
  intro m hm
  exact ⟨hFilled.line_ne_nil (List.mem_cons_of_mem l hm),
    isIndented_of_filled hFilled (List.mem_cons_of_mem l hm)⟩

/-- A heading is one span if a blank line follows it, and else the first line of a paragraph. -/
theorem spansFrom_heading {t : Text} (hNe : t ≠ []) (hTrim : Text.trim t = t)
    (hBelow : ∀ x, below.head? = some x → x = []) :
    spansFrom start 0 ((Stanza.heading t).lines ++ below) =
      { kind := .heading, start, lines := (Stanza.heading t).lines } ::
        spansFrom (start + (Stanza.heading t).lines.length) 0 below := by
  have hHeading : isHeading ('#' :: ' ' :: t) = true := by
    rw [isHeading, trim_heading hNe hTrim]
    rfl
  have hItem : isItem ('#' :: ' ' :: t) = false := by
    rw [isItem, item?, trim_heading hNe hTrim]
    rfl
  have hAlone : below.head?.all List.isEmpty = true := by
    rw [Option.all_eq_true]
    intro x hx
    rw [hBelow x hx]
    rfl
  have hSpans := spansFrom_prose start (l := '#' :: ' ' :: t) (by simp) rfl hItem
    (List.forall_mem_nil _) fun x hx => Or.inl (hBelow x hx)
  rwa [List.nil_append, hAlone, hHeading] at hSpans

/-- Code is one span, with the blank lines inside it, if what stands below does not carry on with
code. -/
theorem spansFrom_code {ls : List Text} (h : IsListing ls) (hBelow : Closes false below) :
    spansFrom start 0 ((Stanza.code ls).lines ++ below) =
      { kind := .code, start, lines := (Stanza.code ls).lines } ::
        spansFrom (start + (Stanza.code ls).lines.length) 0 below := by
  obtain ⟨⟨x, xs, hLines, hTab, hItem⟩, hLast⟩ := h.edges
  have hTabs : ∀ m ∈ (Stanza.code ls).lines, m = [] ∨ m.head? = some '\t' := by
    intro m hm
    obtain ⟨k, -, rfl⟩ := List.mem_map.mp hm
    split
    · exact Or.inl rfl
    · exact Or.inr rfl
  have hIndented : isIndented x = true := by
    obtain ⟨t, rfl⟩ := List.head?_eq_some_iff.mp hTab
    rfl
  rw [hLines] at hTabs hLast ⊢
  have hTail : ∀ m ∈ xs, m = [] ∨ m.head? = some (if isItem x then ' ' else '\t') := by
    rw [hItem]
    exact fun m hm => hTabs m (List.mem_cons_of_mem x hm)
  have hEnd : xs.getLast? ≠ some [] := by
    intro hNil
    rw [List.getLast?_cons, hNil] at hLast
    exact hLast rfl
  have hCloses : Closes (isItem x) below := by rwa [hItem]
  have hSpans := spansFrom_indented start hIndented hTail hEnd hCloses
  rwa [hItem] at hSpans

/-- The items of a list are one span, whatever their kinds are, if what stands below does not carry
on with a list. -/
theorem spansFrom_items {apart : Bool} {number : Option Text} {l : Text} {ls : List Text}
    {more : List (List Text)} {items : List (Bool × Stanza)}
    (hPrinted : Printed L bare ((apart, .item number l ls more) :: items))
    (hKinds : ∀ p ∈ items, p.2.kind = .list) (hBelow : Closes true below) :
    spansFrom start 0 ((Stanza.item number l ls more).lines ++ pageLines items ++ below) =
      { kind := .list, start, lines := (Stanza.item number l ls more).lines ++ pageLines items } ::
        spansFrom (start + ((Stanza.item number l ls more).lines ++ pageLines items).length) 0
          below := by
  obtain ⟨hSound, hItemsSound⟩ := List.forall_mem_cons.mp hPrinted.sound
  have hItem := isItem_bullet hSound
  have hSpaced : ∀ m ∈ itemTail number ls more ++ pageLines items,
      m = [] ∨ m.head? = some
        (if isItem (' ' :: ' ' :: (bullet number ++ l)) then ' ' else '\t') := by
    intro m hm
    rw [hItem, if_pos rfl]
    rcases List.mem_append.mp hm with hm | hm
    · rcases hung_of_mem_itemTail hSound.2.1 hSound.2.2 hm with hNil | hHung
      · exact Or.inl hNil
      · obtain ⟨t, rfl⟩ := hHung.exists_eq_cons
        exact Or.inr rfl
    · rcases line_list_cases hItemsSound hKinds hm with hNil | hHung | ⟨f, k, t, ts, kmore, -, rfl⟩
      · exact Or.inl hNil
      · obtain ⟨t, rfl⟩ := hHung.exists_eq_cons
        exact Or.inr rfl
      · exact Or.inr rfl
  have hLast : (itemTail number ls more ++ pageLines items).getLast? ≠ some [] := by
    intro hNil
    apply getLast?_append_pageLines_ne hSound hItemsSound
    rw [Stanza.lines, List.cons_append, List.getLast?_cons, hNil]
    rfl
  have hCloses : Closes (isItem (' ' :: ' ' :: (bullet number ++ l))) below := by rwa [hItem]
  have hSpans := spansFrom_indented start rfl hSpaced hLast hCloses
  rw [hItem, if_pos rfl, ← List.cons_append] at hSpans
  exact hSpans

end Spans

end Reflow.Doc
