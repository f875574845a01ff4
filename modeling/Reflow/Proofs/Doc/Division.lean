import Reflow.Proofs.Doc.Stanza

/-!
Dividing a rewrapped comment at a decoration. Both parts are laid out as a rewrapped comment is, but
the lower part may begin with lines that hang behind a bullet out of sight.
-/

namespace Reflow.Doc

/-- Lines as a rewrapped comment has them, or a part of one between two decorations. The lines in
front belong to an item whose bullet is not among them; the page behind them is printed; blank lines
may be left at the end. -/
def Laid (L : Layout) (bare : Text) (lines : List Text) : Prop :=
  ∃ front page n, lines = front ++ pageLines page ++ List.replicate n [] ∧
    (∀ l ∈ front, l = [] ∨ Hung l) ∧ Printed L bare page

/-- An element of joined lists belongs to one of them, with all that is before it and behind it
divided accordingly. -/
theorem exists_of_flatMap_eq {α β : Type} {f : α → List β} {xs : List α} {ys zs : List β} {y : β}
    (h : xs.flatMap f = ys ++ y :: zs) :
    ∃ front x back us vs, xs = front ++ x :: back ∧ f x = us ++ y :: vs ∧
      ys = front.flatMap f ++ us ∧ zs = vs ++ back.flatMap f := by
  induction xs generalizing ys with
  | nil => simp at h
  | cons x xs ih =>
      rw [List.flatMap_cons] at h
      rcases List.append_eq_append_iff.mp h with ⟨c, hYs, hRest⟩ | ⟨c, hx, hRest⟩
      · obtain ⟨front, z, back, us, vs, rfl, hz, rfl, rfl⟩ := ih hRest
        exact ⟨x :: front, z, back, us, vs, rfl, hz, by simp [hYs], rfl⟩
      · cases c with
        | nil =>
            have hTail : xs.flatMap f = [] ++ y :: zs := by simpa using hRest.symm
            obtain ⟨front, z, back, us, vs, rfl, hz, hNil, rfl⟩ := ih hTail
            obtain ⟨hFront, rfl⟩ := List.append_eq_nil_iff.mp hNil.symm
            exact ⟨x :: front, z, back, [], vs, rfl, hz, by simp [hFront, hx], rfl⟩
        | cons w c =>
            obtain ⟨rfl, rfl⟩ := List.cons.inj hRest
            exact ⟨[], x, xs, ys, c, rfl, hx, rfl, rfl⟩

/-- What stands above a line of an item is an item again, with a blank line below it if the line
starts a paragraph. The line itself may be in the middle of a paragraph. -/
theorem exists_prefix_itemTail {L : Layout} {margin : Text} {number : Option Text}
    {more : List (List Text)} (hMore : ∀ p ∈ more, Filled L margin p) {us : List Text}
    (h : us <+: more.flatMap fun p => [] :: p.map (hang number ++ ·)) :
    ∃ (kept : List (List Text)) (n : Nat), (∀ p ∈ kept, Filled L margin p) ∧
      us = (kept.flatMap fun p => [] :: p.map (hang number ++ ·)) ++ List.replicate n [] := by
  induction more generalizing us with
  | nil =>
      rw [List.flatMap_nil, List.prefix_nil] at h
      exact ⟨[], 0, nofun, h⟩
  | cons p more ih =>
      rw [List.flatMap_cons, List.cons_append] at h
      cases us with
      | nil => exact ⟨[], 0, nofun, rfl⟩
      | cons u us =>
          obtain ⟨rfl, vs, hSplit⟩ := List.cons_prefix_cons.mp h
          rcases List.append_eq_append_iff.mp hSplit with ⟨c, hPart, -⟩ | ⟨c, hWhole, hRest⟩
          · obtain ⟨q, r, rfl, rfl, -⟩ := List.map_eq_append_iff.mp hPart
            cases q with
            | nil => exact ⟨[], 1, nofun, rfl⟩
            | cons l q =>
                refine ⟨[l :: q], 0, ?_, by simp⟩
                intro k hk
                rw [List.mem_singleton.mp hk]
                exact (hMore _ List.mem_cons_self).of_isInfix ⟨[], r, by simp⟩ (by simp)
          · obtain ⟨kept, n, hKept, rfl⟩ := ih (fun q hq => hMore q (List.mem_cons_of_mem p hq))
              ⟨vs, hRest.symm⟩
            refine ⟨p :: kept, n, ?_, by simp [hWhole]⟩
            exact List.forall_mem_cons.mpr ⟨hMore p List.mem_cons_self, hKept⟩

theorem Stanza.Follows.of_text {ls ms : List Text} {f g : Bool} {q : Bool × Stanza}
    (h : Follows (f, text ls) q) : Follows (g, text ms) q := by
  obtain ⟨apart, s⟩ := q
  cases s <;> exact h

theorem Stanza.Follows.of_code {ls ms : List Text} {f g : Bool} {q : Bool × Stanza}
    (h : Follows (f, code ls) q) : Follows (g, code ms) q := by
  obtain ⟨apart, s⟩ := q
  cases s <;> exact h

theorem Stanza.Follows.to_text {p : Bool × Stanza} {ls ms : List Text} {f : Bool}
    (h : Follows p (f, text ls)) : Follows p (f, text ms) := by
  obtain ⟨apart, s⟩ := p
  cases s <;> exact h

theorem Stanza.Follows.to_item {p : Bool × Stanza} {number : Option Text} {l : Text}
    {ls ms : List Text} {more kept : List (List Text)} {f : Bool}
    (h : Follows p (f, item number l ls more)) : Follows p (f, item number l ms kept) := by
  obtain ⟨apart, s⟩ := p
  cases s <;> exact h

/-- The last stanza may be replaced by one that may stand in its place. Cutting a page in the middle
of a stanza does so. -/
theorem Printed.replace_last {L : Layout} {bare : Text} {front : List (Bool × Stanza)}
    {p q : Bool × Stanza} (h : Printed L bare (front ++ [p])) (hSound : q.2.Sound L bare)
    (hFollows : ∀ r, Stanza.Follows r p → Stanza.Follows r q) : Printed L bare (front ++ [q]) := by
  refine ⟨fun r hr => ?_, ?_⟩
  · rcases List.mem_append.mp hr with hr | hr
    · exact h.sound r (List.mem_append_left _ hr)
    · rw [List.mem_singleton.mp hr]
      exact hSound
  · have hChain := List.isChain_append.mp h.follows
    refine List.isChain_append.mpr ⟨hChain.1, List.isChain_singleton q, fun r hr s hs => ?_⟩
    rw [← Option.some.inj hs]
    exact hFollows r (hChain.2.2 r hr p rfl)

theorem pageLines_append (front back : List (Bool × Stanza)) :
    pageLines (front ++ back) = pageLines front ++ pageLines back := List.flatMap_append

theorem pageLines_cons (apart : Bool) (s : Stanza) (page : List (Bool × Stanza)) :
    pageLines ((apart, s) :: page) =
      List.replicate apart.toNat [] ++ (s.lines ++ pageLines page) := by
  cases apart <;> rfl

/-- A decoration of a printed comment stands in a paragraph or below the first line of an item.
Headings are none, and code holds none. -/
theorem Stanza.decoration_cases {L : Layout} {bare : Text} {s : Stanza} (hs : s.Sound L bare)
    {us vs : List Text} {d : Text} (hLines : s.lines = us ++ d :: vs) (hd : isDecoration d = true) :
    s = text (us ++ d :: vs) ∨
      ∃ number l ls more ws, s = item number l ls more ∧
      us = (' ' :: ' ' :: (bullet number ++ l)) :: ws ∧
        itemTail number ls more = ws ++ d :: vs := by
  have hMem : d ∈ s.lines := by simp [hLines]
  cases s with
  | text ls => exact Or.inl (congrArg text hLines)
  | heading t =>
      rw [List.mem_singleton.mp hMem, isDecoration_heading hs.1 hs.2] at hd
      cases hd
  | code ls =>
      obtain ⟨l, hl, rfl⟩ := List.mem_map.mp hMem
      have hPlain := hs.plain l hl
      split at hd
      · cases hd
      · rw [isDecoration_tab_cons, hPlain] at hd
        cases hd
  | item number l ls more =>
      obtain ⟨hNumber, hFilled, -⟩ := hs
      have hl : l ∈ l :: ls := List.mem_cons_self
      rw [lines] at hLines
      cases us with
      | nil =>
          rw [← (List.cons.inj hLines).1,
            isDecoration_bullet_append hNumber (hFilled.line_ne_nil hl) (hFilled.line hl).2.1] at hd
          cases hd
      | cons u us =>
          obtain ⟨rfl, hTail⟩ := List.cons.inj hLines
          exact Or.inr ⟨number, l, ls, more, us, rfl, rfl, hTail⟩

/-- What stands above a line of an item below its first line: the item with fewer lines, and perhaps
a blank line at its end. -/
theorem exists_item_above {L : Layout} {margin : Text} {number : Option Text} {l d : Text}
    {ls ws vs : List Text} {more : List (List Text)} (hFirst : Filled L margin (l :: ls))
    (hMore : ∀ p ∈ more, Filled L margin p) (hTail : itemTail number ls more = ws ++ d :: vs) :
    ∃ (lower : List Text) (kept : List (List Text)) (n : Nat), Filled L margin (l :: lower) ∧
      (∀ p ∈ kept, Filled L margin p) ∧ ws = itemTail number lower kept ++ List.replicate n [] := by
  rcases List.append_eq_append_iff.mp hTail with ⟨c, rfl, hFlat⟩ | ⟨c, hMap, -⟩
  · obtain ⟨kept, n, hKept, rfl⟩ := exists_prefix_itemTail hMore ⟨d :: vs, hFlat.symm⟩
    exact ⟨ls, kept, n, hFirst, hKept, by simp [itemTail]⟩
  · obtain ⟨lower, after, rfl, rfl, -⟩ := List.map_eq_append_iff.mp hMap
    exact ⟨lower, [], 0, hFirst.of_isInfix ⟨[], after, by simp⟩ (by simp), List.forall_mem_nil _,
      by simp [itemTail]⟩

/-- A decoration stands in one stanza of a printed comment, and not between two, where there are
only blank lines. -/
theorem exists_stanza_of_pageLines_eq {page : List (Bool × Stanza)} {us vs : List Text} {d : Text}
    (hLines : pageLines page = us ++ d :: vs) (hd : isDecoration d = true) :
    ∃ above apart s below inner rest, page = above ++ (apart, s) :: below ∧
      s.lines = inner ++ d :: rest ∧
      us = pageLines above ++ (List.replicate apart.toNat [] ++ inner) ∧
      vs = rest ++ pageLines below := by
  obtain ⟨above, ⟨apart, s⟩, below, own, rest, rfl, hStanza, rfl, rfl⟩ :=
    exists_of_flatMap_eq hLines
  cases apart with
  | false => exact ⟨above, false, s, below, own, rest, rfl, hStanza, rfl, rfl⟩
  | true =>
      cases own with
      | nil => exact absurd (List.cons.inj hStanza).1.symm (ne_nil_of_isDecoration hd)
      | cons u own =>
          obtain ⟨rfl, hOwn⟩ := List.cons.inj hStanza
          exact ⟨above, true, s, below, own, rest, rfl, hOwn, rfl, rfl⟩

section Parts

variable {L : Layout} {bare : Text} {above below : List (Bool × Stanza)} {apart : Bool}
  {inner rest : List Text} {d : Text}

theorem Printed.up_to {s : Stanza} (h : Printed L bare (above ++ (apart, s) :: below)) :
    Printed L bare (above ++ [(apart, s)]) := by
  rw [← List.singleton_append, ← List.append_assoc] at h
  exact h.of_append.1

theorem Printed.behind {s : Stanza} (h : Printed L bare (above ++ (apart, s) :: below)) :
    Printed L bare below := by
  rw [← List.singleton_append, ← List.append_assoc] at h
  exact h.of_append.2

/-- The lines of a paragraph above a decoration are a paragraph, if there are any. If there are
none, a blank line above the paragraph is left at the end of the page. -/
theorem Printed.above_text
    (h : Printed L bare (above ++ (apart, .text (inner ++ d :: rest)) :: below)) :
    ∃ page n, pageLines above ++ (List.replicate apart.toNat [] ++ inner) =
      pageLines page ++ List.replicate n [] ∧ Printed L bare page := by
  have hSound : (Stanza.text (inner ++ d :: rest)).Sound L bare := h.sound (apart, _) (by simp)
  cases inner with
  | nil => exact ⟨above, apart.toNat, by simp, h.of_append.1⟩
  | cons m inner =>
      refine ⟨above ++ [(apart, .text (m :: inner))], 0, ?_, ?_⟩
      · rw [pageLines_append, pageLines_cons]
        simp [pageLines, Stanza.lines]
      · exact h.up_to.replace_last (hSound.of_isInfix ⟨[], d :: rest, rfl⟩ (by simp))
          fun r => Stanza.Follows.to_text

/-- The lines of a paragraph below a decoration are a paragraph, if there are any, and stand first
on the page. -/
theorem Printed.below_text
    (h : Printed L bare (above ++ (apart, .text (inner ++ d :: rest)) :: below)) :
    ∃ page, rest ++ pageLines below = pageLines page ∧ Printed L bare page := by
  have hSound : (Stanza.text (inner ++ d :: rest)).Sound L bare := h.sound (apart, _) (by simp)
  cases rest with
  | nil => exact ⟨below, rfl, h.behind⟩
  | cons m rest =>
      refine ⟨(false, .text (m :: rest)) :: below, rfl, fun p hp => ?_, ?_⟩
      · rcases List.mem_cons.mp hp with rfl | hp
        · exact hSound.of_isInfix ⟨inner ++ [d], [], by simp⟩ (by simp)
        · exact h.behind.sound p hp
      · have hChain := List.isChain_cons.mp h.of_append.2.follows
        exact List.isChain_cons.mpr ⟨fun q hq => (hChain.1 q hq).of_text, hChain.2⟩

/-- The lines of an item above a decoration are an item, with a blank line below it if the
decoration starts a paragraph. What is below the decoration has lost its bullet, and is not spoken
of. -/
theorem Printed.above_item {number : Option Text} {l : Text} {ls ws : List Text}
    {more : List (List Text)}
    (h : Printed L bare (above ++ (apart, .item number l ls more) :: below))
    (hTail : itemTail number ls more = ws ++ d :: rest) :
    ∃ page n, pageLines above ++
        (List.replicate apart.toNat [] ++ (' ' :: ' ' :: (bullet number ++ l)) :: ws) =
      pageLines page ++ List.replicate n [] ∧ Printed L bare page := by
  obtain ⟨hNumber, hFirst, hMore⟩ : (Stanza.item number l ls more).Sound L bare :=
    h.sound (apart, _) (by simp)
  obtain ⟨lower, kept, n, hLower, hKept, rfl⟩ := exists_item_above hFirst hMore hTail
  refine ⟨above ++ [(apart, .item number l lower kept)], n, ?_, ?_⟩
  · rw [pageLines_append, pageLines_cons]
    simp [pageLines, Stanza.lines]
  · exact h.up_to.replace_last (q := (apart, .item number l lower kept)) ⟨hNumber, hLower, hKept⟩
      fun r => Stanza.Follows.to_item

end Parts

/-- What stands above and below a decoration inside a printed comment: a page that may end in blank
lines, and lines that may start with the rest of an item. -/
theorem laid_of_pageLines_eq {L : Layout} {bare : Text} {page : List (Bool × Stanza)}
    (h : Printed L bare page) {us vs : List Text} {d : Text}
    (hLines : pageLines page = us ++ d :: vs) (hd : isDecoration d = true) :
    (∃ above n, us = pageLines above ++ List.replicate n [] ∧ Printed L bare above) ∧
      ∃ front below, vs = front ++ pageLines below ∧ (∀ l ∈ front, l = [] ∨ Hung l) ∧
        Printed L bare below := by
  obtain ⟨above, apart, s, below, inner, rest, rfl, hInner, rfl, rfl⟩ :=
    exists_stanza_of_pageLines_eq hLines hd
  have hSound : s.Sound L bare := h.sound (apart, s) (by simp)
  rcases Stanza.decoration_cases hSound hInner hd with
    rfl | ⟨number, l, ls, more, ws, rfl, rfl, hTail⟩
  · obtain ⟨page, hPage, hPrinted⟩ := h.below_text
    exact ⟨h.above_text, [], page, hPage, List.forall_mem_nil _, hPrinted⟩
  · refine ⟨h.above_item hTail, rest, below, rfl, fun m hm => ?_, h.behind⟩
    have hMem : m ∈ itemTail number ls more := by simp [hTail, hm]
    exact hung_of_mem_itemTail hSound.2.1 hSound.2.2 hMem

/-- A line that is not blank stands above the blank lines at an end, so these are cut off together
with what is below the line. -/
theorem exists_of_append_replicate_eq {lines ws vs : List Text} {d : Text} {n : Nat} (hd : d ≠ [])
    (h : lines ++ List.replicate n [] = ws ++ d :: vs) :
    ∃ after, vs = after ++ List.replicate n [] ∧ lines = ws ++ d :: after := by
  rcases List.append_eq_append_iff.mp h with ⟨c, -, hBlank⟩ | ⟨c, hWhole, hRest⟩
  · have hMem : d ∈ List.replicate n [] := by simp [hBlank]
    exact absurd (List.eq_of_mem_replicate hMem) hd
  · cases c with
    | nil =>
        have hMem : d ∈ List.replicate n [] := by
          rw [← List.nil_append (List.replicate n []), ← hRest]
          exact List.mem_cons_self
        exact absurd (List.eq_of_mem_replicate hMem) hd
    | cons e c =>
        obtain ⟨rfl, rfl⟩ := List.cons.inj hRest
        exact ⟨c, rfl, hWhole⟩

/-- A decoration divides laid lines into laid lines. The property is made for this: dividing again,
at any number of decorations, does not lead out of it. -/
theorem Laid.of_append_cons {L : Layout} {bare : Text} {us vs : List Text} {d : Text}
    (h : Laid L bare (us ++ d :: vs)) (hd : isDecoration d = true) :
    Laid L bare us ∧ Laid L bare vs := by
  have hNil : Printed L bare [] := ⟨nofun, .nil⟩
  obtain ⟨front, page, n, hLines, hFront, hPage⟩ := h
  rw [List.append_assoc] at hLines
  have hInside : ∀ ws, us = front ++ ws → pageLines page ++ List.replicate n [] = ws ++ d :: vs →
      Laid L bare us ∧ Laid L bare vs := by
    rintro ws rfl hWs
    obtain ⟨after, rfl, hSplit⟩ := exists_of_append_replicate_eq (ne_nil_of_isDecoration hd) hWs
    obtain ⟨⟨above, k, rfl, hAbove⟩, hung, below, rfl, hHung, hBelow⟩ :=
      laid_of_pageLines_eq hPage hSplit hd
    exact ⟨⟨front, above, k, by simp, hFront, hAbove⟩, hung, below, n, rfl, hHung, hBelow⟩
  rcases List.append_eq_append_iff.mp hLines with ⟨c, hUs, hRest⟩ | ⟨c, hUs, hRest⟩
  · cases c with
    | nil => exact hInside [] (by simpa using hUs.symm) hRest.symm
    | cons e c =>
        obtain ⟨rfl, rfl⟩ := List.cons.inj hRest
        rw [hUs] at hFront
        refine ⟨⟨us, [], 0, by simp [pageLines], ?_, hNil⟩, c, page, n, by simp, ?_, hPage⟩
        · exact fun l hl => hFront l (List.mem_append_left _ hl)
        · exact fun l hl => hFront l (by simp [hl])
  · exact hInside c hUs hRest

end Reflow.Doc
