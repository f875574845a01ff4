import Reflow.Proofs.Doc.Edges
import Reflow.Proofs.Doc.Readback

/-!
Structured comments that were rewrapped once. Rewrapping such a comment again leaves it as it is
exactly when its spans are legible.
-/

namespace Reflow.Doc

/-- Only a list may follow without a blank line, below a paragraph or below an item. Everything else
has one above it. -/
theorem Stanza.Follows.apart {p q : Bool × Stanza} (h : Follows p q)
    (hText : p.2.kind = .paragraph → q.2.kind ≠ .list)
    (hItem : p.2.kind = .list → q.2.kind ≠ .list) : q.1 = true := by
  obtain ⟨f, s⟩ := p
  obtain ⟨g, t⟩ := q
  cases s <;> cases t <;>
    first | exact h | exact absurd rfl (hText rfl) | exact absurd rfl (hItem rfl) | cases h

section Page

variable {L : Layout} {bare : Text}

/-- The items that a page starts with, and the rest of it. All of them are read as one list. -/
theorem exists_items_append (page : List (Bool × Stanza)) :
    ∃ items others, page = items ++ others ∧ (∀ p ∈ items, p.2.kind = .list) ∧
      ∀ p, others.head? = some p → p.2.kind ≠ .list := by
  induction page with
  | nil => exact ⟨[], [], rfl, nofun, nofun⟩
  | cons p page ih =>
      by_cases hp : p.2.kind = .list
      · obtain ⟨items, others, rfl, hKinds, hNext⟩ := ih
        exact ⟨p :: items, others, rfl, List.forall_mem_cons.mpr ⟨hp, hKinds⟩, hNext⟩
      · refine ⟨[], p :: page, rfl, nofun, fun q hq => ?_⟩
        rw [← Option.some.inj hq]
        exact hp

/-- The span of a printed list covers the items up to the next stanza of another kind, before which
there is a blank line. -/
theorem exists_spansFrom_items {apart : Bool} {number : Option Text} {l : Text} {ls : List Text}
    {more : List (List Text)} {rest : List (Bool × Stanza)}
    (hPrinted : Printed L bare ((apart, .item number l ls more) :: rest)) :
    ∃ items others, rest = items ++ others ∧ (∀ p ∈ items, p.2.kind = .list) ∧
      (∀ p, others.head? = some p → p.1 = true) ∧
      ∀ start, spansFrom start 0 ((Stanza.item number l ls more).lines ++ pageLines rest) =
        { kind := .list, start,
          lines := (Stanza.item number l ls more).lines ++ pageLines items } ::
          spansFrom (start + ((Stanza.item number l ls more).lines ++ pageLines items).length) 0
            (pageLines others) := by
  obtain ⟨items, others, rfl, hKinds, hNext⟩ := exists_items_append rest
  rw [← List.cons_append] at hPrinted
  obtain ⟨hOwn, hBelow⟩ := hPrinted.of_append
  have hApart : ∀ p, others.head? = some p → p.1 = true := by
    intro p hp
    obtain ⟨q, hq⟩ : ∃ q, ((apart, Stanza.item number l ls more) :: items).getLast? = some q :=
      Option.isSome_iff_exists.mp (by simp)
    have hFollows := (List.isChain_append.mp hPrinted.follows).2.2 q hq p hp
    have hList : q.2.kind = .list := by
      rcases List.mem_cons.mp (List.mem_of_getLast? hq) with rfl | hq
      · rfl
      · exact hKinds q hq
    exact hFollows.apart (fun _ => hNext p hp) fun _ => hNext p hp
  refine ⟨items, others, rfl, hKinds, hApart, fun start => ?_⟩
  rw [pageLines_append, ← List.append_assoc]
  apply spansFrom_items start hOwn hKinds
  exact closes_pageLines hBelow.sound fun p hp => ⟨hApart p hp, hNext p hp⟩

theorem nil_of_head?_pageLines {page : List (Bool × Stanza)}
    (hApart : ∀ p, page.head? = some p → p.1 = true) {x : Text}
    (hx : (pageLines page).head? = some x) : x = [] := by
  cases page with
  | nil => cases hx
  | cons p page =>
      obtain ⟨f, s⟩ := p
      obtain rfl : f = true := hApart _ rfl
      exact (Option.some.inj hx).symm

variable {start stop : Nat} {apart : Bool} {rest : List (Bool × Stanza)}

/-- A heading above the rest of a page, which is known to be read again from any place. -/
theorem rereads_heading {t : Text} (hPrinted : Printed L bare ((apart, .heading t) :: rest))
    (hRest : ∀ u more, rest = (true, u) :: more → ∀ start stop,
      Rereads L bare start stop (u.lines ++ pageLines more)) :
    Rereads L bare start stop ((Stanza.heading t).lines ++ pageLines rest) := by
  obtain ⟨⟨hNe, hTrim⟩, hSound⟩ := List.forall_mem_cons.mp hPrinted.sound
  have hApart : ∀ p, rest.head? = some p → p.1 = true := fun p hp =>
    ((List.isChain_cons.mp hPrinted.follows).1 p hp).apart nofun nofun
  have hSpans := spansFrom_heading start hNe hTrim fun x (hx : (pageLines rest).head? = some x) =>
    nil_of_head?_pageLines hApart hx
  exact rereads_section hSpans (fun _ => recovers_heading hTrim) hSound hApart hRest

/-- Code above the rest of a page. Below it there is no more code, or the two would be one. -/
theorem rereads_code {ls : List Text} (hPrinted : Printed L bare ((apart, .code ls) :: rest))
    (hRest : ∀ u more, rest = (true, u) :: more → ∀ start stop,
      Rereads L bare start stop (u.lines ++ pageLines more)) :
    Rereads L bare start stop ((Stanza.code ls).lines ++ pageLines rest) := by
  obtain ⟨hCode, hSound⟩ := List.forall_mem_cons.mp hPrinted.sound
  have hNext : ∀ p, rest.head? = some p → p.1 = true ∧ p.2.kind ≠ .code := by
    intro p hp
    have hFollows := (List.isChain_cons.mp hPrinted.follows).1 p hp
    refine ⟨hFollows.apart nofun nofun, fun hKind => ?_⟩
    obtain ⟨f, s⟩ := p
    cases s with
    | code => exact hFollows
    | _ => cases hKind
  have hSpans := spansFrom_code start (IsCode.toIsListing hCode) (closes_pageLines hSound hNext)
  exact rereads_section hSpans (fun _ => recovers_code hCode) hSound
    (fun p hp => (hNext p hp).1) hRest

/-- Items above the rest of a page. The stanzas of the list are taken together, so the rest starts
behind the last of them. -/
theorem rereads_items {number : Option Text} {l : Text} {ls : List Text} {more : List (List Text)}
    (hPrinted : Printed L bare ((apart, .item number l ls more) :: rest))
    (hRest : ∀ items u below, rest = items ++ (true, u) :: below → ∀ start stop,
      Rereads L bare start stop (u.lines ++ pageLines below)) :
    Rereads L bare start stop ((Stanza.item number l ls more).lines ++ pageLines rest) := by
  obtain ⟨items, others, rfl, hKinds, hApart, hSpans⟩ := exists_spansFrom_items hPrinted
  rw [← List.cons_append] at hPrinted
  obtain ⟨hOwn, hBelow⟩ := hPrinted.of_append
  have hStart := hSpans start
  rw [pageLines_append, ← List.append_assoc] at hStart ⊢
  refine rereads_section hStart (fun detached => recovers_list hOwn hKinds detached start)
    hBelow.sound hApart fun u below hOthers => hRest items u below ?_
  rw [hOthers]

/-- Prose is read as a paragraph, or as a heading if it is a single line, and written as it stands
either way. A first line that is an item is excluded, as it starts a list. -/
theorem exists_spansFrom_text {l : Text} {ls below : List Text}
    (hFilled : Filled L (textMargin bare) (l :: ls)) (hItem : isItem l = false)
    (hBelow : ∀ x, below.head? = some x → x = [] ∨ isIndented x = true ∧ isItem x = true) :
    ∃ kind, spansFrom start 0 (l :: ls ++ below) =
        { kind, start, lines := l :: ls } :: spansFrom (start + (l :: ls).length) 0 below ∧
      (kind ≠ .paragraph → below.head?.all List.isEmpty = true) ∧
      ∀ detached, Recovers (Span.Legible ⟨kind, start, l :: ls⟩)
        (blockLines L bare (Block.ofSpan detached ⟨kind, start, l :: ls⟩))
        ((l :: ls).map (commentLine bare)) := by
  have hSpans := spansFrom_filled start hFilled hItem hBelow
  by_cases hHeading : ((ls ++ below).head?.all List.isEmpty && isHeading l) = true
  · rw [if_pos hHeading] at hSpans
    obtain ⟨hAlone, hLine⟩ := Bool.and_eq_true_iff.mp hHeading
    obtain rfl : ls = [] := by
      cases ls with
      | nil => rfl
      | cons m ls =>
          refine absurd ?_ (hFilled.line_ne_nil (l := m) (by simp))
          simpa using hAlone
    obtain ⟨t, rfl, -, hTrim⟩ := exists_of_isHeading hLine (hFilled.spaced l List.mem_cons_self)
      (hFilled.line List.mem_cons_self).2.1
    exact ⟨.heading, hSpans, fun _ => hAlone, fun _ => recovers_heading hTrim⟩
  · rw [if_neg hHeading] at hSpans
    exact ⟨.paragraph, hSpans, fun h => absurd rfl h, fun _ => recovers_paragraph hFilled⟩

/-- A list right below a paragraph stays there if there is no blank line in it. With one it is
written apart, and the pages part at the line between. -/
theorem rereads_glued {ls : List Text} {number : Option Text} {k : Text} {ks : List Text}
    {more : List (List Text)} (hFilled : Filled L (textMargin bare) ls)
    (hPrinted : Printed L bare ((apart, .item number k ks more) :: rest))
    (hSpans : spansFrom start 0 (ls ++ ((Stanza.item number k ks more).lines ++ pageLines rest)) =
      ⟨.paragraph, start, ls⟩ :: spansFrom (start + ls.length) 0
        ((Stanza.item number k ks more).lines ++ pageLines rest))
    (hBelow : Rereads L bare (start + ls.length) (start + ls.length)
      ((Stanza.item number k ks more).lines ++ pageLines rest)) :
    Rereads L bare start stop (ls ++ ((Stanza.item number k ks more).lines ++ pageLines rest)) := by
  obtain ⟨items, others, rfl, hKinds, -, hList⟩ := exists_spansFrom_items hPrinted
  rw [← List.cons_append] at hPrinted
  have hOwn := hPrinted.of_append.1
  have hTop : ∀ detached, Recovers (Span.Legible ⟨.paragraph, start, ls⟩)
      (blockLines L bare (Block.ofSpan detached ⟨.paragraph, start, ls⟩))
      (ls.map (commentLine bare)) := fun _ => recovers_paragraph hFilled
  have hAttached : decide (start + ls.length < start + ls.length) = false := by simp
  have hSeparator : ∀ detached,
      needsSeparator (Block.ofSpan detached ⟨.paragraph, start, ls⟩)
        (Block.ofSpan false ⟨.list, start + ls.length,
          (Stanza.item number k ks more).lines ++ pageLines items⟩) = true ↔
        [] ∈ (Stanza.item number k ks more).lines ++ pageLines items := fun _ =>
    blankBetween_ofLines_iff false fun m => hOwn.nil_of_allBlank
  rw [Rereads, hList, blocksFrom, hAttached] at hBelow
  rw [Rereads, hSpans, hList, blocksFrom, blocksFrom, Span.stop, hAttached, blocksLines,
    List.map_append, List.append_assoc]
  -- A blank line in the list is written above it as well, where there was none.
  by_cases hLoose : [] ∈ (Stanza.item number k ks more).lines ++ pageLines items
  · rw [if_pos ((hSeparator _).mpr hLoose)]
    refine ((hTop _).append (Recovers.of_parts not_false fun xs ys => ?_)).congr ⟨fun h => h.2.elim,
      fun h => ?_⟩
    · exact parts_of_head_ne (commentLine_ne_bare bare _ _).symm _ _ xs ys
    · have hClears := (spansLegible_cons.mp h).2.1 _ rfl rfl hLoose
      exact absurd hClears (Nat.lt_irrefl _)
  · rw [if_neg fun h => hLoose ((hSeparator _).mp h), List.nil_append]
    refine ((hTop _).append hBelow).congr ⟨fun h => ?_, fun h => ?_⟩
    · refine spansLegible_cons.mpr ⟨h.1, fun t ht _ hMem => ?_, h.2⟩
      rw [← Option.some.inj ht] at hMem
      exact absurd hMem hLoose
    · obtain ⟨hFirst, -, hOthers⟩ := spansLegible_cons.mp h
      exact ⟨hFirst, hOthers⟩

/-- Right below text there is only an item. All other stanzas have a blank line above them. -/
theorem Printed.item_of_attached {ls : List Text} {p : Bool × Stanza} {rest : List (Bool × Stanza)}
    (h : Printed L bare ((apart, .text ls) :: p :: rest)) (hAttached : p.1 = false) :
    ∃ number k ks more, p.2 = .item number k ks more := by
  obtain ⟨flag, s⟩ := p
  obtain rfl : flag = false := hAttached
  have hFollows := (List.isChain_cons_cons.mp h.follows).1
  cases s with
  | item number k ks more => exact ⟨number, k, ks, more, rfl⟩
  | text ls => cases hFollows
  | heading t => cases hFollows
  | code ls => cases hFollows

/-- Text above the rest of a page. There are three cases: its first line may look like an item, and
then it is read as a list and the pages part; a blank line or nothing may stand below it, and then
it is a section; or an item is right below it, and then the list decides whether it stays there.
Nothing is assumed about the lines of the text but that they are filled, so wrapping may have broken
them anywhere. -/
theorem rereads_text {l : Text} {ls : List Text}
    (hPrinted : Printed L bare ((apart, .text (l :: ls)) :: rest))
    (hRest : ∀ f u more, rest = (f, u) :: more → ∀ start stop,
      Rereads L bare start stop (u.lines ++ pageLines more)) :
    Rereads L bare start stop ((Stanza.text (l :: ls)).lines ++ pageLines rest) := by
  obtain ⟨hFilled, hSound⟩ := List.forall_mem_cons.mp hPrinted.sound
  have hChain := List.isChain_cons.mp hPrinted.follows
  have hMem : l ∈ l :: ls := List.mem_cons_self
  cases hItem : isItem l with
  | true =>
      -- The text stands at the margin, where no printed item does.
      apply rereads_of_isItem hItem
      · have hWidth : indentWidth l = 0 :=
          indentWidth_replicate_append 0 fun c => Filled.isBlank_head hFilled hMem
        omega
      · exact commentLine_of_filled hFilled bare hMem
  | false =>
      by_cases hApart : ∀ p, rest.head? = some p → p.1 = true
      · obtain ⟨kind, hSpans, -, hBlock⟩ := exists_spansFrom_text hFilled hItem
          fun x (hx : (pageLines rest).head? = some x) => Or.inl (nil_of_head?_pageLines hApart hx)
        exact rereads_section hSpans hBlock hSound hApart (hRest true)
      -- What follows without a blank line is an item, and then the text is no heading.
      · obtain ⟨p, hHead, hAttached⟩ : ∃ p, rest.head? = some p ∧ p.1 ≠ true := by
          simpa using hApart
        obtain ⟨⟨f, s⟩, below, rfl⟩ := List.exists_cons_of_ne_nil
          (List.ne_nil_of_mem (List.mem_of_mem_head? hHead))
        obtain rfl : f = false := by
          rw [← Option.some.inj hHead] at hAttached
          simpa using hAttached
        obtain ⟨number, k, ks, more, rfl⟩ := hPrinted.item_of_attached rfl
        have hOwn : (Stanza.item number k ks more).Sound L bare :=
          hSound (false, .item number k ks more) List.mem_cons_self
        obtain ⟨kind, hSpans, hKind, -⟩ := exists_spansFrom_text hFilled hItem
          fun x
            (hx : ((Stanza.item number k ks more).lines ++ pageLines below).head? = some x) => by
            rw [← Option.some.inj hx]
            exact Or.inr ⟨rfl, isItem_bullet hOwn⟩
        obtain rfl : kind = .paragraph := by
          by_contra hOther
          cases hKind hOther
        exact rereads_glued hFilled ⟨hSound, hChain.2⟩ hSpans (hRest _ _ _ rfl _ _)

/-- Every printed page is read again: it is written as it stands exactly when its spans are legible.
The induction is along the stanzas, where those of a list are taken in one step. -/
theorem rereads_page {s : Stanza} (hPrinted : Printed L bare ((apart, s) :: rest)) :
    Rereads L bare start stop (s.lines ++ pageLines rest) := by
  -- A section may take many items off the page, hence the induction on its length.
  induction hn : rest.length using Nat.strong_induction_on generalizing apart s rest start stop with
  | _ n ih =>
      subst hn
      have hRest : ∀ items f u below, rest = items ++ (f, u) :: below → ∀ start stop,
          Rereads L bare start stop (u.lines ++ pageLines below) := by
        intro items f u below hEq start stop
        have hBelow : Printed L bare ((f, u) :: below) := by
          rw [hEq, ← List.cons_append] at hPrinted
          exact hPrinted.of_append.2
        refine ih below.length ?_ hBelow rfl
        rw [hEq, List.length_append, List.length_cons]
        omega
      cases s with
      | text ls =>
          have hFilled : Filled L (textMargin bare) ls := hPrinted.sound _ List.mem_cons_self
          obtain ⟨l, ls, rfl⟩ := List.exists_cons_of_ne_nil hFilled.ne_nil
          exact rereads_text hPrinted (hRest [])
      | heading t => exact rereads_heading hPrinted (hRest [] true)
      | code ls => exact rereads_code hPrinted (hRest [] true)
      | item number l ls more => exact rereads_items hPrinted fun items => hRest items true

end Page

/-- The spans of a comment are legible. Blank edges are left out, as they are kept in any case. -/
def Legible (lines : List Text) : Prop := SpansLegible (spans ((interior lines).map eraseBlank))

instance (lines : List Text) : Decidable (Legible lines) :=
  inferInstanceAs (Decidable (SpansLegible _))

section Comment

variable {L : Layout} {bare : Text}

theorem Laid.nil_of_allBlank {ls : List Text} (h : Laid L bare ls) {l : Text} (hl : l ∈ ls)
    (hBlank : Text.allBlank l = true) : l = [] := by
  obtain ⟨front, page, n, rfl, hFront, hPage⟩ := h
  rcases List.mem_append.mp hl with hl | hl
  · rcases List.mem_append.mp hl with hl | hl
    · refine (hFront l hl).resolve_right fun hHung => ?_
      rw [hHung.allBlank_eq_false] at hBlank
      cases hBlank
    · exact nil_of_allBlank_pageLines hPage.sound hl hBlank
  · exact List.eq_of_mem_replicate hl

theorem map_eraseBlank {ls : List Text} (h : ∀ l ∈ ls, Text.allBlank l = true → l = []) :
    ls.map eraseBlank = ls := by
  refine (List.map_congr_left fun l hl => ?_).trans (List.map_id ls)
  unfold eraseBlank
  split
  next hBlank => exact (h l hl hBlank).symm
  · rfl

theorem map_commentLine_of_nil {ls : List Text} (h : ∀ l ∈ ls, l = []) :
    ls.map (commentLine bare) = List.replicate ls.length bare := by
  rw [List.eq_replicate_of_mem h, List.map_replicate, List.length_replicate]
  rfl

/-- A comment of blank lines only is written as so many bare markers. -/
theorem render_of_allBlank (L : Layout) (bare : Text) {ls : List Text}
    (h : ∀ l ∈ ls, Text.allBlank l = true) : render L bare ls = List.replicate ls.length bare := by
  have hParse : parse [] = [] := by rw [parse, List.map_nil, spans, spansFrom, blocksFrom]
  rw [render, blankEdges_of_allBlank h, interior_of_allBlank h, hParse]
  simp [blocksLines]

/-- The blank edges of a comment are kept, so only the lines between them matter, which are read
again from their first line on. -/
theorem recovers_of_rereads {a m b : List Text} (ha : ∀ l ∈ a, l = []) (hb : ∀ l ∈ b, l = [])
    (hm : Trimmed m) (hNe : m ≠ []) (hBlank : ∀ l ∈ m, Text.allBlank l = true → l = [])
    (h : Rereads L bare 0 0 m) :
    Recovers (Legible (a ++ m ++ b)) (render L bare (a ++ m ++ b))
      ((a ++ m ++ b).map (commentLine bare)) := by
  have hEdge : ∀ ls : List Text, (∀ l ∈ ls, l = []) → ∀ l ∈ ls, Text.allBlank l = true :=
    fun ls hls l hl => by rw [hls l hl]; rfl
  have hInterior := interior_append (hEdge a ha) (hEdge b hb) hm hNe
  rw [Legible, render, blankEdges_append (hEdge a ha) (hEdge b hb) hm hNe]
  simp only [hInterior, parse, map_eraseBlank hBlank, List.map_append, map_commentLine_of_nil ha,
    map_commentLine_of_nil hb]
  exact (h.append_left _).append_right _

/-- The lines in front of a page are all blank, or there is a first one that hangs. -/
theorem hung_cases {front : List Text} (h : ∀ l ∈ front, l = [] ∨ Hung l) :
    (∀ l ∈ front, l = []) ∨
      ∃ a l rest, front = a ++ l :: rest ∧ (∀ x ∈ a, x = []) ∧ Hung l := by
  induction front with
  | nil => exact Or.inl nofun
  | cons x front ih =>
      obtain ⟨hx, hFront⟩ := List.forall_mem_cons.mp h
      rcases hx with rfl | hHung
      · rcases ih hFront with hNil | ⟨a, l, rest, rfl, ha, hl⟩
        · exact Or.inl (List.forall_mem_cons.mpr ⟨rfl, hNil⟩)
        · exact Or.inr ⟨[] :: a, l, rest, rfl, List.forall_mem_cons.mpr ⟨rfl, ha⟩, hl⟩
      · exact Or.inr ⟨[], x, front, rfl, nofun, hHung⟩

/-- A printed page starts and ends with a line that is not blank. -/
theorem Printed.trimmed {apart : Bool} {s : Stanza} {rest : List (Bool × Stanza)}
    (h : Printed L bare ((apart, s) :: rest)) : Trimmed (s.lines ++ pageLines rest) := by
  obtain ⟨hs, hSound⟩ := List.forall_mem_cons.mp h.sound
  obtain ⟨⟨x, xs, hLines, hx⟩, -⟩ := Stanza.edges hs
  have hVisible : ∀ l ∈ s.lines ++ pageLines rest, l ≠ [] → Text.allBlank l = false := by
    intro l hl hNe
    rw [Bool.eq_false_iff]
    exact fun hBlank => hNe (h.nil_of_allBlank hl hBlank)
  constructor
  · intro l hl
    apply hVisible l (List.mem_of_mem_head? hl)
    rw [hLines] at hl
    rwa [← Option.some.inj hl]
  · intro l hl
    apply hVisible l (List.mem_of_getLast? hl)
    rintro rfl
    exact getLast?_append_pageLines_ne hs hSound hl

/-- Lines that start with the rest of an item are read as these lines and blank ones behind them.
The first of them is not found again, so it does not matter what the others are. -/
theorem exists_trimmed_of_hung (L : Layout) (bare : Text) {x : Text} (hx : Hung x) {ls : List Text}
    (hBlank : ∀ l ∈ ls, Text.allBlank l = true → l = []) :
    ∃ m b, x :: ls = m ++ b ∧ (∀ l ∈ b, l = []) ∧ Trimmed m ∧ m ≠ [] ∧ Rereads L bare 0 0 m := by
  obtain ⟨m, b, hSplit, hb, hLast⟩ := exists_trailing (x :: ls)
  cases m with
  | nil =>
      have hFirst := hb x (by rw [← List.nil_append b, ← hSplit]; exact List.mem_cons_self)
      rw [hx.allBlank_eq_false] at hFirst
      cases hFirst
  | cons y m =>
      obtain ⟨rfl, rfl⟩ := List.cons.inj hSplit
      refine ⟨x :: m, b, rfl, fun l hl => ?_, ⟨fun l hl => ?_, hLast⟩, by simp, rereads_of_hung hx⟩
      · exact hBlank l (List.mem_append_right _ hl) (hb l hl)
      · rw [← Option.some.inj hl]
        exact hx.allBlank_eq_false

/-- Between its blank edges a comment that was rewrapped starts with the rest of an item or with a
stanza. Either way it is known what a second pass makes of it. -/
theorem Laid.edges_cases {ls : List Text} (h : Laid L bare ls) :
    (∀ l ∈ ls, l = []) ∨ ∃ a m b, ls = a ++ m ++ b ∧ (∀ l ∈ a, l = []) ∧ (∀ l ∈ b, l = []) ∧
      Trimmed m ∧ m ≠ [] ∧ Rereads L bare 0 0 m := by
  have hBlank : ∀ l ∈ ls, Text.allBlank l = true → l = [] := fun l => h.nil_of_allBlank
  obtain ⟨front, page, n, rfl, hFront, hPage⟩ := h
  have hEnd : ∀ l ∈ List.replicate n ([] : Text), l = [] := fun l => List.eq_of_mem_replicate
  rcases hung_cases hFront with hNil | ⟨a, x, rest, rfl, ha, hx⟩
  · cases page with
    | nil =>
        refine Or.inl fun l hl => ?_
        rcases List.mem_append.mp hl with hl | hl
        · exact hNil l (by simpa [pageLines] using hl)
        · exact hEnd l hl
    | cons p rest =>
        obtain ⟨apart, s⟩ := p
        refine Or.inr ⟨front ++ List.replicate apart.toNat [], s.lines ++ pageLines rest,
          List.replicate n [], ?_, ?_, hEnd, hPage.trimmed, ?_, rereads_page hPage⟩
        · rw [pageLines_cons]
          simp only [List.append_assoc]
        · intro l hl
          rcases List.mem_append.mp hl with hl | hl
          · exact hNil l hl
          · exact List.eq_of_mem_replicate hl
        · obtain ⟨⟨y, ys, hLines, -⟩, -⟩ := Stanza.edges (hPage.sound _ List.mem_cons_self)
          simp [hLines]
  · obtain ⟨m, b, hSplit, hb, hm⟩ := exists_trimmed_of_hung L bare hx
      fun l (hl : l ∈ rest ++ pageLines page ++ List.replicate n []) => hBlank l (by
        simp only [List.append_assoc, List.mem_append, List.mem_cons] at hl ⊢
        tauto)
    refine Or.inr ⟨a, m, b, ?_, ha, hb, hm⟩
    rw [List.append_assoc a m b, ← hSplit]
    simp only [List.append_assoc, List.cons_append]

/-- **Rewrapping a structured comment again.** The comment is left as it is if its spans are
legible, and parts from itself if not. Together with the division at decorations this is all there
is to know about a second pass over structured comments. -/
theorem recovers_render {ls : List Text} (h : Laid L bare ls) :
    Recovers (Legible ls) (render L bare ls) (ls.map (commentLine bare)) := by
  rcases h.edges_cases with hNil | ⟨a, m, b, rfl, ha, hb, hm, hNe, hRereads⟩
  · have hBlank : ∀ l ∈ ls, Text.allBlank l = true := fun l hl => by rw [hNil l hl]; rfl
    apply Recovers.of_eq
    · rw [Legible, interior_of_allBlank hBlank, List.map_nil, spans, spansFrom]
      exact spansLegible_nil
    · rw [render_of_allBlank L bare hBlank, map_commentLine_of_nil hNil]
  · apply recovers_of_rereads ha hb hm hNe _ hRereads
    intro l hl
    apply h.nil_of_allBlank
    simp [hl]

end Comment

end Reflow.Doc
