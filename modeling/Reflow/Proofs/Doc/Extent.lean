import Reflow.Proofs.Doc.Page

/-!
How far a span reaches on a printed page. Prose ends at a blank line or at the first item of a list;
code and lists run on over blank lines up to a stanza of another kind.
-/

namespace Reflow.Doc

/-- What stands behind an indented span ends it: nothing, or a blank line and a line that is
unindented or starts a span of the other indented kind. A blank line alone is not enough, as code
and lists run on over those. -/
def Closes (list : Bool) (ls : List Text) : Prop :=
  ls = [] ∨ ∃ x rest, ls = [] :: x :: rest ∧ x ≠ [] ∧
    (isIndented x = false ∨ switchesKind list (x :: rest) = true)

/-- How a block of this kind begins: text at the margin, code behind a tab, a list behind a space.
The first line is all that is asked for. -/
def Opens (kind : SpanKind) (x : Text) : Prop :=
  match kind with
  | .paragraph | .heading => x ≠ [] ∧ isIndented x = false
  | .code => x.head? = some '\t' ∧ isItem x = false
  | .list => x.head? = some ' ' ∧ isItem x = true

theorem Opens.ne_nil {kind : SpanKind} {x : Text} (h : Opens kind x) : x ≠ [] := by
  rintro rfl
  cases kind with
  | paragraph => exact h.1 rfl
  | heading => exact h.1 rfl
  | code => cases h.1
  | list => cases h.1

/-- A blank line and a block of another kind end a list or code. A block of the same kind would be
read as more of it. -/
theorem closes_of_opens (list : Bool) {kind : SpanKind} {x : Text} (hx : Opens kind x)
    (hKind : kind ≠ if list then .list else .code) (rest : List Text) :
    Closes list ([] :: x :: rest) := by
  refine Or.inr ⟨x, rest, rfl, hx.ne_nil, ?_⟩
  cases kind with
  | paragraph => exact Or.inl hx.2
  | heading => exact Or.inl hx.2
  | code =>
      obtain rfl : list = true := by
        cases list with
        | true => rfl
        | false => exact absurd rfl hKind
      obtain ⟨t, rfl⟩ := List.head?_eq_some_iff.mp hx.1
      refine Or.inr ?_
      simp [switchesKind, isIndented, hx.2, isGap]
  | list =>
      obtain rfl : list = false := by
        cases list with
        | false => rfl
        | true => exact absurd rfl hKind
      obtain ⟨t, rfl⟩ := List.head?_eq_some_iff.mp hx.1
      refine Or.inr ?_
      simp [switchesKind, isIndented, hx.2, isGap]

theorem dropBlankEnd_cons {l : Text} {ls : List Text} (h : l ≠ [] ∨ dropBlankEnd ls ≠ []) :
    dropBlankEnd (l :: ls) = l :: dropBlankEnd ls := by
  rw [dropBlankEnd, List.reverse_cons, List.dropWhile_append]
  split
  next hEmpty =>
    have hNil : dropBlankEnd ls = [] := by
      rw [dropBlankEnd, List.isEmpty_iff.mp hEmpty]
      rfl
    have hl : l ≠ [] := h.resolve_right fun hNe => hNe hNil
    rw [hNil, List.dropWhile_cons_of_neg (by simpa using hl)]
    rfl
  · rw [List.reverse_append]
    rfl

/-- The first line that is not blank decides whether the kind is switched, and within a stanza it
does not. -/
theorem switchesKind_append {list : Bool} {ls : List Text} (hNe : ls ≠ [])
    (hls : ∀ l ∈ ls, l = [] ∨ l.head? = some (if list then ' ' else '\t'))
    (hLast : ls.getLast? ≠ some []) (rest : List Text) :
    switchesKind list (ls ++ rest) = false := by
  obtain ⟨next, hFind⟩ : ∃ next, ls.find? (!List.isEmpty ·) = some next := by
    rw [← Option.isSome_iff_exists, List.find?_isSome]
    refine ⟨ls.getLast hNe, List.getLast_mem hNe, ?_⟩
    rw [List.getLast?_eq_some_getLast hNe] at hLast
    simpa using hLast
  have hMem : next ∈ ls := List.mem_of_find?_eq_some hFind
  have hVisible : next ≠ [] := by simpa using List.find?_some hFind
  have hHead := (hls next hMem).resolve_left hVisible
  rw [switchesKind, List.find?_append, hFind]
  cases list <;> simp [hHead]

/-- An indented run covers the lines that carry on with its own indentation, and leaves the blank
lines at their end. -/
theorem dropBlankEnd_take_indentedRun {list : Bool} {ls rest : List Text}
    (hls : ∀ l ∈ ls, l = [] ∨ l.head? = some (if list then ' ' else '\t'))
    (hLast : ls.getLast? ≠ some []) (hRest : Closes list rest) :
    dropBlankEnd ((ls ++ rest).take (indentedRun list false 0 (ls ++ rest))) = ls := by
  induction ls with
  | nil =>
      rcases hRest with rfl | ⟨x, rest, rfl, hNe, hStop⟩
      · rfl
      rw [List.nil_append, indentedRun, if_pos List.isEmpty_nil]
      by_cases hSwitch : switchesKind list (x :: rest) = true
      · rw [if_pos hSwitch]
        rfl
      · have hOut : isIndented x = false := hStop.resolve_right hSwitch
        rw [if_neg hSwitch, indentedRun, if_neg (by simpa using hNe), if_neg (by simp [hOut])]
        rfl
  | cons l ls ih =>
      have hTail : ls.getLast? ≠ some [] := by
        intro h
        rw [List.getLast?_cons, h] at hLast
        exact hLast rfl
      have hOwn := ih (fun m hm => hls m (List.mem_cons_of_mem l hm)) hTail
      rw [List.cons_append, indentedRun]
      by_cases hl : l = []
      · have hNe : ls ≠ [] := by
          rintro rfl
          exact hLast (by rw [hl]; rfl)
        -- The next line that is not blank is one of the run, so the blank one does not end it.
        have hSwitch :=
          switchesKind_append hNe (fun m hm => hls m (List.mem_cons_of_mem l hm)) hTail
          rest
        rw [if_pos (by simp [hl]), if_neg (by simp [hSwitch]), List.take_succ_cons,
          dropBlankEnd_cons (Or.inr (by rw [hOwn]; exact hNe)), hOwn]
      · have hHead := (hls l List.mem_cons_self).resolve_left hl
        have hIndented : isIndented l = true := by
          obtain ⟨c, l, rfl⟩ := List.exists_cons_of_ne_nil hl
          rw [← Option.some.inj hHead.symm]
          cases list <;> rfl
        rw [if_neg (by simpa using hl), if_pos (by simp [hIndented]), List.take_succ_cons,
          dropBlankEnd_cons (Or.inl hl), hOwn]

theorem Closes.head_not_brace {list : Bool} {rest : List Text} (h : Closes list rest) :
    rest.head?.any (Text.startsWith · ['}']) = false := by
  rcases h with rfl | ⟨x, rest, rfl, -⟩ <;> rfl

/-- An indented span on a printed page reaches as far as the stanza does, and hands no lines
over. -/
theorem indentedExtent_append {l : Text} {ls rest : List Text}
    (hls : ∀ m ∈ ls, m = [] ∨ m.head? = some (if isItem l then ' ' else '\t'))
    (hLast : ls.getLast? ≠ some []) (hRest : Closes (isItem l) rest) :
    indentedExtent 0 l (ls ++ rest) =
      { kind := if isItem l then .list else .code, more := ls.length, forced := 0 } := by
  have hRun := dropBlankEnd_take_indentedRun hls hLast hRest
  simp [indentedExtent, hRun, hRest.head_not_brace]

/-- Prose on a printed page ends where the stanza does. Its last line could open code only if an
indented line that is no item stood below it. -/
theorem proseExtent_append {l : Text} {ls rest : List Text}
    (hls : ∀ m ∈ ls, m ≠ [] ∧ isIndented m = false)
    (hRest : ∀ x, rest.head? = some x → x = [] ∨ isIndented x = true ∧ isItem x = true) :
    proseExtent l (ls ++ rest) =
      { kind :=
          if ((ls ++ rest).head?.all List.isEmpty) && isHeading l then .heading else .paragraph,
        more := ls.length, forced := 0 } := by
  have hStop : ∀ x, rest.head? = some x → (!x.isEmpty && !isIndented x) = false := by
    intro x hx
    rcases hRest x hx with rfl | ⟨hIndented, -⟩
    · rfl
    · simp [hIndented]
  have hRun : (ls ++ rest).takeWhile (fun x => !x.isEmpty && !isIndented x) = ls := by
    rw [takeWhile_append_of_head ls hStop, List.takeWhile_eq_self_iff]
    intro m hm
    simpa using hls m hm
  have hMeets : rest.head?.any (fun x => !x.isEmpty && !isItem x) = false := by
    cases rest with
    | nil => rfl
    | cons x rest =>
        rcases hRest x rfl with rfl | ⟨-, hItem⟩
        · rfl
        · simp [hItem]
  have hAlone : (ls.length == 0 && (ls ++ rest).head?.all List.isEmpty) =
      (ls ++ rest).head?.all List.isEmpty := by
    cases ls with
    | nil => simp
    | cons m ls => simp [(hls m List.mem_cons_self).1]
  simp only [proseExtent, hRun, List.drop_left, hMeets, Bool.not_false, if_true, Nat.not_lt_zero,
    if_false, Nat.sub_zero, hAlone]

section Spans

variable (start : Nat) {l : Text} {ls rest : List Text}

theorem spansFrom_cons (hl : l ≠ []) {e : Extent} (he : extent 0 l (ls ++ rest) = e)
    (hMore : e.more = ls.length) (hForced : e.forced = 0) :
    spansFrom start 0 (l :: (ls ++ rest)) =
      { kind := e.kind, start, lines := l :: ls } ::
        spansFrom (start + (l :: ls).length) 0 rest := by
  rw [spansFrom, if_neg (by simpa using hl)]
  simp only [he, hMore, hForced, List.take_left, List.drop_left, List.length_cons]
  rw [Nat.add_assoc, Nat.add_comm 1]

theorem spansFrom_nil_cons (ls : List Text) :
    spansFrom start 0 ([] :: ls) = spansFrom (start + 1) 0 ls := by
  rw [spansFrom, if_pos List.isEmpty_nil]

/-- The span of an indented stanza, and what is found behind it. -/
theorem spansFrom_indented (hIndented : isIndented l = true)
    (hls : ∀ m ∈ ls, m = [] ∨ m.head? = some (if isItem l then ' ' else '\t'))
    (hLast : ls.getLast? ≠ some []) (hRest : Closes (isItem l) rest) :
    spansFrom start 0 (l :: (ls ++ rest)) =
      { kind := if isItem l then .list else .code, start, lines := l :: ls } ::
        spansFrom (start + (l :: ls).length) 0 rest := by
  have hNe : l ≠ [] := by
    rintro rfl
    cases hIndented
  have hExtent : extent 0 l (ls ++ rest) =
      { kind := if isItem l then .list else .code, more := ls.length, forced := 0 } := by
    rw [extent, if_pos (by simp [hIndented]), indentedExtent_append hls hLast hRest]
  exact spansFrom_cons start hNe hExtent rfl rfl

/-- The span of prose. With a blank line below a single line it is a heading, if it looks like
one. -/
theorem spansFrom_prose (hNe : l ≠ []) (hIndented : isIndented l = false) (hItem : isItem l = false)
    (hls : ∀ m ∈ ls, m ≠ [] ∧ isIndented m = false)
    (hRest : ∀ x, rest.head? = some x → x = [] ∨ isIndented x = true ∧ isItem x = true) :
    spansFrom start 0 (l :: (ls ++ rest)) =
      { kind :=
          if ((ls ++ rest).head?.all List.isEmpty) && isHeading l then .heading else .paragraph,
        start, lines := l :: ls } :: spansFrom (start + (l :: ls).length) 0 rest := by
  have hExtent : extent 0 l (ls ++ rest) = _ :=
    (by rw [extent, if_neg (by simp [hIndented]), if_neg (by simp [hItem])] :
      extent 0 l (ls ++ rest) = proseExtent l (ls ++ rest)).trans (proseExtent_append hls hRest)
  exact spansFrom_cons start hNe hExtent rfl rfl

end Spans

end Reflow.Doc
