import Mathlib.Data.List.Pairwise
import Reflow.Doc.Parser
import Reflow.Proofs.Doc.Span

/-!
Where the spans of a comment lie, and that the search for them ends. Spans stand in order and apart
from each other, and every line that is not blank lies in exactly one of them. The search reads a
line a second time only when a paragraph hands all of its lines over to the code below it.
-/

namespace Reflow.Doc

/-- How many lines at the end of the paragraph that starts with `l` look like the start of what is
indented below them: all items at its end, or one line that opens code. -/
def handedOver (l : Text) (rest : List Text) : Nat :=
  let run := (proseRun rest).length
  let last := ((l :: rest.take run).getLast?).getD l
  if !(rest.drop run).head?.any (fun x => !x.isEmpty && !isItem x) then 0
  else if isItem last then ((rest.take run).reverse.takeWhile isItem).length
  else if opensCode last then 1
  else 0

/-- The extent of prose in closed form. If all lines are handed over, the span is read as indented
from its first line on. -/
theorem proseExtent_eq (l : Text) (rest : List Text) :
    proseExtent l rest =
      if (proseRun rest).length < handedOver l rest then indentedExtent 1 l rest
      else
        let more := (proseRun rest).length - handedOver l rest
        let alone := more == 0 && rest.head?.all List.isEmpty
        { kind := if alone && isHeading l then .heading else .paragraph, more,
          forced := handedOver l rest } :=
  rfl

/-- Only a paragraph of a single line hands all of its lines over. So a line is read again at most
once, and the search gets on. -/
theorem length_proseRun_of_lt_handedOver {l : Text} {rest : List Text}
    (h : (proseRun rest).length < handedOver l rest) : (proseRun rest).length = 0 := by
  have hItems := ((rest.take (proseRun rest).length).reverse.takeWhile_prefix isItem).length_le
  rw [List.length_reverse, List.length_take] at hItems
  simp only [handedOver] at h
  split at h
  · omega
  split at h
  · omega
  split at h <;> omega

/-- A heading is a single line with nothing but a blank line below it. Directly above text, the same
line is the first of a paragraph. -/
theorem extent_of_heading {forced : Nat} {l : Text} {rest : List Text}
    (h : (extent forced l rest).kind = .heading) :
    (extent forced l rest).more = 0 ∧ ∀ x, rest.head? = some x → x = [] := by
  have hIndented : ∀ n, (indentedExtent n l rest).kind ≠ .heading := by
    intro n hKind
    simp only [indentedExtent] at hKind
    split at hKind <;> cases hKind
  unfold extent at h ⊢
  split at h
  · exact absurd h (hIndented forced)
  next hFlush =>
    rw [if_neg hFlush]
    split at h
    · cases h
    next hItem =>
      rw [if_neg hItem]
      rcases proseExtent_cases l rest with hProse | ⟨more, handed, -, hProse⟩
      · rw [hProse] at h
        exact absurd h (hIndented 1)
      · rw [hProse] at h ⊢
        dsimp only at h ⊢
        split at h
        next hAlone =>
          obtain ⟨⟨hMore, hBelow⟩, -⟩ : (more = 0 ∧ rest.head?.all List.isEmpty = true) ∧ _ := by
            simpa using hAlone
          refine ⟨hMore, fun x hx => ?_⟩
          rw [hx] at hBelow
          simpa using hBelow
        · cases h

theorem itemRun_le (ls : List Text) : itemRun ls ≤ ls.length := by
  induction ls with
  | nil => exact Nat.le_refl 0
  | cons x xs ih =>
      rw [itemRun, List.length_cons]
      split <;> omega

theorem more_indentedExtent_le (forced : Nat) (l : Text) (rest : List Text) :
    (indentedExtent forced l rest).more ≤ rest.length := by
  simp only [indentedExtent]
  generalize indentedRun (isItem l) (isItem l && 0 < forced) (forced - 1) rest = run
  have hBody := (dropBlankEnd_isPrefix (rest.take run)).length_le
  rw [List.length_take] at hBody
  split
  next hBrace =>
    -- The brace is a line of its own below the body.
    have hBelow : rest.drop (dropBlankEnd (rest.take run)).length ≠ [] := by
      intro hNil
      rw [hNil] at hBrace
      cases hBrace
    rw [ne_eq, List.drop_eq_nil_iff] at hBelow
    omega
  · omega

/-- A span does not reach behind the last line, so the next state of the search is again about lines
of the comment. -/
theorem more_extent_le (forced : Nat) (l : Text) (rest : List Text) :
    (extent forced l rest).more ≤ rest.length := by
  unfold extent
  split
  · exact more_indentedExtent_le forced l rest
  split
  · exact itemRun_le rest
  · rcases proseExtent_cases l rest with hProse | ⟨more, handed, hMore, hProse⟩
    · rw [hProse]
      exact more_indentedExtent_le 1 l rest
    · rw [hProse]
      exact hMore.trans (List.takeWhile_prefix _).length_le

/-- Lines from index `start` on that fall into spans and blank lines between them. The relation
carries the index along, so that places and order are read off it by induction. -/
inductive Tiling : Nat → List Text → List Span → Prop where
  | nil (start : Nat) : Tiling start [] []
  | blank {start : Nat} {rest : List Text} {ss : List Span} (after : Tiling (start + 1) rest ss) :
      Tiling start ([] :: rest) ss
  | span {s : Span} {rest : List Text} {ss : List Span} (sound : s.Sound)
      (heading : s.kind = .heading → ∀ l, rest.head? = some l → l = [])
      (after : Tiling s.stop rest ss) : Tiling s.start (s.lines ++ rest) (s :: ss)

/-- The spans that are found tile the lines, from whatever index the search starts and however many
lines it is to read as indented. -/
theorem tiling_spansFrom (start forced : Nat) (ls : List Text) :
    Tiling start ls (spansFrom start forced ls) := by
  fun_induction spansFrom start forced ls with
  | case1 => exact .nil _
  | case2 start forced l rest hEmpty ih =>
      rw [List.isEmpty_iff.mp hEmpty]
      exact .blank ih
  | case3 start forced l rest hEmpty e ih =>
      have hMore : e.more ≤ rest.length := more_extent_le forced l rest
      have hSound := sound_extent start forced (by simpa using hEmpty) rest
      have hLines : l :: rest = (l :: rest.take e.more) ++ rest.drop e.more := by simp
      have hStop : Span.stop { kind := e.kind, start, lines := l :: rest.take e.more } =
          start + 1 + e.more := by
        simp only [Span.stop, List.length_cons, List.length_take]
        omega
      rw [hLines]
      apply Tiling.span hSound
      · intro hKind x hx
        obtain ⟨hNone, hBelow⟩ := extent_of_heading hKind
        have hMoreZero : e.more = 0 := hNone
        rw [hMoreZero, List.drop_zero] at hx
        exact hBelow x hx
      · rw [hStop]
        exact ih

/-- The place of a span among the lines `ls` of a comment, and what its kind says about them.
Everything is said by indices, as it is reported to others. -/
structure Span.Placed (ls : List Text) (s : Span) : Prop where
  nonempty : s.start < s.stop
  lines : (ls.drop s.start).take (s.stop - s.start) = s.lines
  first : ∃ l, ls[s.start]? = some l ∧ l ≠ []
  last : ∃ l, ls[s.stop - 1]? = some l ∧ l ≠ []
  list : s.kind = .list → ∃ l, ls[s.start]? = some l ∧ isItem l = true
  code : s.kind = .code → ∃ l, ls[s.start]? = some l ∧ isItem l = false
  heading : s.kind = .heading → s.stop = s.start + 1 ∧ ∀ l, ls[s.stop]? = some l → l = []

/-- The lines `ls` of a comment, of which the blank ones are empty, are covered by spans: these
stand in order, none reaches into another, and a line that is not blank lies in exactly one of
them. -/
structure Covered (ls : List Text) (ss : List Span) : Prop where
  placed : ∀ s ∈ ss, s.Placed ls
  ordered : ss.Pairwise fun s t => s.stop ≤ t.start
  exactly_one : ∀ i l, ls[i]? = some l → l ≠ [] → ∃! s, s ∈ ss ∧ s.start ≤ i ∧ i < s.stop

/-- A sound span at its index among the lines is placed there: what it holds are the lines from its
start up to its stop, and the clauses for its kind are about these. For a heading the line below has
to be known, since it lies outside the span; for all other kinds nothing is asked of the lines
around it. -/
theorem Span.Sound.placed {s : Span} (hs : s.Sound) {front rest : List Text}
    (hStart : s.start = front.length)
    (hHeading : s.kind = .heading → ∀ l, rest.head? = some l → l = []) :
    s.Placed (front ++ (s.lines ++ rest)) := by
  have hAt : ∀ i, (front ++ (s.lines ++ rest))[s.start + i]? = (s.lines ++ rest)[i]? := by
    intro i
    rw [hStart, List.getElem?_append_right (Nat.le_add_right _ _), Nat.add_sub_cancel_left]
  obtain ⟨first, more, hLines, hFirst⟩ := hs.first
  have hHead : (front ++ (s.lines ++ rest))[s.start]? = s.lines.head? := by
    have hZero := hAt 0
    rw [hLines] at hZero ⊢
    exact hZero
  have hLength : s.lines.length ≠ 0 := by simp [hLines]
  refine ⟨?_, ?_, ?_, ?_, fun hKind => ?_, fun hKind => ?_, fun hKind => ?_⟩
  · rw [Span.stop]
    omega
  · rw [Span.stop, Nat.add_sub_cancel_left, hStart, List.drop_left, List.take_left]
  · exact ⟨first, by rw [hHead, hLines]; rfl, hFirst⟩
  · have hLast : (front ++ (s.lines ++ rest))[s.stop - 1]? = s.lines.getLast? := by
      rw [Span.stop, Nat.add_sub_assoc (by omega), hAt, List.getElem?_append_left (by omega),
        List.getLast?_eq_getElem?]
    cases hLastLine : s.lines.getLast? with
    | none => simp [hLines] at hLastLine
    | some l =>
        refine ⟨l, hLast.trans hLastLine, ?_⟩
        rintro rfl
        exact hs.last hLastLine
  · obtain ⟨l, others, hOwn, hItem⟩ := hs.list hKind
    exact ⟨l, by rw [hHead, hOwn]; rfl, hItem⟩
  · obtain ⟨l, others, hOwn, hItem⟩ := hs.code hKind
    exact ⟨l, by rw [hHead, hOwn]; rfl, hItem⟩
  · obtain ⟨l, hOwn, -⟩ := hs.heading hKind
    have hStop : s.stop = s.start + 1 := by rw [Span.stop, hOwn]; rfl
    refine ⟨hStop, fun x hx => hHeading hKind x ?_⟩
    rw [hStop, hAt, hOwn] at hx
    rw [List.head?_eq_getElem?]
    exact hx

namespace Tiling

/-- No span of a tiling starts before the tiling does. -/
theorem start_le {start : Nat} {ls : List Text} {ss : List Span} (h : Tiling start ls ss) :
    ∀ s ∈ ss, start ≤ s.start := by
  induction h with
  | nil => nofun
  | blank after ih =>
      intro s hs
      have hs := ih s hs
      omega
  | @span s rest ss sound heading after ih =>
      intro t ht
      rcases List.mem_cons.mp ht with rfl | ht
      · exact Nat.le_refl _
      · exact (Nat.le_add_right s.start s.lines.length).trans (ih t ht)

/-- Spans of a tiling stand in order, and none reaches into another, as each of them starts where
the lines before it end or later. -/
theorem ordered {start : Nat} {ls : List Text} {ss : List Span} (h : Tiling start ls ss) :
    ss.Pairwise fun s t => s.stop ≤ t.start := by
  induction h with
  | nil => exact .nil
  | blank after ih => exact ih
  | span sound heading after ih => exact .cons after.start_le ih

/-- The spans of a tiling are placed among all lines, with `front` as the lines before the
tiling. -/
theorem placed (front : List Text) {ls : List Text} {ss : List Span}
    (h : Tiling front.length ls ss) :
    ∀ s ∈ ss, s.Placed (front ++ ls) := by
  generalize hStart : front.length = start at h
  induction h generalizing front with
  | nil => nofun
  | @blank start rest ss after ih =>
      have hFront : (front ++ [[]]).length = start + 1 := by simp [hStart]
      have hRest := ih _ hFront
      rwa [List.append_assoc] at hRest
  | @span s rest ss sound heading after ih =>
      intro t ht
      rcases List.mem_cons.mp ht with rfl | ht
      · exact sound.placed hStart.symm heading
      · have hFront : (front ++ s.lines).length = s.stop := by
          rw [List.length_append, hStart, Span.stop]
        have hRest := ih _ hFront t ht
        rwa [List.append_assoc] at hRest

/-- A line that is not blank lies in one of the spans. That it lies in no other follows from their
order. -/
theorem exists_mem {start : Nat} {ls : List Text} {ss : List Span} (h : Tiling start ls ss)
    {i : Nat} {l : Text} (hi : ls[i]? = some l) (hl : l ≠ []) :
    ∃ s ∈ ss, s.start ≤ start + i ∧ start + i < s.stop := by
  induction h generalizing i with
  | nil => simp at hi
  | @blank start rest ss after ih =>
      cases i with
      | zero => exact absurd (Option.some.inj hi).symm hl
      | succ i =>
          obtain ⟨s, hs, hLower, hUpper⟩ := ih hi
          exact ⟨s, hs, by omega, by omega⟩
  | @span s rest ss sound heading after ih =>
      by_cases hInside : i < s.lines.length
      · exact ⟨s, List.mem_cons_self, Nat.le_add_right _ _, Nat.add_lt_add_left hInside _⟩
      · rw [List.getElem?_append_right (by omega)] at hi
        obtain ⟨t, ht, hLower, hUpper⟩ := ih hi
        have hStop : s.stop = s.start + s.lines.length := rfl
        exact ⟨t, List.mem_cons_of_mem s ht, by omega, by omega⟩

/-- Lines that fall into spans are covered by them: the three clauses of a tiling that starts at the
first line. -/
theorem covered {ls : List Text} {ss : List Span} (h : Tiling 0 ls ss) : Covered ls ss where
  placed := placed [] h
  ordered := h.ordered
  exactly_one i l hi hl := by
    obtain ⟨s, hs, hLower, hUpper⟩ := h.exists_mem hi hl
    rw [Nat.zero_add] at hLower hUpper
    refine ⟨s, ⟨hs, hLower, hUpper⟩, fun t ⟨ht, hLower', hUpper'⟩ => ?_⟩
    -- Two spans with a common line would stand in the wrong order.
    by_contra hNe
    have : Std.Symm fun s t : Span => s.stop ≤ t.start ∨ t.stop ≤ s.start := ⟨fun _ _ => Or.symm⟩
    have hApart : ss.Pairwise fun s t => s.stop ≤ t.start ∨ t.stop ≤ s.start :=
      h.ordered.imp fun h => Or.inl h
    have hOrder := hApart.forall hs ht (Ne.symm hNe)
    omega

end Tiling

/-- Where the search for spans stands: the lines that are left, the index of the first of them, and
how many of them are to be read as indented. This is the state that one turn passes to the next. -/
structure Search where
  start : Nat
  forced : Nat
  lines : List Text

namespace Search

/-- What one turn of the search does: it ends, finds a span, or goes on without one. -/
inductive Turn where
  | done
  | found (s : Span) (next : Search)
  /-- No span is found, and the search goes on from another state. -/
  | again (next : Search)

/-- One turn of the search. A blank line is passed over. A paragraph that hands all of its lines
over is read again from its first line, this time as indented. The same line is never read as
indented twice. -/
def turn (s : Search) : Turn :=
  match s.lines with
  | [] => .done
  | l :: rest =>
    if l.isEmpty then .again { start := s.start + 1, forced := s.forced - 1, lines := rest }
    else if s.forced = 0 && !isIndented l && !isItem l &&
        (proseRun rest).length < handedOver l rest then
      .again { s with forced := (proseRun rest).length + 1 }
    else
      let e := extent s.forced l rest
      .found { kind := e.kind, start := s.start, lines := l :: rest.take e.more }
        { start := s.start + 1 + e.more, forced := e.forced, lines := rest.drop e.more }

/-- The spans that the search finds, if it is done within the given number of turns. There is no
result if it is not. -/
def run : Nat → Search → Option (List Span)
  | 0, _ => none
  | turns + 1, s =>
    match s.turn with
    | .done => some []
    | .found span next => (run turns next).map (span :: ·)
    | .again next => run turns next

theorem run_again {s next : Search} (h : s.turn = .again next) (turns : Nat) :
    s.run (turns + 1) = next.run turns := by
  rw [run, h]

theorem run_found {s next : Search} {span : Span} (h : s.turn = .found span next) (turns : Nat) :
    s.run (turns + 1) = (next.run turns).map (span :: ·) := by
  rw [run, h]

/-- A paragraph that hands all of its lines over is found as if its first line had been marked as
indented beforehand. -/
theorem extent_of_handedOver {l : Text} {rest : List Text} (hFlush : isIndented l = false)
    (hItem : isItem l = false) (hAll : (proseRun rest).length < handedOver l rest) :
    extent 0 l rest = extent 1 l rest := by
  simp [extent, hFlush, hItem, proseExtent_eq, hAll]

section Turns

variable {start forced : Nat} {l : Text} {rest : List Text}

theorem turn_of_empty (hEmpty : l.isEmpty = true) :
    turn ⟨start, forced, l :: rest⟩ = .again ⟨start + 1, forced - 1, rest⟩ := by
  simp [turn, hEmpty]

theorem turn_of_stays (hEmpty : ¬l.isEmpty = true)
    (hStay : ¬(forced = 0 && !isIndented l && !isItem l &&
      (proseRun rest).length < handedOver l rest) = true) :
    turn ⟨start, forced, l :: rest⟩ = .found
      ⟨(extent forced l rest).kind, start, l :: rest.take (extent forced l rest).more⟩
      ⟨start + 1 + (extent forced l rest).more, (extent forced l rest).forced,
        rest.drop (extent forced l rest).more⟩ := by
  rw [turn]
  exact (if_neg hEmpty).trans (if_neg hStay)

theorem turn_of_handedOver (hEmpty : ¬l.isEmpty = true) (hFlush : isIndented l = false)
    (hItem : isItem l = false) (hAll : (proseRun rest).length < handedOver l rest) :
    turn ⟨start, 0, l :: rest⟩ = .again ⟨start, 1, l :: rest⟩ := by
  rw [turn]
  refine (if_neg hEmpty).trans ((if_pos (by simp [hFlush, hItem, hAll])).trans ?_)
  rw [length_proseRun_of_lt_handedOver hAll]

end Turns

/-- A search of `n` lines is done within `2 * n + 1` turns: a line takes a turn of its own, and one
more if it is read again. Which lines are read again is left out of the bound. -/
theorem run_eq_some_spansFrom (start forced : Nat) {lines : List Text} {turns : Nat}
    (hTurns : 2 * lines.length < turns) :
    run turns ⟨start, forced, lines⟩ = some (spansFrom start forced lines) := by
  induction hLength : lines.length using Nat.strong_induction_on
    generalizing start forced lines turns with
  | _ n ih =>
      obtain ⟨turns, rfl⟩ := Nat.exists_eq_succ_of_ne_zero (Nat.ne_zero_of_lt hTurns)
      cases lines with
      | nil => simp [run, turn, spansFrom]
      | cons l rest =>
          rw [List.length_cons] at hTurns hLength
          by_cases hEmpty : l.isEmpty = true
          · rw [run_again (turn_of_empty hEmpty), ih rest.length (by omega) _ _ (by omega) rfl,
              spansFrom, if_pos hEmpty]
          -- Wherever a span is found, the lines that are left are fewer.
          have hFound : ∀ forced turns, 2 * rest.length < turns →
              ¬(forced = 0 && !isIndented l && !isItem l &&
                (proseRun rest).length < handedOver l rest) = true →
              run (turns + 1) ⟨start, forced, l :: rest⟩ =
                some (spansFrom start forced (l :: rest)) := by
            intro forced turns hTurns hStay
            have hFewer := (List.drop_suffix (extent forced l rest).more rest).length_le
            rw [run_found (turn_of_stays hEmpty hStay), ih _ (by omega) _ _ (by omega) rfl,
              spansFrom, if_neg hEmpty]
            rfl
          by_cases hAgain : (forced = 0 && !isIndented l && !isItem l &&
              (proseRun rest).length < handedOver l rest) = true
          · obtain ⟨⟨⟨rfl, hFlush⟩, hItem⟩, hAll⟩ :
                ((forced = 0 ∧ isIndented l = false) ∧ isItem l = false) ∧ _ := by
              simpa using hAgain
            obtain ⟨turns, rfl⟩ : ∃ k, turns = k + 1 := ⟨turns - 1, by omega⟩
            rw [run_again (turn_of_handedOver hEmpty hFlush hItem hAll),
              hFound 1 turns (by omega) (by simp), spansFrom, spansFrom,
              if_neg hEmpty, if_neg hEmpty, extent_of_handedOver hFlush hItem hAll]
          · exact hFound forced turns (by omega) hAgain

/-- The opening line is read twice, and the closing brace belongs to the code above it. -/
example : run 4 ⟨0, 0, ["f \x7b", "\tx", "\x7d"].map String.toList⟩ =
    some [⟨.code, 0, ["f \x7b", "\tx", "\x7d"].map String.toList⟩] := by
  decide +kernel

end Search

/-- The spans of a comment cover its lines, of which the blank ones are read as empty; and the
search for them is done within two turns for each line and one more. -/
theorem covered_spans (lines : List Text) :
    Search.run (2 * lines.length + 1) ⟨0, 0, lines.map eraseBlank⟩ =
        some (spans (lines.map eraseBlank)) ∧
      Covered (lines.map eraseBlank) (spans (lines.map eraseBlank)) :=
  ⟨Search.run_eq_some_spansFrom 0 0 (by simp), (tiling_spansFrom 0 0 _).covered⟩

end Reflow.Doc
