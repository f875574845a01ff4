import Reflow.Proofs.Characters

/-!
Rewrapping the ranges of a document, whatever ranges they are. The output is a sequence of parts: a
line of the document that is kept, or a range that is wrapped. The parts stand for every line once
and in order, and a line that is in no range is always kept. Ranges that are in order and do not
meet are all wrapped.
-/

namespace Reflow

/-- The line with this index is in the range. -/
def LineRange.Contains (r : LineRange) (index : Nat) : Prop := r.start ≤ index ∧ index < r.stop

namespace Document

variable {L : Layout} {lines : List Text}

theorem rewrapFrom_of_length_le {next : Nat} (h : lines.length ≤ next) (rs : List LineRange) :
    rewrapFrom L lines next rs = [] := by
  induction rs with
  | nil => rw [rewrapFrom, List.drop_eq_nil_of_le h]
  | cons r rs ih =>
      rw [rewrapFrom_skip (by omega)]
      exact ih

theorem slice_min_length (start stop : Nat) :
    slice lines start (min stop lines.length) = slice lines start stop := by
  rw [slice, slice, ← List.take_take, List.take_length]

/-- Lines of a rewrapped document hold no line feeds, so the lines that are written are the lines of
the text. -/
theorem feedless_rewrapFrom (hFeed : ∀ l ∈ lines, '\n' ∉ l) (next : Nat) (rs : List LineRange) :
    ∀ l ∈ rewrapFrom L lines next rs, '\n' ∉ l := by
  induction rs generalizing next with
  | nil => exact fun l hl => hFeed l (List.mem_of_mem_drop hl)
  | cons r rs ih =>
      by_cases hRange : next ≤ r.start ∧ r.start < min r.stop lines.length
      · intro l hl
        have hNil : Made (· ≠ '\n') [] := List.forall_mem_nil _
        rw [rewrapFrom_wrap hRange, List.mem_append, List.mem_append] at hl
        rcases hl with (hl | hl) | hl
        · exact hFeed l (List.mem_of_mem_take (List.mem_of_mem_drop hl))
        · have hMade := made_wrap (by rintro c hc rfl; cases hc) L hNil hNil (fun c _ => id) l hl
          exact fun hMem => hMade _ hMem rfl
        · exact ih _ l hl
      · rw [rewrapFrom_skip hRange]
        exact ih next

theorem rewrapFrom_ne_nil {next : Nat} (h : next < lines.length) (rs : List LineRange) :
    rewrapFrom L lines next rs ≠ [] := by
  induction rs with
  | nil => simpa [rewrapFrom] using h
  | cons r rs ih =>
      by_cases hRange : next ≤ r.start ∧ r.start < min r.stop lines.length
      · simp [rewrapFrom_wrap hRange, wrap_ne_nil]
      · rw [rewrapFrom_skip hRange]
        exact ih

/-- The lines of a rewrapped document are what was written for its lines. There is at least one, as
a text has a line. -/
theorem lines_rewrap (L : Layout) (ranges : List LineRange) (t : Text) :
    Text.lines (rewrap L ranges t) = rewrapFrom L (Text.lines t) 0 ranges := by
  apply Text.lines_unlines
  · exact feedless_rewrapFrom (fun l => Text.not_mem_of_mem_lines) 0 ranges
  · exact rewrapFrom_ne_nil (List.length_pos_iff.mpr (Text.lines_ne_nil t)) ranges

section Parts

/-- A part of a rewrapped document: a line that is kept, or a range that is wrapped. Kept lines are
one part each, so that they can be spoken of by their index. -/
inductive Part where
  | kept (index : Nat)
  | wrapped (range : LineRange)

/-- The lines of the document that the part stands for, by their indices. -/
def Part.indices : Part → List Nat
  | .kept index => [index]
  | .wrapped r => List.range' r.start (r.stop - r.start)

/-- The lines that the part is written as. A range may be written as more or fewer lines than it
has. -/
def Part.output (L : Layout) (lines : List Text) : Part → List Text
  | .kept index => lines[index]?.toList
  | .wrapped r => wrap L [] [] (Text.unlines (slice lines r.start r.stop))

/-- Lines that are kept one by one. -/
def keptFrom (start stop : Nat) : List Part := (List.range' start (stop - start)).map .kept

/-- The parts from line `next` on in a document of `n` lines. This is the same walk over the ranges
as in rewrapping, with what is written left out. -/
def parts (n next : Nat) : List LineRange → List Part
  | [] => keptFrom next n
  | r :: rs =>
    if next ≤ r.start ∧ r.start < min r.stop n then
      keptFrom next r.start ++ .wrapped ⟨r.start, min r.stop n⟩ :: parts n (min r.stop n) rs
    else parts n next rs

/-- The parts divide a document of `n` lines: they stand for its lines, each of them once and in
order. Lines outside the ranges are kept, and what is wrapped is one of the ranges as far as the
document reaches. Not every range need be wrapped: one that starts inside another is passed over. -/
structure Divides (n : Nat) (ranges : List LineRange) (ps : List Part) : Prop where
  indices : ps.flatMap Part.indices = List.range n
  kept : ∀ index < n, (∀ r ∈ ranges, ¬r.Contains index) → .kept index ∈ ps
  wrapped : ∀ q, .wrapped q ∈ ps → ∃ r ∈ ranges, q.start = r.start ∧ q.stop = min r.stop n

theorem flatMap_output_keptFrom (start stop : Nat) :
    (keptFrom start stop).flatMap (Part.output L lines) = slice lines start stop := by
  rw [keptFrom, slice, List.drop_take]
  generalize stop - start = count
  induction count generalizing start with
  | zero => simp
  | succ count ih =>
      rw [List.range'_succ, List.map_cons, List.flatMap_cons, ih, Part.output]
      by_cases hStart : start < lines.length
      · rw [List.drop_eq_getElem_cons hStart, List.take_succ_cons, List.getElem?_eq_getElem hStart]
        rfl
      · rw [List.getElem?_eq_none (by omega), List.drop_eq_nil_of_le (by omega),
          List.drop_eq_nil_of_le (by omega)]
        simp

theorem flatMap_indices_keptFrom (start stop : Nat) :
    (keptFrom start stop).flatMap Part.indices = List.range' start (stop - start) := by
  rw [keptFrom, List.flatMap_map]
  exact List.flatMap_singleton' _

theorem kept_mem_keptFrom_iff {start stop index : Nat} :
    .kept index ∈ keptFrom start stop ↔ start ≤ index ∧ index < stop := by
  simp only [keptFrom, List.mem_map, List.mem_range'_1, Part.kept.injEq, exists_eq_right]
  omega

/-- The parts are written one after the other, and nothing is written between them. -/
theorem rewrapFrom_eq_flatMap (next : Nat) (rs : List LineRange) :
    rewrapFrom L lines next rs = (parts lines.length next rs).flatMap (Part.output L lines) := by
  induction rs generalizing next with
  | nil => rw [rewrapFrom, parts, flatMap_output_keptFrom, slice, List.take_length]
  | cons r rs ih =>
      rw [parts]
      split
      next hRange =>
        rw [rewrapFrom_wrap hRange, List.flatMap_append, List.flatMap_cons, flatMap_output_keptFrom,
          ih, List.append_assoc]
        rfl
      next hRange =>
        rw [rewrapFrom_skip hRange]
        exact ih next

/-- Indices up to `middle` and those from there on. -/
theorem range'_append_range' {start middle stop : Nat} (hStart : start ≤ middle)
    (hStop : middle ≤ stop) :
    List.range' start (middle - start) ++ List.range' middle (stop - middle) =
      List.range' start (stop - start) := by
  have hMiddle : middle = start + (middle - start) := by omega
  have hCount : stop - start = (middle - start) + (stop - middle) := by omega
  rw [hCount, ← List.range'_append_1, ← hMiddle]

/-- The parts stand for the lines from `next` on, each once and in order, whatever the ranges
are. -/
theorem flatMap_indices_parts {n next : Nat} (h : next ≤ n) (rs : List LineRange) :
    (parts n next rs).flatMap Part.indices = List.range' next (n - next) := by
  induction rs generalizing next with
  | nil => rw [parts, flatMap_indices_keptFrom]
  | cons r rs ih =>
      rw [parts]
      split
      next hRange =>
        rw [List.flatMap_append, List.flatMap_cons, flatMap_indices_keptFrom, ih (by omega),
          Part.indices,
          range'_append_range' hRange.2.le (by omega), range'_append_range' hRange.1 (by omega)]
      · exact ih h

/-- A line in no range is kept. A line in a range may be kept as well, if the range is passed
over. -/
theorem kept_mem_parts {n next index : Nat} (hNext : next ≤ index) (hIndex : index < n)
    {rs : List LineRange} (h : ∀ r ∈ rs, ¬r.Contains index) : .kept index ∈ parts n next rs := by
  induction rs generalizing next with
  | nil => exact kept_mem_keptFrom_iff.mpr ⟨hNext, hIndex⟩
  | cons r rs ih =>
      have hRest : ∀ q ∈ rs, ¬q.Contains index := fun q hq => h q (List.mem_cons_of_mem r hq)
      rw [parts]
      split
      · by_cases hBefore : index < r.start
        · exact List.mem_append_left _ (kept_mem_keptFrom_iff.mpr ⟨hNext, hBefore⟩)
        · have hBehind : ¬index < r.stop :=
            fun hStop => h r List.mem_cons_self ⟨Nat.not_lt.mp hBefore, hStop⟩
          exact List.mem_append_right _ (List.mem_cons_of_mem _ (ih (by omega) hRest))
      · exact ih hNext hRest

/-- What is wrapped is one of the ranges, cut off where the document ends. -/
theorem exists_of_wrapped_mem_parts {n next : Nat} {rs : List LineRange} {q : LineRange}
    (h : .wrapped q ∈ parts n next rs) : ∃ r ∈ rs, q.start = r.start ∧ q.stop = min r.stop n := by
  have hKept : ∀ start stop, .wrapped q ∉ keptFrom start stop := by simp [keptFrom]
  induction rs generalizing next with
  | nil => exact absurd h (hKept _ _)
  | cons r rs ih =>
      have hRest : ∀ next, .wrapped q ∈ parts n next rs →
          ∃ s ∈ r :: rs, q.start = s.start ∧ q.stop = min s.stop n := by
        intro next hMem
        obtain ⟨s, hs, hSame⟩ := ih hMem
        exact ⟨s, List.mem_cons_of_mem r hs, hSame⟩
      rw [parts] at h
      split at h
      · cases List.mem_append.mp h with
        | inl hMem => exact absurd hMem (hKept _ _)
        | inr hMem =>
            cases List.mem_cons.mp hMem with
            | inl hSame =>
                cases hSame
                exact ⟨r, List.mem_cons_self, rfl, rfl⟩
            | inr hMore => exact hRest _ hMore
      · exact hRest next h

/-- The parts of a document divide it, whatever list of ranges is given. -/
theorem divides_parts (n : Nat) (ranges : List LineRange) :
    Divides n ranges (parts n 0 ranges) where
  indices := by rw [flatMap_indices_parts (Nat.zero_le n), Nat.sub_zero, List.range_eq_range']
  kept _ hIndex hOutside := kept_mem_parts (Nat.zero_le _) hIndex hOutside
  wrapped _ hMem := exists_of_wrapped_mem_parts hMem

end Parts

section Ordered

/-- Ranges of a document of `n` lines that hold something, are in order and do not meet. Two of them
may touch. -/
structure Ordered (n : Nat) (ranges : List LineRange) : Prop where
  bounds : ∀ r ∈ ranges, r.start < r.stop ∧ r.stop ≤ n
  apart : ranges.Pairwise fun r s => r.stop ≤ s.start

/-- Write the wrapped text of a range in place of its lines. Unlike in one pass over the document,
the lines behind it may get other indices. -/
def replaceRange (L : Layout) (r : LineRange) (ls : List Text) : List Text :=
  ls.take r.start ++ wrap L [] [] (Text.unlines (slice ls r.start r.stop)) ++ ls.drop r.stop

/-- Lines before all ranges stay what they are, so a range finds its own lines where it expects
them. -/
theorem take_foldr_replaceRange {n : Nat} (hn : n ≤ lines.length) {rs : List LineRange}
    (h : ∀ r ∈ rs, n ≤ r.start) : (rs.foldr (replaceRange L) lines).take n = lines.take n := by
  induction rs with
  | nil => rfl
  | cons r rs ih =>
      have hRest := ih fun q hq => h q (List.mem_cons_of_mem r hq)
      have hLength := congrArg List.length hRest
      rw [List.length_take, List.length_take] at hLength
      have hStart := h r List.mem_cons_self
      rw [List.foldr_cons, replaceRange, List.append_assoc,
        List.take_append_of_le_length (by rw [List.length_take]; omega), List.take_take,
        Nat.min_eq_left hStart, hRest]

/-- One pass over ordered ranges replaces each of them. They are replaced from the last to the first
here, so that the lines of those that are left keep their indices. -/
theorem rewrapFrom_eq_foldr {next : Nat} {rs : List LineRange} (h : Ordered lines.length rs)
    (hNext : ∀ r ∈ rs, next ≤ r.start) :
    rewrapFrom L lines next rs = (rs.foldr (replaceRange L) lines).drop next := by
  induction rs generalizing next with
  | nil => rfl
  | cons r rs ih =>
      obtain ⟨hStop, hLength⟩ := h.bounds r List.mem_cons_self
      obtain ⟨hApart, hPairs⟩ := List.pairwise_cons.mp h.apart
      have hStart := hNext r List.mem_cons_self
      have hRest : Ordered lines.length rs :=
        ⟨fun q hq => h.bounds q (List.mem_cons_of_mem r hq), hPairs⟩
      have hTake : (rs.foldr (replaceRange L) lines).take r.stop = lines.take r.stop :=
        take_foldr_replaceRange hLength hApart
      have hBefore : (rs.foldr (replaceRange L) lines).take r.start = lines.take r.start := by
        have hShorter := congrArg (List.take r.start) hTake
        rwa [List.take_take, List.take_take, Nat.min_eq_left hStop.le] at hShorter
      rw [rewrapFrom_wrap ⟨hStart, by omega⟩, Nat.min_eq_left hLength, ih hRest hApart,
        List.foldr_cons,
        replaceRange, slice, slice, slice, hTake, hBefore, List.append_assoc, List.append_assoc,
        List.drop_append_of_le_length (by rw [List.length_take]; omega)]

end Ordered

/-- Rewrapping a document is safe for all ranges and exact for ordered ones. Whatever the ranges
are, the output divides into parts, so that no line is lost or repeated or moved and those outside
the ranges are kept, and no word is lost or changed. Of ordered ranges, each is replaced by its
wrapped text. -/
theorem rewrap_divides (L : Layout) (ranges : List LineRange) (t : Text) :
    (∃ ps, Divides (Text.lines t).length ranges ps ∧
        Text.lines (rewrap L ranges t) = ps.flatMap (Part.output L (Text.lines t))) ∧
      Text.words (rewrap L ranges t) = Text.words t ∧
      (Ordered (Text.lines t).length ranges →
        Text.lines (rewrap L ranges t) = ranges.foldr (replaceRange L) (Text.lines t)) := by
  refine ⟨⟨_, divides_parts _ ranges, ?_⟩, blankBlind_words.rewrap L ranges t, fun hOrdered => ?_⟩
  · rw [lines_rewrap, rewrapFrom_eq_flatMap]
  · rw [lines_rewrap, rewrapFrom_eq_foldr hOrdered fun r _ => Nat.zero_le r.start, List.drop_zero]

/-- Two ranges that touch, between a heading and a line of code. -/
theorem rewrap_divides_touching :
    Ordered (Text.lines "# a\nb c\nd e f\n    g".toList).length [⟨1, 2⟩, ⟨2, 3⟩] ∧
      Text.lines
          (rewrap { column := 3, tab := 4 } [⟨1, 2⟩, ⟨2, 3⟩] "# a\nb c\nd e f\n    g".toList) =
        [⟨1, 2⟩, ⟨2, 3⟩].foldr (replaceRange { column := 3, tab := 4 })
          (Text.lines "# a\nb c\nd e f\n    g".toList) := by
  have hOrdered : Ordered (Text.lines "# a\nb c\nd e f\n    g".toList).length [⟨1, 2⟩, ⟨2, 3⟩] :=
    ⟨by decide +kernel, by decide⟩
  exact ⟨hOrdered, (rewrap_divides _ _ _).2.2 hOrdered⟩

end Document

end Reflow
