import Reflow.Proofs.Comment.Decoration
import Reflow.Proofs.Spacing

/-!
Runs of line comments in a language with one line marker. A line behind an indentation and the
marker is a comment unless it is a directive. Such lines may be divided into several runs by
directives; if none of the runs is changed, the lines are not changed.
-/

namespace Reflow

/-- The line comments of a language start with one token, which no block comment starts with. A
directive of no characters would make directives of all comment lines, so there is none. -/
structure Language.OneToken (lang : Language) (token : Text) : Prop where
  markers : lang.lineMarkers = [token]
  word : IsWord token
  directives : ∀ d ∈ lang.directives, d ≠ []
  apart : ∀ o ∈ lang.blockStart, ∀ rest, Text.startsWith (token ++ rest) o = false

theorem IsWord.dropEndSpaces {w : Text} (h : IsWord w) : Text.dropEndSpaces w = w := by
  rw [Text.dropEndSpaces, Text.dropEndWhile, List.reverse_eq_iff]
  cases hRev : w.reverse with
  | nil => rfl
  | cons c rest =>
      have hc := h.visible c (List.mem_reverse.mp (by simp [hRev]))
      have hSpace : (c == ' ') = false := by
        rw [beq_eq_false_iff_ne]
        rintro rfl
        cases hc
      rw [List.dropWhile_cons_of_neg (by simp [hSpace])]

/-- The indentation of a line ends where its first word starts. Where that word is the token, this
tells the indentation of a comment. -/
theorem IsWord.splitIndent {w indent : Text} (hw : IsWord w)
    (hIndent : ∀ c ∈ indent, isGap c = true)
    (rest : Text) : Text.splitIndent (indent ++ (w ++ rest)) = (indent, w ++ rest) := by
  refine Text.splitIndent_append hIndent fun c hc => ?_
  rw [List.head?_append, Option.or_of_isSome (by simpa using hw.ne_nil)] at hc
  exact hw.bounded.head hc

namespace Segment

section Append

variable {lang : Language} {indent marker : Text} (rest : List Text) {after : List Text}
  (hStop : ∀ l, after.head? = some l → marker? lang indent (Text.dropEndSpaces marker) l = none)
include hStop

/-- A run does not grow by lines whose first one is not part of it. What comes behind that first one
does not matter. -/
theorem runAfter_append :
    runAfter lang indent marker (rest ++ after) = runAfter lang indent marker rest := by
  apply takeWhile_append_of_head
  intro l hl
  rw [hStop l hl]
  rfl

theorem restAfter_append :
    restAfter lang indent marker (rest ++ after) = restAfter lang indent marker rest ++ after := by
  apply dropWhile_append_of_head
  intro l hl
  rw [hStop l hl]
  rfl

end Append

section Markers

variable {lang : Language} {indent found r : Text} (hIndent : ∀ c ∈ indent, isGap c = true)
  (hFound : IsWord found)
  (hFind : lang.lineMarkers.find? (Text.startsWith (found ++ r)) = some found)
include hIndent hFound hFind

/-- A line is a comment with the marker that is found in it, unless a directive stands right behind
it. A directive may start with the space that would belong to the marker. -/
theorem matchLine?_of_find? :
    matchLine? lang (indent ++ (found ++ r)) =
      if lang.directives.any (Text.startsWith r) then none
      else some (indent, spacedMarker found r) := by
  have hBody : (found ++ r).isEmpty = false := by simp [hFound.ne_nil]
  simp only [matchLine?, hFound.splitIndent hIndent, hBody, hFind, List.drop_left]
  rfl

/-- The same for a run with a token of its own: the line belongs to it if this is the token that is
found, and it is no directive. -/
theorem marker?_of_find? (base : Text) :
    marker? lang indent base (indent ++ (found ++ r)) =
      if lang.directives.any (Text.startsWith r) then none
      else if found = base then some (spacedMarker found r) else none := by
  have hBase := Text.dropEndSpaces_eq_of_spaced hFound.dropEndSpaces (spacedMarker_cases found r)
  rw [marker?, matchLine?_of_find? hIndent hFound hFind]
  by_cases hDirective : lang.directives.any (Text.startsWith r) = true
  · rw [if_pos hDirective, if_pos hDirective]
  · rw [if_neg hDirective, if_neg hDirective]
    simp [hBase]

end Markers

section Lines

variable {lang : Language} {token indent : Text} (hLang : lang.OneToken token)
  (hIndent : ∀ c ∈ indent, isGap c = true)
include hLang hIndent

omit hIndent in
theorem find?_token (r : Text) :
    lang.lineMarkers.find? (Text.startsWith (token ++ r)) = some token := by
  rw [hLang.markers, List.find?_cons, Text.startsWith_iff.mpr (List.prefix_append token r)]

/-- With one token in the language, a line behind gaps and that token is a comment unless it is a
directive. -/
theorem matchLine?_token (r : Text) :
    matchLine? lang (indent ++ (token ++ r)) =
      if lang.directives.any (Text.startsWith r) then none
      else some (indent, spacedMarker token r) :=
  matchLine?_of_find? hIndent hLang.word (find?_token hLang r)

/-- A line that starts with the token opens no block comment, so the order in which the two kinds of
comments are looked for does not matter. -/
theorem block?_token (r : Text) : block? lang (indent ++ (token ++ r)) = none := by
  have hNone : lang.blockStart.findIdx? (Text.startsWith (token ++ r)) = none :=
    List.findIdx?_eq_none_iff.mpr fun o ho => hLang.apart o ho r
  simp only [block?, opening?, hLang.word.splitIndent hIndent, hNone]
  rfl

omit hIndent in
theorem dropEndSpaces_spacedMarker (r : Text) :
    Text.dropEndSpaces (spacedMarker token r) = token :=
  Text.dropEndSpaces_eq_of_spaced hLang.word.dropEndSpaces (spacedMarker_cases token r)

theorem marker?_token (r : Text) :
    marker? lang indent token (indent ++ (token ++ r)) =
      if lang.directives.any (Text.startsWith r) then none else some (spacedMarker token r) := by
  rw [marker?_of_find? hIndent hLang.word (find?_token hLang r), if_pos rfl]

end Lines

/-- A comment line in a language with one token: the indentation, the token and a rest, which alone
decides the marker. -/
theorem eq_of_marker? {lang : Language} {token : Text} (hLang : lang.OneToken token)
    {indent line marker : Text} (h : marker? lang indent token line = some marker) :
    (∀ c ∈ indent, isGap c = true) ∧
      ∃ r, line = indent ++ (token ++ r) ∧ marker = spacedMarker token r := by
  obtain ⟨t, ht, r, hLine, hIndent, -, -, hMarker⟩ := matchLine?_eq_some (marker?_eq_some h).1
  rw [hLang.markers, List.mem_singleton] at ht
  rw [ht] at hLine hMarker
  exact ⟨hIndent, r, hLine, hMarker⟩

theorem isPrefix_of_marker? {lang : Language} {token : Text} (hLang : lang.OneToken token)
    {indent line : Text} (h : (marker? lang indent token line).isSome = true) :
    indent ++ token <+: line := by
  obtain ⟨marker, hMarker⟩ := Option.isSome_iff_exists.mp h
  obtain ⟨-, r, rfl, -⟩ := eq_of_marker? hLang hMarker
  rw [← List.append_assoc]
  exact List.prefix_append _ _

/-- A line that opens a block comment is no line comment, behind whatever indentation. -/
theorem marker?_eq_none_of_block? {lang : Language} {token : Text} (hLang : lang.OneToken token)
    {indent line : Text} (h : (block? lang line).isSome = true) :
    marker? lang indent token line = none := by
  cases hMarker : marker? lang indent token line with
  | none => rfl
  | some marker =>
      obtain ⟨hIndent, r, rfl, -⟩ := eq_of_marker? hLang hMarker
      rw [block?_token hLang hIndent] at h
      cases h

/-- A comment line has one indentation, so a run ends where that changes. -/
theorem marker?_eq_none_of_ne {lang : Language} {token : Text} (hLang : lang.OneToken token)
    {indent own : Text} (hOwn : ∀ c ∈ own, isGap c = true) (hNe : indent ≠ own) (r : Text) :
    marker? lang indent token (own ++ (token ++ r)) = none := by
  cases hMarker : marker? lang indent token (own ++ (token ++ r)) with
  | none => rfl
  | some marker =>
      obtain ⟨hIndent, s, hEq, -⟩ := eq_of_marker? hLang hMarker
      have hSplit := congrArg Text.splitIndent hEq
      rw [hLang.word.splitIndent hOwn, hLang.word.splitIndent hIndent] at hSplit
      exact absurd (Prod.mk.inj hSplit).1.symm hNe

theorem marker?_isSome_of_matchLine? {lang : Language} {token : Text} (hLang : lang.OneToken token)
    {indent line marker : Text} (h : matchLine? lang line = some (indent, marker)) :
    marker? lang indent token line = some marker ∧ Text.dropEndSpaces marker = token := by
  obtain ⟨t, ht, r, -, -, -, -, hMarker⟩ := matchLine?_eq_some h
  rw [hLang.markers, List.mem_singleton] at ht
  have hBase : Text.dropEndSpaces marker = token := by
    rw [hMarker, ht, dropEndSpaces_spacedMarker hLang]
  have hOwn := marker?_of_matchLine? h
  rw [hBase] at hOwn
  exact ⟨hOwn, hBase⟩

/-- The marker of a run of comment lines, as their own markers decide it. Lines that are none do not
count. -/
def markerOf (lang : Language) (indent token : Text) (lines : List Text) : Text :=
  (lines.filterMap (marker? lang indent token)).foldl longer token

theorem foldl_longer_spaced (token : Text) {markers : List Text}
    (h : ∀ m ∈ markers, m = token ∨ m = token ++ [' ']) :
    markers.foldl longer (token ++ [' ']) = token ++ [' '] := by
  induction markers with
  | nil => rfl
  | cons m markers ih =>
      have hStay : longer (token ++ [' ']) m = token ++ [' '] := by
        rcases h m List.mem_cons_self with rfl | rfl <;> simp [longer]
      rw [List.foldl_cons, hStay]
      exact ih fun n hn => h n (List.mem_cons_of_mem m hn)

/-- The longest of markers with one token is the one with a space, if there is any. -/
theorem foldl_longer_eq (token : Text) {markers : List Text}
    (h : ∀ m ∈ markers, m = token ∨ m = token ++ [' ']) :
    markers.foldl longer token = if token ++ [' '] ∈ markers then token ++ [' '] else token := by
  induction markers with
  | nil => simp
  | cons m markers ih =>
      have hRest := fun n hn => h n (List.mem_cons_of_mem m hn)
      rw [List.foldl_cons]
      rcases h m List.mem_cons_self with rfl | rfl
      · have hStay : longer m m = m := by simp [longer]
        rw [hStay, ih hRest]
        simp
      · have hGrow : longer token (token ++ [' ']) = token ++ [' '] := by simp [longer]
        rw [hGrow, foldl_longer_spaced token hRest, if_pos List.mem_cons_self]

section Runs

variable {lang : Language} {token : Text} (hLang : lang.OneToken token)
include hLang

/-- A run is marked with a space behind the token exactly when one of its lines is. Rewriting it can
therefore add spaces, and never takes the last one away. -/
theorem markerOf_eq (indent : Text) (lines : List Text) :
    markerOf lang indent token lines =
      if ∃ l ∈ lines, marker? lang indent token l = some (token ++ [' ']) then token ++ [' ']
      else token := by
  have hMarkers : ∀ m ∈ lines.filterMap (marker? lang indent token),
      m = token ∨ m = token ++ [' '] := by
    intro m hm
    obtain ⟨l, -, hl⟩ := List.mem_filterMap.mp hm
    obtain ⟨-, r, -, rfl⟩ := eq_of_marker? hLang hl
    exact spacedMarker_cases token r
  rw [markerOf, foldl_longer_eq token hMarkers]
  simp only [List.mem_filterMap]

theorem markerOf_cases (indent : Text) (lines : List Text) :
    markerOf lang indent token lines = token ∨
      markerOf lang indent token lines = token ++ [' '] := by
  rw [markerOf_eq hLang]
  split
  · exact Or.inr rfl
  · exact Or.inl rfl

theorem dropEndSpaces_markerOf (indent : Text) (lines : List Text) :
    Text.dropEndSpaces (markerOf lang indent token lines) = token :=
  Text.dropEndSpaces_eq_of_spaced hLang.word.dropEndSpaces (markerOf_cases hLang indent lines)

/-- The marker of a run that is found in a text is that of its lines, the first one among them. -/
theorem runMarker_eq {indent line marker : Text}
    (hMatch : matchLine? lang line = some (indent, marker)) (rest : List Text) :
    runMarker lang indent marker rest =
      markerOf lang indent token (line :: runAfter lang indent marker rest) := by
  obtain ⟨hMarker, hBase⟩ := marker?_isSome_of_matchLine? hLang hMatch
  obtain ⟨-, r, -, hSpaced⟩ := eq_of_marker? hLang hMarker
  have hFirst : longer token marker = marker := by
    rcases spacedMarker_cases token r with h | h <;> simp [hSpaced, h, longer]
  rw [runMarker, hBase, markerOf, List.filterMap_cons_some hMarker, List.foldl_cons, hFirst]

/-- Comment lines behind one indentation are read as one run, whose marker has the token. The line
behind them must not continue the run; it may well start another. -/
theorem exists_run_append {indent : Text} {line : Text} {more after : List Text}
    (hRun : ∀ l ∈ line :: more, (marker? lang indent token l).isSome = true)
    (hAfter : ∀ l, after.head? = some l → marker? lang indent token l = none) :
    ∃ marker, block? lang line = none ∧ matchLine? lang line = some (indent, marker) ∧
      Text.dropEndSpaces marker = token ∧ runAfter lang indent marker (more ++ after) = more ∧
      restAfter lang indent marker (more ++ after) = after := by
  obtain ⟨hFirst, hMore⟩ := List.forall_mem_cons.mp hRun
  obtain ⟨marker, hMarker⟩ := Option.isSome_iff_exists.mp hFirst
  obtain ⟨hMatch, hBase⟩ := marker?_eq_some hMarker
  obtain ⟨hIndent, r, rfl, -⟩ := eq_of_marker? hLang hMarker
  subst hBase
  refine ⟨marker, block?_token hLang hIndent r, hMatch, rfl, ?_, ?_⟩
  · rw [runAfter_append more hAfter]
    exact List.takeWhile_eq_self_iff.mpr hMore
  · rw [restAfter_append more hAfter, restAfter, List.dropWhile_eq_nil_iff.mpr hMore,
      List.nil_append]

end Runs

end Segment

namespace Language.OneToken

open Segment

variable {lang : Language} {token : Text} (hLang : lang.OneToken token) {line indent marker : Text}
  (hMatch : matchLine? lang line = some (indent, marker)) {rest : List Text}
include hLang hMatch

theorem marker?_isSome_of_mem_run {l : Text} (hl : l ∈ line :: runAfter lang indent marker rest) :
    (marker? lang indent token l).isSome = true := by
  rw [← (marker?_isSome_of_matchLine? hLang hMatch).2]
  exact Segment.marker?_isSome_of_mem_run hMatch hl

theorem marker?_head_restAfter {l : Text}
    (hl : (restAfter lang indent marker rest).head? = some l) :
    marker? lang indent token l = none := by
  rw [← (marker?_isSome_of_matchLine? hLang hMatch).2]
  exact Segment.marker?_head_restAfter hl

end Language.OneToken

namespace Source

open Segment

/-- Lines behind one indentation and token are not changed, and neither are the lines behind them,
if no run among them is changed and the next line does not continue the last run. The lines may hold
directives, which are code and divide them into several runs; the induction is along these. -/
theorem renderLines_append_run {L : Layout} {lang : Language} {token indent : Text}
    (hLang : lang.OneToken token) (hIndent : ∀ c ∈ indent, isGap c = true) {lines after : List Text}
    (hLines : ∀ l ∈ lines, ∃ r, l = indent ++ (token ++ r))
    (hAfter : ∀ l, after.head? = some l → marker? lang indent token l = none)
    (hRuns : ∀ ys, ys <:+: lines → (∀ l ∈ ys, (marker? lang indent token l).isSome) →
      LineComment.render L lang indent (markerOf lang indent token ys) ys = ys) :
    renderLines L lang (lines ++ after) = lines ++ renderLines L lang after := by
  have hOpensNone : ∀ line ∈ lines, block? lang line = none := by
    intro line hl
    obtain ⟨r, rfl⟩ := hLines line hl
    exact block?_token hLang hIndent r
  induction lines using lines_induction lang with
  | nil => rfl
  | block line rest o closing more hBlock =>
      rw [hOpensNone line List.mem_cons_self] at hBlock
      cases hBlock
  | unclosed line rest o closing hBlock =>
      rw [hOpensNone line List.mem_cons_self] at hBlock
      cases hBlock
  | run line rest own marker hBlock hMatch ih =>
      obtain ⟨r, rfl⟩ := hLines line List.mem_cons_self
      obtain ⟨rfl, -⟩ : own = indent ∧ marker = spacedMarker token r := by
        rw [matchLine?_token hLang hIndent] at hMatch
        split at hMatch
        · cases hMatch
        · simpa [eq_comm] using hMatch
      -- The run ends where the lines do, if not before.
      have hStop := hAfter
      rw [← (marker?_isSome_of_matchLine? hLang hMatch).2] at hStop
      have hRun : ∀ l ∈ _ :: runAfter lang own marker rest, (marker? lang own token l).isSome :=
        fun l => hLang.marker?_isSome_of_mem_run hMatch
      rw [List.cons_append, renderLines_run hBlock hMatch, runMarker_eq hLang hMatch,
        runAfter_append rest hStop, restAfter_append rest hStop]
      have hSplit := runAfter_append_restAfter lang own marker rest
      generalize runAfter lang own marker rest = taken, restAfter lang own marker rest = dropped
        at hSplit hRun ih ⊢
      subst hSplit
      have hDropped := ih (fun l hl => hLines l (by simp [hl]))
        (fun ys hys =>
          hRuns ys (List.infix_cons (hys.trans (List.suffix_append taken dropped).isInfix)))
        fun l hl => hOpensNone l (by simp [hl])
      rw [hRuns _ ⟨[], dropped, by rw [List.nil_append, List.cons_append]⟩ hRun, hDropped,
        List.cons_append, List.cons_append, List.append_assoc taken]
  | code line rest hBlock hMatch ih =>
      rw [List.cons_append, renderLines_code hBlock hMatch,
        ih (fun l hl => hLines l (List.mem_cons_of_mem line hl))
          (fun ys hys => hRuns ys (List.infix_cons hys))
          (fun l hl => hOpensNone l (List.mem_cons_of_mem line hl)), List.cons_append]

end Source

end Reflow
