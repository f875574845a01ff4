import Reflow.Proofs.Segment

/-!
The lines of a run of line comments: all are written behind the run's indentation and token, and the
content of each is what stands behind them.
-/

namespace Reflow

namespace Language

/-- The line markers of a language end in a character that can be seen. A token with a space at its
end would not be found again by its base, which has none. -/
def HasSolidMarkers (lang : Language) : Prop :=
  ∀ token ∈ lang.lineMarkers, Text.dropEndSpaces token = token

end Language

namespace Segment

theorem marker?_eq_some {lang : Language} {indent base line marker : Text}
    (h : marker? lang indent base line = some marker) :
    matchLine? lang line = some (indent, marker) ∧ Text.dropEndSpaces marker = base := by
  unfold marker? at h
  split at h
  next i m hMatch =>
    split at h
    next hSame =>
      obtain ⟨rfl, hBase⟩ : i = indent ∧ Text.dropEndSpaces m = base := by simpa using hSame
      exact Option.some.inj h ▸ ⟨hMatch, hBase⟩
    · cases h
  · cases h

theorem marker?_of_matchLine? {lang : Language} {indent line marker : Text}
    (h : matchLine? lang line = some (indent, marker)) :
    marker? lang indent (Text.dropEndSpaces marker) line = some marker := by
  simp [marker?, h]

/-- The lines of a run are comments behind its indentation, with its token. Their own markers may
differ in the space behind it. -/
theorem marker?_isSome_of_mem_run {lang : Language} {line indent marker : Text}
    (hMatch : matchLine? lang line = some (indent, marker)) {rest : List Text} {l : Text}
    (hl : l ∈ line :: runAfter lang indent marker rest) :
    (marker? lang indent (Text.dropEndSpaces marker) l).isSome = true := by
  rcases List.mem_cons.mp hl with rfl | hl
  · rw [marker?_of_matchLine? hMatch]
    rfl
  · exact List.mem_takeWhile_imp (p := fun l => (marker? lang indent _ l).isSome) hl

/-- The line behind a run does not continue it. It may be a comment all the same, with another
indentation or another token. -/
theorem marker?_head_restAfter {lang : Language} {indent marker : Text} {rest : List Text}
    {l : Text} (hl : (restAfter lang indent marker rest).head? = some l) :
    marker? lang indent (Text.dropEndSpaces marker) l = none := by
  simpa using eq_false_of_head?_dropWhile hl

theorem longer_eq_or (a b : Text) : longer a b = a ∨ longer a b = b := by
  unfold longer
  split
  · exact Or.inr rfl
  · exact Or.inl rfl

/-- What holds of all markers holds of the longest, as that is one of them. -/
theorem foldl_longer_of_forall {P : Text → Prop} {markers : List Text} {marker : Text}
    (hMarker : P marker) (hMarkers : ∀ m ∈ markers, P m) : P (markers.foldl longer marker) := by
  induction markers generalizing marker with
  | nil => exact hMarker
  | cons m markers ih =>
      apply ih
      · rcases longer_eq_or marker m with hFirst | hSecond
        · rwa [hFirst]
        · rw [hSecond]
          exact hMarkers m List.mem_cons_self
      · intro n hn
        exact hMarkers n (List.mem_cons_of_mem m hn)

/-- A run has the token of its first line, whichever of its lines has the longest marker. -/
theorem dropEndSpaces_runMarker (lang : Language) (indent marker : Text) (rest : List Text) :
    Text.dropEndSpaces (runMarker lang indent marker rest) = Text.dropEndSpaces marker := by
  refine foldl_longer_of_forall (P := (Text.dropEndSpaces · = _)) rfl fun m hm => ?_
  obtain ⟨l, -, hl⟩ := List.mem_filterMap.mp hm
  exact (marker?_eq_some hl).2

/-- A comment line is the indentation, the token and the rest. What stands behind the token may be
anything but a directive. -/
theorem exists_eq_of_matchLine? {lang : Language} (hLang : lang.HasSolidMarkers)
    {line indent marker : Text} (h : matchLine? lang line = some (indent, marker)) :
    Text.dropEndSpaces marker ∈ lang.lineMarkers ∧ (∀ c ∈ indent, isGap c = true) ∧
      ∃ rest, line = indent ++ (Text.dropEndSpaces marker ++ rest) := by
  obtain ⟨token, hToken, rest, hLine, hIndent, -, -, rfl⟩ := matchLine?_eq_some h
  rw [Text.dropEndSpaces_eq_of_spaced (hLang token hToken) (spacedMarker_cases token rest)]
  exact ⟨hToken, hIndent, rest, hLine⟩

/-- Every line of a run is its indentation, its token and the rest. This makes the content of the
line well-defined, whatever marker it had. -/
theorem exists_eq_of_mem_run {lang : Language} (hLang : lang.HasSolidMarkers)
    {line indent marker : Text} (rest : List Text)
    (hMatch : matchLine? lang line = some (indent, marker)) {l : Text}
    (hl : l ∈ line :: runAfter lang indent marker rest) :
    ∃ t, l = indent ++ (Text.dropEndSpaces (runMarker lang indent marker rest) ++ t) := by
  obtain ⟨m, hm⟩ := Option.isSome_iff_exists.mp (marker?_isSome_of_mem_run hMatch hl)
  obtain ⟨hLine, hBase⟩ := marker?_eq_some hm
  rw [dropEndSpaces_runMarker, ← hBase]
  exact (exists_eq_of_matchLine? hLang hLine).2.2

end Segment

namespace LineComment

/-- The content of a comment line: one space behind the token is not part of it. Further spaces are,
as the indentation of code depends on them. -/
theorem content_append (indent base t : Text) :
    content indent base (indent ++ (base ++ t)) = (Text.dropPrefix? [' '] t).getD t := by
  simp [content, Text.splitBytes?_append]

end LineComment

end Reflow
