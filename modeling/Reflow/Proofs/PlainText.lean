import Reflow.Proofs.Endings
import Reflow.Proofs.Filled

/-!
Rewrapping plain text twice. The second pass reads every line break as one space and trims every
line, so it repeats the first one exactly when the lines of the first are trimmed and no first word
of a line finds room, behind one space, on the line before it. Neither is true of every text. Where
the words are set apart by single spaces, the second pass finds the paragraphs of the first one
again, and nothing of its layout.
-/

namespace Reflow

open Packing

/-- The characters of a text that neither separate words nor lines. Other blanks are among them, so
that this view tells whether trimming removed one. -/
def Text.solid (t : Text) : Text := t.filter fun c => !isGap c && c != '\n'

theorem Text.blind_solid : Blind (fun c => isGap c || c == '\n') Text.solid :=
  blind_filter fun c hc => by
    rw [← Bool.not_eq_true', Bool.not_and, Bool.not_not, bne, Bool.not_not]
    exact hc

theorem Text.solid_append (t u : Text) : solid (t ++ u) = solid t ++ solid u :=
  List.filter_append _ _

theorem Text.length_solid_trim_le (t : Text) : (solid (trim t)).length ≤ (solid t).length := by
  obtain ⟨front, back, -, -, hSplit⟩ := exists_eq_append_trim t
  have hLength : (solid t).length =
      (solid front).length + (solid (trim t)).length + (solid back).length := by
    rw [← List.length_append, ← List.length_append, ← solid_append, ← solid_append, ← hSplit]
  omega

/-- Trimming a line that is bounded by words removes something solid, if it removes anything: the
character at either end is neither a space nor a tab. -/
theorem Text.trim_eq_self_of_solid {l : Text} (hl : Token.Bounded l) (hFeed : '\n' ∉ l)
    (h : (solid (trim l)).length = (solid l).length) : trim l = l := by
  obtain ⟨front, back, -, -, hSplit⟩ := exists_eq_append_trim l
  have hLength : (solid l).length =
      (solid front).length + (solid (trim l)).length + (solid back).length := by
    rw [← List.length_append, ← List.length_append, ← solid_append, ← solid_append, ← hSplit]
  have hGap : ∀ t : Text, (∀ c ∈ t, c ∈ l) → (solid t).length = 0 → ∀ c ∈ t, isGap c = true := by
    intro t ht hNone c hc
    have hSolid := List.filter_eq_nil_iff.mp (List.length_eq_zero_iff.mp hNone) c hc
    have hLine : c ≠ '\n' := fun hEq => hFeed (hEq ▸ ht c hc)
    simpa [hLine] using hSolid
  have hFront : front = [] := by
    cases hEq : front with
    | nil => rfl
    | cons c rest =>
        have hMem : ∀ d ∈ front, d ∈ l := fun d hd => by rw [hSplit]; simp [hd]
        have hc := hGap front hMem (by omega) c (by simp [hEq])
        rw [hl.head (by rw [hSplit, hEq]; rfl)] at hc
        cases hc
  have hBack : back = [] := by
    rcases List.eq_nil_or_concat back with hNil | ⟨rest, c, hEq⟩
    · exact hNil
    · have hMem : ∀ d ∈ back, d ∈ l := fun d hd => by rw [hSplit]; simp [hd]
      have hc := hGap back hMem (by omega) c (by simp [hEq])
      rw [hl.getLast (by rw [hSplit, hEq]; simp)] at hc
      cases hc
  rw [hFront, hBack, List.nil_append, List.append_nil] at hSplit
  exact hSplit.symm

theorem length_flatMap_le_of_forall {α β : Type} {f g : α → List β} {xs : List α}
    (hLe : ∀ x ∈ xs, (f x).length ≤ (g x).length) :
    (xs.flatMap f).length ≤ (xs.flatMap g).length := by
  induction xs with
  | nil => simp
  | cons x xs ih =>
      have hHead := hLe x List.mem_cons_self
      have hTail := ih fun y hy => hLe y (List.mem_cons_of_mem x hy)
      simp only [List.flatMap_cons, List.length_append]
      omega

/-- If no list gets longer and all of them together keep their length, each keeps its length. A
change in one line can so be told from the whole text. -/
theorem length_eq_of_length_flatMap_eq {α β : Type} {f g : α → List β} {xs : List α}
    (hLe : ∀ x ∈ xs, (f x).length ≤ (g x).length)
    (hSum : (xs.flatMap f).length = (xs.flatMap g).length) :
    ∀ x ∈ xs, (f x).length = (g x).length := by
  induction xs with
  | nil => simp
  | cons x xs ih =>
      have hHead := hLe x List.mem_cons_self
      have hRest := fun y hy => hLe y (List.mem_cons_of_mem x hy)
      have hTail := length_flatMap_le_of_forall hRest
      simp only [List.flatMap_cons, List.length_append] at hSum
      rw [List.forall_mem_cons]
      exact ⟨by omega, ih hRest (by omega)⟩

theorem mark_nil (l : Text) : mark [] l = l := by
  cases l <;> rfl

/-- Wrapping without a margin writes the wrapped lines as they are, if the text has a paragraph. -/
theorem wrap_nil_eq (L : Layout) {t : Text} (h : paragraphs t ≠ []) :
    wrap L [] [] t = wrapped L [] t := by
  rw [wrap_eq_map L [] h, (List.map_congr_left fun l _ => mark_nil l).trans (List.map_id _)]

/-- Lines that wrapping leaves alone are trimmed. A blank at the end of a line would be lost on the
way, and could not come back. -/
theorem Groups.trim_eq_self {L : Layout} {room : Nat} {gs : List (List Text)} (h : Groups L room gs)
    (hSame : wrap L [] [] (Text.unlines (List.intercalate [[]] gs)) = List.intercalate [[]] gs)
    {l : Text} (hl : l ∈ List.intercalate [[]] gs) : Text.trim l = l := by
  have hGaps : ∀ c, isGap c = true → (isGap c || c == '\n') = true := by simp_all
  have hSolid : (wrap L [] [] (Text.unlines (List.intercalate [[]] gs))).flatMap Text.solid = _ :=
    Text.blind_solid.wrap_paragraphs hGaps L [] (fun _ => rfl) (fun _ => rfl) _
  rw [hSame, List.nil_append, Text.blind_solid.paragraphs_lines hGaps, h.lines_unlines] at hSolid
  have hLength := length_eq_of_length_flatMap_eq (fun m _ => Text.length_solid_trim_le m)
    (congrArg List.length hSolid.symm) l hl
  rcases mem_intercalate hl with rfl | ⟨g, hg, hl⟩
  · rfl
  · exact Text.trim_eq_self_of_solid (h.written g hg l hl).bounded (h.feedless g hg l hl) hLength

/-- Wrapping groups without a margin changes nothing exactly when they are trimmed and every break
is forced. The groups need not come from single-spaced text. -/
theorem Groups.wrap_eq_iff {L : Layout} {gs : List (List Text)} (h : Groups L (L.room []) gs) :
    wrap L [] [] (Text.unlines (List.intercalate [[]] gs)) = List.intercalate [[]] gs ↔
      (∀ l ∈ List.intercalate [[]] gs, Text.trim l = l) ∧
        BreaksForced L (L.room []) (List.intercalate [[]] gs) := by
  have hSome : (∀ l ∈ List.intercalate [[]] gs, Text.trim l = l) →
      paragraphs (Text.unlines (List.intercalate [[]] gs)) ≠ [] := by
    intro hTrim
    rw [paragraphs_eq_map, h.lines_unlines, h.stretches_intercalate hTrim]
    simpa using h.ne_nil
  constructor
  · intro hSame
    have hTrim := fun l => h.trim_eq_self hSame (l := l)
    rw [wrap_nil_eq L (hSome hTrim)] at hSame
    exact ⟨hTrim, (h.wrapped_eq_iff hTrim).mp hSame⟩
  · rintro ⟨hTrim, hForced⟩
    rw [wrap_nil_eq L (hSome hTrim)]
    exact (h.wrapped_eq_iff hTrim).mpr hForced

/-- The lines of a wrapped text: groups, or one empty line for a text without words. The second case
is settled by itself. -/
theorem wrap_nil_cases (L : Layout) (t : Text) :
    wrap L [] [] t = [[]] ∨
      ∃ gs, Groups L (L.room []) gs ∧ wrap L [] [] t = List.intercalate [[]] gs := by
  by_cases h : paragraphs t = []
  · exact Or.inl (by rw [wrap, h])
  · exact Or.inr ⟨_, groups_wrapped L [] h, wrap_nil_eq L h⟩

theorem wrap_append_feed (L : Layout) (first next t : Text) :
    wrap L first next (t ++ ['\n']) = wrap L first next t := by
  rw [wrap, wrap, paragraphs_append_feed]

theorem lines_unlines_wrap (L : Layout) (t : Text) :
    Text.lines (Text.unlines (wrap L [] [] t)) = wrap L [] [] t := by
  rcases wrap_nil_cases L t with hEmpty | ⟨gs, hGroups, hWrap⟩
  · rw [hEmpty]
    rfl
  · rw [hWrap, hGroups.lines_unlines]

/-- The lines of wrapped single-spaced text hold the paragraphs of the text: the breaks are single
spaces again once they are joined. -/
theorem paragraphs_unlines_wrapped (L : Layout) (margin : Text) {t : Text}
    (ht : ∀ l ∈ Text.lines t, SingleSpaced l) (h : paragraphs t ≠ []) :
    paragraphs (Text.unlines (wrapped L margin t)) = paragraphs t := by
  have hGroups := groups_wrapped L margin h
  have hTrim : ∀ l ∈ wrapped L margin t, Text.trim l = l :=
    fun l hl => (settled_wrapped L margin ht).trim_eq_self hl
  -- A break inside a paragraph takes the place of the one space that it is read as.
  have hJoin : ∀ p ∈ paragraphs t, List.intercalate [' '] (packed L margin p) = p := by
    intro p hp
    obtain ⟨ws, rfl, hws⟩ := exists_words_of_mem_paragraphs ht hp
    obtain ⟨wss, rfl, hNe, hPacked⟩ := exists_packed_eq_map L margin hws
    rw [hPacked, intercalate_flatten hNe]
  rw [paragraphs_eq_map (Text.unlines _), wrapped, hGroups.lines_unlines,
    hGroups.stretches_intercalate hTrim, List.map_map]
  exact (List.map_congr_left hJoin).trans (List.map_id _)

/-- Wrapping single-spaced text does not depend on where its lines were broken, so not on the page
that it was set on before. -/
theorem wrap_unlines_wrap (L M : Layout) {t : Text} (ht : ∀ l ∈ Text.lines t, SingleSpaced l) :
    wrap M [] [] (Text.unlines (wrap L [] [] t)) = wrap M [] [] t := by
  by_cases h : paragraphs t = []
  · rw [wrap, wrap, wrap, h]
    rfl
  · rw [wrap_nil_eq L h, wrap, wrap, paragraphs_unlines_wrapped L [] ht h]

namespace Source

/-- The line feed at the end of a text, if there is one. -/
def finalFeed (t : Text) : Text := if endsInLineFeed t then ['\n'] else []

/-- The text of wrapped lines does not end in a line feed. If the text had one at its end, it is
added once the lines are written. -/
theorem endsInLineFeed_unlines_wrap (L : Layout) (t : Text) :
    endsInLineFeed (Text.unlines (wrap L [] [] t)) = false := by
  have hLines := lines_unlines_wrap L t
  rw [endsInLineFeed, beq_eq_false_iff_ne]
  intro hLast
  obtain ⟨front, hFront⟩ := List.getLast?_eq_some_iff.mp hLast
  have hFeed : Text.lines (front ++ ['\n']) = Text.lines front ++ [[]] :=
    Text.lines_append_cons front []
  rw [hFront, hFeed] at hLines
  rcases wrap_nil_cases L t with hEmpty | ⟨gs, hGroups, hWrap⟩
  · rw [hEmpty] at hLines
    rcases List.append_eq_singleton_iff.mp hLines with ⟨hNil, -⟩ | ⟨-, hNil⟩
    · exact Text.lines_ne_nil front hNil
    · cases hNil
  · rw [hWrap] at hLines
    exact hGroups.edge_ne_nil (Or.inr (by rw [← hLines, List.getLast?_concat])) rfl

/-- Plain text is wrapped, and a line feed at its end is kept. Several line feeds at the end become
one, as they make no paragraph. -/
theorem rewrap_none_eq (L : Layout) (t : Text) :
    rewrap L none t =
      Text.unlines (wrap L [] [] (unifyEndings t)) ++ finalFeed (unifyEndings t) := by
  rw [rewrap, rewrapWith, finalFeed]
  simp only [render, endsInLineFeed_unlines_wrap, Bool.not_false, Bool.and_true]
  split
  · rfl
  · rw [List.append_nil]

theorem return_notMem_rewrap_none (L : Layout) (t : Text) : '\r' ∉ rewrap L none t := by
  have hReturn := return_notMem_unifyEndings t
  rw [rewrap_none_eq]
  intro hMem
  rcases List.mem_append.mp hMem with hMem | hMem
  · rcases mem_intercalate hMem with hFeed | ⟨l, hl, hc⟩
    · cases hFeed
    · by_cases hWords : paragraphs (unifyEndings t) = []
      · rw [wrap, hWords] at hl
        simp_all
      · rw [wrap_nil_eq L hWords] at hl
        rcases mem_of_mem_wrapped hl hc with hSpace | ⟨hText, -⟩
        · cases hSpace
        · exact hReturn hText
  · unfold finalFeed at hMem
    split at hMem <;> simp at hMem

theorem finalFeed_append (L : Layout) (t u : Text) :
    finalFeed (Text.unlines (wrap L [] [] t) ++ finalFeed u) = finalFeed u := by
  unfold finalFeed
  cases hEnds : endsInLineFeed u with
  | true => simp [endsInLineFeed]
  | false => simp [endsInLineFeed_unlines_wrap]

/-- Rewrapping plain text twice wraps the wrapped lines. The two passes may have different pages,
and the final line feed goes through both. -/
theorem rewrap_rewrap_none_eq (L M : Layout) (t : Text) :
    rewrap M none (rewrap L none t) =
      Text.unlines (wrap M [] [] (Text.unlines (wrap L [] [] (unifyEndings t)))) ++
        finalFeed (unifyEndings t) := by
  rw [rewrap_none_eq M (rewrap L none t), unifyEndings_eq_self (return_notMem_rewrap_none L t),
    rewrap_none_eq L t, finalFeed_append]
  congr 2
  generalize Text.unlines (wrap L [] [] (unifyEndings t)) = out
  unfold finalFeed
  split
  · exact wrap_append_feed M [] [] out
  · rw [List.append_nil]

theorem lines_rewrap_none (L : Layout) (t : Text) :
    Text.lines (rewrap L none t) = wrap L [] [] (unifyEndings t) ++
      if endsInLineFeed (unifyEndings t) then [[]] else [] := by
  rw [rewrap_none_eq, finalFeed]
  split
  · exact (Text.lines_append_cons _ []).trans (by rw [lines_unlines_wrap]; rfl)
  · rw [List.append_nil, List.append_nil, lines_unlines_wrap]

/-- Rewrapping plain text twice is the same as once exactly when every line of the once rewrapped
text is trimmed and no first word of a line finds room, behind one space, on the line before it.
Both conditions are about the output of the first pass, and can be decided for a given text. -/
theorem rewrap_rewrap_none_eq_iff (L : Layout) (t : Text) :
    rewrap L none (rewrap L none t) = rewrap L none t ↔
      (∀ l ∈ Text.lines (rewrap L none t), Text.trim l = l) ∧
        BreaksForced L (L.room []) (Text.lines (rewrap L none t)) := by
  have hLines : ((∀ l ∈ Text.lines (rewrap L none t), Text.trim l = l) ∧
      BreaksForced L (L.room []) (Text.lines (rewrap L none t))) ↔
      (∀ l ∈ wrap L [] [] (unifyEndings t), Text.trim l = l) ∧
        BreaksForced L (L.room []) (wrap L [] [] (unifyEndings t)) := by
    rw [lines_rewrap_none]
    split
    · -- An empty line at the end is trimmed and breaks nothing.
      have hEmpty : Text.trim [] = [] := rfl
      rw [List.forall_mem_append, BreaksForced, List.isChain_append]
      simp [hEmpty, BreaksForced, fitsBehind_nil_right]
    · rw [List.append_nil]
  have hSame : rewrap L none (rewrap L none t) = rewrap L none t ↔
      wrap L [] [] (Text.unlines (wrap L [] [] (unifyEndings t))) =
        wrap L [] [] (unifyEndings t) := by
    rw [rewrap_rewrap_none_eq, rewrap_none_eq, List.append_left_inj]
    refine ⟨fun hText => ?_, fun hWrap => by rw [hWrap]⟩
    have hText := congrArg Text.lines hText
    rwa [lines_unlines_wrap, lines_unlines_wrap] at hText
  rw [hSame, hLines]
  rcases wrap_nil_cases L (unifyEndings t) with hEmpty | ⟨gs, hGroups, hWrap⟩
  · rw [hEmpty]
    have hSingle : BreaksForced L (L.room []) [[]] := .singleton []
    have hTrim : ∀ l ∈ [([] : Text)], Text.trim l = l := by simp [Text.trim_eq_self_iff]
    exact ⟨fun _ => ⟨hTrim, hSingle⟩, fun _ => rfl⟩
  · rw [hWrap]
    exact hGroups.wrap_eq_iff

/-- Three spaces that are too wide for a line break become one space that is not. -/
theorem rewrap_rewrap_none_ne :
    rewrap { column := 4, tab := 4 } none (rewrap { column := 4, tab := 4 } none "a   b c".toList) ≠
      rewrap { column := 4, tab := 4 } none "a   b c".toList := by
  decide +kernel

/-- Rewrapping single-spaced plain text forgets how wide its lines were before. With the same page
twice, this says that a second pass changes nothing. -/
theorem rewrap_none_rewrap_none (L M : Layout) {t : Text}
    (ht : ∀ l ∈ Text.lines (unifyEndings t), SingleSpaced l) :
    rewrap M none (rewrap L none t) = rewrap M none t := by
  rw [rewrap_rewrap_none_eq, wrap_unlines_wrap L M ht, rewrap_none_eq]

/-- A column too narrow for a word, and a wider one after it. -/
theorem rewrap_none_rewrap_none_wider :
    (∀ l ∈ Text.lines (unifyEndings "aa bb \n cc\n\n\ndddddd e ff\n".toList), SingleSpaced l) ∧
      rewrap { column := 3, tab := 4 } none "aa bb \n cc\n\n\ndddddd e ff\n".toList =
        "aa\nbb\ncc\n\ndddddd\ne\nff\n".toList ∧
      rewrap { column := 9, tab := 8 } none
          (rewrap { column := 3, tab := 4 } none "aa bb \n cc\n\n\ndddddd e ff\n".toList) =
        "aa bb cc\n\ndddddd e\nff\n".toList := by
  have hSpaced : ∀ l ∈ Text.lines (unifyEndings "aa bb \n cc\n\n\ndddddd e ff\n".toList),
      SingleSpaced l := by decide +kernel
  refine ⟨hSpaced, by decide +kernel, ?_⟩
  rw [rewrap_none_rewrap_none _ _ hSpaced]
  decide +kernel

end Source

end Reflow
