import Reflow.Proofs.Measure
import Reflow.Proofs.Settled

/-!
The lines of a wrapped text. They are groups of written lines with one empty line between two
groups, each behind its margin; and wrapping them again changes nothing exactly when every line is
trimmed and every break is forced.
-/

namespace Reflow

open Packing

theorem intercalate_cons_eq {α : Type} (sep l : List α) (ls : List (List α)) :
    List.intercalate sep (l :: ls) = l ++ ls.flatMap fun m => sep ++ m := by
  induction ls generalizing l with
  | nil => simp
  | cons m ls ih => rw [List.intercalate_cons_cons, ih, List.flatMap_cons, List.append_assoc,
      List.append_assoc]

/-- The end of joined texts is the end of the last one. What is before it does not matter, so
nothing more is said about it. -/
theorem exists_intercalate_concat {α : Type} (sep : List α) (ls : List (List α)) (l : List α) :
    ∃ front, List.intercalate sep (ls ++ [l]) = front ++ l := by
  cases ls with
  | nil => exact ⟨[], by simp⟩
  | cons k ls => exact ⟨k ++ ls.flatMap (sep ++ ·) ++ sep, by simp [intercalate_cons_eq]⟩

theorem mem_intercalate {α : Type} {sep x : α} {ls : List (List α)}
    (h : x ∈ List.intercalate [sep] ls) : x = sep ∨ ∃ l ∈ ls, x ∈ l := by
  cases ls with
  | nil => cases h
  | cons l ls =>
      rw [intercalate_cons_eq, List.mem_append, List.mem_flatMap] at h
      rcases h with h | ⟨m, hm, h⟩
      · exact Or.inr ⟨l, List.mem_cons_self, h⟩
      · rcases List.mem_cons.mp h with rfl | h
        · exact Or.inl rfl
        · exact Or.inr ⟨m, List.mem_cons_of_mem l hm, h⟩

theorem mem_intercalate_of_mem {α : Type} {sep : List α} {ls : List (List α)} {l : List α}
    (hl : l ∈ ls) {x : α} (hx : x ∈ l) : x ∈ List.intercalate sep ls := by
  cases ls with
  | nil => cases hl
  | cons m ls =>
      rw [intercalate_cons_eq, List.mem_append, List.mem_flatMap]
      rcases List.mem_cons.mp hl with rfl | hl
      · exact Or.inl hx
      · exact Or.inr ⟨l, hl, List.mem_append_right sep hx⟩

theorem allBlank_unlines_eq_false {ls : List Text} {l : Text} (hl : l ∈ ls)
    (h : Text.allBlank l = false) : Text.allBlank (Text.unlines ls) = false := by
  rw [← Bool.not_eq_true, Text.allBlank_iff] at h ⊢
  exact fun hAll => h fun c hc => hAll c (mem_intercalate_of_mem hl hc)

theorem mem_of_mem_trim {t : Text} {c : Char} (h : c ∈ Text.trim t) : c ∈ t := by
  obtain ⟨front, back, -, -, hSplit⟩ := Text.exists_eq_append_trim t
  rw [hSplit]
  exact List.mem_append_left back (List.mem_append_right front h)

/-- A paragraph holds spaces and characters of the lines of the text. In particular it holds no line
feed, as its lines were joined by spaces. -/
theorem mem_of_mem_paragraphs {t p : Text} (h : p ∈ paragraphs t) {c : Char} (hc : c ∈ p) :
    c = ' ' ∨ c ∈ t ∧ c ≠ '\n' := by
  obtain ⟨l, ls, rfl, hLines⟩ := exists_of_mem_paragraphs h
  rcases mem_intercalate hc with rfl | ⟨m, hm, hc⟩
  · exact Or.inl rfl
  · obtain ⟨-, source, hSource, rfl⟩ := hLines m hm
    have hMem := mem_of_mem_trim hc
    refine Or.inr ⟨?_, fun hFeed => Text.not_mem_of_mem_lines hSource (hFeed ▸ hMem)⟩
    rw [← Text.unlines_lines t]
    exact mem_intercalate_of_mem hSource hMem

/-- A written line holds spaces and characters of its words and their gaps. The space may be new: it
stands where two words had nothing between them that has a width. -/
theorem Packing.mem_of_mem_lineText {L : Layout} {line : List Token} {c : Char}
    (hc : c ∈ lineText L line) : c = ' ' ∨ ∃ u ∈ line, c ∈ u.text := by
  cases line with
  | nil => cases hc
  | cons t ts =>
      rw [lineText, List.mem_append, List.mem_flatMap] at hc
      rcases hc with hc | ⟨u, hu, hc⟩
      · exact Or.inr ⟨t, List.mem_cons_self, List.mem_append_right _ hc⟩
      · rcases List.mem_append.mp hc with hc | hc
        · unfold spacer at hc
          split at hc
          · exact Or.inr ⟨u, List.mem_cons_of_mem t hu, List.mem_append_left _ hc⟩
          · exact Or.inl (List.mem_singleton.mp hc)
        · exact Or.inr ⟨u, List.mem_cons_of_mem t hu, List.mem_append_right _ hc⟩

/-- A packed line holds spaces and characters of its paragraph, whatever the margins and the page
are. -/
theorem Packing.mem_of_mem_divide {L : Layout} {first next t : Text} {line : List Token}
    (hLine : line ∈ divide L first next (Token.ofText t)) {c : Char} (hc : c ∈ lineText L line) :
    c = ' ' ∨ c ∈ t := by
  rcases mem_of_mem_lineText hc with hSpace | ⟨u, hu, hc⟩
  · exact Or.inl hSpace
  · have hToken := List.mem_flatten_of_mem hLine hu
    rw [flatten_divide] at hToken
    exact Or.inr (Token.mem_of_mem_ofText hToken hc)

namespace Packing

/-- A line of packed words stands behind one of the margins and is written in the room beside it.
The lemma does not say which margin: only the first line has the first one. -/
theorem exists_written_of_mem_write {L : Layout} {first next l : Text} {ts : List Token}
    (hts : ∀ u ∈ ts, u.Proper) (hl : l ∈ write L first next (divide L first next ts)) :
    ∃ margin body, (margin = first ∨ margin = next) ∧ l = margin ++ body ∧
      Written L (L.room margin) body := by
  cases ts with
  | nil =>
      rw [divide] at hl
      cases hl
  | cons t ts =>
      have hFlatten := flatten_divide L first next (t :: ts)
      have hProper : ∀ line ∈ divide L first next (t :: ts), ∀ u ∈ line, u.Proper :=
        fun line hLine u hu => hts u (hFlatten ▸ List.mem_flatten_of_mem hLine hu)
      rw [divide] at hl hProper
      rw [write] at hl
      rcases List.mem_cons.mp hl with rfl | hl
      · exact ⟨first, _, Or.inl rfl, rfl, written_lineText (hProper _ List.mem_cons_self)
          (fill_maximal L (L.room first) (L.width t.word) ts).1⟩
      · obtain ⟨line, hLine, rfl⟩ := List.mem_map.mp hl
        have hGreedy : Greedy L (L.room next)
            (divide L next next (fill L (L.room first) (L.width t.word) ts).2) :=
          greedy_divide rfl rfl _
        exact ⟨next, _, Or.inr rfl, rfl, written_lineText
          (hProper line (List.mem_cons_of_mem _ hLine)) (hGreedy.fits line hLine)⟩

end Packing

/-- A line of a wrapped text is the first margin of a text without words, a separator, or words
written in the room beside a margin. These are all the lines there are, so a property of wrapped
lines has three cases. -/
theorem exists_written_of_mem_wrap {L : Layout} {first next t l : Text}
    (hl : l ∈ wrap L first next t) :
    (paragraphs t = [] ∧ l = first) ∨ l = Text.dropEndSpaces next ∨
      ∃ margin body, (margin = first ∨ margin = next) ∧ l = margin ++ body ∧
        Packing.Written L (L.room margin) body := by
  rw [wrap] at hl
  split at hl
  next hNil => exact Or.inl ⟨hNil, List.mem_singleton.mp hl⟩
  next p ps hCons =>
    have hProper : ∀ q : Text, ∀ u ∈ Token.ofText q, u.Proper :=
      fun q u => Token.proper_of_mem_ofText
    right
    rcases List.mem_append.mp hl with hl | hl
    · exact Or.inr (Packing.exists_written_of_mem_write (hProper p) hl)
    · obtain ⟨q, -, hl⟩ := List.mem_flatMap.mp hl
      rcases List.mem_cons.mp hl with rfl | hl
      · exact Or.inl rfl
      · obtain ⟨margin, body, hMargin, hBody⟩ :=
          Packing.exists_written_of_mem_write (hProper q) hl
        exact Or.inr ⟨margin, body, Or.inr (hMargin.elim id id), hBody⟩

/-- A line behind its margin; an empty line is the margin without its final spaces. A separator thus
ends without spaces, while a tab at the end of the margin stays. -/
def mark (margin l : Text) : Text :=
  if l.isEmpty then Text.dropEndSpaces margin else margin ++ l

/-- The lines of a wrapped text without their margin. An empty line stands for a separator, and each
group between two of them is a paragraph. -/
def wrapped (L : Layout) (margin t : Text) : List Text :=
  List.intercalate [[]] ((paragraphs t).map (packed L margin))

theorem wrapParagraph_eq_map (L : Layout) (margin t : Text) :
    wrapParagraph L margin margin t = (packed L margin t).map (mark margin) := by
  have hMark : ∀ l ∈ packed L margin t, mark margin l = margin ++ l := fun l hl =>
    if_neg (by simpa using (written_of_mem_packed hl).bounded.ne_nil)
  rw [List.map_congr_left hMark, packed, wrapParagraph, List.map_map]
  cases divide L margin margin (Token.ofText t) <;> rfl

/-- Wrapping writes the wrapped lines behind their margin. A text without a paragraph is left out,
as its one line is the first margin with all of its spaces. -/
theorem wrap_eq_map (L : Layout) (margin : Text) {t : Text} (h : paragraphs t ≠ []) :
    wrap L margin margin t = (wrapped L margin t).map (mark margin) := by
  obtain ⟨p, ps, hParagraphs⟩ := List.exists_cons_of_ne_nil h
  rw [wrap, hParagraphs, wrapped, hParagraphs, List.map_cons, intercalate_cons_eq,
    List.map_append, List.flatMap_map, List.map_flatMap]
  dsimp only
  rw [wrapParagraph_eq_map]
  refine congrArg (_ ++ ·) (List.flatMap_congr fun q _ => ?_)
  rw [wrapParagraph_eq_map, List.map_append]
  rfl

/-- Everything seen in a paragraph is seen in its packed lines. No margin is counted here, so none
has to be invisible. -/
theorem BlankBlind.packed {α : Type} {view : Text → List α} (hView : BlankBlind view) (L : Layout)
    (margin t : Text) : (Packing.packed L margin t).flatMap view = view t := by
  have hLine : ∀ line ∈ divide L margin margin (Token.ofText t),
      view (lineText L line) = line.flatMap (view ·.word) := fun line hLine =>
    hView.lineText (fun _ => isBlank_of_isGap) L fun u => proper_of_mem_divide hLine
  have hWords := congrArg (List.flatMap (view ·.word))
    (flatten_divide L margin margin (Token.ofText t))
  rw [List.flatten_eq_flatMap, List.flatMap_assoc, hView.ofText fun _ => isBlank_of_isGap] at hWords
  rw [Packing.packed, List.flatMap_map, List.flatMap_congr hLine]
  exact hWords

/-- Everything seen in a text is seen in its wrapped lines, where the empty lines between the
paragraphs show nothing. -/
theorem BlankBlind.wrapped {α : Type} {view : Text → List α} (hView : BlankBlind view) (L : Layout)
    (margin t : Text) : (Reflow.wrapped L margin t).flatMap view = view t := by
  have hGroups : ∀ gs : List (List Text),
      (List.intercalate [[]] gs).flatMap view = gs.flatMap (List.flatMap view) := by
    intro gs
    cases gs with
    | nil => rfl
    | cons g gs => simp [intercalate_cons_eq, List.flatMap_assoc, List.flatMap_append, hView.nil]
  rw [Reflow.wrapped, hGroups, List.flatMap_map, List.flatMap_congr fun p _ =>
    hView.packed L margin p, hView.paragraphs_lines fun _ => isBlank_of_isGap,
    List.flatMap_congr fun l _ => BlankBlind.trim hView l, BlankBlind.lines hView]

/-- The stretches of lines that are not blank, trimmed. Each of them makes a paragraph, once its
lines are joined by spaces. -/
def stretches (ls : List Text) : List (List Text) :=
  ((ls.map Text.trim).splitOnP List.isEmpty).filter (!List.isEmpty ·)

theorem paragraphs_eq_map (t : Text) :
    paragraphs t = (stretches (Text.lines t)).map (List.intercalate [' ']) := rfl

/-- A line feed at the end of a text belongs to no paragraph. Whether a text ends in one is decided
after it is wrapped. -/
theorem paragraphs_append_feed (t : Text) : paragraphs (t ++ ['\n']) = paragraphs t := by
  have hSplit : ((Text.lines t).map Text.trim ++ [[]]).splitOnP List.isEmpty =
      ((Text.lines t).map Text.trim).splitOnP List.isEmpty ++ [[]] :=
    List.splitOnP_append_cons _ [] rfl
  have hLines : Text.lines (t ++ ['\n']) = Text.lines t ++ [[]] := Text.lines_append_cons t []
  rw [paragraphs_eq_map, paragraphs_eq_map, hLines, stretches, List.map_append, stretches]
  refine congrArg (List.map _) ?_
  refine (congrArg (List.filter _) hSplit).trans ?_
  simp

/-- Groups of lines as wrapping writes them, to be set apart by empty lines. That no group is empty
makes it possible to tell where one ends. -/
structure Groups (L : Layout) (room : Nat) (gs : List (List Text)) : Prop where
  ne_nil : gs ≠ []
  group_ne_nil : ∀ g ∈ gs, g ≠ []
  written : ∀ g ∈ gs, ∀ l ∈ g, Written L room l
  feedless : ∀ g ∈ gs, ∀ l ∈ g, '\n' ∉ l

/-- A wrapped line holds spaces and characters of its text, and no line feed, so the lines that are
written are the lines that are read back. -/
theorem mem_of_mem_wrapped {L : Layout} {margin t l : Text} (hl : l ∈ wrapped L margin t) {c : Char}
    (hc : c ∈ l) : c = ' ' ∨ c ∈ t ∧ c ≠ '\n' := by
  rcases mem_intercalate hl with rfl | ⟨g, hg, hl⟩
  · cases hc
  · obtain ⟨p, hp, rfl⟩ := List.mem_map.mp hg
    obtain ⟨line, hLine, rfl⟩ := List.mem_map.mp hl
    rcases mem_of_mem_divide hLine hc with hSpace | hc
    · exact Or.inl hSpace
    · exact mem_of_mem_paragraphs hp hc

theorem packed_ne_nil {L : Layout} {margin t : Text} (h : Token.ofText t ≠ []) :
    packed L margin t ≠ [] := by
  obtain ⟨u, us, hWords⟩ := List.exists_cons_of_ne_nil h
  rw [packed, hWords, divide]
  simp

theorem groups_wrapped (L : Layout) (margin : Text) {t : Text} (h : paragraphs t ≠ []) :
    Groups L (L.room margin) ((paragraphs t).map (packed L margin)) where
  ne_nil := by simpa using h
  group_ne_nil g hg := by
    obtain ⟨p, hp, rfl⟩ := List.mem_map.mp hg
    exact packed_ne_nil (ofText_ne_nil_of_mem_paragraphs hp)
  written g hg l hl := by
    obtain ⟨p, -, rfl⟩ := List.mem_map.mp hg
    exact written_of_mem_packed hl
  feedless g hg l hl hFeed := by
    rcases mem_of_mem_wrapped (mem_intercalate_of_mem hg hl) hFeed with hSpace | ⟨-, hNe⟩
    · cases hSpace
    · exact hNe rfl

namespace Groups

variable {L : Layout} {margin : Text} {room : Nat} {gs : List (List Text)}

theorem nil_notMem (h : Groups L room gs) {g : List Text} (hg : g ∈ gs) : [] ∉ g := fun hNil =>
  (h.written g hg [] hNil).bounded.ne_nil rfl

theorem splitOn_intercalate (h : Groups L room gs) :
    (List.intercalate [[]] gs).splitOn [] = gs :=
  List.splitOn_intercalate [] (fun _ => h.nil_notMem) h.ne_nil

/-- Trimmed groups are found again. A line with a blank at its end would be trimmed on the way, and
then the text is another one. -/
theorem stretches_intercalate (h : Groups L room gs)
    (hTrim : ∀ l ∈ List.intercalate [[]] gs, Text.trim l = l) :
    stretches (List.intercalate [[]] gs) = gs := by
  have hSplit : ∀ ls : List Text, ls.splitOnP List.isEmpty = ls.splitOn [] := by
    intro ls
    rw [List.splitOn_eq_splitOnP]
    refine congrArg (ls.splitOnP ·) (funext fun l => ?_)
    cases l <;> rfl
  have hFilter : gs.filter (!List.isEmpty ·) = gs :=
    List.filter_eq_self.mpr fun g hg => by simpa using h.group_ne_nil g hg
  rw [stretches, (List.map_congr_left hTrim).trans (List.map_id _), hSplit,
    h.splitOn_intercalate, hFilter]

theorem intercalate_ne_nil (h : Groups L room gs) : List.intercalate [[]] gs ≠ [] := by
  obtain ⟨g, rest, rfl⟩ := List.exists_cons_of_ne_nil h.ne_nil
  rw [intercalate_cons_eq]
  simp [h.group_ne_nil g List.mem_cons_self]

/-- Neither the first nor the last line of groups is empty, so empty lines are only ever between two
paragraphs. -/
theorem edge_ne_nil (h : Groups L room gs) {l : Text}
    (hl : (List.intercalate [[]] gs).head? = some l ∨
      (List.intercalate [[]] gs).getLast? = some l) :
    l ≠ [] := by
  have hLine : ∀ g ∈ gs, l ∈ g → l ≠ [] := fun g hg hMem => (h.written g hg l hMem).bounded.ne_nil
  rcases hl with hHead | hLast
  · obtain ⟨g, rest, rfl⟩ := List.exists_cons_of_ne_nil h.ne_nil
    rw [intercalate_cons_eq, List.head?_append,
      Option.or_of_isSome (by simpa using h.group_ne_nil g List.mem_cons_self)] at hHead
    exact hLine g List.mem_cons_self (List.mem_of_mem_head? hHead)
  · rcases List.eq_nil_or_concat gs with hNil | ⟨rest, g, rfl⟩
    · exact absurd hNil h.ne_nil
    · rw [List.concat_eq_append] at h hLast hLine
      have hg : g ∈ rest ++ [g] := by simp
      obtain ⟨front, hFront⟩ := exists_intercalate_concat [[]] rest g
      rw [hFront, List.getLast?_append, Option.or_of_isSome (by simpa using h.group_ne_nil g hg)]
        at hLast
      exact hLine g hg (List.mem_of_getLast? hLast)

theorem lines_unlines (h : Groups L room gs) :
    Text.lines (Text.unlines (List.intercalate [[]] gs)) = List.intercalate [[]] gs := by
  refine Text.lines_unlines (fun l hl => ?_) h.intercalate_ne_nil
  rcases mem_intercalate hl with rfl | ⟨g, hg, hl⟩
  · simp
  · exact h.feedless g hg l hl

/-- Wrapping trimmed groups packs each of them again, on its own: words do not move from one
paragraph to another. -/
theorem wrapped_unlines (h : Groups L room gs)
    (hTrim : ∀ l ∈ List.intercalate [[]] gs, Text.trim l = l) :
    wrapped L margin (Text.unlines (List.intercalate [[]] gs)) =
      List.intercalate [[]] (gs.map fun g => packed L margin (List.intercalate [' '] g)) := by
  rw [wrapped, paragraphs_eq_map, h.lines_unlines, h.stretches_intercalate hTrim, List.map_map]
  rfl

end Groups

/-- A relation that holds across every empty line is a chain of the whole exactly when it is one of
each group. Neighbouring lines of different groups always have an empty line between them, which is
why they are never compared. -/
theorem isChain_intercalate_iff {R : Text → Text → Prop} (hLeft : ∀ b, R [] b)
    (hRight : ∀ a, R a []) (gs : List (List Text)) :
    (List.intercalate [[]] gs).IsChain R ↔ ∀ g ∈ gs, g.IsChain R := by
  induction gs with
  | nil => simp
  | cons g gs ih =>
      cases gs with
      | nil => simp
      | cons k gs =>
          rw [List.intercalate_cons_cons, List.append_assoc, List.singleton_append,
            List.isChain_append, List.isChain_cons, ih, List.forall_mem_cons (a := g)]
          constructor
          · rintro ⟨hg, ⟨-, hRest⟩, -⟩
            exact ⟨hg, hRest⟩
          · rintro ⟨hg, hRest⟩
            refine ⟨hg, ⟨fun b _ => hLeft b, hRest⟩, fun a _ b hb => ?_⟩
            obtain rfl : [] = b := Option.some.inj hb
            exact hRight a

theorem fitsBehind_nil_left (L : Layout) (room : Nat) (b : Text) :
    fitsBehind L room [] b = false := by
  rw [fitsBehind, Token.ofText_eq_nil (t := []) (List.forall_mem_nil _)]

theorem fitsBehind_nil_right (L : Layout) (room : Nat) (a : Text) :
    fitsBehind L room a [] = false := by
  rw [fitsBehind, Token.ofText_eq_nil (t := []) (List.forall_mem_nil _)]
  split
  next h => cases h
  · rfl

/-- No first word of a line finds room at the end of the line before it, where one space would stand
between them. Next to an empty line this says nothing. -/
def BreaksForced (L : Layout) (room : Nat) (ls : List Text) : Prop :=
  ls.IsChain fun a b => fitsBehind L room a b = false

/-- Wrapping trimmed groups changes nothing exactly when every break is forced. The breaks were made
on the width of the gaps in the text, and are judged here with one space in their place. -/
theorem Groups.wrapped_eq_iff {L : Layout} {margin : Text} {gs : List (List Text)}
    (h : Groups L (L.room margin) gs)
    (hTrim : ∀ l ∈ List.intercalate [[]] gs, Text.trim l = l) :
    wrapped L margin (Text.unlines (List.intercalate [[]] gs)) = List.intercalate [[]] gs ↔
      BreaksForced L (L.room margin) (List.intercalate [[]] gs) := by
  have hPacked : ∀ g ∈ gs, ([] : Text) ∉ packed L margin (List.intercalate [' '] g) :=
    fun g _ hNil =>
    (written_of_mem_packed hNil).bounded.ne_nil rfl
  have hGroups :
      List.intercalate [[]] (gs.map fun g => packed L margin (List.intercalate [' '] g)) =
      List.intercalate [[]] gs ↔ ∀ g ∈ gs, packed L margin (List.intercalate [' '] g) = g := by
    constructor
    · intro hSame
      have hSplit := congrArg (List.splitOn []) hSame
      rw [h.splitOn_intercalate, List.splitOn_intercalate [] (by simpa using hPacked)
        (by simpa using h.ne_nil)] at hSplit
      exact List.map_inj_left.mp (hSplit.trans (List.map_id gs).symm)
    · intro hSame
      rw [(List.map_congr_left hSame).trans (List.map_id gs)]
  rw [h.wrapped_unlines hTrim, hGroups, BreaksForced,
    isChain_intercalate_iff (fitsBehind_nil_left L _) (fitsBehind_nil_right L _)]
  exact forall₂_congr fun g hg => packed_intercalate_eq_iff (h.written g hg)

end Reflow
