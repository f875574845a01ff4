import Mathlib.Data.List.Chain
import Reflow.Inline.Parser

/-!
Inline parsing is lossless and keeps plain text in one piece. Each recogniser covers a part at the
front of the text it is given, the span it answers stands for exactly that part, and so the spans of
a text stand for the whole text. Between two pieces of markup the text is read as one plain span,
also where a part of it has the form of a reference.
-/

namespace Reflow.Inline

/-- The part of a text at its front. It is not empty, so that reading a text gets on. -/
def Covers (part t : Text) : Prop := part ≠ [] ∧ part <+: t

/-- A covered part, and what is left of the text behind its first character. The reader goes on at
that place. -/
theorem Covers.append_drop {part rest : Text} {c : Char} (h : Covers part (c :: rest)) :
    part ++ rest.drop (part.length - 1) = c :: rest := by
  obtain ⟨hNe, after, hAfter⟩ := h
  obtain ⟨d, tail, rfl⟩ := List.exists_cons_of_ne_nil hNe
  rw [List.cons_append, List.cons.injEq] at hAfter
  simp [← hAfter.1, ← hAfter.2]

theorem dropEndWhile_isPrefix (p : Char → Bool) (t : Text) : Text.dropEndWhile p t <+: t := by
  rw [Text.dropEndWhile, ← List.reverse_suffix, List.reverse_reverse]
  exact List.dropWhile_suffix p

/-- A link is read off the front of the text as it stands. -/
theorem covers_of_link? {before : Option Char} {t url : Text} (h : link? before t = some url) :
    Covers url t := by
  unfold link? at h
  split at h
  · cases h
  split at h
  · cases h
  next scheme rest hScheme =>
    obtain ⟨s, -, hDrop⟩ := List.exists_of_findSome?_eq_some hScheme
    obtain ⟨after, hAfter, hPair⟩ := Option.map_eq_some_iff.mp hDrop
    cases hPair
    dsimp only at h
    split at h
    · cases h
    next hBody =>
      cases h
      rw [List.isEmpty_iff] at hBody
      refine ⟨by simp [hBody], ?_⟩
      rw [Text.dropPrefix?_eq_some hAfter, List.prefix_append_right_inj]
      exact (dropEndWhile_isPrefix _ _).trans (List.takeWhile_prefix _)

/-- A reference is read with its brackets, which belong to the part that it covers. -/
theorem covers_of_referenceName? {t name : Text} (h : referenceName? t = some name) :
    Covers ('[' :: name ++ [']']) t := by
  unfold referenceName? at h
  split at h
  next t =>
    split at h
    next inner after hCut =>
      split at h
      · cases h
        refine ⟨by simp, after, ?_⟩
        rw [Text.cut?_eq_some hCut]
        simp
      · cases h
    · cases h
  · cases h

/-- Emphasis is read with the underscores around it. -/
theorem covers_of_emphasis? {before : Option Char} {t inner : Text}
    (h : emphasis? before t = some inner) : Covers ('_' :: inner ++ ['_']) t := by
  unfold emphasis? at h
  split at h
  next t =>
    split at h
    · cases h
    next between after hCut =>
      split at h
      · cases h
        refine ⟨by simp, after, ?_⟩
        rw [Text.cut?_eq_some hCut]
        simp
      · cases h
  · cases h

/-- Markup covers a part at the front of the text, and its span stands for that part. What was found
and turned down has no span, and is added to the plain text. -/
theorem find?_covers {before : Option Char} {t : Text} {found : Found}
    (h : find? before t = some found) :
    Covers found.covered t ∧ ∀ span, found.span = some span → span.text = found.covered := by
  unfold find? at h
  split at h
  next url hLink =>
    cases h
    refine ⟨covers_of_link? hLink, ?_⟩
    rintro span ⟨⟩
    simp [Span.text]
  split at h
  next name hName =>
    cases h
    refine ⟨covers_of_referenceName? hName, fun span hSpan => ?_⟩
    dsimp only at hSpan
    split at hSpan
    · cases hSpan
      simp [Span.text]
    · cases hSpan
  · obtain ⟨inner, hInner, rfl⟩ := Option.map_eq_some_iff.mp h
    refine ⟨covers_of_emphasis? hInner, ?_⟩
    rintro span ⟨⟩
    simp [Span.text]

theorem flatten_plainSpan (t : Text) : flatten (plainSpan t) = t := by
  unfold plainSpan
  split
  next h => simp [List.isEmpty_iff.mp h]
  · simp [Span.text]

/-- The spans read from a text stand for the plain text before it and for the text. The induction is
on what is left to be read. -/
theorem flatten_spansFrom (before : Option Char) (plain t : Text) :
    flatten (spansFrom before plain t) = plain ++ t := by
  fun_induction spansFrom before plain t with
  | case1 before plain => rw [flatten_plainSpan, List.append_nil]
  | case2 before plain c rest hFind ih => rw [ih, List.append_assoc, List.singleton_append]
  | case3 before plain c rest found hFind remaining last hSpan ih =>
      obtain ⟨hCovers, -⟩ := find?_covers hFind
      rw [ih, List.append_assoc, hCovers.append_drop]
  | case4 before plain c rest found hFind remaining last span hSpan ih =>
      obtain ⟨hCovers, hText⟩ := find?_covers hFind
      rw [flatten_append, flatten_plainSpan, flatten_cons, ih, hText span hSpan, List.nil_append,
        hCovers.append_drop]

/-- Reading inline markup loses nothing: the spans stand for the text they were read from. -/
@[simp] theorem flatten_parse (t : Text) : flatten (parse t) = t := by
  rw [parse, flatten_spansFrom, List.nil_append]

section Normal

/-- Text outside all markup. -/
def Span.isPlain : Span → Bool
  | .plain _ => true
  | _ => false

mutual
/-- The texts of the plain spans that a span is made of, at every depth. The text of emphasis is no
span of its own. -/
def Span.plains : Span → List Text
  | .plain t => [t]
  | .emphasis _ => []
  | .link inner => plains inner
  | .reference inner => plains inner

/-- The texts of all plain spans, at every depth. -/
def plains : List Span → List Text
  | [] => []
  | s :: ss => s.plains ++ plains ss
end

/-- Spans that keep plain text in one piece: no plain span is empty, however deep it stands, and no
two of them stand side by side. This is a normal form: a text has many divisions into spans, but no
more than one plain span between two pieces of markup. -/
structure Normal (ss : List Span) : Prop where
  nonempty : [] ∉ plains ss
  separate : ss.IsChain fun s t => ¬(s.isPlain = true ∧ t.isPlain = true)

theorem normal_nil : Normal [] := ⟨by simp [plains], List.isChain_nil⟩

/-- Markup may go before any spans in normal form, if the text inside it is so as well. -/
theorem Normal.cons_markup {s : Span} {ss : List Span} (h : Normal ss) (hPlain : s.isPlain = false)
    (hText : [] ∉ s.plains) : Normal (s :: ss) := by
  constructor
  · simp [plains, hText, h.nonempty]
  · rw [List.isChain_cons]
    exact ⟨by simp [hPlain], h.separate⟩

/-- Plain text may go before spans that do not start with plain text themselves. If it is empty, no
span is made of it. -/
theorem Normal.plainSpan_append {ss : List Span} (h : Normal ss)
    (hHead : ∀ s ∈ ss.head?, s.isPlain = false) (t : Text) : Normal (plainSpan t ++ ss) := by
  unfold plainSpan
  split
  · exact h
  next hEmpty =>
    have hNe : [] ≠ t := fun hNil => hEmpty (List.isEmpty_iff.mpr hNil.symm)
    constructor
    · simp [plains, Span.plains, hNe, h.nonempty]
    · rw [List.singleton_append, List.isChain_cons]
      refine ⟨fun s hs => ?_, h.separate⟩
      simp [hHead s hs]

/-- A reference names something, so the plain text inside it is not empty. -/
theorem ne_nil_of_referenceName? {t name : Text} (h : referenceName? t = some name) :
    name ≠ [] := by
  unfold referenceName? at h
  split at h
  next t =>
    split at h
    next inner after hCut =>
      split at h
      next hName =>
        cases h
        rintro rfl
        exact absurd hName (by decide)
      · cases h
    · cases h
  · cases h

/-- What is found is markup, and the plain text inside it is not empty. This holds at every depth,
as a link is found with its own text. -/
theorem find?_markup {before : Option Char} {t : Text} {found : Found} {span : Span}
    (h : find? before t = some found) (hSpan : found.span = some span) :
    span.isPlain = false ∧ [] ∉ span.plains := by
  unfold find? at h
  split at h
  next url hLink =>
    cases h
    cases hSpan
    have hNe : [] ≠ url := (covers_of_link? hLink).1.symm
    exact ⟨rfl, by simpa [Span.plains, plains] using hNe⟩
  split at h
  next name hName =>
    cases h
    dsimp only at hSpan
    split at hSpan
    · cases hSpan
      have hNe : [] ≠ name := (ne_nil_of_referenceName? hName).symm
      exact ⟨rfl, by simpa [Span.plains, plains] using hNe⟩
    · cases hSpan
  · obtain ⟨inner, -, rfl⟩ := Option.map_eq_some_iff.mp h
    cases hSpan
    exact ⟨rfl, by simp [Span.plains]⟩

/-- The plain text before markup becomes a span only where the markup does: until then what is no
markup after all is added to it. So two plain spans never come to stand side by side. -/
theorem normal_spansFrom (before : Option Char) (plain t : Text) :
    Normal (spansFrom before plain t) := by
  fun_induction spansFrom before plain t with
  | case1 before plain =>
      rw [← List.append_nil (plainSpan plain)]
      exact normal_nil.plainSpan_append (by simp) plain
  | case2 before plain c rest hFind ih => exact ih
  | case3 before plain c rest found hFind remaining last hSpan ih => exact ih
  | case4 before plain c rest found hFind remaining last span hSpan ih =>
      obtain ⟨hPlain, hText⟩ := find?_markup hFind hSpan
      apply (ih.cons_markup hPlain hText).plainSpan_append
      simp [hPlain]

/-- Reading inline markup is lossless and keeps plain text in one piece, whatever the text is.
Nothing is said about which markup is found, only that none of it is lost. -/
theorem parse_lossless_normal (t : Text) : flatten (parse t) = t ∧ Normal (parse t) := by
  constructor
  · exact flatten_parse t
  · exact normal_spansFrom none [] t

end Normal

end Reflow.Inline
