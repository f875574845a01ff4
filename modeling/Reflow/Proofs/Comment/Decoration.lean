import Reflow.Language.Table
import Reflow.Proofs.Comment.Line

/-!
How decorations divide a run of line comments into pieces. A decoration is kept, and the pieces on
either side of it are rewrapped on their own.
-/

namespace Reflow

/-- A part of a list that does not hold `x` lies on one side of it. Stretches of comment lines
without a decoration are placed by this. -/
theorem isInfix_or_of_notMem {α : Type} {x : α} {ys front back : List α}
    (h : ys <:+: front ++ x :: back) (hx : x ∉ ys) : ys <:+: front ∨ ys <:+: back := by
  obtain ⟨s, t, hSplit⟩ := h
  rcases List.append_eq_append_iff.mp hSplit with ⟨c, hFront, -⟩ | ⟨c, hMid, hBack⟩
  · exact Or.inl ⟨s, c, hFront.symm⟩
  cases c with
  | nil => exact Or.inl ⟨s, [], by rw [List.append_nil, hMid, List.append_nil]⟩
  | cons y c =>
      obtain ⟨rfl, rfl⟩ := List.cons.inj hBack
      rcases List.append_eq_append_iff.mp hMid with ⟨d, -, hYs⟩ | ⟨d, hS, hYs⟩
      · exact absurd (by rw [hYs]; simp) hx
      cases d with
      | nil => exact absurd (by rw [← List.nil_append ys, ← hYs]; simp) hx
      | cons z d =>
          obtain ⟨-, rfl⟩ := List.cons.inj hYs
          exact Or.inr ⟨d, t, rfl⟩

/-- Induction along the lines at which `p` divides a run: either no line divides it, or there is a
first one, with a stretch before it and the rest behind. -/
theorem division_induction (p : Text → Bool) {motive : List Text → Prop}
    (plain : ∀ ls, (∀ l ∈ ls, p l = false) → motive ls)
    (cut : ∀ ls d rest, (∀ l ∈ ls, p l = false) → p d = true → motive rest →
      motive (ls ++ d :: rest)) (lines : List Text) : motive lines := by
  induction hn : lines.length using Nat.strong_induction_on generalizing lines with
  | _ n ih =>
      have hSplit : lines.takeWhile (!p ·) ++ lines.dropWhile (!p ·) = lines :=
        List.takeWhile_append_dropWhile
      have hFront : ∀ l ∈ lines.takeWhile (!p ·), p l = false :=
        fun l hl => by simpa using List.mem_takeWhile_imp hl
      cases hRest : lines.dropWhile (!p ·) with
      | nil =>
          rw [hRest, List.append_nil] at hSplit
          exact hSplit ▸ plain _ hFront
      | cons d rest =>
          have hd : p d = true := by
            have hNot := eq_false_of_head?_dropWhile (by rw [hRest, List.head?_cons])
            simpa using hNot
          have hLength := congrArg List.length hSplit
          rw [hRest, List.length_append, List.length_cons] at hLength
          rw [← hSplit, hRest]
          exact cut _ d rest hFront hd (ih rest.length (by omega) rest rfl)

namespace LineComment

/-- The content of the line is a decoration. It is judged without the token, so a bare token is
none. -/
def decorated (indent base line : Text) : Bool := isDecoration (content indent base line)

variable (L : Layout) (lang : Language) (indent marker : Text)

/-- The lines of a piece; there may be none between two decorations. Nothing is written for an empty
piece, not even a blank line. -/
def pieceLines (contents : List Text) : List Text :=
  if contents.isEmpty then [] else renderPiece L lang indent marker contents

/-- Lines that are no decorations are gathered into the piece, and nothing is written for them
yet. -/
theorem renderFrom_append {ls : List Text}
    (hPlain : ∀ l ∈ ls, decorated indent (Text.dropEndSpaces marker) l = false)
    (piece rest : List Text) :
    renderFrom L lang indent marker piece (ls ++ rest) =
      renderFrom L lang indent marker
        (piece ++ ls.map (content indent (Text.dropEndSpaces marker))) rest := by
  induction ls generalizing piece with
  | nil => simp
  | cons l ls ih =>
      have hl : isDecoration (content indent (Text.dropEndSpaces marker) l) = false :=
        hPlain l List.mem_cons_self
      rw [List.cons_append, renderFrom]
      rw [if_neg (by simp [hl]), ih fun m hm => hPlain m (List.mem_cons_of_mem l hm), List.map_cons,
        List.append_assoc, List.singleton_append]

/-- A run without a decoration is one piece, and is written as such. -/
theorem render_plain {ls : List Text}
    (hPlain : ∀ l ∈ ls, decorated indent (Text.dropEndSpaces marker) l = false) :
    render L lang indent marker ls =
      pieceLines L lang indent marker (ls.map (content indent (Text.dropEndSpaces marker))) := by
  have hLines := renderFrom_append L lang indent marker hPlain [] []
  rwa [List.append_nil] at hLines

/-- At its first decoration a run falls into the piece before it, the decoration as it stands and
the rest. -/
theorem render_cut {ls rest : List Text} {d : Text}
    (hPlain : ∀ l ∈ ls, decorated indent (Text.dropEndSpaces marker) l = false)
    (hd : decorated indent (Text.dropEndSpaces marker) d = true) :
    render L lang indent marker (ls ++ d :: rest) =
      pieceLines L lang indent marker (ls.map (content indent (Text.dropEndSpaces marker))) ++
        d :: render L lang indent marker rest := by
  rw [render, renderFrom_append L lang indent marker hPlain, List.nil_append, renderFrom]
  exact if_pos hd

/-- Every decoration divides a run, the first one and all others, so that both sides can be
rewrapped apart. -/
theorem render_append_cons {d : Text} (hd : decorated indent (Text.dropEndSpaces marker) d = true)
    (lines rest : List Text) :
    render L lang indent marker (lines ++ d :: rest) =
      render L lang indent marker lines ++ d :: render L lang indent marker rest := by
  induction lines using division_induction (decorated indent (Text.dropEndSpaces marker)) with
  | plain ls hPlain =>
      rw [render_cut L lang indent marker hPlain hd, render_plain L lang indent marker hPlain]
  | cut ls e between hPlain he ih =>
      rw [List.append_assoc, List.cons_append, render_cut L lang indent marker hPlain he, ih,
        render_cut L lang indent marker hPlain he, List.append_assoc, List.cons_append]

/-- A decoration is a hard boundary: it is kept, and nothing on one side of it is seen from the
other. Between two of them the lines are one piece, which is written by the grammar of structured
comments or as plain text, as the language has it for the marker. -/
theorem render_at_decoration {d : Text}
    (hd : isDecoration (content indent (Text.dropEndSpaces marker) d) = true) (xs ys : List Text) :
    render L lang indent marker (xs ++ [d] ++ ys) =
        render L lang indent marker xs ++ [d] ++ render L lang indent marker ys ∧
      ∀ ls : List Text, ls ≠ [] →
        (∀ l ∈ ls, isDecoration (content indent (Text.dropEndSpaces marker) l) = false) →
        render L lang indent marker ls =
          if lang.hasDocComments marker then
            Doc.render L (indent ++ Text.dropEndSpaces marker)
              (ls.map (content indent (Text.dropEndSpaces marker)))
          else
            renderPlain L indent marker (ls.map (content indent (Text.dropEndSpaces marker))) := by
  constructor
  · rw [List.append_assoc, List.append_assoc, List.singleton_append, List.singleton_append]
    exact render_append_cons L lang indent marker hd xs ys
  · intro ls hNe hPlain
    rw [render_plain L lang indent marker hPlain]
    exact if_neg (by simpa using hNe)

/-- In a structured comment a decoration ends a list whose next item it looks like, and in a plain
one it stands between two others. -/
theorem render_at_decoration_go_shell :
    isDecoration (content [] (Text.dropEndSpaces "// ".toList) "// -".toList) = true ∧
      render { column := 20, tab := 4 } Language.go [] "// ".toList
          (["// - one".toList] ++ ["// -".toList] ++ ["// - two".toList]) =
        render { column := 20, tab := 4 } Language.go [] "// ".toList ["// - one".toList] ++
          ["// -".toList] ++
          render { column := 20, tab := 4 } Language.go [] "// ".toList ["// - two".toList] ∧
      isDecoration (content ['\t'] (Text.dropEndSpaces "# ".toList) "\t# ===".toList) = true ∧
      render { column := 20, tab := 4 } (Language.lineOnly "shell" [".sh"] "#" ["!"])
        ['\t'] "# ".toList
          (["\t# a".toList, "\t# ---".toList] ++ ["\t# ===".toList] ++ ["\t#---".toList]) =
        render { column := 20, tab := 4 } (Language.lineOnly "shell" [".sh"] "#" ["!"]) ['\t']
            "# ".toList ["\t# a".toList, "\t# ---".toList] ++
          ["\t# ===".toList] ++
          render { column := 20, tab := 4 } (Language.lineOnly "shell" [".sh"] "#" ["!"]) ['\t']
            "# ".toList ["\t#---".toList] :=
  ⟨by decide, (render_at_decoration _ _ _ _ (by decide) _ _).1, by decide,
    (render_at_decoration _ _ _ _ (by decide) _ _).1⟩

/-- A part of a rewrapped run that holds no decoration is part of one rewrapped piece. What two
pieces make of their lines is never found side by side. -/
theorem exists_piece_of_isInfix {lines ys : List Text}
    (h : ys <:+: render L lang indent marker lines)
    (hys : ∀ l ∈ ys, decorated indent (Text.dropEndSpaces marker) l = false) :
    ∃ ls : List Text, (∀ l ∈ ls, l ∈ lines) ∧
      ys <:+:
        pieceLines L lang indent marker (ls.map (content indent (Text.dropEndSpaces marker))) := by
  induction lines using division_induction (decorated indent (Text.dropEndSpaces marker)) with
  | plain ls hPlain =>
      rw [render_plain L lang indent marker hPlain] at h
      exact ⟨ls, fun _ => id, h⟩
  | cut ls d rest hPlain hd ih =>
      rw [render_cut L lang indent marker hPlain hd] at h
      have hNotMem : d ∉ ys := fun hMem => by
        rw [hys d hMem] at hd
        cases hd
      rcases isInfix_or_of_notMem h hNotMem with hFirst | hRest
      · exact ⟨ls, fun l hl => List.mem_append_left _ hl, hFirst⟩
      · obtain ⟨ms, hSub, hInfix⟩ := ih hRest
        exact ⟨ms, fun l hl => List.mem_append_right _ (List.mem_cons_of_mem d (hSub l hl)), hInfix⟩

/-- A line of a rewrapped run is a decoration of it or belongs to a rewrapped piece. The lines of
that piece are lines of the run, in any case. -/
theorem mem_render_cases {lines : List Text} {l : Text}
    (h : l ∈ render L lang indent marker lines) :
    l ∈ lines ∨ ∃ ls : List Text, (∀ m ∈ ls, m ∈ lines) ∧
      (∀ m ∈ ls, decorated indent (Text.dropEndSpaces marker) m = false) ∧
      l ∈
        pieceLines L lang indent marker (ls.map (content indent (Text.dropEndSpaces marker))) := by
  induction lines using division_induction (decorated indent (Text.dropEndSpaces marker)) with
  | plain ls hPlain =>
      rw [render_plain L lang indent marker hPlain] at h
      exact Or.inr ⟨ls, fun _ => id, hPlain, h⟩
  | cut ls d rest hPlain hd ih =>
      rw [render_cut L lang indent marker hPlain hd, List.mem_append, List.mem_cons] at h
      rcases h with h | rfl | h
      · exact Or.inr ⟨ls, fun m hm => List.mem_append_left _ hm, hPlain, h⟩
      · exact Or.inl (by simp)
      · rcases ih h with h | ⟨ms, hSub, hOther, h⟩
        · exact Or.inl (by simp [h])
        · exact Or.inr ⟨ms, fun m hm => by simp [hSub m hm], hOther, h⟩

end LineComment

end Reflow
