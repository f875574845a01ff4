import Mathlib.Data.List.Chain
import Mathlib.Data.List.DropRight
import Reflow.Path
import Reflow.Proofs.Text

/-!
Paths and their components. The path above another one has the same components but the last, so the
paths above a path are its stations from the root or, for a relative one, from the working
directory.
-/

namespace Reflow

/-- The component says where a path starts. Names and `..` are steps from there. -/
def Component.isStart : Component → Bool
  | .root | .here => true
  | .up | .name _ => false

namespace Path

theorem same_iff {p q : Text} : same p q = true ↔ components p = components q := beq_iff_eq

theorem isAbsolute_iff {p : Text} : isAbsolute p = true ↔ ∃ t, p = '/' :: t := by
  constructor
  · intro h
    obtain ⟨t, hPrefix⟩ := Option.isSome_iff_exists.mp h
    exact ⟨t, Text.dropPrefix?_eq_some hPrefix⟩
  · rintro ⟨t, rfl⟩
    rfl

theorem isAbsolute_append {p : Text} (hp : p ≠ []) (t : Text) :
    isAbsolute (p ++ t) = isAbsolute p := by
  cases p with
  | nil => exact absurd rfl hp
  | cons c p =>
      by_cases hc : '/' = c
      · subst hc
        rfl
      · simp [isAbsolute, Text.startsWith, Text.dropPrefix?, hc]

section Pieces

theorem joinPieces_splitOn (p : Text) : joinPieces (p.splitOn '/') = p := List.intercalate_splitOn _

/-- One more piece in front of others is parted from them by a slash. If there are no others, there
is no slash, so they must not be missing. -/
theorem joinPieces_cons {pieces : List Text} (piece : Text) (h : pieces ≠ []) :
    joinPieces (piece :: pieces) = piece ++ '/' :: joinPieces pieces := by
  rw [joinPieces, List.intercalate_cons_of_ne_nil h, List.append_assoc]
  rfl

theorem joinPieces_append {front back : List Text} (hFront : front ≠ []) (hBack : back ≠ []) :
    joinPieces (front ++ back) = joinPieces front ++ '/' :: joinPieces back := by
  induction front with
  | nil => exact absurd rfl hFront
  | cons piece front ih =>
      cases front with
      | nil =>
          rw [List.singleton_append, joinPieces_cons piece hBack, joinPieces, joinPieces,
            List.intercalate_singleton]
      | cons next front =>
          rw [List.cons_append, joinPieces_cons piece (by simp), ih (List.cons_ne_nil _ _),
            joinPieces_cons piece (List.cons_ne_nil _ _), List.append_assoc, List.cons_append]

/-- Pieces without slashes are found again when they are joined and split. No pieces at all would be
found again as one empty piece. -/
theorem splitOn_joinPieces {pieces : List Text} (hNe : pieces ≠ [])
    (h : ∀ piece ∈ pieces, '/' ∉ piece) : (joinPieces pieces).splitOn '/' = pieces :=
  List.splitOn_intercalate _ h hNe

/-- Only silent pieces are dropped from the end. -/
theorem dropSilentEnd_append (pieces : List Text) :
    ∃ gap, pieces = dropSilentEnd pieces ++ gap ∧ ∀ piece ∈ gap, isSilent piece = true :=
  ⟨pieces.rtakeWhile isSilent, List.rdropWhile_append_rtakeWhile.symm,
    fun _ => List.mem_rtakeWhile_imp⟩

/-- The pieces that are left end with one that stands for a component. So nothing more can be
dropped, and the last piece is the one that `parent?` takes away. -/
theorem dropSilentEnd_cases (pieces : List Text) :
    dropSilentEnd pieces = [] ∨ ∃ front last, dropSilentEnd pieces = front ++ [last] ∧
      isSilent last = false := by
  by_cases hNil : dropSilentEnd pieces = []
  · exact Or.inl hNil
  · refine Or.inr ⟨_, _, (List.dropLast_append_getLast hNil).symm, ?_⟩
    exact Bool.eq_false_iff.mpr (List.rdropWhile_last_not isSilent pieces hNil)

end Pieces

section Components

/-- The components that pieces behind the first one stand for. Silent pieces stand for none; a first
piece is read differently, see `components_of_relative`. -/
def steps (pieces : List Text) : List Component := (pieces.filter (!isSilent ·)).map ofPiece

theorem steps_append (front back : List Text) :
    steps (front ++ back) = steps front ++ steps back := by
  rw [steps, List.filter_append, List.map_append, steps, steps]

theorem steps_of_silent {pieces : List Text} (h : ∀ piece ∈ pieces, isSilent piece = true) :
    steps pieces = [] := by
  rw [steps, List.map_eq_nil_iff, List.filter_eq_nil_iff]
  intro piece hPiece
  simp [h piece hPiece]

theorem steps_cons {piece : Text} (h : isSilent piece = false) (pieces : List Text) :
    steps (piece :: pieces) = ofPiece piece :: steps pieces := by
  rw [steps, List.filter_cons_of_pos (by simp [h])]
  rfl

/-- An absolute path starts at the root, and all pieces behind the slash are steps from there. -/
theorem components_slash (t : Text) : components ('/' :: t) = .root :: steps (t.splitOn '/') := by
  have hSplit : ('/' :: t).splitOn '/' = [] :: t.splitOn '/' := List.splitOn_append_cons_self [] t
  rw [components, hSplit]
  rfl

/-- What stands behind a slash adds its steps, however the path in front of it starts. The path in
front must not be empty, because the slash would then be the root. -/
theorem components_append {p : Text} (hp : p ≠ []) (t : Text) :
    components (p ++ '/' :: t) = components p ++ steps (t.splitOn '/') := by
  obtain ⟨first, rest, hSplit⟩ := List.exists_cons_of_ne_nil (List.splitOn_ne_nil '/' p)
  rw [components, components, List.splitOn_append_cons_self, hSplit, List.cons_append,
    isAbsolute_append hp]
  dsimp only
  rw [← steps, steps_append, ← List.append_assoc]
  rfl

/-- A dot in front of a relative path is a component of its own. All other components are steps, as
those of an absolute path are. -/
theorem components_of_relative {p : Text} (hRelative : isAbsolute p = false) :
    components p = steps (p.splitOn '/') ∨ components p = .here :: steps (p.splitOn '/') := by
  obtain ⟨first, rest, hSplit⟩ := List.exists_cons_of_ne_nil (List.splitOn_ne_nil '/' p)
  rw [components, hSplit]
  dsimp only
  rw [← steps, if_neg (by simp [hRelative])]
  by_cases hNil : first = []
  · rw [hNil]
    exact Or.inl rfl
  by_cases hDot : first = ['.']
  · rw [hDot]
    exact Or.inr rfl
  · have hSolid : isSilent first = false := by simp [isSilent, hNil, hDot]
    rw [steps_cons hSolid]
    simp [hNil, hDot]

/-- A name among the steps is one of the pieces as it is spelled. -/
theorem mem_of_name_mem_steps {pieces : List Text} {t : Text} (ht : .name t ∈ steps pieces) :
    t ∈ pieces := by
  obtain ⟨piece, hPiece, hName⟩ := List.mem_map.mp ht
  rw [ofPiece] at hName
  split at hName
  · cases hName
  · rw [← Component.name.inj hName]
    exact List.mem_of_mem_filter hPiece

/-- A path starts only once: there is no root and no dot for the working directory among its
steps. -/
theorem isStart_of_mem_steps {pieces : List Text} {c : Component} (hc : c ∈ steps pieces) :
    c.isStart = false := by
  obtain ⟨piece, -, rfl⟩ := List.mem_map.mp hc
  rw [ofPiece]
  split
  · rfl
  · rfl

/-- What a path starts with: the root, a dot for the working directory, or nothing. Two paths that
start differently are never spellings of each other, even if they lead to one place. -/
def start (p : Text) : List Component := (components p).takeWhile Component.isStart

/-- A path is its start and steps from there. -/
theorem components_eq_start_append (p : Text) :
    ∃ pieces, components p = start p ++ steps pieces := by
  have hStart : ∀ (front : List Component) (pieces : List Text),
      components p = front ++ steps pieces → (∀ c ∈ front, c.isStart = true) →
      ∃ pieces, components p = start p ++ steps pieces := by
    intro front pieces hComponents hFront
    have hNone : (steps pieces).takeWhile Component.isStart = [] := by
      rw [List.takeWhile_eq_nil_iff]
      intro hPos
      exact Bool.eq_false_iff.mp (isStart_of_mem_steps (List.getElem_mem hPos))
    refine ⟨pieces, ?_⟩
    rw [start, hComponents, List.takeWhile_append_of_pos hFront, hNone, List.append_nil]
  cases hAbsolute : isAbsolute p with
  | true =>
      obtain ⟨t, rfl⟩ := isAbsolute_iff.mp hAbsolute
      exact hStart [.root] _ (components_slash t) (by simp [Component.isStart])
  | false =>
      rcases components_of_relative hAbsolute with hComponents | hComponents
      · exact hStart [] _ hComponents (List.forall_mem_nil _)
      · exact hStart [.here] _ hComponents (by simp [Component.isStart])

theorem exists_steps_eq_names {pieces : List Text} (hUp : Component.up ∉ steps pieces) :
    ∃ names : List Text, steps pieces = names.map .name := by
  refine ⟨pieces.filter (!isSilent ·), ?_⟩
  apply List.map_congr_left
  intro piece hPiece
  have hMem : ofPiece piece ∈ steps pieces := List.mem_map_of_mem hPiece
  rw [ofPiece] at hMem ⊢
  split at hMem
  · exact absurd hMem hUp
  next hDots => exact if_neg hDots

/-- A path that never goes up goes through names from its start. So it leads below the place at
which it starts, and its components tell where. -/
theorem exists_names_of_notMem_up {p : Text} (hUp : Component.up ∉ components p) :
    ∃ names : List Text, components p = start p ++ names.map .name := by
  obtain ⟨pieces, hComponents⟩ := components_eq_start_append p
  have hSteps : Component.up ∉ steps pieces := fun hMem =>
    hUp (hComponents ▸ List.mem_append_right _ hMem)
  obtain ⟨names, hNames⟩ := exists_steps_eq_names hSteps
  exact ⟨names, hNames ▸ hComponents⟩

/-- A relative path stands behind a slash, unless there is nothing to stand behind. If the path in
front ends in a slash, that slash is used. -/
theorem join_cases (dir : Text) {p : Text} (hRelative : isAbsolute p = false) :
    (dir = [] ∧ join dir p = p) ∨
      (∃ front, dir = front ++ ['/'] ∧ join dir p = front ++ '/' :: p) ∨
      (dir ≠ [] ∧ join dir p = dir ++ '/' :: p) := by
  by_cases hNil : dir = []
  · exact Or.inl ⟨hNil, by rw [hNil]; rfl⟩
  · rw [join, if_neg (by simp [hNil, hRelative])]
    split
    next hEnd =>
      obtain ⟨front, rfl⟩ := List.getLast?_eq_some_iff.mp (beq_iff_eq.mp hEnd)
      exact Or.inr (Or.inl ⟨front, rfl, by rw [List.append_assoc, List.singleton_append]⟩)
    · exact Or.inr (Or.inr ⟨hNil, rfl⟩)

theorem isAbsolute_join {dir p : Text} (hDir : isAbsolute dir = true)
    (hRelative : isAbsolute p = false) : isAbsolute (join dir p) = true := by
  rcases join_cases dir hRelative with ⟨rfl, -⟩ | ⟨front, rfl, hJoin⟩ | ⟨hNe, hJoin⟩
  · cases hDir
  · rw [hJoin, List.append_cons,
      isAbsolute_append (List.append_ne_nil_of_right_ne_nil front (by simp))]
    exact hDir
  · rw [hJoin, isAbsolute_append hNe]
    exact hDir

/-- A relative path behind another one adds its components, but for a dot in front. The empty path
is excluded, because behind it a path keeps its dot. -/
theorem components_join {dir p : Text} (hDir : dir ≠ []) (hRelative : isAbsolute p = false) :
    components (join dir p) = components dir ++ steps (p.splitOn '/') := by
  rcases join_cases dir hRelative with ⟨hNil, -⟩ | ⟨front, rfl, hJoin⟩ | ⟨-, hJoin⟩
  · exact absurd hNil hDir
  · rw [hJoin]
    cases front with
    | nil =>
        rw [List.nil_append, List.nil_append, components_slash, components_slash]
        rfl
    | cons c front =>
        have hEnd : steps (List.splitOn '/' []) = [] := by
          rw [List.splitOn_nil]
          rfl
        rw [components_append (List.cons_ne_nil c front),
          components_append (List.cons_ne_nil c front), hEnd, List.append_nil]
  · rw [hJoin, components_append hDir]

theorem isAbsolute_of_notMem {name : Text} (hSlash : '/' ∉ name) : isAbsolute name = false := by
  rw [← Bool.not_eq_true, isAbsolute_iff]
  rintro ⟨t, rfl⟩
  exact hSlash List.mem_cons_self

variable {name : Text} (hName : isSilent name = false) (hSlash : '/' ∉ name)
include hName hSlash

theorem steps_name : steps (name.splitOn '/') = [ofPiece name] := by
  rw [List.splitOn_eq_singleton hSlash, steps_cons hName]
  rfl

/-- A name by itself is a relative path of one component. Two dots are no name, and neither is a
silent piece. -/
theorem components_name (hDots : name ≠ ['.', '.']) : components name = [.name name] := by
  have hNil : name ≠ [] := by
    rintro rfl
    cases hName
  have hDot : name ≠ ['.'] := by
    rintro rfl
    cases hName
  rw [components, List.splitOn_eq_singleton hSlash]
  simp [isAbsolute_of_notMem hSlash, hNil, hDot, ofPiece, hDots]

/-- A name behind a path is one more component. Here the path in front may be empty, since a name
has no dot in front. -/
theorem components_join_name (dir : Text) (hDots : name ≠ ['.', '.']) :
    components (join dir name) = components dir ++ [.name name] := by
  by_cases hNil : dir = []
  · rw [hNil]
    exact components_name hName hSlash hDots
  · rw [components_join hNil (isAbsolute_of_notMem hSlash), steps_name hName hSlash, ofPiece,
      if_neg (by simpa using hDots)]

end Components

section Above

/-- The path `q` is the one above the path `p`, whose last component is `c`. The cases are the ways
in which a path can be taken apart as text: one component by itself, one behind the root, and one
behind another path. -/
inductive Extends : Text → Text → Component → Prop where
  | start {p : Text} {c : Component} (hRelative : isAbsolute p = false)
      (hOne : components p = [c]) :
      Extends [] p c
  | root {t : Text} {c : Component} (hOne : steps (t.splitOn '/') = [c]) :
      Extends ['/'] ('/' :: t) c
  | inside {q t : Text} {c : Component} (hNe : q ≠ []) (hOne : steps (t.splitOn '/') = [c]) :
      Extends q (q ++ '/' :: t) c

/-- The path above another one has the same components but the last. -/
theorem Extends.components_eq {q p : Text} {c : Component} (h : Extends q p c) :
    components p = components q ++ [c] := by
  cases h with
  | start hRelative hOne => exact hOne
  | root hOne =>
      rw [components_slash, hOne]
      rfl
  | inside hNe hOne => rw [components_append hNe, hOne]

theorem Extends.dropLast_components {q p : Text} {c : Component} (h : Extends q p c) :
    (components p).dropLast = components q := by
  rw [h.components_eq, List.dropLast_concat]

/-- To go to the path above does not make an absolute path relative, or the other way round. -/
theorem Extends.isAbsolute_eq {q p : Text} {c : Component} (h : Extends q p c) :
    isAbsolute q = isAbsolute p := by
  cases h with
  | start hRelative hOne => exact hRelative.symm
  | root hOne => rfl
  | inside hNe hOne => exact (isAbsolute_append hNe _).symm

/-- The path above another one is shorter, so going up comes to an end: this is what the guard in
`ancestors` asks. -/
theorem Extends.length_lt {q p : Text} {c : Component} (h : Extends q p c) :
    q.length < p.length := by
  cases h with
  | start hRelative hOne =>
      cases p with
      | nil => cases hOne
      | cons d p => simp
  | @root t c hOne =>
      cases t with
      | nil => cases hOne
      | cons d t => simp
  | inside hNe hOne => simp

/-- Pieces end in the last of them that stands for a component, or none of them does. In the first
case the last one and the silent pieces around it are taken off to go up; in the second there is
nothing to take off behind the first piece. -/
theorem pieces_cases (rest : List Text) :
    (dropSilentEnd rest = [] ∧ steps rest = []) ∨
      ∃ front back c, dropSilentEnd (dropSilentEnd rest).dropLast = front ∧
      dropSilentEnd rest ≠ [] ∧
        rest = front ++ back ∧ steps back = [c] := by
  obtain ⟨gap, hRest, hGap⟩ := dropSilentEnd_append rest
  rcases dropSilentEnd_cases rest with hNil | ⟨front, last, hLast, hSolid⟩
  · rw [hNil, List.nil_append] at hRest
    exact Or.inl ⟨hNil, hRest ▸ steps_of_silent hGap⟩
  · obtain ⟨between, hFront, hBetween⟩ := dropSilentEnd_append front
    refine Or.inr
      ⟨dropSilentEnd front, between ++ last :: gap, ofPiece last, ?_, by simp [hLast], ?_, ?_⟩
    · rw [hLast, List.dropLast_concat]
    · rw [← List.append_assoc, ← hFront]
      rwa [hLast, List.append_assoc] at hRest
    · rw [steps_append, steps_of_silent hBetween, steps_cons hSolid, steps_of_silent hGap]
      rfl

theorem joinPieces_append_back {front back : List Text} {c : Component} (hFront : front ≠ [])
    (hSlash : ∀ piece ∈ back, '/' ∉ piece) (hOne : steps back = [c]) :
    joinPieces (front ++ back) = joinPieces front ++ '/' :: joinPieces back ∧
      steps ((joinPieces back).splitOn '/') = [c] := by
  have hBack : back ≠ [] := by
    rintro rfl
    cases hOne
  exact ⟨joinPieces_append hFront hBack, by rw [splitOn_joinPieces hBack hSlash, hOne]⟩

/-- An absolute path is a spelling of the root and has no parent, or it extends its parent. -/
theorem parent?_cases_absolute (t : Text) :
    (parent? ('/' :: t) = none ∧ components ('/' :: t) = [.root]) ∨
      ∃ q c, parent? ('/' :: t) = some q ∧ Extends q ('/' :: t) c := by
  have hSplit : ('/' :: t).splitOn '/' = [] :: t.splitOn '/' := List.splitOn_append_cons_self [] t
  have hAbsolute : isAbsolute ('/' :: t) = true := rfl
  rcases pieces_cases (t.splitOn '/') with
    ⟨hNil, hSteps⟩ | ⟨front, back, c, hFront, hNe, hRest, hOne⟩
  · left
    rw [parent?, hSplit, components_slash, hSteps]
    simp [hNil, hAbsolute]
  right
  have hParent : parent? ('/' :: t) = some ('/' :: joinPieces front) := by
    obtain ⟨piece, pieces, hCons⟩ := List.exists_cons_of_ne_nil hNe
    rw [hCons] at hFront
    simp only [parent?, hSplit, hAbsolute, hCons, hFront]
  have hSlash : ∀ piece ∈ back, '/' ∉ piece := fun piece hPiece =>
    Text.notMem_of_mem_splitOn (hRest ▸ List.mem_append_right front hPiece)
  refine ⟨_, c, hParent, ?_⟩
  cases front with
  | nil => exact .root (hRest ▸ hOne)
  | cons piece front =>
      obtain ⟨hJoin, hSteps⟩ := joinPieces_append_back (List.cons_ne_nil piece front) hSlash hOne
      rw [← joinPieces_splitOn t, hRest, hJoin]
      exact .inside (List.cons_ne_nil _ _) hSteps

theorem components_of_silent {p first : Text} {rest : List Text}
    (hSplit : p.splitOn '/' = first :: rest)
    (hRelative : isAbsolute p = false) (hFirst : first ≠ []) (hSteps : steps rest = []) :
    ∃ c, components p = [c] := by
  rw [components, hSplit]
  dsimp only
  rw [← steps, hSteps]
  by_cases hDot : first = ['.']
  · exact ⟨.here, by simp [hRelative, hDot]⟩
  · exact ⟨ofPiece first, by simp [hRelative, hFirst, hDot]⟩

theorem joinPieces_ne_nil {first : Text} (hFirst : first ≠ []) (front : List Text) :
    joinPieces (first :: front) ≠ [] := by
  cases front with
  | nil => exact fun hNil => hFirst (List.intercalate_singleton.symm.trans hNil)
  | cons piece front => simp [joinPieces_cons first (List.cons_ne_nil piece front)]

/-- A relative path always extends its parent, which may be empty; only the empty path has none. -/
theorem parent?_cases_relative {p : Text} (hRelative : isAbsolute p = false) (hNe : p ≠ []) :
    ∃ q c, parent? p = some q ∧ Extends q p c := by
  obtain ⟨first, rest, hSplit⟩ := List.exists_cons_of_ne_nil (List.splitOn_ne_nil '/' p)
  have hPath : p = joinPieces (first :: rest) := by rw [← hSplit, joinPieces_splitOn]
  have hFirst : first ≠ [] := by
    rintro rfl
    cases rest with
    | nil => exact hNe hPath
    | cons piece rest =>
        rw [hPath, joinPieces_cons [] (List.cons_ne_nil piece rest)] at hRelative
        cases hRelative
  rcases pieces_cases rest with ⟨hNil, hSteps⟩ | ⟨front, back, c, hFront, hSome, hRest, hOne⟩
  · have hParent : parent? p = some [] := by
      rw [parent?, hSplit]
      simp [hNil, hRelative, hNe]
    obtain ⟨c, hc⟩ := components_of_silent hSplit hRelative hFirst hSteps
    exact ⟨[], c, hParent, .start hRelative hc⟩
  · have hParent : parent? p = some (joinPieces (first :: front)) := by
      obtain ⟨piece, pieces, hCons⟩ := List.exists_cons_of_ne_nil hSome
      rw [hCons] at hFront
      simp only [parent?, hSplit, hRelative, hCons, hFront]
    have hSlash : ∀ piece ∈ back, '/' ∉ piece := by
      intro piece hPiece
      have hMem : piece ∈ p.splitOn '/' := by simp [hSplit, hRest, hPiece]
      exact Text.notMem_of_mem_splitOn hMem
    obtain ⟨hJoin, hSteps⟩ := joinPieces_append_back (List.cons_ne_nil first front) hSlash hOne
    refine ⟨_, c, hParent, ?_⟩
    rw [hPath, hRest, ← List.cons_append, hJoin]
    exact .inside (joinPieces_ne_nil hFirst front) hSteps

/-- A path either is at its start or extends the path above it. In the first case it has at most the
component for the root. -/
theorem parent?_cases (p : Text) :
    (parent? p = none ∧ components p = if isAbsolute p then [.root] else []) ∨
      ∃ q c, parent? p = some q ∧ Extends q p c := by
  cases hAbsolute : isAbsolute p with
  | true =>
      obtain ⟨t, rfl⟩ := isAbsolute_iff.mp hAbsolute
      exact parent?_cases_absolute t
  | false =>
      cases p with
      | nil => exact Or.inl ⟨by decide, rfl⟩
      | cons c p => exact Or.inr (parent?_cases_relative hAbsolute (List.cons_ne_nil c p))

/-- The stations of a path: the paths above it from its start on, and the path itself. They are
spelled as parts of the path, so those of a relative path begin with the empty one. -/
def stations (p : Text) : List Text := (ancestors p).reverse

/-- Induction along the stations of a path, each of which extends the one before. Facts about the
stations and about where they lead are proved by it and not by recursion on the text. -/
theorem stations_induction {motive : Text → Prop}
    (start : ∀ p, stations p = [p] → (components p = if isAbsolute p then [.root] else []) →
    motive p)
    (below : ∀ q p c, Extends q p c → stations p = stations q ++ [p] → motive q → motive p)
    (p : Text) : motive p := by
  induction hn : p.length using Nat.strong_induction_on generalizing p with
  | _ n ih =>
      rcases parent?_cases p with ⟨hNone, hStart⟩ | ⟨q, c, hSome, hExt⟩
      · apply start p _ hStart
        rw [stations, ancestors, hNone]
        rfl
      · apply below q p c hExt _ (ih q.length (hn ▸ hExt.length_lt) q rfl)
        rw [stations, ancestors, hSome]
        simp only [if_pos hExt.length_lt, List.reverse_cons]
        rfl

theorem getLast?_stations (p : Text) : (stations p).getLast? = some p := by
  induction p using stations_induction with
  | start p hOne hStart => rw [hOne, List.getLast?_singleton]
  | below q p c hExt hStations ih => rw [hStations, List.getLast?_concat]

/-- The first station is the root for an absolute path, and empty for a relative one. -/
theorem exists_head?_stations (p : Text) :
    ∃ r, (stations p).head? = some r ∧ components r = if isAbsolute p then [.root] else [] := by
  induction p using stations_induction with
  | start p hOne hStart => exact ⟨p, by rw [hOne, List.head?_cons], hStart⟩
  | below q p c hExt hStations ih =>
      obtain ⟨r, hHead, hStart⟩ := ih
      exact ⟨r, by rw [hStations, List.head?_append, hHead, Option.some_or],
        hExt.isAbsolute_eq ▸ hStart⟩

/-- From one station to the next there is exactly one component more. -/
theorem isChain_stations (p : Text) : (stations p).IsChain fun q r => ∃ c, Extends q r c := by
  induction p using stations_induction with
  | start p hOne hStart =>
      rw [hOne]
      exact .singleton p
  | below q p c hExt hStations ih =>
      rw [hStations, List.isChain_append]
      refine ⟨ih, .singleton p, ?_⟩
      intro r hr s hs
      rw [getLast?_stations] at hr
      cases hr
      cases hs
      exact ⟨c, hExt⟩

/-- No two stations of a path have the same components. They may lead to the same place all the
same, for instance where the path goes up. -/
theorem pairwise_stations (p : Text) :
    (stations p).Pairwise fun q r => components q ≠ components r := by
  have hLonger : (stations p).IsChain fun q r => (components q).length < (components r).length := by
    apply (isChain_stations p).imp
    rintro q r ⟨c, hExt⟩
    rw [hExt.components_eq, List.length_append]
    exact Nat.lt_succ_self _
  have hPairwise := List.isChain_iff_pairwise.mp hLonger
  exact hPairwise.imp fun hLt hEq => Nat.ne_of_lt hLt (congrArg List.length hEq)

end Above

end Path

end Reflow
