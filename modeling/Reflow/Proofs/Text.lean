import Mathlib.Data.List.TakeWhile
import Reflow.Text.Basic

/-!
Laws of text: what trimming removes, which texts it leaves alone, and how the lines of a text and
the text of lines answer each other.
-/

namespace Reflow

/-- Elements of a class are dropped up to the first one that does not belong to it. Every reader
that takes a run of characters stops this way, so what it leaves does not start with one more of
them. -/
theorem eq_false_of_head?_dropWhile {α : Type} {p : α → Bool} {l : List α} {a : α}
    (h : (l.dropWhile p).head? = some a) : p a = false := by
  have hNot := List.head?_dropWhile_not p l
  rw [h] at hNot
  exact hNot

theorem isBlank_of_isGap {c : Char} (h : isGap c = true) : isBlank c = true := by
  simp only [isGap, Bool.or_eq_true, beq_iff_eq] at h
  rcases h with rfl | rfl <;> decide

theorem not_isGap_of_not_isBlank {c : Char} (h : isBlank c = false) : isGap c = false := by
  cases hGap : isGap c with
  | false => rfl
  | true => simp [isBlank_of_isGap hGap] at h

namespace Text

/-- The blanks that trimming removes at either end, and the text between them. All facts about
trimming below are read off this division; it does not say that the blanks are as few or as many as
possible. -/
theorem exists_eq_append_trim (t : Text) :
    ∃ front back : Text, (∀ c ∈ front, isBlank c = true) ∧ (∀ c ∈ back, isBlank c = true) ∧
      t = front ++ trim t ++ back := by
  refine ⟨t.takeWhile isBlank, ((trimStart t).reverse.takeWhile isBlank).reverse,
    fun c hc => List.mem_takeWhile_imp hc,
    fun c hc => List.mem_takeWhile_imp (List.mem_reverse.mp hc), ?_⟩
  have hBack : trim t ++ ((trimStart t).reverse.takeWhile isBlank).reverse = trimStart t := by
    rw [trim, trimEnd, dropEndWhile, ← List.reverse_append, List.takeWhile_append_dropWhile,
      List.reverse_reverse]
  rw [List.append_assoc, hBack, trimStart, List.takeWhile_append_dropWhile]

/-- Trimming makes nothing up: what it answers is a stretch of the text, so whatever no stretch of
the text has is not in it either. -/
theorem trim_isInfix_self (t : Text) : trim t <:+: t := by
  obtain ⟨front, back, -, -, hSplit⟩ := exists_eq_append_trim t
  exact ⟨front, back, hSplit.symm⟩

theorem trimStart_eq_self_iff {t : Text} :
    trimStart t = t ↔ ∀ c, t.head? = some c → isBlank c = false := by
  cases t with
  | nil => simp [trimStart]
  | cons c t =>
      rw [trimStart, List.dropWhile_eq_self_iff]
      simp

theorem trimEnd_eq_self_iff {t : Text} :
    trimEnd t = t ↔ ∀ c, t.getLast? = some c → isBlank c = false := by
  rw [trimEnd, dropEndWhile, List.reverse_eq_iff, ← List.head?_reverse]
  exact trimStart_eq_self_iff

/-- Trimming leaves a text alone exactly when neither end of it is blank. Blanks between two words
do not count, and the empty text has no ends. -/
theorem trim_eq_self_iff {t : Text} :
    trim t = t ↔ (∀ c, t.head? = some c → isBlank c = false) ∧
      ∀ c, t.getLast? = some c → isBlank c = false := by
  constructor
  · intro h
    have hLength : (trimStart t).length = t.length := by
      have hFirst := t.length_dropWhile_le isBlank
      have hSecond := (trimStart t).reverse.length_dropWhile_le isBlank
      have hWhole := congrArg List.length h
      simp only [trim, trimEnd, dropEndWhile, List.length_reverse] at hWhole hSecond
      simp only [trimStart] at *
      omega
    have hStart : trimStart t = t :=
      (List.dropWhile_suffix isBlank).eq_of_length hLength
    rw [trim, hStart] at h
    exact ⟨trimStart_eq_self_iff.mp hStart, trimEnd_eq_self_iff.mp h⟩
  · rintro ⟨hHead, hLast⟩
    rw [trim, trimStart_eq_self_iff.mpr hHead, trimEnd_eq_self_iff.mpr hLast]

theorem allBlank_iff {t : Text} : allBlank t = true ↔ ∀ c ∈ t, isBlank c = true := by
  simp [allBlank]

/-- A text is trimmed to nothing exactly when all of it is blank, so a trimmed line that is empty
says that the line was blank. -/
theorem trim_eq_nil_iff {t : Text} : trim t = [] ↔ allBlank t = true := by
  rw [allBlank_iff]
  constructor
  · intro h c hc
    obtain ⟨front, back, hFront, hBack, hSplit⟩ := exists_eq_append_trim t
    rw [h, List.append_nil] at hSplit
    rw [hSplit] at hc
    rcases List.mem_append.mp hc with hc | hc
    · exact hFront c hc
    · exact hBack c hc
  · intro h
    have hStart : trimStart t = [] := List.dropWhile_eq_nil_iff.mpr h
    simp [trim, hStart, trimEnd, dropEndWhile]

/-- Blanks at either end do not matter to trimming. They may be any blanks, so a margin, a carriage
return and spaces behind a line are all dropped alike. -/
theorem trim_append (front t back : Text) (hFront : ∀ c ∈ front, isBlank c = true)
    (hBack : ∀ c ∈ back, isBlank c = true) : trim (front ++ t ++ back) = trim t := by
  have hStart : trimStart (front ++ t ++ back) = trimStart (t ++ back) := by
    rw [trimStart, List.append_assoc, List.dropWhile_append_of_pos hFront, trimStart]
  rw [trim, hStart]
  cases hEmpty : trimStart t with
  | nil =>
      have hBlank : ∀ c ∈ t, isBlank c = true := List.dropWhile_eq_nil_iff.mp hEmpty
      have hAll : ∀ c ∈ t ++ back, isBlank c = true := fun c hc =>
        (List.mem_append.mp hc).elim (hBlank c) (hBack c)
      rw [trim, hEmpty, trimStart, List.dropWhile_eq_nil_iff.mpr hAll]
  | cons c rest =>
      have hAppend : trimStart (t ++ back) = trimStart t ++ back := by
        rw [trimStart, List.dropWhile_append, ← trimStart, hEmpty]
        rfl
      rw [hAppend, trim, trimEnd, dropEndWhile, List.reverse_append, List.dropWhile_append_of_pos
        fun d hd => hBack d (List.mem_reverse.mp hd), trimEnd, dropEndWhile]

theorem trim_append_left {front : Text} (hFront : ∀ c ∈ front, isBlank c = true) (t : Text) :
    trim (front ++ t) = trim t := by
  have hBoth := trim_append front t [] hFront nofun
  rwa [List.append_nil] at hBoth

theorem trim_cons {c : Char} (hc : isBlank c = true) (t : Text) : trim (c :: t) = trim t :=
  trim_append_left (List.forall_mem_singleton.mpr hc) t

theorem isBlank_head_trim {t : Text} {c : Char} (h : (trim t).head? = some c) :
    isBlank c = false := by
  have hPrefix : trim t <+: trimStart t := by
    rw [trim, trimEnd, dropEndWhile, ← List.reverse_suffix, List.reverse_reverse]
    exact List.dropWhile_suffix _
  obtain ⟨back, hBack⟩ := hPrefix
  have hHead : (trimStart t).head? = some c := by
    rw [← hBack, List.head?_append, h]
    rfl
  exact eq_false_of_head?_dropWhile hHead

theorem isBlank_getLast_trim {t : Text} {c : Char} (h : (trim t).getLast? = some c) :
    isBlank c = false := by
  rw [trim, trimEnd, dropEndWhile, List.getLast?_reverse] at h
  exact eq_false_of_head?_dropWhile h

/-- Neither end of a trimmed text is blank, so trimming a second time does nothing. -/
theorem trim_trim (t : Text) : trim (trim t) = trim t :=
  trim_eq_self_iff.mpr ⟨fun _ => isBlank_head_trim, fun _ => isBlank_getLast_trim⟩

/-- What is dropped at the end is spaces. A tab or any other blank there is kept, unlike by
trimming. -/
theorem exists_eq_dropEndSpaces_append (t : Text) :
    ∃ n, t = dropEndSpaces t ++ List.replicate n ' ' := by
  refine ⟨(t.reverse.takeWhile (· == ' ')).length, ?_⟩
  have hSpaces : (t.reverse.takeWhile (· == ' ')).reverse =
      List.replicate (t.reverse.takeWhile (· == ' ')).length ' ' := by
    rw [List.eq_replicate_iff, List.length_reverse]
    refine ⟨rfl, fun c hc => ?_⟩
    simpa using List.mem_takeWhile_imp (List.mem_reverse.mp hc)
  rw [← hSpaces, dropEndSpaces, dropEndWhile, ← List.reverse_append,
    List.takeWhile_append_dropWhile, List.reverse_reverse]

/-- Only the last part of a text loses spaces, if any of it is left. Without that condition spaces
of the first part may be dropped too. -/
theorem dropEndSpaces_append {t u : Text} (h : dropEndSpaces u ≠ []) :
    dropEndSpaces (t ++ u) = t ++ dropEndSpaces u := by
  have hDrop : u.reverse.dropWhile (· == ' ') ≠ [] := by
    simpa [dropEndSpaces, dropEndWhile] using h
  rw [dropEndSpaces, dropEndWhile, List.reverse_append, List.dropWhile_append,
    if_neg (by simpa using hDrop), List.reverse_append, List.reverse_reverse]
  rfl

/-- Spaces at the end are not counted among those that are kept, so a marker with a space behind it
has the same base as the marker alone. -/
theorem dropEndSpaces_append_space (t : Text) :
    dropEndSpaces (t ++ [' ']) = dropEndSpaces t := by
  simp [dropEndSpaces, dropEndWhile]

theorem dropEndSpaces_append_replicate (t : Text) (n : Nat) :
    dropEndSpaces (t ++ List.replicate n ' ') = dropEndSpaces t := by
  induction n with
  | zero => rw [List.replicate_zero, List.append_nil]
  | succ n ih => rw [List.replicate_succ', ← List.append_assoc, dropEndSpaces_append_space, ih]

/-- The two forms in which a token stands in a margin, alone or before one space, have the same
base. This is all that the readers of a comment line ask of a marker. -/
theorem dropEndSpaces_eq_of_spaced {t u : Text} (ht : dropEndSpaces t = t)
    (hu : u = t ∨ u = t ++ [' ']) : dropEndSpaces u = t := by
  rcases hu with rfl | rfl
  · exact ht
  · rw [dropEndSpaces_append_space, ht]

theorem lines_ne_nil (t : Text) : lines t ≠ [] := List.splitOn_ne_nil _ _

@[simp] theorem unlines_lines (t : Text) : unlines (lines t) = t := List.intercalate_splitOn _

/-- Lines are read back from the text that is made of them, if they hold no line feeds. No lines at
all make the empty text, which has one line. -/
theorem lines_unlines {ls : List Text} (hLines : ∀ l ∈ ls, '\n' ∉ l) (hNe : ls ≠ []) :
    lines (unlines ls) = ls :=
  List.splitOn_intercalate _ hLines hNe

/-- A line feed ends a line and starts another. Nothing else does: a carriage return is a character
of its line. -/
theorem lines_append_cons (t u : Text) : lines (t ++ '\n' :: u) = lines t ++ lines u :=
  List.splitOn_append_cons_self _ _

/-- A part of a divided text does not hold what divides it. The parts may be empty, and there is
always one. -/
theorem notMem_of_mem_splitOn {sep : Char} {t part : Text} (h : part ∈ t.splitOn sep) :
    sep ∉ part := by
  induction t generalizing part with
  | nil => simp_all
  | cons c t ih =>
      obtain ⟨first, rest, hRest⟩ := List.exists_cons_of_ne_nil (List.splitOn_ne_nil sep t)
      rw [List.splitOn_cons_eq_if_modifyHead, hRest] at h
      rw [hRest] at ih
      split at h
      · rcases List.mem_cons.mp h with rfl | h
        · simp
        · exact ih h
      next hc =>
        rcases List.mem_cons.mp h with rfl | h
        · simp only [List.mem_cons, not_or]
          exact ⟨fun hEq => hc (by simp [← hEq]), ih List.mem_cons_self⟩
        · exact ih (List.mem_cons_of_mem first h)

/-- A line holds no line feed. This is the condition under which lines that are put together are
read back as they were. -/
theorem not_mem_of_mem_lines {t l : Text} (h : l ∈ lines t) : '\n' ∉ l := notMem_of_mem_splitOn h

theorem unlines_cons_cons (l m : Text) (ls : List Text) :
    unlines (l :: m :: ls) = l ++ '\n' :: unlines (m :: ls) := by
  simp [unlines, List.intercalate_cons_cons]

/-- Lines after lines, where neither part is without lines: with no lines on one side there would be
no line feed between the two. -/
theorem unlines_append {ls ms : List Text} (hls : ls ≠ []) (hms : ms ≠ []) :
    unlines (ls ++ ms) = unlines ls ++ '\n' :: unlines ms := by
  induction ls with
  | nil => exact absurd rfl hls
  | cons l ls ih =>
      cases ls with
      | nil =>
          cases ms with
          | nil => exact absurd rfl hms
          | cons m ms => simp [unlines, List.intercalate_cons_cons]
      | cons k ls =>
          rw [List.cons_append, List.cons_append, unlines_cons_cons, ← List.cons_append,
            ih (by simp), unlines_cons_cons, List.append_assoc, List.cons_append]

end Text

end Reflow
