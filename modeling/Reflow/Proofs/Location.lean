import Reflow.Proofs.Disk
import Reflow.Proofs.Walk

/-!
Where paths lead. A path that leads anywhere leads where its components say, so two paths of the
same components do not lead to two places; and a name in a directory is looked up where the
directory is.
-/

namespace Reflow

/-- Two computations one after the other give a result if each of them does. Errors are not told
apart here. -/
theorem bind_eq_ok_iff {ε α β : Type} {x : Except ε α} {f : α → Except ε β} {b : β} :
    x >>= f = .ok b ↔ ∃ a, x = .ok a ∧ f a = .ok b := by
  cases x with
  | error e =>
      constructor
      · intro hBind
        cases hBind
      · rintro ⟨a, hError, -⟩
        cases hError
  | ok a =>
      constructor
      · intro hBind
        exact ⟨a, rfl, hBind⟩
      · rintro ⟨a', hEq, hResult⟩
        rw [Except.ok.inj hEq]
        exact hResult

namespace Node

/-- What stands at a part of a place is a directory, if something stands at the whole place that is
one. -/
theorem isDir_of_isPrefix {place front : List Text} {n : Node} (hFront : front <+: place)
    (h : (n.get? place).map isDir = some true) : (n.get? front).map isDir = some true := by
  obtain ⟨back, rfl⟩ := hFront
  rw [get?_append] at h
  cases hGet : n.get? front with
  | none =>
      rw [hGet] at h
      cases h
  | some child =>
      rw [hGet] at h
      cases child with
      | dir entries => rfl
      | file content =>
          cases back with
          | nil => exact h
          | cons name back => cases h

/-- Where there is content, there is no directory. -/
theorem not_isDir_of_content? {place : List Text} {n : Node}
    (h : (n.content? place).isSome = true) :
    (n.get? place).map isDir ≠ some true := by
  rw [(isSome_content?_iff place n).mp h]
  decide

end Node

namespace Host

variable {h : Host}

instance (p : Text) (place : List Text) : Decidable (h.Names p place) :=
  inferInstanceAs (Decidable (_ ∧ _))

section Step

/-- A piece is looked up in a directory: it is passed over, leads up, or is the name of an entry. In
all three cases the place must be that of a directory, so a slash behind the path of a file leads
nowhere. -/
theorem step_cases {place next : List Text} {piece : Text} (hStep : h.step place piece = .ok next) :
    (h.disk.get? place).map Node.isDir = some true ∧
      (Path.isSilent piece = true ∧ next = place ∨
        Path.isSilent piece = false ∧ piece = ['.', '.'] ∧ next = place.dropLast ∨
        Path.isSilent piece = false ∧ piece ≠ ['.', '.'] ∧ next = place ++ [piece]) := by
  rw [step] at hStep
  split at hStep
  · cases hStep
  · cases hStep
  next entries hGet =>
    rw [hGet]
    refine ⟨rfl, ?_⟩
    split at hStep
    next hSilent => exact Or.inl ⟨hSilent, (Except.ok.inj hStep).symm⟩
    next hSolid =>
      rw [Bool.not_eq_true] at hSolid
      split at hStep
      next hUp => exact Or.inr (Or.inl ⟨hSolid, beq_iff_eq.mp hUp, (Except.ok.inj hStep).symm⟩)
      next hName =>
        have hNe : piece ≠ ['.', '.'] := by simpa using hName
        split at hStep
        · cases hStep
        split at hStep
        · exact Or.inr (Or.inr ⟨hSolid, hNe, (Except.ok.inj hStep).symm⟩)
        · cases hStep

/-- An empty piece or a dot stays in a directory. At a file it is an error. -/
theorem step_of_silent {place : List Text} {piece : Text} (hSilent : Path.isSilent piece = true)
    (hDir : (h.disk.get? place).map Node.isDir = some true) : h.step place piece = .ok place := by
  obtain ⟨n, hGet, hIsDir⟩ := Option.map_eq_some_iff.mp hDir
  cases n with
  | file content => cases hIsDir
  | dir entries =>
      rw [step, hGet]
      exact if_pos hSilent

/-- An entry of a directory is found under its name. The name must not be too long for the system,
which is checked before the directory is searched. -/
theorem step_of_content? {place : List Text} {name : Text} (hName : Path.isSilent name = false)
    (hDots : name ≠ ['.', '.']) (hShort : Text.byteLength name ≤ maxName)
    (hFile : (h.disk.content? (place ++ [name])).isSome = true) :
    h.step place name = .ok (place ++ [name]) := by
  rw [Node.isSome_content?_iff] at hFile
  cases hGet : h.disk.get? place with
  | none =>
      rw [Node.get?_append, hGet] at hFile
      cases hFile
  | some n =>
      cases n with
      | file content =>
          rw [Node.get?_append, hGet] at hFile
          cases hFile
      | dir entries =>
          have hEntry : (entries.lookup name).isSome = true := by
            rw [Node.get?_append_singleton hGet] at hFile
            rw [← Option.isSome_map (f := Node.isDir), hFile]
            rfl
          have hLong : ¬maxName < Text.byteLength name := Nat.not_lt.mpr hShort
          simp [step, hGet, hName, hDots, hLong, hEntry]

/-- A piece that is found leads where its component leads. -/
theorem step_eq_move {place next : List Text} {piece : Text}
    (hStep : h.step place piece = .ok next) :
    next = (Path.steps [piece]).foldl Component.move place := by
  rcases (step_cases hStep).2 with ⟨hSilent, rfl⟩ | ⟨hSolid, rfl, rfl⟩ | ⟨hSolid, hName, rfl⟩
  · rw [Path.steps_of_silent (by simpa using hSilent)]
    rfl
  · rfl
  · rw [Path.steps_cons hSolid, Path.ofPiece, if_neg (by simpa using hName)]
    rfl

theorem foldlM_step_singleton (place : List Text) (piece : Text) :
    [piece].foldlM h.step place = h.step place piece := by
  rw [List.foldlM_cons]
  exact bind_pure _

/-- Pieces lead where the components lead that they stand for. So the pieces that stand for nothing
decide only whether the path leads anywhere. -/
theorem foldlM_step_eq_move {start place : List Text} {pieces : List Text}
    (hPieces : pieces.foldlM h.step start = .ok place) :
    place = (Path.steps pieces).foldl Component.move start := by
  induction pieces generalizing start with
  | nil => exact (Except.ok.inj hPieces).symm
  | cons piece pieces ih =>
      rw [List.foldlM_cons] at hPieces
      obtain ⟨next, hStep, hRest⟩ := bind_eq_ok_iff.mp hPieces
      rw [← List.singleton_append, Path.steps_append, List.foldl_append, ← step_eq_move hStep]
      exact ih hRest

/-- Pieces that lead to a file end with its name. They cannot end in `..` or in a silent piece,
which lead to directories only. -/
theorem foldlM_step_file {start place : List Text} {pieces : List Text} (hNe : pieces ≠ [])
    (hPieces : pieces.foldlM h.step start = .ok place)
    (hFile : (h.disk.content? place).isSome = true) :
    ∃ front name, Path.steps pieces = Path.steps front ++ [.name name] ∧
      place = (Path.steps front).foldl Component.move start ++ [name] := by
  rw [← List.dropLast_append_getLast hNe, List.foldlM_append] at hPieces
  obtain ⟨middle, hFront, hLast⟩ := bind_eq_ok_iff.mp hPieces
  rw [foldlM_step_singleton] at hLast
  obtain ⟨hDir, hCases⟩ := step_cases hLast
  rcases hCases with ⟨-, rfl⟩ | ⟨-, -, rfl⟩ | ⟨hSolid, hName, rfl⟩
  · exact absurd hDir (Node.not_isDir_of_content? hFile)
  · exact absurd (Node.isDir_of_isPrefix (List.dropLast_prefix middle) hDir)
      (Node.not_isDir_of_content? hFile)
  · refine ⟨pieces.dropLast, pieces.getLast hNe, ?_, by rw [← foldlM_step_eq_move hFront]⟩
    have hPiece : Path.steps [pieces.getLast hNe] = [.name (pieces.getLast hNe)] := by
      rw [Path.steps_cons hSolid, Path.ofPiece, if_neg (by simpa using hName)]
      rfl
    rw [← hPiece, ← Path.steps_append, List.dropLast_append_getLast hNe]

end Step

section Locate

/-- An absolute path is looked up from the root. -/
theorem locate_slash (t : Text) : h.locate ('/' :: t) = (t.splitOn '/').foldlM h.step [] := by
  have hSplit : ('/' :: t).splitOn '/' = [] :: t.splitOn '/' := List.splitOn_append_cons_self [] t
  rw [locate, hSplit]
  rfl

/-- A relative path is looked up from the working directory. -/
theorem locate_relative {p : Text} (hNe : p ≠ []) (hRelative : Path.isAbsolute p = false) :
    h.locate p = (p.splitOn '/').foldlM h.step h.cwd := by
  rw [locate, if_neg (by simpa using hNe), if_neg (by simp [hRelative])]

/-- The empty path leads nowhere, though its components lead to the working directory: it is an
error to the system. -/
theorem locate_nil (place : List Text) : h.locate [] ≠ .ok place := by
  intro hLocate
  cases hLocate

/-- What stands behind a slash is looked up where the path before it leads. If that path leads
nowhere, the whole does not either, for the same reason. -/
theorem locate_append {p : Text} (hNe : p ≠ []) (t : Text) :
    h.locate (p ++ '/' :: t) = h.locate p >>= fun place => (t.splitOn '/').foldlM h.step place := by
  cases hAbsolute : Path.isAbsolute p with
  | false =>
      rw [locate_relative hNe hAbsolute,
        locate_relative (by simp) ((Path.isAbsolute_append hNe _).trans hAbsolute),
        List.splitOn_append_cons_self, List.foldlM_append]
  | true =>
      obtain ⟨front, rfl⟩ := Path.isAbsolute_iff.mp hAbsolute
      rw [List.cons_append, locate_slash, locate_slash, List.splitOn_append_cons_self,
        List.foldlM_append]

/-- A path leads where its components lead. That is so if it leads anywhere; components also lead to
places where nothing is. -/
theorem resolve_eq {p : Text} {place : List Text} (hLocate : h.locate p = .ok place) :
    h.resolve p = place := by
  cases hAbsolute : Path.isAbsolute p with
  | true =>
      obtain ⟨t, rfl⟩ := Path.isAbsolute_iff.mp hAbsolute
      rw [locate_slash] at hLocate
      rw [resolve, Path.components_slash, foldlM_step_eq_move hLocate]
      rfl
  | false =>
      have hNe : p ≠ [] := by
        rintro rfl
        exact locate_nil place hLocate
      rw [locate_relative hNe hAbsolute] at hLocate
      rw [resolve, foldlM_step_eq_move hLocate]
      rcases Path.components_of_relative hAbsolute with hComponents | hComponents
      · rw [hComponents]
      · rw [hComponents]
        rfl

/-- A path is that of a file if it leads to some file. -/
theorem isFile_iff {p : Text} : h.isFile p = true ↔ ∃ place, h.Names p place := by
  rw [isFile, node?]
  cases hLocate : h.locate p with
  | error e => simp [Names, hLocate]
  | ok place =>
      simp only [Names, hLocate, Except.ok.injEq, exists_eq_left', Node.isSome_content?_iff]
      cases h.disk.get? place with
      | none => simp
      | some n => cases n <;> simp [Node.isDir]

/-- Two paths lead to one file. They need not be spellings of each other. -/
def SameFile (h : Host) (p q : Text) : Prop := ∃ place, h.Names p place ∧ h.Names q place

theorem SameFile.symm {p q : Text} (hSame : h.SameFile p q) : h.SameFile q p := by
  obtain ⟨place, hp, hq⟩ := hSame
  exact ⟨place, hq, hp⟩

theorem isFile_of_sameFile {p q : Text} (hSame : h.SameFile p q) : h.isFile p = true := by
  obtain ⟨place, hp, -⟩ := hSame
  exact isFile_iff.mpr ⟨place, hp⟩

/-- A spelling of a path to a file leads there too, if it leads to a file at all. With a slash at
the end it does not. -/
theorem Names.of_same {p q : Text} {place : List Text} (hp : h.Names p place)
    (hSame : Path.same p q = true) (hFile : h.isFile q = true) : h.Names q place := by
  obtain ⟨other, hq⟩ := isFile_iff.mp hFile
  have hPlace : place = other := by
    rw [← resolve_eq hp.1, ← resolve_eq hq.1, resolve, resolve, Path.same_iff.mp hSame]
  rwa [hPlace]

/-- Paths to one file that start alike and never go up are spelled alike. Without these conditions
there are different paths to one file, such as with a dot in front and without. -/
theorem SameFile.same {p q : Text} (hSame : h.SameFile p q) (hStart : Path.start p = Path.start q)
    (hp : Component.up ∉ Path.components p) (hq : Component.up ∉ Path.components q) :
    Path.same p q = true := by
  obtain ⟨place, hpPlace, hqPlace⟩ := hSame
  obtain ⟨names, hNames⟩ := Path.exists_names_of_notMem_up hp
  obtain ⟨others, hOthers⟩ := Path.exists_names_of_notMem_up hq
  have hResolve : h.resolve p = h.resolve q :=
    (resolve_eq hpPlace.1).trans (resolve_eq hqPlace.1).symm
  rw [resolve_of_components hNames, resolve_of_components hOthers, hStart] at hResolve
  rw [Path.same_iff, hNames, hOthers, hStart, List.append_cancel_left hResolve]

end Locate

section Opens

/-- What is looked up in `dir` is looked up at `place`. The empty path stands for the working
directory, though by itself it leads nowhere. Whether there is anything at the place that can be
opened is left open. -/
def Opens (h : Host) (dir : Text) (place : List Text) : Prop :=
  dir = [] ∧ place = h.cwd ∨ h.locate dir = .ok place

instance (dir : Text) (place : List Text) : Decidable (h.Opens dir place) :=
  inferInstanceAs (Decidable (_ ∨ _))

/-- A path opens at no other place than the one that its components lead to. -/
theorem Opens.resolve_eq {dir : Text} {place : List Text} (hDir : h.Opens dir place) :
    h.resolve dir = place := by
  rcases hDir with ⟨rfl, rfl⟩ | hLocate
  · rfl
  · exact Host.resolve_eq hLocate

/-- The path above a path that leads somewhere can be opened, and the rest is looked up from there.
The rest has one step, unless the last component is the dot with which the path starts. -/
theorem opens_above {q p : Text} {c : Component} (hExt : Path.Extends q p c) {place : List Text}
    (hLocate : h.locate p = .ok place) :
    ∃ above pieces, h.Opens q above ∧ pieces ≠ [] ∧ pieces.foldlM h.step above = .ok place ∧
      (Path.steps pieces = [c] ∨ Path.steps pieces = [] ∧ c = .here) := by
  cases hExt with
  | start hRelative hOne =>
      have hNe : p ≠ [] := by
        rintro rfl
        exact locate_nil place hLocate
      rw [locate_relative hNe hRelative] at hLocate
      refine ⟨h.cwd, _, Or.inl ⟨rfl, rfl⟩, List.splitOn_ne_nil _ _, hLocate, ?_⟩
      rcases Path.components_of_relative hRelative with hSteps | hSteps
      · exact Or.inl (hSteps ▸ hOne)
      · rw [hSteps] at hOne
        obtain ⟨rfl, hNil⟩ := List.cons.inj hOne
        exact Or.inr ⟨hNil, rfl⟩
  | @root t c hOne =>
      rw [locate_slash] at hLocate
      refine ⟨[], _, Or.inr ?_, List.splitOn_ne_nil _ _, hLocate, Or.inl hOne⟩
      obtain ⟨first, rest, hSplit⟩ := List.exists_cons_of_ne_nil (List.splitOn_ne_nil '/' t)
      rw [hSplit, List.foldlM_cons] at hLocate
      obtain ⟨next, hStep, -⟩ := bind_eq_ok_iff.mp hLocate
      rw [locate_slash, List.splitOn_nil, foldlM_step_singleton]
      exact step_of_silent rfl (step_cases hStep).1
  | @inside q t c hNe hOne =>
      rw [locate_append hNe] at hLocate
      obtain ⟨above, hAbove, hBack⟩ := bind_eq_ok_iff.mp hLocate
      exact ⟨above, _, Or.inr hAbove, List.splitOn_ne_nil _ _, hBack, Or.inl hOne⟩

/-- A file stands in the directory that the path above it opens. This is the directory in which the
search for its settings ends. -/
theorem Names.exists_parent {p : Text} {place : List Text} (hp : h.Names p place) :
    ∃ dir above name, Path.parent? p = some dir ∧ Path.Extends dir p (.name name) ∧
    h.Opens dir above ∧
      place = above ++ [name] := by
  obtain ⟨hLocate, hFile⟩ := hp
  rcases Path.parent?_cases p with ⟨hNone, hStart⟩ | ⟨dir, c, hSome, hExt⟩
  · cases hAbsolute : Path.isAbsolute p with
    | true =>
        obtain ⟨t, rfl⟩ := Path.isAbsolute_iff.mp hAbsolute
        rw [locate_slash] at hLocate
        obtain ⟨front, name, hSteps, -⟩ := foldlM_step_file (List.splitOn_ne_nil _ _) hLocate hFile
        rw [Path.components_slash, hSteps] at hStart
        simp [hAbsolute] at hStart
    | false =>
        have hNe : p ≠ [] := by
          rintro rfl
          exact locate_nil place hLocate
        obtain ⟨q, c, hSome, -⟩ := Path.parent?_cases_relative hAbsolute hNe
        rw [hNone] at hSome
        cases hSome
  · obtain ⟨above, pieces, hOpens, hNe, hPieces, hSteps⟩ := opens_above hExt hLocate
    obtain ⟨front, name, hEnd, hPlace⟩ := foldlM_step_file hNe hPieces hFile
    rw [hEnd] at hSteps
    rcases hSteps with hOne | ⟨hNil, -⟩
    · obtain ⟨hFront, hName⟩ : Path.steps front = [] ∧ Component.name name = c := by
        cases hFront : Path.steps front with
        | nil =>
            rw [hFront] at hOne
            exact ⟨rfl, (List.cons.inj hOne).1⟩
        | cons d front =>
            rw [hFront] at hOne
            simp at hOne
      rw [hFront] at hPlace
      exact ⟨dir, above, name, hSome, hName ▸ hExt, hOpens, hPlace⟩
    · simp at hNil

/-- Every station of a path that can be opened can be opened itself, and does so at the place that
its components lead to. -/
theorem opens_of_mem_stations {p : Text} {place : List Text} (hOpens : h.Opens p place) {q : Text}
    (hq : q ∈ Path.stations p) : h.Opens q (h.resolve q) := by
  induction p using Path.stations_induction generalizing place with
  | start p hOne hStart =>
      rw [hOne, List.mem_singleton] at hq
      rw [hq, hOpens.resolve_eq]
      exact hOpens
  | below r p c hExt hStations ih =>
      rw [hStations, List.mem_append, List.mem_singleton] at hq
      rcases hq with hq | rfl
      · rcases hOpens with ⟨rfl, -⟩ | hLocate
        · exact absurd hExt.length_lt (Nat.not_lt_zero _)
        · obtain ⟨above, pieces, hAbove, -⟩ := opens_above hExt hLocate
          exact ih hAbove hq
      · rw [hOpens.resolve_eq]
        exact hOpens

/-- A slash at the end of a path makes no difference to what is looked up behind it. What it asks,
that there be a directory, every other piece asks as well. -/
theorem foldlM_step_slash_iff {start place : List Text} {pieces : List Text} (hNe : pieces ≠ []) :
    (∃ above, h.step start [] = .ok above ∧ pieces.foldlM h.step above = .ok place) ↔
      pieces.foldlM h.step start = .ok place := by
  constructor
  · rintro ⟨above, hSlash, hPieces⟩
    obtain ⟨-, rfl⟩ | ⟨hSolid, -⟩ | ⟨hSolid, -⟩ := (step_cases hSlash).2
    · exact hPieces
    · cases hSolid
    · cases hSolid
  · intro hPieces
    obtain ⟨piece, rest, rfl⟩ := List.exists_cons_of_ne_nil hNe
    rw [List.foldlM_cons] at hPieces
    obtain ⟨next, hStep, hRest⟩ := bind_eq_ok_iff.mp hPieces
    refine ⟨start, step_of_silent rfl (step_cases hStep).1, ?_⟩
    rw [List.foldlM_cons]
    exact bind_eq_ok_iff.mpr ⟨next, hStep, hRest⟩

/-- What stands behind a path is looked up where the path opens. This holds however the two are
joined, be it with the slash of the first path, a new one, or none where the first path is empty. -/
theorem locate_join_eq_ok_iff {dir p : Text} {place : List Text} (hNe : p ≠ [])
    (hRelative : Path.isAbsolute p = false) :
    h.locate (Path.join dir p) = .ok place ↔
      ∃ above, h.Opens dir above ∧ (p.splitOn '/').foldlM h.step above = .ok place := by
  have hOpens : ∀ {q : Text}, q ≠ [] → ∀ above, h.Opens q above ↔ h.locate q = .ok above :=
    fun hNe above => or_iff_right fun hNil => hNe hNil.1
  have hSlash : ∀ start, (∃ above, h.step start [] = .ok above ∧
      (p.splitOn '/').foldlM h.step above = .ok place) ↔
      (p.splitOn '/').foldlM h.step start = .ok place :=
    fun start => foldlM_step_slash_iff (List.splitOn_ne_nil _ _)
  have hEnd : ∀ start, (List.splitOn '/' []).foldlM h.step start = h.step start [] := by
    intro start
    rw [List.splitOn_nil, foldlM_step_singleton]
  rcases Path.join_cases dir hRelative with ⟨rfl, hJoin⟩ | ⟨front, rfl, hJoin⟩ | ⟨hDir, hJoin⟩
  · rw [hJoin, locate_relative hNe hRelative]
    constructor
    · intro hPieces
      exact ⟨h.cwd, Or.inl ⟨rfl, rfl⟩, hPieces⟩
    · rintro ⟨above, ⟨-, rfl⟩ | hLocate, hPieces⟩
      · exact hPieces
      · exact absurd hLocate (locate_nil above)
  · rw [hJoin]
    simp only [hOpens (List.append_ne_nil_of_right_ne_nil front (List.cons_ne_nil _ _))]
    cases front with
    | nil => rw [List.nil_append, List.nil_append, locate_slash, locate_slash, hEnd, hSlash]
    | cons c front =>
        rw [locate_append (List.cons_ne_nil c front), locate_append (List.cons_ne_nil c front)]
        simp only [hEnd, bind_eq_ok_iff]
        constructor
        · rintro ⟨middle, hFront, hPieces⟩
          obtain ⟨above, hStep, hAbove⟩ := (hSlash middle).mpr hPieces
          exact ⟨above, ⟨middle, hFront, hStep⟩, hAbove⟩
        · rintro ⟨above, ⟨middle, hFront, hStep⟩, hAbove⟩
          exact ⟨middle, hFront, (hSlash middle).mp ⟨above, hStep, hAbove⟩⟩
  · rw [hJoin, locate_append hDir]
    simp only [hOpens hDir, bind_eq_ok_iff]

/-- A name behind a path is looked up where the path opens. For a name, to be looked up is one
step. -/
theorem locate_join_name_eq_ok_iff {dir name : Text} {place : List Text}
    (hName : Path.isSilent name = false) (hSlash : '/' ∉ name) :
    h.locate (Path.join dir name) = .ok place ↔
      ∃ above, h.Opens dir above ∧ h.step above name = .ok place := by
  have hNe : name ≠ [] := by
    rintro rfl
    cases hName
  simp only [locate_join_eq_ok_iff hNe (Path.isAbsolute_of_notMem hSlash),
    List.splitOn_eq_singleton hSlash, foldlM_step_singleton]

end Opens

section Cwd

/-- The path of the working directory is made of the names that lead there. This needs that it leads
there: a place with an empty name in it has no such path. -/
theorem components_cwdPath (hCwd : h.locate h.cwdPath = .ok h.cwd) :
    Path.components h.cwdPath = .root :: h.cwd.map .name := by
  rw [cwdPath, Path.components_slash]
  rw [cwdPath, locate_slash] at hCwd
  have hPlace := foldlM_step_eq_move hCwd
  congr 1
  by_cases hNil : h.cwd = []
  · rw [hNil]
    decide
  have hSlash : ∀ piece ∈ h.cwd, '/' ∉ piece := by
    intro piece hPiece
    rw [hPlace] at hPiece
    rcases Component.mem_of_mem_foldl_move hPiece with hNone | hName
    · cases hNone
    · exact Text.notMem_of_mem_splitOn (Path.mem_of_name_mem_steps hName)
  rw [Path.splitOn_joinPieces hNil hSlash] at hPlace ⊢
  -- There are as many pieces as names, so none of them may be passed over or lead up.
  have hLength : ((Path.steps h.cwd).foldl Component.move []).length =
      ([] : List Text).length + (Path.steps h.cwd).length := by
    have hUpper := Component.length_foldl_move_le [] (Path.steps h.cwd)
    have hSteps : (Path.steps h.cwd).length ≤ h.cwd.length := by
      rw [Path.steps, List.length_map]
      exact List.length_filter_le _ _
    rw [← hPlace] at hUpper ⊢
    exact Nat.le_antisymm hUpper (by simpa using hSteps)
  obtain ⟨names, hNames⟩ := Component.exists_names_of_length_foldl_move hLength
  rw [hNames, Component.foldl_move_names, List.nil_append] at hPlace
  rw [hNames, ← hPlace]

end Cwd

end Host

end Reflow
