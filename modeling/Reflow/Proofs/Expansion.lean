import Reflow.Expansion
import Reflow.Proofs.Location

/-!
Which files the inputs of a command stand for. The list holds one spelling of every path that an
input stands for, so a file is listed twice under two paths only that are no spellings of each
other: they start in different ways, or one of them goes up.
-/

namespace Reflow

section AddNew

/-- The list holds exactly one spelling of every path, the first. Two entries may lead to one file
all the same, if they are no spellings of each other. -/
structure Spells (found paths : List Text) : Prop where
  apart : found.Pairwise fun p q => Path.same p q = false
  sublist : found.Sublist paths
  complete : ∀ p ∈ paths, ∃ q ∈ found, Path.same p q = true

namespace Spells

variable {found paths : List Text}

/-- To add a path to a list that spells some paths gives one that spells this path as well. -/
theorem addNew (hFound : Spells found paths) (p : Text) :
    Spells (Expansion.addNew found p) (paths ++ [p]) := by
  rw [Expansion.addNew]
  split
  next hKnown =>
    refine ⟨hFound.apart, hFound.sublist.trans (List.sublist_append_left paths [p]), ?_⟩
    intro q hq
    rcases List.mem_append.mp hq with hq | hq
    · exact hFound.complete q hq
    · rw [List.mem_singleton.mp hq]
      exact List.any_eq_true.mp hKnown
  next hFresh =>
    rw [Bool.not_eq_true, List.any_eq_false] at hFresh
    refine ⟨?_, hFound.sublist.append (List.Sublist.refl [p]), ?_⟩
    · apply List.pairwise_append.mpr ⟨hFound.apart, List.pairwise_singleton _ p, ?_⟩
      intro q hq r hr
      rw [List.mem_singleton.mp hr, ← Bool.not_eq_true, Path.same_iff, eq_comm, ← Path.same_iff]
      exact hFresh q hq
    · intro q hq
      rcases List.mem_append.mp hq with hq | hq
      · obtain ⟨r, hr, hSame⟩ := hFound.complete q hq
        exact ⟨r, List.mem_append_left [p] hr, hSame⟩
      · rw [List.mem_singleton.mp hq]
        exact ⟨p, List.mem_append_right found List.mem_cons_self, Path.same_iff.mpr rfl⟩

/-- Added one after the other, all paths are spelled. Begun with nothing, the list spells the paths
that were added and no other ones. -/
theorem foldl_addNew (hFound : Spells found paths) (more : List Text) :
    Spells (more.foldl Expansion.addNew found) (paths ++ more) := by
  induction more generalizing found paths with
  | nil => rwa [List.append_nil]
  | cons p more ih =>
      rw [List.append_cons]
      exact ih (hFound.addNew p)

/-- Two spellings of one path in the list are one and the same. -/
theorem eq_of_same (hFound : Spells found paths) {p q : Text} (hp : p ∈ found) (hq : q ∈ found)
    (hSame : Path.same p q = true) : p = q := by
  have : Std.Symm fun p q : Text => Path.same p q = false := by
    refine ⟨fun p q hApart => ?_⟩
    rwa [← Bool.not_eq_true, Path.same_iff, eq_comm, ← Path.same_iff, Bool.not_eq_true]
  by_contra hNe
  exact absurd hSame (Bool.eq_false_iff.mp (hFound.apart.forall hp hq hNe))

end Spells

end AddNew

namespace Expansion

variable {h : Host} {exclude : List Text} {extensions : List (Text × Text)}
  {inputs files : List Text}

/-- The path is one that an input stands for. It need not be that of a file, since any input that is
neither a pattern nor a directory stands for itself. -/
def Reaches (h : Host) (exclude : List Text) (extensions : List (Text × Text)) (inputs : List Text)
    (p : Text) : Prop :=
  ∃ input ∈ inputs, ∃ paths, ofInput h exclude extensions input = .ok paths ∧ p ∈ paths

/-- Instead of the path, a spelling of it is listed that leads to no file, such as one with a slash
at the end. It came before the path that leads to the file. -/
def Lost (h : Host) (files : List Text) (p : Text) : Prop :=
  ∃ q ∈ files, Path.same p q = true ∧ h.isFile q = false

theorem mem_flatten_iff_reaches {found : List (List Text)}
    (hFound : inputs.mapM (ofInput h exclude extensions) = .ok found) (p : Text) :
    p ∈ found.flatten ↔ Reaches h exclude extensions inputs p := by
  induction inputs generalizing found with
  | nil =>
      obtain rfl := Except.ok.inj hFound
      simp [Reaches]
  | cons input inputs ih =>
      rw [List.mapM_cons] at hFound
      obtain ⟨paths, hPaths, hRest⟩ := bind_eq_ok_iff.mp hFound
      obtain ⟨rest, hInputs, hCons⟩ := bind_eq_ok_iff.mp hRest
      obtain rfl := Except.ok.inj hCons
      simp [Reaches, ih hInputs, hPaths]

/-- The files that the inputs stand for are one spelling each of all paths that the inputs reach. -/
theorem exists_spells_of_expand (hExpand : expand h exclude extensions inputs = .ok files) :
    ∃ paths, Spells files paths ∧ ∀ p, p ∈ paths ↔ Reaches h exclude extensions inputs p := by
  obtain ⟨found, hFound, hFiles⟩ := bind_eq_ok_iff.mp hExpand
  obtain rfl := Except.ok.inj hFiles
  have hStart : Spells [] [] := ⟨.nil, .slnil, List.forall_mem_nil _⟩
  exact ⟨found.flatten, hStart.foldl_addNew found.flatten, mem_flatten_iff_reaches hFound⟩

/-- A path to a file is lost, or a spelling of it is listed that leads to the file. The spelling may
be the path itself. -/
theorem lost_or_exists_names {paths : List Text} (hSpells : Spells files paths) {p : Text}
    (hp : p ∈ paths) {place : List Text} (hPlace : h.Names p place) :
    Lost h files p ∨ ∃ q ∈ files, Path.same p q = true ∧ h.Names q place := by
  obtain ⟨q, hq, hSame⟩ := hSpells.complete p hp
  cases hFile : h.isFile q with
  | false => exact Or.inl ⟨q, hq, hSame, hFile⟩
  | true => exact Or.inr ⟨q, hq, hSame, hPlace.of_same hSame hFile⟩

/-- No file is listed twice exactly if all paths to one file that the inputs stand for are spellings
of each other, but for those that are lost. Two paths that are listed for one file start in
different ways, or one of them goes up. -/
theorem expand_apart_iff (hExpand : expand h exclude extensions inputs = .ok files) :
    (files.Pairwise (fun p q => ¬h.SameFile p q) ↔
      ∀ p q, Reaches h exclude extensions inputs p → Reaches h exclude extensions inputs q →
        h.SameFile p q → Path.same p q = true ∨ Lost h files p ∨ Lost h files q) ∧
    files.Pairwise fun p q => h.SameFile p q →
      Path.start p ≠ Path.start q ∨ .up ∈ Path.components p ∨ .up ∈ Path.components q := by
  obtain ⟨paths, hSpells, hReaches⟩ := exists_spells_of_expand hExpand
  have hListed : ∀ {p : Text}, p ∈ files → Reaches h exclude extensions inputs p :=
    fun hp => (hReaches _).mp (hSpells.sublist.subset hp)
  refine ⟨⟨?_, ?_⟩, ?_⟩
  · rintro hApart p q hp hq ⟨place, hpPlace, hqPlace⟩
    rcases lost_or_exists_names hSpells ((hReaches p).mpr hp) hpPlace with
      hLost | ⟨p', hp', hpSame, hpFile⟩
    · exact Or.inr (Or.inl hLost)
    rcases lost_or_exists_names hSpells ((hReaches q).mpr hq) hqPlace with
      hLost | ⟨q', hq', hqSame, hqFile⟩
    · exact Or.inr (Or.inr hLost)
    have hOne : p' = q' := by
      have : Std.Symm fun p q : Text => ¬h.SameFile p q := ⟨fun _ _ hNot hSame => hNot hSame.symm⟩
      by_contra hNe
      exact hApart.forall hp' hq' hNe ⟨place, hpFile, hqFile⟩
    left
    rw [Path.same_iff] at hpSame hqSame ⊢
    rw [hpSame, hqSame, hOne]
  · intro hOnly
    apply hSpells.apart.imp_of_mem
    intro p q hp hq hDiffer hSame
    rcases hOnly p q (hListed hp)
      (hListed hq) hSame with hEq | ⟨r, hr, hpr, hFile⟩ | ⟨r, hr, hqr, hFile⟩
    · rw [hDiffer] at hEq
      cases hEq
    · rw [← hSpells.eq_of_same hp hr hpr, Host.isFile_of_sameFile hSame] at hFile
      cases hFile
    · rw [← hSpells.eq_of_same hq hr hqr, Host.isFile_of_sameFile hSame.symm] at hFile
      cases hFile
  · apply hSpells.apart.imp
    intro p q hDiffer hSame
    by_contra hPlain
    simp only [not_or, not_not] at hPlain
    rw [hSame.same hPlain.1 hPlain.2.1 hPlain.2.2] at hDiffer
    cases hDiffer

/-- A working directory with one file in it, and no settings anywhere. -/
def oneFile : Host where
  disk := .dir [("work".toList, .dir [("a.go".toList, .file ByteArray.empty)])]
  cwd := ["work".toList]
  home := none

/-- The file is listed with a dot in front and without one. -/
theorem expand_apart_iff_dot :
    expand oneFile [] [] [".".toList, "*.go".toList] = .ok ["./a.go".toList, "a.go".toList] ∧
      ["./a.go".toList, "a.go".toList].Pairwise fun p q => oneFile.SameFile p q →
        Path.start p ≠ Path.start q ∨ .up ∈ Path.components p ∨ .up ∈ Path.components q := by
  have hExpand : expand oneFile [] [] [".".toList, "*.go".toList] =
      .ok ["./a.go".toList, "a.go".toList] := by decide +kernel
  exact ⟨hExpand, (expand_apart_iff hExpand).2⟩

/-- A directory and a pattern that stand for one file list it twice. -/
theorem not_apart_expand : ∃ files,
    expand oneFile [] [] [".".toList, "*.go".toList] = .ok files ∧
      ¬files.Pairwise fun p q => ¬oneFile.SameFile p q := by
  refine ⟨["./a.go".toList, "a.go".toList], by decide +kernel, ?_⟩
  intro hApart
  have hOne : oneFile.SameFile "./a.go".toList "a.go".toList :=
    ⟨["work".toList, "a.go".toList], ⟨by decide, by decide⟩, ⟨by decide, by decide⟩⟩
  exact List.rel_of_pairwise_cons hApart List.mem_cons_self hOne

end Expansion

end Reflow
