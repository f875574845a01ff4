import Mathlib.Data.List.Dedup
import Reflow.Proofs.Discovery

/-!
What the spelling of a path does to its settings. The search for a relative path comes by the
working directory and those below it, that for the same path behind the working directory also by
those above.
-/

namespace Reflow.Config

variable {h : Host} {path : Text} {place : List Text}

section Passed

/-- A relative path leads where it leads behind the path of the working directory. So the two
spellings are of one file, and only the search for settings can tell them apart. -/
theorem names_join_cwdPath (hCwd : h.locate h.cwdPath = .ok h.cwd)
    (hRelative : Path.isAbsolute path = false) (hp : h.Names path place) :
    h.Names (Path.join h.cwdPath path) place := by
  have hNe : path ≠ [] := by
    rintro rfl
    exact Host.locate_nil place hp.1
  refine ⟨(Host.locate_join_eq_ok_iff hNe hRelative).mpr ⟨h.cwd, Or.inr hCwd, ?_⟩, hp.2⟩
  rw [← Host.locate_relative hNe hRelative]
  exact hp.1

/-- A list is the last of its own beginnings. -/
theorem exists_inits_eq_concat {α : Type} (l : List α) : ∃ front, l.inits = front ++ [l] := by
  induction l with
  | nil => exact ⟨[], rfl⟩
  | cons a l ih =>
      obtain ⟨front, hFront⟩ := ih
      refine ⟨[] :: front.map (a :: ·), ?_⟩
      rw [List.inits_cons, hFront, List.map_append, List.map_singleton, List.cons_append]

/-- A path that extends another one by a name ends in a step. -/
theorem steps_splitOn_ne_nil (hRelative : Path.isAbsolute path = false) {near name : Text}
    (hExt : Path.Extends near path (.name name)) : Path.steps (path.splitOn '/') ≠ [] := by
  intro hNil
  have hComponents := hExt.components_eq
  rcases Path.components_of_relative hRelative with hPath | hPath
  · simp [hPath, hNil] at hComponents
  · rw [hPath, hNil] at hComponents
    have hLast := congrArg List.getLast? hComponents
    simp at hLast

/-- The search for a relative path starts in the working directory, and that for the path behind the
working directory comes there from the root and goes on in the same way. -/
theorem exists_passed_eq (hCwd : h.locate h.cwdPath = .ok h.cwd)
    (hRelative : Path.isAbsolute path = false) (hp : h.Names path place) :
    ∃ front outer walk, passed h path = front ++ h.cwd :: walk ∧
      passed h (Path.join h.cwdPath path) = outer ++ h.cwd :: walk ∧
      (∀ dir ∈ front, dir = h.cwd) ∧ ∀ dir, dir ∈ outer ∨ dir = h.cwd ↔ dir <+: h.cwd := by
  obtain ⟨near, name, hRoute, hExt, -⟩ := route_of_names hp
  obtain ⟨far, other, hFarRoute, hFarExt, -⟩ :=
    route_of_names (names_join_cwdPath hCwd hRelative hp)
  -- Both paths end with the steps of the typed one, and the last of these is the name of the file.
  have hSteps := steps_splitOn_ne_nil hRelative hExt
  have hFar : Path.components far =
      .root :: (h.cwd.map .name ++ (Path.steps (path.splitOn '/')).dropLast) := by
    rw [← hFarExt.dropLast_components, Path.components_join (by simp [Host.cwdPath]) hRelative,
      Host.components_cwdPath hCwd, List.cons_append,
      List.dropLast_cons_of_ne_nil (by simp [hSteps]),
      List.dropLast_append_of_ne_nil hSteps]
  obtain ⟨walk, hWalk⟩ :
      ∃ walk, (Path.steps (path.splitOn '/')).dropLast.scanl Component.move h.cwd =
      h.cwd :: walk := by
    cases (Path.steps (path.splitOn '/')).dropLast with
    | nil => exact ⟨[], List.scanl_nil⟩
    | cons c cs => exact ⟨_, List.scanl_cons⟩
  obtain ⟨outer, hInits⟩ := exists_inits_eq_concat h.cwd
  have hPassed : passed h path = (Path.components path).dropLast.scanl Component.move h.cwd := by
    rw [passed, hRoute, hExt.dropLast_components]
    exact Host.map_resolve_stations_of_relative (hExt.isAbsolute_eq.trans hRelative)
  have hFarPassed : passed h (Path.join h.cwdPath path) = outer ++ h.cwd :: walk := by
    rw [passed, hFarRoute, Host.map_resolve_stations_of_absolute
      (hFarExt.isAbsolute_eq.trans (Path.isAbsolute_join rfl hRelative)) hFar, List.scanl_append,
      Component.scanl_move_names, Component.foldl_move_names, List.nil_append, hWalk,
      List.tail_cons, List.append_cons, ← hInits]
    simp
  have hOuter : ∀ dir, dir ∈ outer ∨ dir = h.cwd ↔ dir <+: h.cwd := by
    intro dir
    rw [← List.mem_inits, hInits, List.mem_append, List.mem_singleton]
  rcases Path.components_of_relative hRelative with hPath | hPath
  · refine ⟨[], outer, walk, ?_, hFarPassed, List.forall_mem_nil _, hOuter⟩
    rw [hPassed, hPath, hWalk, List.nil_append]
  · refine ⟨[h.cwd], outer, walk, ?_, hFarPassed, by simp, hOuter⟩
    rw [hPassed, hPath, List.dropLast_cons_of_ne_nil hSteps, List.scanl_cons]
    exact congrArg (h.cwd :: ·) hWalk

/-- The search for a relative path that never goes up comes by the directories from the working
directory to the file, and by no other ones. -/
theorem mem_passed_iff_of_notMem_up (hRelative : Path.isAbsolute path = false)
    (hp : h.Names path place) (hUp : Component.up ∉ Path.components path) {dir : List Text} :
    dir ∈ passed h path ↔ h.cwd <+: dir ∧ dir <+: place.dropLast := by
  obtain ⟨near, name, hRoute, hExt, hOpens⟩ := route_of_names hp
  have hNear : Path.isAbsolute near = false := hExt.isAbsolute_eq.trans hRelative
  have hNearUp : Component.up ∉ Path.components near := fun hMem =>
    hUp (hExt.components_eq ▸ List.mem_append_left _ hMem)
  have hInits : ∀ names : List Text, dir ∈ names.inits.map (h.cwd ++ ·) ↔
      h.cwd <+: dir ∧ dir <+: h.cwd ++ names := by
    intro names
    rw [List.mem_map]
    constructor
    · rintro ⟨front, hFront, rfl⟩
      rw [List.mem_inits] at hFront
      exact ⟨List.prefix_append _ _, (List.prefix_append_right_inj _).mpr hFront⟩
    · rintro ⟨⟨front, rfl⟩, hFront⟩
      exact ⟨front, (List.mem_inits _ _).mpr ((List.prefix_append_right_inj _).mp hFront), rfl⟩
  rw [passed, hRoute, Host.map_resolve_stations_of_relative hNear, ← hOpens.resolve_eq,
    Host.resolve]
  rcases Path.components_of_relative hNear with hSteps | hSteps
  · rw [hSteps] at hNearUp ⊢
    obtain ⟨names, hNames⟩ := Path.exists_steps_eq_names hNearUp
    rw [hNames, Component.scanl_move_names, Component.foldl_move_names]
    exact hInits names
  · rw [hSteps] at hNearUp ⊢
    rw [List.mem_cons, not_or] at hNearUp
    obtain ⟨names, hNames⟩ := Path.exists_steps_eq_names hNearUp.2
    rw [hNames, List.scanl_cons, List.foldl_cons, Component.move, Component.scanl_move_names,
      Component.foldl_move_names, List.mem_cons, hInits names, or_iff_right_iff_imp]
    rintro rfl
    exact ⟨List.prefix_refl _, List.prefix_append _ _⟩

end Passed

section Last

/-- A list is its entries with a property and then those without it, if none without it comes before
one that has it. -/
theorem filter_append_filter_not_of_pairwise {α : Type} {p : α → Bool} {l : List α}
    (hFirst : l.Pairwise fun a later => p later = true → p a = true) :
    l.filter p ++ l.filter (fun a => !p a) = l := by
  induction l with
  | nil => rfl
  | cons a l ih =>
      obtain ⟨hHead, hTail⟩ := List.pairwise_cons.mp hFirst
      cases ha : p a with
      | true =>
          rw [List.filter_cons_of_pos ha, List.filter_cons_of_neg (by simp [ha]), List.cons_append,
            ih hTail]
      | false =>
          have hNone : ∀ b ∈ l, p b = false := by
            intro b hb
            rw [← Bool.not_eq_true]
            intro hpb
            rw [hHead b hb hpb] at ha
            cases ha
          have hOthers : l.filter p = [] :=
            List.filter_eq_nil_iff.mpr fun b hb => by simp [hNone b hb]
          have hAll : l.filter (fun a => !p a) = l :=
            List.filter_eq_self.mpr fun b hb => by simp [hNone b hb]
          rw [List.filter_cons_of_neg (by simp [ha]), List.filter_cons_of_pos (by simp [ha]),
            hOthers, hAll, List.nil_append]

/-- Where all entries are one or come again later, the last value is that of the one and the later
ones. -/
theorem getLast?_filterMap_append {α β : Type} (g : α → Option β) {one front back : List α}
    (hOne : one.length ≤ 1) (hMem : ∀ a ∈ one, a ∈ front)
    (hFront : ∀ a ∈ front, a ∈ one ∨ a ∈ back) :
    ((front ++ back).filterMap g).getLast? = ((one ++ back).filterMap g).getLast? := by
  rw [List.filterMap_append, List.filterMap_append, List.getLast?_append, List.getLast?_append]
  cases hBack : (back.filterMap g).getLast? with
  | some value => rfl
  | none =>
      rw [List.getLast?_eq_none_iff, List.filterMap_eq_nil_iff] at hBack
      have hValues : ∀ value ∈ front.filterMap g, value ∈ one.filterMap g := by
        intro value hValue
        obtain ⟨a, ha, hga⟩ := List.mem_filterMap.mp hValue
        rcases hFront a ha with haOne | haBack
        · exact List.mem_filterMap.mpr ⟨a, haOne, hga⟩
        · rw [hBack a haBack] at hga
          cases hga
      have hLength := (List.length_filterMap_le g one).trans hOne
      rw [Option.none_or, Option.none_or]
      cases hGiven : one.filterMap g with
      | nil =>
          rw [hGiven] at hValues
          have hNone : front.filterMap g = [] :=
            List.eq_nil_iff_forall_not_mem.mpr fun value hValue =>
              List.not_mem_nil (hValues value hValue)
          rw [hNone]
      | cons value rest =>
          rw [hGiven, List.length_cons] at hLength
          obtain rfl := List.length_eq_zero_iff.mp (Nat.le_zero.mp (Nat.le_of_succ_le_succ hLength))
          have hValue : value ∈ one.filterMap g := hGiven ▸ List.mem_cons_self
          obtain ⟨a, ha, hga⟩ := List.mem_filterMap.mp hValue
          have hNe := List.ne_nil_of_mem (List.mem_filterMap.mpr ⟨a, hMem a ha, hga⟩)
          have hLast := hValues _ (List.getLast_mem hNe)
          rw [hGiven, List.mem_singleton] at hLast
          rw [List.getLast?_eq_some_getLast hNe, hLast, List.getLast?_singleton]

/-- The directories of a way that have settings, without the home directory. The home directory is
left out because its file is found before all others. -/
def settled (h : Host) (walk : List (List Text)) : List (List Text) :=
  walk.filter fun dir => h.Configured dir ∧ dir ∉ homeSources h

/-- The search comes by no other directory with settings before it comes by the home directory.
Otherwise the place of the home directory in the list depends on how its path is spelled. -/
def HomeFirst (h : Host) (walk : List (List Text)) : Prop :=
  walk.Pairwise fun dir later =>
    h.Configured dir → h.Configured later → h.HomeAt later → h.HomeAt dir

/-- What is listed for a way is the home directory, and then the other directories with settings.
The home directory may be listed several times or not at all here, according to how its path is
spelled. -/
theorem exists_listed_eq {dirs : List Text} (hOpens : ∀ dir ∈ dirs, h.Opens dir (h.resolve dir))
    (hFirst : HomeFirst h (dirs.map h.resolve)) :
    ∃ front, (dirs.filter (adds h)).map h.resolve = front ++ settled h (dirs.map h.resolve) ∧
      ∀ dir ∈ front, dir ∈ homeSources h := by
  have hPairwise : ((dirs.filter (adds h)).map h.resolve).Pairwise fun dir later =>
      decide (later ∈ homeSources h) = true → decide (dir ∈ homeSources h) = true := by
    apply (List.Pairwise.sublist (List.filter_sublist.map h.resolve) hFirst).imp_of_mem
    intro dir later hDir _ hOrder hLater
    obtain ⟨d, hd, rfl⟩ := List.mem_map.mp hDir
    have hConfigured := configured_of_adds (List.of_mem_filter hd)
    obtain ⟨hHome, hLaterConfigured⟩ := mem_homeSources_iff.mp (of_decide_eq_true hLater)
    exact decide_eq_true
      (mem_homeSources_iff.mpr ⟨hOrder hConfigured hLaterConfigured hHome, hConfigured⟩)
  have hSettled : ((dirs.filter (adds h)).map h.resolve).filter
      (fun dir => !decide (dir ∈ homeSources h)) = settled h (dirs.map h.resolve) := by
    rw [settled, List.filter_map, List.filter_map, List.filter_filter]
    congr 1
    apply List.filter_congr
    intro dir hDir
    rw [Function.comp_apply, Function.comp_apply, Bool.eq_iff_iff]
    simp only [Bool.and_eq_true, Bool.not_eq_true', decide_eq_false_iff_not, decide_eq_true_eq]
    constructor
    · rintro ⟨hOther, hAdds⟩
      exact ⟨configured_of_adds hAdds, hOther⟩
    · rintro ⟨hConfigured, hOther⟩
      rcases adds_or_mem_homeSources (hOpens dir hDir) hConfigured with hAdds | ⟨-, hHome⟩
      · exact ⟨hOther, hAdds⟩
      · exact absurd hHome hOther
  refine ⟨((dirs.filter (adds h)).map h.resolve).filter fun dir =>
    decide (dir ∈ homeSources h), ?_, ?_⟩
  · rw [← hSettled]
    exact (filter_append_filter_not_of_pairwise hPairwise).symm
  · intro dir hDir
    exact of_decide_eq_true (List.mem_filter.mp hDir).2

/-- Before the directories of a way, only the home directory counts, and those that come again. So
settings depend on the way that two spellings share, and not on how each comes to its start. -/
theorem whole_ofDiscovered_of_passed {changed : List Text → Prop} {k : Host}
    (hSame : Host.SameElsewhere changed h k)
    (hOpens : ∀ dir ∈ route h path, h.Opens dir (h.resolve dir))
    {front walk : List (List Text)} (hPassed : passed h path = front ++ walk)
    (hFront : ∀ dir ∈ front, h.Configured dir → h.HomeAt dir ∨ dir ∈ walk)
    (hFirst : HomeFirst h walk) {α : Type} (x : Part α) :
    x.whole (ofDiscovered k path) =
      ((homeSources h ++ settled h walk).filterMap (givenAt x k)).getLast?.getD (x.whole {}) := by
  obtain ⟨outer, dirs, hRoute, rfl, rfl⟩ := List.map_eq_append_iff.mp hPassed
  rw [hRoute] at hOpens
  obtain ⟨first, hListed, hHome⟩ :=
    exists_listed_eq (fun dir hDir => hOpens dir (List.mem_append_right outer hDir)) hFirst
  rw [whole_ofDiscovered, sources_eq hSame, sources_eq_append, hRoute, List.filter_append,
    List.map_append, hListed, ← List.append_assoc, ← List.append_assoc]
  congr 1
  apply getLast?_filterMap_append _ (length_homeSources_le h)
  · intro dir hDir
    exact List.mem_append_left _ (List.mem_append_left _ hDir)
  · intro dir hDir
    rcases List.mem_append.mp hDir with hDir | hDir
    · rcases List.mem_append.mp hDir with hDir | hDir
      · exact Or.inl hDir
      · obtain ⟨d, hd, rfl⟩ := List.mem_map.mp hDir
        obtain ⟨hd, hAdds⟩ := List.mem_filter.mp hd
        have hConfigured := configured_of_adds hAdds
        by_cases hAtHome : h.resolve d ∈ homeSources h
        · exact Or.inl hAtHome
        · rcases hFront _ (List.mem_map_of_mem hd) hConfigured with hIsHome | hAgain
          · exact Or.inl (mem_homeSources_iff.mpr ⟨hIsHome, hConfigured⟩)
          · exact Or.inr (List.mem_filter.mpr ⟨hAgain, decide_eq_true ⟨hConfigured, hAtHome⟩⟩)
    · exact Or.inl (hHome dir hDir)

end Last

section Spelling

/-- A text that sets the column to one. -/
def oneColumn : ByteArray := "column = 1".toUTF8

/-- The machine after the files in the directories were emptied, but for that in one directory,
which sets the column to one. It serves to show that this file is listed for one input and not for
another. -/
def setOnly (h : Host) (dirs : List (List Text)) (one : List Text) : Host :=
  h.writeAll (dirs.dedup.map fun dir =>
    (dir ++ [fileName], if dir = one then oneColumn else ByteArray.empty))

/-- On that machine, only the one directory sets the column. -/
theorem givenAt_column_setOnly {dirs : List (List Text)} {dir : List Text} (hDir : dir ∈ dirs)
    (hConfigured : h.Configured dir) (one : List Text) :
    givenAt .column (setOnly h dirs one) dir = if dir = one then some 1 else none := by
  have hOne : ((String.fromUTF8? oneColumn).map String.toList).bind Settings.ofText? =
      some { column := some 1 } := by decide +kernel
  have hEmpty : ((String.fromUTF8? ByteArray.empty).map String.toList).bind Settings.ofText? =
      some {} := by decide +kernel
  have hApart : (dirs.dedup.map fun dir =>
      (dir ++ [fileName], if dir = one then oneColumn else ByteArray.empty)).Pairwise
      fun edit other => edit.1 ≠ other.1 := by
    rw [List.pairwise_map]
    apply (List.nodup_dedup dirs).imp
    intro dir other hNe hEq
    exact hNe (List.append_cancel_right hEq)
  have hContent : (setOnly h dirs one).disk.content? (dir ++ [fileName]) =
      some (if dir = one then oneColumn else ByteArray.empty) :=
    Node.content?_writeAll_of_mem hApart
      (List.mem_map.mpr ⟨dir, List.mem_dedup.mpr hDir, rfl⟩) hConfigured
  rw [givenAt, settingsAt, hContent, Option.bind_some]
  split
  · rw [hOne]
    rfl
  · rw [hEmpty]
    rfl

/-- If a directory is listed for one input only, the two inputs do not have the same settings
whatever is in the files: the file in this directory can set what no other file sets. -/
theorem exists_not_agree {p q : Text} (hSubset : ∀ dir ∈ sources h p, dir ∈ sources h q)
    (hConfigured : ∀ dir ∈ sources h q, h.Configured dir) {one : List Text} (hq : one ∈ sources h q)
    (hp : one ∉ sources h p) :
    ∃ k, Host.SameElsewhere (fun _ => True) h k ∧ ¬Agree (ofDiscovered k p) (ofDiscovered k q) := by
  have hSame : Host.SameElsewhere (fun _ => True) h (setOnly h (sources h q) one) :=
    (Host.sameElsewhere_writeAll h _).mono fun _ _ => trivial
  refine ⟨_, hSame, ?_⟩
  intro hAgree
  -- All other files that are found are empty, so the column tells whether the one is found.
  have hNear : (ofDiscovered (setOnly h (sources h q) one) p).column = 100 := by
    have hNone : (sources h p).filterMap (givenAt .column (setOnly h (sources h q) one)) = [] := by
      rw [List.filterMap_eq_nil_iff]
      intro dir hDir
      have hOther : dir ≠ one := fun hEq => hp (hEq ▸ hDir)
      rw [givenAt_column_setOnly (hSubset dir hDir) (hConfigured dir (hSubset dir hDir)),
        if_neg hOther]
    have hWhole := whole_ofDiscovered .column (setOnly h (sources h q) one) p
    rw [sources_eq hSame, hNone] at hWhole
    exact hWhole
  have hFar : (ofDiscovered (setOnly h (sources h q) one) q).column = 1 := by
    have hValues :
        ∀ value ∈ (sources h q).filterMap (givenAt .column (setOnly h (sources h q) one)),
        value = 1 := by
      intro value hValue
      obtain ⟨dir, hDir, hGiven⟩ := List.mem_filterMap.mp hValue
      rw [givenAt_column_setOnly hDir (hConfigured dir hDir)] at hGiven
      split at hGiven
      · exact (Option.some.inj hGiven).symm
      · cases hGiven
    have hGiven := (givenAt_column_setOnly hq (hConfigured one hq) one).trans (if_pos rfl)
    have hNe := List.ne_nil_of_mem (List.mem_filterMap.mpr ⟨one, hq, hGiven⟩)
    have hWhole := whole_ofDiscovered .column (setOnly h (sources h q) one) q
    rw [sources_eq hSame, List.getLast?_eq_some_getLast hNe,
      hValues _ (List.getLast_mem hNe)] at hWhole
    exact hWhole
  have hColumn := hAgree.column
  rw [hNear, hFar] at hColumn
  cases hColumn

section Join

variable (hCwd : h.locate h.cwdPath = .ok h.cwd) (hRelative : Path.isAbsolute path = false)
  (hp : h.Names path place)
include hCwd hRelative hp

/-- Behind the path of the working directory, a path has the settings of the directories above that
as well. It loses none of those that it has by itself. -/
theorem mem_sources_join_iff {dir : List Text} :
    dir ∈ sources h (Path.join h.cwdPath path) ↔
      dir ∈ sources h path ∨ h.Configured dir ∧ dir <+: h.cwd := by
  obtain ⟨front, outer, walk, hPassed, hFarPassed, hFront, hOuter⟩ :=
    exists_passed_eq hCwd hRelative hp
  have hFar := opens_of_mem_route (names_join_cwdPath hCwd hRelative hp)
  have hMem : dir ∈ passed h (Path.join h.cwdPath path) ↔ dir ∈ passed h path ∨ dir <+: h.cwd := by
    rw [hPassed, hFarPassed, ← hOuter dir, List.mem_append, List.mem_append, List.mem_cons]
    constructor
    · rintro (hMem | hEq | hMem)
      · exact Or.inr (Or.inl hMem)
      · exact Or.inr (Or.inr hEq)
      · exact Or.inl (Or.inr (Or.inr hMem))
    · rintro ((hMem | hEq | hMem) | hMem | hEq)
      · exact Or.inr (Or.inl (hFront dir hMem))
      · exact Or.inr (Or.inl hEq)
      · exact Or.inr (Or.inr hMem)
      · exact Or.inl hMem
      · exact Or.inr (Or.inl hEq)
  rw [mem_sources_iff hFar, mem_sources_iff (opens_of_mem_route hp), hMem]
  tauto

/-- Where the directories above the working directory add nothing, both spellings have the same
settings. The home directory and directories that the path itself comes by are no addition. -/
theorem agree_join_of_forall_prefix {changed : List Text → Prop} {k : Host}
    (hSame : Host.SameElsewhere changed h k) (hFirst : HomeFirst h (passed h path))
    (hAbove : ∀ dir, dir <+: h.cwd → h.Configured dir → h.HomeAt dir ∨ dir ∈ passed h path) :
    Agree (ofDiscovered k path) (ofDiscovered k (Path.join h.cwdPath path)) := by
  obtain ⟨front, outer, walk, hPassed, hFarPassed, hFront, hOuter⟩ :=
    exists_passed_eq hCwd hRelative hp
  have hFar := opens_of_mem_route (names_join_cwdPath hCwd hRelative hp)
  have hWalk : HomeFirst h (h.cwd :: walk) := by
    rw [HomeFirst, hPassed] at hFirst
    exact (List.pairwise_append.mp hFirst).2.1
  have hFrontAgain : ∀ dir ∈ front, dir ∈ h.cwd :: walk := by
    intro dir hDir
    rw [hFront dir hDir]
    exact List.mem_cons_self
  have hOuterAgain : ∀ dir ∈ outer, h.Configured dir → h.HomeAt dir ∨ dir ∈ h.cwd :: walk := by
    intro dir hDir hConfigured
    rcases hAbove dir ((hOuter dir).mp (Or.inl hDir)) hConfigured with hHome | hOnWay
    · exact Or.inl hHome
    · rcases List.mem_append.mp (hPassed ▸ hOnWay) with hMem | hMem
      · exact Or.inr (hFrontAgain dir hMem)
      · exact Or.inr hMem
  apply agree_of_forall_part
  intro α x
  rw [whole_ofDiscovered_of_passed hSame (opens_of_mem_route hp) hPassed
      (fun dir hDir _ => Or.inr (hFrontAgain dir hDir)) hWalk,
    whole_ofDiscovered_of_passed hSame hFar hFarPassed hOuterAgain hWalk]

end Join

/-- Behind the path of the working directory, a path to a file has the settings of all directories
above the file; by itself, it has those of the directories it comes by, which are those from the
working directory on if it never goes up; and both have those of the home directory. If the path
comes by no other directory with settings before it comes by the home directory, the two have the
same settings whatever is in the files exactly if no directory above the working directory has
settings, but for the home directory and those that the path comes by. -/
theorem agree_join_cwdPath_iff (hCwd : h.locate h.cwdPath = .ok h.cwd)
    (hRelative : Path.isAbsolute path = false) (hp : h.Names path place) :
    (∀ dir, dir <+: place.dropLast → h.Configured dir →
      dir ∈ sources h (Path.join h.cwdPath path)) ∧
    (∀ dir, dir ∈ sources h path ↔ h.Configured dir ∧ (h.HomeAt dir ∨ dir ∈ passed h path)) ∧
    (Component.up ∉ Path.components path →
      ∀ dir, dir ∈ passed h path ↔ h.cwd <+: dir ∧ dir <+: place.dropLast) ∧
    (HomeFirst h (passed h path) →
      ((∀ k, Host.SameElsewhere (fun _ => True) h k →
          Agree (ofDiscovered k path) (ofDiscovered k (Path.join h.cwdPath path))) ↔
        ∀ dir, dir <+: h.cwd → h.Configured dir → h.HomeAt dir ∨ dir ∈ passed h path)) := by
  have hq := names_join_cwdPath hCwd hRelative hp
  have hNear : ∀ dir, dir ∈ sources h path ↔
      h.Configured dir ∧ (h.HomeAt dir ∨ dir ∈ passed h path) :=
    fun _ => mem_sources_iff (opens_of_mem_route hp)
  refine ⟨?_, hNear, fun hUp dir => mem_passed_iff_of_notMem_up hRelative hp hUp, fun hFirst =>
    ⟨?_, ?_⟩⟩
  · intro dir hDir hConfigured
    exact (mem_sources_iff (opens_of_mem_route hq)).mpr
      ⟨hConfigured, Or.inr (mem_passed_of_isPrefix (Path.isAbsolute_join rfl hRelative) hq hDir)⟩
  · intro hAgree dir hDir hConfigured
    by_contra hOut
    have hSubset : ∀ other ∈ sources h path, other ∈ sources h (Path.join h.cwdPath path) :=
      fun other hOther => (mem_sources_join_iff hCwd hRelative hp).mpr (Or.inl hOther)
    have hOnlyFar : dir ∈ sources h (Path.join h.cwdPath path) :=
      (mem_sources_join_iff hCwd hRelative hp).mpr (Or.inr ⟨hConfigured, hDir⟩)
    have hNotNear : dir ∉ sources h path := fun hListed => hOut ((hNear dir).mp hListed).2
    obtain ⟨k, hSame, hDiffer⟩ := exists_not_agree hSubset
      (fun other hOther => ((mem_sources_iff (opens_of_mem_route hq)).mp hOther).1) hOnlyFar
        hNotNear
    exact hDiffer (hAgree k hSame)
  · intro hAbove k hSame
    exact agree_join_of_forall_prefix hCwd hRelative hp hSame hFirst hAbove

/-- A working directory below the root, with a file in it. What else is at the root and in the
working directory is left open. -/
def working (outer inner : List (Text × Node)) : Host where
  disk := .dir (outer ++ [("work".toList, .dir (("a.go".toList, .file ByteArray.empty) :: inner))])
  cwd := ["work".toList]
  home := none

/-- A file with settings. -/
def sixty : Text × Node := ("rewrap.toml".toList, .file "column = 60".toUTF8)

/-- Settings in the working directory itself are found in both ways. -/
theorem agree_join_cwdPath_iff_inner :
    HomeFirst (working [] [sixty]) (passed (working [] [sixty]) "a.go".toList) ∧
      ∀ k, Host.SameElsewhere (fun _ => True) (working [] [sixty]) k →
        Agree (ofDiscovered k "a.go".toList)
          (ofDiscovered k (Path.join (working [] [sixty]).cwdPath "a.go".toList)) := by
  have hPassed : passed (working [] [sixty]) "a.go".toList = [["work".toList]] := by decide +kernel
  have hFirst : HomeFirst (working [] [sixty]) (passed (working [] [sixty]) "a.go".toList) := by
    rw [hPassed]
    exact List.pairwise_singleton _ _
  have hp : (working [] [sixty]).Names "a.go".toList ["work".toList, "a.go".toList] := by decide
  refine ⟨hFirst, ((agree_join_cwdPath_iff (by decide) (by decide) hp).2.2.2 hFirst).mpr ?_⟩
  intro dir hDir hConfigured
  rcases List.prefix_cons_iff.mp hDir with rfl | ⟨rest, rfl, hRest⟩
  · exact absurd hConfigured (by decide)
  · rw [hPassed, List.prefix_nil.mp hRest]
    exact Or.inr List.mem_cons_self

/-- Settings above the working directory are found only behind its path. -/
theorem not_agree_join_cwdPath :
    (working [sixty] []).locate (working [sixty] []).cwdPath = .ok (working [sixty] []).cwd ∧
      (working [sixty] []).Names "a.go".toList ["work".toList, "a.go".toList] ∧
      (ofDiscovered (working [sixty] []) "a.go".toList).column = 100 ∧
      (ofDiscovered (working [sixty] [])
      (Path.join (working [sixty] []).cwdPath "a.go".toList)).column =
        60 := by
  decide +kernel

end Spelling

end Reflow.Config
