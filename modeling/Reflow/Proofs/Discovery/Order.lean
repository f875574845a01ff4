import Reflow.Proofs.Discovery

/-!
Which of two files with settings wins. The search comes by the directories above a file from the
root on, so the nearer of two is found last, unless it is in the home directory: that file is found
first, and is not listed again where the search comes by.
-/

namespace Reflow.Config

variable {h : Host} {path : Text} {place far near : List Text}

/-- In the list, `near` comes after the last `far`. What `near` sets is then not overridden by
`far`, though it may be by others in between or behind. -/
def ListsAfter (dirs : List (List Text)) (far near : List Text) : Prop :=
  ∃ before after, dirs = before ++ near :: after ∧ far ∈ before ∧ far ∉ after

section Route

theorem exists_append_of_mem_last {dirs : List (List Text)} {dir : List Text} (hMem : dir ∈ dirs) :
    ∃ before after, dirs = before ++ dir :: after ∧ dir ∉ after := by
  obtain ⟨front, back, hReverse, hFront⟩ := List.eq_append_cons_of_mem (List.mem_reverse.mpr hMem)
  refine ⟨back.reverse, front.reverse, ?_, by rwa [List.mem_reverse]⟩
  rw [← List.reverse_reverse dirs, hReverse]
  simp

/-- The search comes by the nearer directory after it has come by the farther one for the last time.
It may come by the farther one more than once, if the path goes up and down again. -/
theorem exists_route_eq_append (hAbsolute : Path.isAbsolute path = true) (hp : h.Names path place)
    (hNear : near <+: place.dropLast) (hFar : far <+: near) (hNe : far ≠ near) :
    ∃ before dir after, route h path = before ++ dir :: after ∧ h.resolve dir = near ∧
      far ∉ after.map h.resolve := by
  obtain ⟨start, _, hRoute, hExt, hOpens⟩ := route_of_names hp
  have hStart : Path.isAbsolute start = true := hExt.isAbsolute_eq.trans hAbsolute
  have hPlace : h.resolve start = place.dropLast := hOpens.resolve_eq
  have hOut : ¬near <+: far := fun hBack => hNe (hFar.eq_of_length_le hBack.length_le)
  obtain ⟨q, hq, hqFar⟩ : ∃ q ∈ Path.stations start, h.resolve q = far :=
    Host.exists_mem_stations_of_isPrefix hStart (hPlace ▸ hFar.trans hNear)
  -- Behind its last visit to `far` the search ends below `near`, so there it comes by `near`.
  obtain ⟨front, back, hSplit, hLast⟩ :=
    exists_append_of_mem_last (hqFar ▸ List.mem_map_of_mem (f := h.resolve) hq)
  obtain ⟨before, more, hStations, -, hMore⟩ := List.map_eq_append_iff.mp hSplit
  obtain ⟨e, after, rfl, heFar, rfl⟩ := List.map_eq_cons_iff.mp hMore
  have hChain := Path.isChain_stations start
  have hEnd := Path.getLast?_stations start
  rw [hStations] at hChain hEnd
  have hIn : start ∈ after := by
    rw [List.getLast?_append_of_ne_nil _ (List.cons_ne_nil e after)] at hEnd
    rcases List.mem_cons.mp (List.mem_of_getLast? hEnd) with rfl | hMem
    · rw [← hPlace, heFar] at hNear
      exact absurd hNear hOut
    · exact hMem
  obtain ⟨dir, hDir, hdNear⟩ := Host.exists_mem_resolve_eq (List.isChain_append.mp hChain).2.1
    (heFar ▸ hOut) ⟨start, hIn, hPlace ▸ hNear⟩
  obtain ⟨between, rest, rfl⟩ := List.append_of_mem hDir
  refine ⟨before ++ e :: between, dir, rest, ?_, hdNear, ?_⟩
  · rw [hRoute, hStations, List.append_assoc, List.cons_append]
  · intro hMem
    apply hLast
    rw [List.map_append, List.map_cons]
    exact List.mem_append_right _ (List.mem_cons_of_mem _ hMem)

end Route

section Order

/-- A directory that the search comes by after the last `far`, and that adds its file, is listed
after `far`. Whether `far` is listed for the home directory or on the route does not matter. -/
theorem listsAfter_of_route {before after : List Text} {dir : Text}
    (hRoute : route h path = before ++ dir :: after) (hAdds : adds h dir = true)
    (hNe : far ≠ h.resolve dir) (hLast : far ∉ after.map h.resolve) (hFar : far ∈ sources h path) :
    ListsAfter (sources h path) far (h.resolve dir) := by
  have hKept : far ∉ (after.filter (adds h)).map h.resolve := by
    intro hMem
    obtain ⟨other, hOther, rfl⟩ := List.mem_map.mp hMem
    exact hLast (List.mem_map_of_mem (List.mem_of_mem_filter hOther))
  have hSources : sources h path = (homeSources h ++ (before.filter (adds h)).map h.resolve) ++
      h.resolve dir :: (after.filter (adds h)).map h.resolve := by
    rw [sources_eq_append, hRoute, List.filter_append, List.filter_cons_of_pos hAdds,
      List.map_append, List.map_cons, List.append_assoc]
  refine ⟨_, _, hSources, ?_, hKept⟩
  rw [hSources, List.mem_append, List.mem_cons] at hFar
  rcases hFar with hBefore | hEq | hAfter
  · exact hBefore
  · exact absurd hEq hNe
  · exact absurd hAfter hKept

/-- If `near` is the home directory, it is listed after `far` only if the search comes by it under
another path. Its place at the front of the list is before all others. -/
theorem exists_route_of_listsAfter (hRoute : ∀ dir ∈ route h path, h.Opens dir (h.resolve dir))
    (hHome : near ∈ homeSources h) (hNe : far ≠ near) (hFar : h.Configured far)
    (hAfter : ListsAfter (sources h path) far near) :
    ∃ before dir after, route h path = before ++ dir :: after ∧ h.resolve dir = near ∧
      far ∉ after.map h.resolve ∧ adds h dir = true := by
  obtain ⟨front, back, hSources, hFront, hBack⟩ := hAfter
  -- The home directory is listed first, so what is listed after `far` is on the route.
  have hHomeOnly : homeSources h = [near] := by
    obtain ⟨dir, hOne⟩ := List.length_eq_one_iff.mp
      (Nat.le_antisymm (length_homeSources_le h) (List.length_pos_of_mem hHome))
    rw [hOne] at hHome ⊢
    rw [List.mem_singleton.mp hHome]
  rw [sources_eq_append, hHomeOnly] at hSources
  obtain ⟨first, front, rfl⟩ := List.exists_cons_of_ne_nil (List.ne_nil_of_mem hFront)
  rw [List.singleton_append, List.cons_append, List.cons.injEq] at hSources
  obtain ⟨-, hMap⟩ := hSources
  obtain ⟨before, more, hFilter, -, hMore⟩ := List.map_eq_append_iff.mp hMap
  obtain ⟨dir, after, rfl, hDir, rfl⟩ := List.map_eq_cons_iff.mp hMore
  obtain ⟨front', back', hSplit, -, hBackFilter⟩ := List.filter_eq_append_iff.mp hFilter
  obtain ⟨between, rest, rfl, -, hAdds, rfl⟩ := List.filter_eq_cons_iff.mp hBackFilter
  refine ⟨front' ++ between, dir, rest, by rw [hSplit, List.append_assoc], hDir, ?_, hAdds⟩
  intro hMem
  obtain ⟨other, hOther, rfl⟩ := List.mem_map.mp hMem
  have hOnRoute : other ∈ route h path := by
    rw [hSplit]
    exact List.mem_append_right _ (List.mem_append_right _ (List.mem_cons_of_mem dir hOther))
  rcases adds_or_mem_homeSources (hRoute other hOnRoute) hFar with hOtherAdds | ⟨-, hOtherHome⟩
  · exact hBack (List.mem_map_of_mem (List.mem_filter.mpr ⟨hOther, hOtherAdds⟩))
  · rw [hHomeOnly] at hOtherHome
    exact hNe (List.mem_singleton.mp hOtherHome)

/-- A directory adds its file unless its path is a spelling of that to the home directory. This is
about a path to the home directory; all others with settings add their file. -/
theorem adds_iff_of_home {home dir : Text} (hHome : h.home = some home) (hOpens : h.Opens home near)
    (hDir : h.Opens dir near) (hConfigured : h.Configured near) :
    adds h dir = true ↔ Path.components dir ≠ Path.components home := by
  have hHomeFile := isFile_join_of_opens hOpens hConfigured
  have hFile := isFile_join_of_opens hDir hConfigured
  have hFiles : homeFiles h = [Path.join home fileName] := by
    rw [homeFiles, hHome, Option.map_some, Option.toList_some, List.filter_cons_of_pos hHomeFile,
      List.filter_nil]
  rw [adds, hFile, hFiles, List.any_cons, List.any_nil, Bool.or_false, Bool.true_and,
    Bool.not_eq_true', ← Bool.not_eq_true, Path.same_iff, components_join_fileName,
    components_join_fileName, List.append_left_inj]

/-- Directories before one that sets a part of the settings do not decide it. It or one behind it
does. -/
theorem getLast?_givenAt_append {α : Type} {x : Part α} {dir : List Text}
    (hGiven : (givenAt x h dir).isSome = true) (before after : List (List Text)) :
    ((before ++ dir :: after).filterMap (givenAt x h)).getLast? =
      ((dir :: after).filterMap (givenAt x h)).getLast? := by
  obtain ⟨value, hValue⟩ := Option.isSome_iff_exists.mp hGiven
  rw [List.filterMap_append, List.filterMap_cons_some hValue,
    List.getLast?_append_of_ne_nil _ (List.cons_ne_nil value _)]

/-- Of what the nearer of two listed directories sets, the farther one decides nothing: whatever is
written to its file, these parts of the settings stay. Parts that the nearer one leaves open may
change. -/
theorem ListsAfter.agreeOn {k : Host} {s : Settings} (hAfter : ListsAfter (sources h path) far near)
    (hSame : Host.SameElsewhere (· = far ++ [fileName]) h k) (hNe : far ≠ near)
    (hNear : settingsAt h near = some s) :
    AgreeOn s (ofDiscovered k path) (ofDiscovered h path) := by
  obtain ⟨before, after, hSources, -, hKept⟩ := hAfter
  apply agreeOn_of_forall_part
  intro α x hGiven
  have hSettings : ∀ dir ∈ near :: after, givenAt x k dir = givenAt x h dir := by
    intro dir hDir
    have hOther : dir ≠ far := by
      rintro rfl
      rcases List.mem_cons.mp hDir with hEq | hMem
      · exact hNe hEq
      · exact hKept hMem
    rw [givenAt, givenAt, settingsAt_eq hSame fun hEq => hOther (List.append_cancel_right hEq)]
  have hNearGiven : (givenAt x h near).isSome = true := by rwa [givenAt, hNear, Option.bind_some]
  have hNearKept : (givenAt x k near).isSome = true := by
    rwa [hSettings near List.mem_cons_self]
  rw [whole_ofDiscovered, whole_ofDiscovered, sources_eq hSame, hSources,
    getLast?_givenAt_append hNearGiven, getLast?_givenAt_append hNearKept,
    List.filterMap_congr hSettings]

end Order

/-- Of two directories above a file that have settings, the nearer one is listed after the farther
one, and what it sets is not overridden from there, unless it is the home directory: then it is
listed first, and once more only if the search comes by it under another path than that of the home
directory. -/
theorem listsAfter_sources_iff (hAbsolute : Path.isAbsolute path = true) (hp : h.Names path place)
    (hNear : near <+: place.dropLast) (hFar : far <+: near) (hNe : far ≠ near)
    (hNearFile : h.Configured near) (hFarFile : h.Configured far) :
    (ListsAfter (sources h path) far near ↔
      ∀ home, h.home = some home → h.Opens home near →
        ∃ before dir after, route h path = before ++ dir :: after ∧ h.resolve dir = near ∧
          far ∉ after.map h.resolve ∧ Path.components dir ≠ Path.components home) ∧
    (ListsAfter (sources h path) far near →
      ∀ k s, Host.SameElsewhere (· = far ++ [fileName]) h k → settingsAt h near = some s →
        AgreeOn s (ofDiscovered k path) (ofDiscovered h path)) := by
  have hRoute := opens_of_mem_route hp
  have hFarListed : far ∈ sources h path :=
    (mem_sources_iff hRoute).mpr
      ⟨hFarFile, Or.inr (mem_passed_of_isPrefix hAbsolute hp (hFar.trans hNear))⟩
  have hOn : ∀ {before after dir}, route h path = before ++ dir :: after → h.resolve dir = near →
      h.Opens dir near := by
    rintro before after dir hSplit rfl
    exact hRoute dir (hSplit ▸ List.mem_append_right before List.mem_cons_self)
  refine ⟨⟨?_, ?_⟩, fun hAfter k s hSame hSettings => hAfter.agreeOn hSame hNe hSettings⟩
  · intro hAfter home hHome hOpens
    have hNearHome : near ∈ homeSources h :=
      mem_homeSources_iff.mpr ⟨⟨home, hHome, hOpens⟩, hNearFile⟩
    obtain ⟨before, dir, after, hSplit, hDir, hLast, hAdds⟩ :=
      exists_route_of_listsAfter hRoute hNearHome hNe hFarFile hAfter
    have hDiffer := (adds_iff_of_home hHome hOpens (hOn hSplit hDir) hNearFile).mp hAdds
    exact ⟨before, dir, after, hSplit, hDir, hLast, hDiffer⟩
  · intro hOther
    by_cases hHomeAt : h.HomeAt near
    · obtain ⟨home, hHome, hOpens⟩ := hHomeAt
      obtain ⟨before, dir, after, hSplit, hDir, hLast, hDiffer⟩ := hOther home hHome hOpens
      have hAdds := (adds_iff_of_home hHome hOpens (hOn hSplit hDir) hNearFile).mpr hDiffer
      subst hDir
      exact listsAfter_of_route hSplit hAdds hNe hLast hFarListed
    · obtain ⟨before, dir, after, hSplit, rfl, hLast⟩ :=
        exists_route_eq_append hAbsolute hp hNear hFar hNe
      rcases adds_or_mem_homeSources (hOn hSplit rfl) hNearFile with hAdds | ⟨-, hHome⟩
      · exact listsAfter_of_route hSplit hAdds hNe hLast hFarListed
      · exact absurd (mem_homeSources_iff.mp hHome).1 hHomeAt

/-- Settings in a directory and in one below it, which holds a file. Where the home directory is, is
left open. -/
def nested (home : Text) : Host where
  disk := .dir [("w".toList, .dir
    [("h".toList, .dir
      [("a.go".toList, .file ByteArray.empty), ("rewrap.toml".toList, .file "column = 70".toUTF8)]),
    ("rewrap.toml".toList, .file "column = 60".toUTF8)])]
  cwd := []
  home := some home

/-- If the outer directory is the home directory, the inner one decides. -/
theorem listsAfter_sources_iff_nested :
    ListsAfter (sources (nested "/w".toList) "/w/h/a.go".toList) ["w".toList]
        ["w".toList, "h".toList] ∧
      ∀ k, Host.SameElsewhere (· = ["w".toList, fileName]) (nested "/w".toList) k →
        AgreeOn { column := some 70 } (ofDiscovered k "/w/h/a.go".toList)
          (ofDiscovered (nested "/w".toList) "/w/h/a.go".toList) := by
  have hp :
      (nested "/w".toList).Names "/w/h/a.go".toList ["w".toList, "h".toList, "a.go".toList] := by
    decide
  have hNearFile : (nested "/w".toList).Configured ["w".toList, "h".toList] := by decide
  have hFarFile : (nested "/w".toList).Configured ["w".toList] := by decide
  have hFar : ["w".toList] <+: ["w".toList, "h".toList] := ⟨["h".toList], rfl⟩
  have hOrder :=
    listsAfter_sources_iff (by decide) hp (List.prefix_refl _) hFar (by decide) hNearFile
    hFarFile
  have hAfter : ListsAfter (sources (nested "/w".toList) "/w/h/a.go".toList) ["w".toList]
      ["w".toList, "h".toList] := by
    apply hOrder.1.mpr
    rintro _ ⟨⟩ hOpens
    exact absurd hOpens (by decide)
  exact ⟨hAfter, fun k hSame => hOrder.2 hAfter k _ hSame (by decide +kernel)⟩

/-- If the inner directory is the home directory, the outer one decides. -/
theorem not_listsAfter_sources :
    (nested "/w/h".toList).Names "/w/h/a.go".toList ["w".toList, "h".toList, "a.go".toList] ∧
      (nested "/w/h".toList).Configured ["w".toList] ∧
      (nested "/w/h".toList).Configured ["w".toList, "h".toList] ∧
      ¬ListsAfter (sources (nested "/w/h".toList) "/w/h/a.go".toList) ["w".toList]
        ["w".toList, "h".toList] ∧
      (ofDiscovered (nested "/w/h".toList) "/w/h/a.go".toList).column = 60 := by
  refine ⟨by decide, by decide, by decide, ?_, by decide +kernel⟩
  have hSources : sources (nested "/w/h".toList) "/w/h/a.go".toList =
      [["w".toList, "h".toList], ["w".toList]] := by decide +kernel
  rw [hSources]
  rintro ⟨before, after, hEq, hFar, hKept⟩
  have hLast := congrArg List.getLast? hEq
  rw [List.getLast?_append_of_ne_nil _ (List.cons_ne_nil _ after)] at hLast
  rcases List.mem_cons.mp (List.mem_of_getLast? hLast.symm) with hSame | hMem
  · revert hSame
    decide
  · exact hKept hMem

end Reflow.Config
