import Reflow.Config.Discovery
import Reflow.Proofs.Location
import Reflow.Proofs.Overlay

/-!
Which files decide the settings of an input. All that are found have one name, so settings do not
depend on the content of files with another name. They are known by the directories in which they
stand: of every part of the settings, the last of these directories decides whose file sets it.
-/

namespace Reflow

namespace Host

/-- There is a file with settings at the place. It may be malformed or not be text: it is found all
the same. -/
def Configured (h : Host) (dir : List Text) : Prop :=
  (h.disk.content? (dir ++ [Config.fileName])).isSome = true

instance (h : Host) (dir : List Text) : Decidable (h.Configured dir) :=
  inferInstanceAs (Decidable (_ = _))

/-- The place is that of the home directory. There is none if the environment names no home
directory or one that does not exist. -/
def HomeAt (h : Host) (dir : List Text) : Prop := ∃ home, h.home = some home ∧ h.Opens home dir

end Host

namespace Config

variable {h : Host}

section Name

theorem isSilent_fileName : Path.isSilent fileName = false := by decide

theorem slash_notMem_fileName : '/' ∉ fileName := by decide

theorem fileName_ne_dots : fileName ≠ ['.', '.'] := by decide

theorem components_join_fileName (dir : Text) :
    Path.components (Path.join dir fileName) = Path.components dir ++ [.name fileName] :=
  Path.components_join_name isSilent_fileName slash_notMem_fileName dir fileName_ne_dots

theorem eq_of_step_fileName {above place : List Text} (hStep : h.step above fileName = .ok place) :
    place = above ++ [fileName] := by
  rcases (Host.step_cases hStep).2 with ⟨hSilent, -⟩ | ⟨-, hDots, -⟩ | ⟨-, -, hPlace⟩
  · rw [isSilent_fileName] at hSilent
    cases hSilent
  · exact absurd hDots fileName_ne_dots
  · exact hPlace

/-- The file with settings in a directory is looked up where the directory is. It is found if there
is one, and then it is that in this directory. -/
theorem names_join_iff {dir : Text} {place : List Text} :
    h.Names (Path.join dir fileName) place ↔
      ∃ above, h.Opens dir above ∧ place = above ++ [fileName] ∧ h.Configured above := by
  rw [Host.Names, Host.locate_join_name_eq_ok_iff isSilent_fileName slash_notMem_fileName]
  constructor
  · rintro ⟨⟨above, hOpens, hStep⟩, hFile⟩
    obtain rfl := eq_of_step_fileName hStep
    exact ⟨above, hOpens, rfl, hFile⟩
  · rintro ⟨above, hOpens, rfl, hFile⟩
    exact
      ⟨⟨above, hOpens, Host.step_of_content? isSilent_fileName fileName_ne_dots (by decide) hFile⟩,
      hFile⟩

/-- A path to a file with settings leads to a file of that name. So writes to files with other names
do not touch it. -/
theorem getLast?_of_locate_join {dir : Text} {place : List Text}
    (hLocate : h.locate (Path.join dir fileName) = .ok place) : place.getLast? = some fileName := by
  obtain ⟨above, -, hStep⟩ :=
    (Host.locate_join_name_eq_ok_iff isSilent_fileName slash_notMem_fileName).mp hLocate
  rw [eq_of_step_fileName hStep, List.getLast?_concat]

end Name

section Found

/-- The file in the home directory. There is one or none. -/
def homeFiles (h : Host) : List Text :=
  (h.home.map fun dir => Path.join dir fileName).toList.filter h.isFile

/-- The directories through which the search for an input goes, the farthest first. They are paths,
and different ones may be at the same place. -/
def route (h : Host) (path : Text) : List Text := (startDir h path).toList.flatMap Path.stations

/-- The directory has a file with settings, and its path is no spelling of that to the file in the
home directory. The home directory under another path counts as adding its file once more. -/
def adds (h : Host) (dir : Text) : Bool :=
  h.isFile (Path.join dir fileName) && !(homeFiles h).any (Path.same (Path.join dir fileName))

/-- Where no two of the paths are spellings of each other, a file is added unless it was found
before the first of them. -/
theorem foldl_addFound_eq {found paths : List Text}
    (hApart : paths.Pairwise fun p q => Path.components p ≠ Path.components q) :
    paths.foldl (addFound h) found =
      found ++ paths.filter fun p => h.isFile p && !found.any (Path.same p) := by
  induction paths generalizing found with
  | nil => exact (List.append_nil found).symm
  | cons p paths ih =>
      obtain ⟨hHead, hTail⟩ := List.pairwise_cons.mp hApart
      rw [List.foldl_cons, ih hTail, addFound, List.filter_cons]
      split
      · have hFilter : ∀ q ∈ paths, (h.isFile q && !(found ++ [p]).any (Path.same q)) =
            (h.isFile q && !found.any (Path.same q)) := by
          intro q hq
          have hDiffer : Path.same q p = false :=
            Bool.eq_false_iff.mpr fun hSame => hHead q hq (Path.same_iff.mp hSame).symm
          rw [List.any_append, List.any_cons, List.any_nil, hDiffer, Bool.or_false, Bool.or_false]
        rw [List.filter_congr hFilter, List.append_assoc, List.singleton_append]
      · rfl

/-- No two directories on the route are spelled alike, so of the files on it only that in the home
directory can have been found before. -/
theorem pairwise_route (h : Host) (path : Text) :
    (route h path).Pairwise fun p q => Path.components p ≠ Path.components q := by
  rw [route]
  cases startDir h path with
  | none => exact .nil
  | some dir =>
      rw [Option.toList_some, List.flatMap_singleton]
      exact Path.pairwise_stations dir

/-- What is found is the file in the home directory, and then those on the route, the nearest last.
All later results on discovery start from this form and not from the loop. -/
theorem discover_eq_append (h : Host) (path : Text) :
    discover h path = homeFiles h ++
      ((route h path).filter (adds h)).map fun dir => Path.join dir fileName := by
  have hRoute : ((startDir h path).toList.flatMap Path.ancestors).reverse = route h path := by
    rw [route]
    cases startDir h path with
    | none => rfl
    | some dir =>
        rw [Option.toList_some, List.flatMap_singleton, List.flatMap_singleton, Path.stations]
  have hApart : ((route h path).map fun dir => Path.join dir fileName).Pairwise
      fun p q => Path.components p ≠ Path.components q := by
    rw [List.pairwise_map]
    apply (pairwise_route h path).imp
    intro p q hDiffer hEq
    rw [components_join_fileName, components_join_fileName] at hEq
    exact hDiffer (List.append_cancel_right hEq)
  rw [discover, hRoute, foldl_addFound_eq hApart, List.filter_map]
  rfl

/-- Every file that is found has the fixed name, in some directory, and is there. -/
theorem exists_join_of_mem_discover {path file : Text} (hFile : file ∈ discover h path) :
    ∃ dir, file = Path.join dir fileName ∧ h.isFile file = true := by
  rw [discover_eq_append, List.mem_append] at hFile
  rcases hFile with hHome | hRoute
  · obtain ⟨hMem, hIsFile⟩ := List.mem_filter.mp hHome
    obtain ⟨dir, -, hJoin⟩ := Option.map_eq_some_iff.mp (Option.mem_toList.mp hMem)
    exact ⟨dir, hJoin.symm, hIsFile⟩
  · obtain ⟨dir, hDir, rfl⟩ := List.mem_map.mp hRoute
    have hAdds : adds h dir = true := List.of_mem_filter hDir
    rw [adds, Bool.and_eq_true] at hAdds
    exact ⟨dir, rfl, hAdds.1⟩

end Found

section Sources

/-- The directory in which a file stands. Unlike the path of the file, it does not depend on how the
file is spelled. -/
def source? (h : Host) (file : Text) : Option (List Text) :=
  (h.locate file).toOption.map List.dropLast

/-- The directories of the files that are found, in the order in which their settings are laid over
each other. A directory stands here twice if its file is found under two paths. -/
def sources (h : Host) (path : Text) : List (List Text) := (discover h path).filterMap (source? h)

/-- The settings of the file in a directory. There are none if the file is missing, is not text or
is malformed. -/
def settingsAt (h : Host) (dir : List Text) : Option Settings :=
  ((h.disk.content? (dir ++ [fileName])).bind fun content =>
    (String.fromUTF8? content).map String.toList).bind Settings.ofText?

/-- There is a file with settings in a directory if the directory can be opened and has one. -/
theorem isFile_join_iff {dir : Text} :
    h.isFile (Path.join dir fileName) = true ↔
      h.Opens dir (h.resolve dir) ∧ h.Configured (h.resolve dir) := by
  simp only [Host.isFile_iff, names_join_iff]
  constructor
  · rintro ⟨-, above, hOpens, -, hConfigured⟩
    obtain rfl := hOpens.resolve_eq
    exact ⟨hOpens, hConfigured⟩
  · rintro ⟨hOpens, hConfigured⟩
    exact ⟨_, _, hOpens, rfl, hConfigured⟩

theorem isFile_join_of_opens {dir : Text} {place : List Text} (hOpens : h.Opens dir place)
    (hConfigured : h.Configured place) : h.isFile (Path.join dir fileName) = true := by
  obtain rfl := hOpens.resolve_eq
  exact isFile_join_iff.mpr ⟨hOpens, hConfigured⟩

theorem names_of_isFile_join {dir : Text} (hFile : h.isFile (Path.join dir fileName) = true) :
    h.Names (Path.join dir fileName) (h.resolve dir ++ [fileName]) := by
  obtain ⟨hOpens, hConfigured⟩ := isFile_join_iff.mp hFile
  exact names_join_iff.mpr ⟨_, hOpens, rfl, hConfigured⟩

theorem source?_join {dir : Text} (hFile : h.isFile (Path.join dir fileName) = true) :
    source? h (Path.join dir fileName) = some (h.resolve dir) := by
  rw [source?, (names_of_isFile_join hFile).1]
  exact congrArg some List.dropLast_concat

/-- The settings of a file are those at the place where its directory is, however that is
spelled. -/
theorem settings?_join {dir : Text} (hFile : h.isFile (Path.join dir fileName) = true) :
    settings? h (Path.join dir fileName) = settingsAt h (h.resolve dir) := by
  obtain ⟨hLocate, hContent⟩ := names_of_isFile_join hFile
  obtain ⟨content, hContent⟩ := Option.isSome_iff_exists.mp hContent
  have hRead := Host.read_eq_ok_iff.mpr ⟨_, hLocate, hContent⟩
  rw [settings?, settingsAt, Host.readText?, hRead, hContent]
  rfl

/-- What the file in a directory sets of a part of the settings. -/
def givenAt {α : Type} (x : Part α) (h : Host) (dir : List Text) : Option α :=
  (settingsAt h dir).bind x.given

/-- Of every part of the settings, the last directory whose file sets it decides. If no file sets
it, it has its default. -/
theorem whole_ofDiscovered {α : Type} (x : Part α) (h : Host) (path : Text) :
    x.whole (ofDiscovered h path) =
      ((sources h path).filterMap (givenAt x h)).getLast?.getD (x.whole {}) := by
  rw [ofDiscovered, x.whole_foldl_overlay, sources, List.filterMap_filterMap,
    List.filterMap_filterMap]
  congr 2
  apply List.filterMap_congr
  intro file hFile
  obtain ⟨dir, rfl, hIsFile⟩ := exists_join_of_mem_discover hFile
  rw [source?_join hIsFile, settings?_join hIsFile]
  rfl

/-- The directory of the file in the home directory. This is the home directory itself, if it has
such a file. -/
def homeSources (h : Host) : List (List Text) := (homeFiles h).filterMap (source? h)

theorem length_homeSources_le (h : Host) : (homeSources h).length ≤ 1 := by
  have hFiles : (homeFiles h).length ≤ 1 := by
    rw [homeFiles]
    apply (List.length_filter_le _ _).trans
    cases h.home with
    | none => exact Nat.zero_le 1
    | some home => exact Nat.le_refl 1
  exact (List.length_filterMap_le _ _).trans hFiles

/-- The home directory counts as a source if it exists and has a file with settings. -/
theorem mem_homeSources_iff {dir : List Text} :
    dir ∈ homeSources h ↔ h.HomeAt dir ∧ h.Configured dir := by
  rw [homeSources, homeFiles, Host.HomeAt]
  cases h.home with
  | none => simp
  | some home =>
      rw [Option.map_some, Option.toList_some]
      cases hFile : h.isFile (Path.join home fileName) with
      | true =>
          rw [List.filter_cons_of_pos hFile, List.filter_nil,
            List.filterMap_cons_some (source?_join hFile)]
          obtain ⟨hOpens, hConfigured⟩ := isFile_join_iff.mp hFile
          constructor
          · intro hDir
            obtain rfl := List.mem_singleton.mp hDir
            exact ⟨⟨home, rfl, hOpens⟩, hConfigured⟩
          · rintro ⟨⟨_, ⟨⟩, hDir⟩, -⟩
            rw [← hDir.resolve_eq]
            exact List.mem_singleton.mpr rfl
      | false =>
          rw [List.filter_cons_of_neg (Bool.eq_false_iff.mp hFile)]
          constructor
          · intro hDir
            cases hDir
          · rintro ⟨⟨_, ⟨⟩, hDir⟩, hConfigured⟩
            obtain rfl := hDir.resolve_eq
            rw [isFile_join_iff.mpr ⟨hDir, hConfigured⟩] at hFile
            cases hFile

/-- The sources are the home directory, and then the places of the directories that add their file,
the nearest last. -/
theorem sources_eq_append (h : Host) (path : Text) :
    sources h path = homeSources h ++ ((route h path).filter (adds h)).map h.resolve := by
  rw [sources, discover_eq_append, List.filterMap_append, List.filterMap_map, ← homeSources]
  congr 1
  rw [← List.filterMap_eq_map]
  apply List.filterMap_congr
  intro dir hDir
  have hAdds : adds h dir = true := List.of_mem_filter hDir
  rw [adds, Bool.and_eq_true] at hAdds
  exact source?_join hAdds.1

/-- A directory on the route that has a file with settings adds it, or is the home directory. In
both cases it is a source. -/
theorem adds_or_mem_homeSources {dir : Text} (hOpens : h.Opens dir (h.resolve dir))
    (hConfigured : h.Configured (h.resolve dir)) :
    adds h dir = true ∨ adds h dir = false ∧ h.resolve dir ∈ homeSources h := by
  have hFile := isFile_join_iff.mpr ⟨hOpens, hConfigured⟩
  cases hHome : (homeFiles h).any (Path.same (Path.join dir fileName)) with
  | false => exact Or.inl (by rw [adds, hFile, hHome]; rfl)
  | true =>
      obtain ⟨file, hMem, hSame⟩ := List.any_eq_true.mp hHome
      have hIsFile : h.isFile file = true := List.of_mem_filter hMem
      have hSource : source? h file = some (h.resolve dir) := by
        rw [source?, ((names_of_isFile_join hFile).of_same hSame hIsFile).1]
        exact congrArg some List.dropLast_concat
      exact Or.inr ⟨by rw [adds, hFile, hHome]; rfl, List.mem_filterMap.mpr ⟨file, hMem, hSource⟩⟩

theorem configured_of_adds {dir : Text} (hAdds : adds h dir = true) :
    h.Configured (h.resolve dir) := by
  rw [adds, Bool.and_eq_true] at hAdds
  exact (isFile_join_iff.mp hAdds.1).2

/-- The places of the directories through which the search for an input goes. Going up in a path,
the search may come by a place several times. -/
def passed (h : Host) (path : Text) : List (List Text) := (route h path).map h.resolve

variable {path : Text}

/-- The files of the home directory and of the directories that are passed are found. The order in
which they are laid over each other is not part of this. -/
theorem mem_sources_iff (hRoute : ∀ dir ∈ route h path, h.Opens dir (h.resolve dir))
    {dir : List Text} :
    dir ∈ sources h path ↔ h.Configured dir ∧ (h.HomeAt dir ∨ dir ∈ passed h path) := by
  rw [sources_eq_append, List.mem_append, mem_homeSources_iff, passed]
  constructor
  · rintro (⟨hHome, hConfigured⟩ | hMem)
    · exact ⟨hConfigured, Or.inl hHome⟩
    · obtain ⟨d, hd, rfl⟩ := List.mem_map.mp hMem
      obtain ⟨hd, hAdds⟩ := List.mem_filter.mp hd
      exact ⟨configured_of_adds hAdds, Or.inr (List.mem_map_of_mem hd)⟩
  · rintro ⟨hConfigured, hHome | hMem⟩
    · exact Or.inl ⟨hHome, hConfigured⟩
    · obtain ⟨d, hd, rfl⟩ := List.mem_map.mp hMem
      rcases adds_or_mem_homeSources (hRoute d hd) hConfigured with hAdds | ⟨-, hHome⟩
      · exact Or.inr (List.mem_map_of_mem (List.mem_filter.mpr ⟨hd, hAdds⟩))
      · exact Or.inl (mem_homeSources_iff.mp hHome)

/-- The search for a file goes from the start of its path to the directory in which it is. For an
input that is no file, this need not be so. -/
theorem route_of_names {place : List Text} (hp : h.Names path place) :
    ∃ dir name, route h path = Path.stations dir ∧ Path.Extends dir path (.name name) ∧
      h.Opens dir place.dropLast := by
  obtain ⟨dir, above, name, hParent, hExt, hOpens, rfl⟩ := hp.exists_parent
  refine ⟨dir, name, ?_, hExt, by rwa [List.dropLast_concat]⟩
  rw [route, startDir, if_pos (Host.isFile_iff.mpr ⟨_, hp⟩), hParent, Option.toList_some,
    List.flatMap_singleton]

theorem opens_of_mem_route {place : List Text} (hp : h.Names path place) :
    ∀ dir ∈ route h path, h.Opens dir (h.resolve dir) := by
  obtain ⟨dir, _, hRoute, -, hOpens⟩ := route_of_names hp
  rw [hRoute]
  exact fun q hq => Host.opens_of_mem_stations hOpens hq

/-- The search for an absolute path comes by every directory above the file. It may also come by
others, if the path goes up. -/
theorem mem_passed_of_isPrefix (hAbsolute : Path.isAbsolute path = true) {place dir : List Text}
    (hp : h.Names path place) (hDir : dir <+: place.dropLast) : dir ∈ passed h path := by
  obtain ⟨start, _, hRoute, hExt, hOpens⟩ := route_of_names hp
  obtain ⟨q, hq, rfl⟩ := Host.exists_mem_stations_of_isPrefix (hExt.isAbsolute_eq.trans hAbsolute)
    (hOpens.resolve_eq ▸ hDir)
  rw [passed, hRoute]
  exact List.mem_map_of_mem hq

end Sources

section SameElsewhere

variable {changed : List Text → Prop} {h k : Host} (hSame : Host.SameElsewhere changed h k)
include hSame

/-- Which files are found does not depend on what is in them, nor on the content of any other
file. -/
theorem discover_eq (path : Text) : discover k path = discover h path := by
  have hFile : k.isFile = h.isFile := funext hSame.isFile_eq
  have hAdd : addFound k = addFound h := by
    funext found file
    rw [addFound, addFound, hFile]
  have hStart : startDir k path = startDir h path := by
    rw [startDir, startDir, hFile, hSame.isDir_eq, hSame.cwdPath_eq]
  simp only [discover, hFile, hAdd, hStart, hSame.home]

theorem sources_eq (path : Text) : sources k path = sources h path := by
  have hSource : source? k = source? h := by
    funext file
    rw [source?, source?, hSame.locate_eq]
  rw [sources, sources, hSource, discover_eq hSame]

/-- A directory whose file has not changed sets what it has set. -/
theorem settingsAt_eq {dir : List Text} (hKept : ¬changed (dir ++ [fileName])) :
    settingsAt k dir = settingsAt h dir := by
  rw [settingsAt, settingsAt, hSame.content _ hKept]

/-- Settings are the same while files with another name change. This is what keeps work in place
from changing the settings of later files. -/
theorem ofDiscovered_eq (hNames : ∀ place, changed place → place.getLast? ≠ some fileName)
    (path : Text) : ofDiscovered k path = ofDiscovered h path := by
  have hSettings : ∀ file ∈ discover h path, settings? k file = settings? h file := by
    intro file hFile
    obtain ⟨dir, rfl, -⟩ := exists_join_of_mem_discover hFile
    have hKept : ∀ place, h.Names (Path.join dir fileName) place → ¬changed place :=
      fun place hPlace hChanged => hNames place hChanged (getLast?_of_locate_join hPlace.1)
    rw [settings?, settings?, hSame.readText?_eq hKept]
  rw [ofDiscovered, ofDiscovered, discover_eq hSame, List.filterMap_congr hSettings]

end SameElsewhere

end Config

end Reflow
