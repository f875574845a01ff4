import Reflow.Proofs.Expansion
import Reflow.Proofs.Keys

/-!
The files below a directory. A walk decides at every directory whether to go into it, by its name
alone; what it finds is what is left of all files below the directory without those that lie in an
excluded one. The directory at which a walk starts is never excluded, while a pattern judges whole
paths.
-/

namespace Reflow

/-- The text can be the name of an entry of a directory: in a path it is one piece, which is neither
passed over nor leads up. How long names may be is not asked here. -/
structure IsName (t : Text) : Prop where
  solid : Path.isSilent t = false
  slash : '/' ∉ t
  dots : t ≠ ['.', '.']

instance (t : Text) : Decidable (IsName t) :=
  decidable_of_iff (Path.isSilent t = false ∧ '/' ∉ t ∧ t ≠ ['.', '.'])
    ⟨fun ⟨hSolid, hSlash, hDots⟩ => ⟨hSolid, hSlash, hDots⟩, fun h => ⟨h.solid, h.slash, h.dots⟩⟩

namespace Node

/-- Entries have names, and those of a directory stand in increasing order of them. So no directory
has two entries of one name. -/
inductive Lawful : Node → Prop
  | file (content : ByteArray) : Lawful (.file content)
  | dir {entries : List (Text × Node)} (hNames : ∀ entry ∈ entries, IsName entry.1)
      (hOrder : entries.Pairwise fun a b => a.1 < b.1)
      (hNodes : ∀ entry ∈ entries, Lawful entry.2) :
      Lawful (.dir entries)

mutual
/-- The names that lead from a node to the files below it, depth first. A file lies below itself, by
no names at all. -/
def files : Node → List (List Text)
  | .file _ => [[]]
  | .dir entries => filesIn entries

def filesIn : List (Text × Node) → List (List Text)
  | [] => []
  | (name, node) :: entries => (files node).map (name :: ·) ++ filesIn entries
end

/-- A file below entries lies below one of them. -/
theorem mem_filesIn_iff {entries : List (Text × Node)} {names : List Text} :
    names ∈ filesIn entries ↔
      ∃ name node rest, (name, node) ∈ entries ∧ rest ∈ node.files ∧ names = name :: rest := by
  induction entries with
  | nil => simp [filesIn]
  | cons entry entries ih =>
      obtain ⟨name, node⟩ := entry
      rw [filesIn, List.mem_append, ih, List.mem_map]
      constructor
      · rintro (⟨rest, hRest, rfl⟩ | ⟨other, child, rest, hMem, hRest, rfl⟩)
        · exact ⟨name, node, rest, List.mem_cons_self, hRest, rfl⟩
        · exact ⟨other, child, rest, List.mem_cons_of_mem _ hMem, hRest, rfl⟩
      · rintro ⟨other, child, rest, hMem, hRest, rfl⟩
        rcases List.mem_cons.mp hMem with hHead | hTail
        · obtain ⟨rfl, rfl⟩ := Prod.mk.inj hHead
          exact Or.inl ⟨rest, hRest, rfl⟩
        · exact Or.inr ⟨other, child, rest, hTail, hRest, rfl⟩

theorem ne_nil_of_mem_files {node : Node} (hDir : node.isDir = true) {names : List Text}
    (h : names ∈ node.files) : names ≠ [] := by
  cases node with
  | file content => cases hDir
  | dir entries =>
      obtain ⟨name, node, rest, -, -, rfl⟩ := mem_filesIn_iff.mp h
      exact List.cons_ne_nil name rest

theorem uniqueKeys_of_order {entries : List (Text × Node)}
    (hOrder : entries.Pairwise fun a b => a.1 < b.1) : UniqueKeys entries := by
  rw [UniqueKeys, List.Nodup, List.pairwise_map]
  apply hOrder.imp
  intro a b hLess hEq
  rw [hEq] at hLess
  exact List.lt_irrefl b.1 hLess

namespace Lawful

variable {node : Node}

/-- All files are listed, and nothing else. The order of the entries matters for this only in so far
as no name stands twice. -/
theorem mem_files_iff (h : node.Lawful) {names : List Text} :
    names ∈ node.files ↔ (node.content? names).isSome = true := by
  induction h generalizing names with
  | file content =>
      cases names with
      | nil => simp [files, content?, get?]
      | cons name names => simp [files, content?, get?]
  | @dir entries hNames hOrder hNodes ih =>
      rw [files, mem_filesIn_iff]
      cases names with
      | nil => simp [content?, get?]
      | cons name names =>
          have hGet : (Node.dir entries).content? (name :: names) =
              (entries.lookup name).bind (content? names) := by
            rw [content?, get?]
            cases entries.lookup name with
            | none => rfl
            | some child => rfl
          rw [hGet]
          constructor
          · rintro ⟨_, child, _, hMem, hRest, ⟨⟩⟩
            rw [(lookup_eq_some_iff_mem (uniqueKeys_of_order hOrder)).mpr hMem, Option.bind_some]
            exact (ih _ hMem).mp hRest
          · intro hSome
            cases hLookup : entries.lookup name with
            | none =>
                rw [hLookup] at hSome
                cases hSome
            | some child =>
                rw [hLookup, Option.bind_some] at hSome
                have hMem := (lookup_eq_some_iff_mem (uniqueKeys_of_order hOrder)).mp hLookup
                exact ⟨name, child, names, hMem, (ih _ hMem).mpr hSome, rfl⟩

/-- Files are listed in increasing order of the names that lead to them, compared name by name. As
paths they need not be in order, since a slash is not the lowest of characters. -/
theorem pairwise_files (h : node.Lawful) : node.files.Pairwise (· < ·) := by
  induction h with
  | file content => exact List.pairwise_singleton _ _
  | @dir entries hNames hOrder hNodes ih =>
      rw [files]
      clear hNames hNodes
      induction entries with
      | nil => exact .nil
      | cons entry entries ihTail =>
          obtain ⟨name, child⟩ := entry
          obtain ⟨hLess, hTail⟩ := List.pairwise_cons.mp hOrder
          rw [List.forall_mem_cons] at ih
          rw [filesIn, List.pairwise_append]
          refine ⟨?_, ihTail hTail ih.2, ?_⟩
          · rw [List.pairwise_map]
            exact ih.1.imp fun hRest => List.cons_lt_cons_iff.mpr (Or.inr ⟨rfl, hRest⟩)
          · intro first hFirst other hOther
            obtain ⟨rest, -, rfl⟩ := List.mem_map.mp hFirst
            obtain ⟨later, node, rest', hMem, -, rfl⟩ := mem_filesIn_iff.mp hOther
            exact List.cons_lt_cons_iff.mpr (Or.inl (hLess _ hMem))

/-- Names that lead to a file are names of entries. -/
theorem isName_of_mem (h : node.Lawful) {names : List Text} (hMem : names ∈ node.files)
    {name : Text} (hName : name ∈ names) : IsName name := by
  induction h generalizing names with
  | file content =>
      rw [List.mem_singleton.mp hMem] at hName
      cases hName
  | @dir entries hNames hOrder hNodes ih =>
      obtain ⟨first, child, rest, hEntry, hRest, rfl⟩ := mem_filesIn_iff.mp hMem
      rcases List.mem_cons.mp hName with rfl | hName
      · exact hNames _ hEntry
      · exact ih _ hEntry hRest hName

end Lawful

end Node

namespace Path

/-- The path that names make behind a directory, as a walk spells it. -/
def spell (dir : Text) (names : List Text) : Text := names.foldl join dir

/-- Names behind a directory are components behind those of the directory. -/
theorem components_spell (dir : Text) {names : List Text} (hNames : ∀ name ∈ names, IsName name) :
    components (spell dir names) = components dir ++ names.map .name := by
  induction names generalizing dir with
  | nil => exact (List.append_nil _).symm
  | cons name names ih =>
      obtain ⟨hName, hNames⟩ := List.forall_mem_cons.mp hNames
      show components (spell (join dir name) names) = _
      rw [ih _ hNames, components_join_name hName.solid hName.slash dir hName.dots,
        List.append_assoc]
      rfl

/-- The path above another one has all components but the last, also at a start, where there is no
path above. -/
theorem components_above (p : Text) :
    components ((parent? p).getD []) = (components p).dropLast := by
  rcases parent?_cases p with ⟨hNone, hStart⟩ | ⟨q, c, hSome, hExt⟩
  · rw [hNone, hStart]
    cases isAbsolute p with
    | true => rfl
    | false => rfl
  · rw [hSome, hExt.dropLast_components]
    rfl

/-- The directories on the way are the names before the last component. Dots and the root are not
among them. -/
theorem mem_directoryNames_iff {p t : Text} :
    t ∈ directoryNames p ↔ .name t ∈ (components p).dropLast := by
  rw [directoryNames, components_above, List.mem_filterMap]
  constructor
  · rintro ⟨c, hc, hName⟩
    split at hName
    · obtain rfl := Option.some.inj hName
      exact hc
    · cases hName
  · intro ht
    exact ⟨.name t, ht, rfl⟩

variable {exclude : List Text} {p : Text} {front : List Component} {names : List Text}

/-- Of a path that ends with names, all but the last one are those of directories. A name in front
of them may exclude the path too, as that of a directory which the path goes through. -/
theorem isExcluded_iff_of_components (hNe : names ≠ [])
    (hp : components p = front ++ names.map .name) :
    isExcluded exclude p = true ↔
      (∃ name ∈ names.dropLast, name ∈ exclude) ∨ ∃ name ∈ exclude, .name name ∈ front := by
  have hMap : names.map Component.name ≠ [] := by simpa using hNe
  rw [isExcluded, List.any_eq_true]
  simp only [mem_directoryNames_iff, hp, List.dropLast_append_of_ne_nil hMap, ← List.map_dropLast,
    List.mem_append, List.mem_map, Component.name.injEq, exists_eq_right, List.contains_iff_mem]
  constructor
  · rintro ⟨name, hFront | hNames, hExclude⟩
    · exact Or.inr ⟨name, hExclude, hFront⟩
    · exact Or.inl ⟨name, hNames, hExclude⟩
  · rintro (⟨name, hNames, hExclude⟩ | ⟨name, hExclude, hFront⟩)
    · exact ⟨name, Or.inr hNames, hExclude⟩
    · exact ⟨name, Or.inl hFront, hExclude⟩

/-- Judged from the directory of a walk, a file is excluded by the names of the directories between
the two. -/
theorem isExcluded_relative_iff (hNe : names ≠ []) (hNames : ∀ name ∈ names, IsName name) :
    isExcluded exclude (spell [] names) = true ↔ ∃ name ∈ names.dropLast, name ∈ exclude := by
  rw [isExcluded_iff_of_components hNe (components_spell [] hNames)]
  apply or_iff_left
  rintro ⟨name, -, hName⟩
  cases hName

end Path

namespace Expansion

section Pruning

variable {exclude : List Text}

/-- The names lead to a file that a walk finds: in reach, and through no excluded directory. Whether
the file is of a known language is asked after the walk. -/
def found (exclude : List Text) (depth : Nat) (names : List Text) : Bool :=
  decide (names.length ≤ depth) && !names.dropLast.any exclude.contains

/-- A walk decides at the first name whether to go on, and below it in the same way with one level
less. -/
theorem found_cons (depth : Nat) (name : Text) {rest : List Text} (hNe : rest ≠ []) :
    found exclude (depth + 1) (name :: rest) =
      (!exclude.contains name && found exclude depth rest) := by
  rw [found, found, List.dropLast_cons_of_ne_nil hNe, List.any_cons, List.length_cons, Bool.not_or,
    Bool.and_left_comm]
  simp only [Nat.add_le_add_iff_right]

/-- What lies below an entry of a directory is searched unless it is an excluded directory. An entry
that is a file is found even if it has an excluded name. -/
theorem filter_found_cons (depth : Nat) (name : Text) (node : Node) :
    (node.files.map (name :: ·)).filter (found exclude (depth + 1)) =
      if node.isDir && exclude.contains name then []
      else (node.files.filter (found exclude depth)).map (name :: ·) := by
  rw [List.filter_map]
  cases node with
  | file content => simp [Node.isDir, Node.files, found]
  | dir entries =>
      have hCons :
          ∀ rest ∈ (Node.dir entries).files, (found exclude (depth + 1) ∘ (name :: ·)) rest =
          (!exclude.contains name && found exclude depth rest) := by
        intro rest hRest
        exact found_cons depth name (Node.ne_nil_of_mem_files rfl hRest)
      rw [List.filter_congr hCons]
      cases exclude.contains name with
      | true => simp [Node.isDir]
      | false => rfl

/-- Excluded directories are left out on the way, and so is all below them. What is found is the
same as if all files were listed and then judged, in the same order. -/
theorem filesBelow_eq (exclude : List Text) (depth : Nat) (path : Text) {node : Node}
    (h : node.Lawful) :
    filesBelow exclude depth path node =
      (node.files.filter (found exclude depth)).map (Path.spell path) := by
  induction h generalizing depth path with
  | file content => rfl
  | @dir entries hNames hOrder hNodes ih =>
      rw [filesBelow, Node.files]
      cases depth with
      | zero =>
          have hNone : ∀ names ∈ Node.filesIn entries, ¬found exclude 0 names = true := by
            intro names hMem
            obtain ⟨name, node, rest, -, -, rfl⟩ := Node.mem_filesIn_iff.mp hMem
            simp [found]
          rw [List.filter_eq_nil_iff.mpr hNone]
          rfl
      | succ depth =>
          rw [if_neg (Nat.succ_ne_zero depth), Nat.add_sub_cancel]
          clear hNames hOrder hNodes
          induction entries with
          | nil => rfl
          | cons entry entries ihTail =>
              obtain ⟨name, node⟩ := entry
              rw [List.forall_mem_cons] at ih
              rw [filesIn, Node.filesIn, List.filter_append, List.map_append, ihTail ih.2,
                filter_found_cons]
              congr 1
              split
              · rfl
              · rw [ih.1, List.map_map]
                rfl

end Pruning

variable {h : Host} {exclude : List Text} {extensions : List (Text × Text)}

section Places

theorem join_name_ne_nil (dir : Text) {name : Text} (hName : IsName name) :
    Path.join dir name ≠ [] := by
  have hNe : name ≠ [] := by
    rintro rfl
    cases hName.solid
  rw [Path.join]
  split
  · exact hNe
  split
  · exact List.append_ne_nil_of_right_ne_nil dir hNe
  · exact List.append_ne_nil_of_right_ne_nil dir (List.cons_ne_nil _ _)

/-- What a name behind a path denotes is an entry of what the path denotes. If the path is empty
this fails, because by itself it denotes nothing. -/
theorem node?_join_name {dir name : Text} {n : Node} (hDir : dir ≠ []) (hName : IsName name)
    (hNode : h.node? (Path.join dir name) = some n) :
    ∃ above, h.node? dir = some above ∧ above.get? [name] = some n := by
  rw [Host.node?] at hNode
  split at hNode
  next place hLocate =>
    obtain ⟨above, hOpens, hStep⟩ :=
      (Host.locate_join_name_eq_ok_iff hName.solid hName.slash).mp hLocate
    have hAbove : h.locate dir = .ok above := hOpens.resolve_left fun hNil => hDir hNil.1
    rcases (Host.step_cases hStep).2 with ⟨hSilent, -⟩ | ⟨-, hDots, -⟩ | ⟨-, -, rfl⟩
    · rw [hName.solid] at hSilent
      cases hSilent
    · exact absurd hDots hName.dots
    · rw [Node.get?_append] at hNode
      obtain ⟨m, hm, hGet⟩ := Option.bind_eq_some_iff.mp hNode
      rw [Host.node?, hAbove]
      exact ⟨m, hm, hGet⟩
  · cases hNode

/-- What names behind a path denote is found below what the path denotes. -/
theorem node?_spell {dir : Text} {names : List Text} {n : Node} (hDir : dir ≠ [])
    (hNames : ∀ name ∈ names, IsName name) (hNode : h.node? (Path.spell dir names) = some n) :
    ∃ above, h.node? dir = some above ∧ above.get? names = some n := by
  induction names generalizing dir with
  | nil => exact ⟨n, hNode, rfl⟩
  | cons name names ih =>
      obtain ⟨hName, hNames⟩ := List.forall_mem_cons.mp hNames
      obtain ⟨next, hNext, hRest⟩ := ih (join_name_ne_nil dir hName) hNames hNode
      obtain ⟨above, hAbove, hEntry⟩ := node?_join_name hDir hName hNext
      refine ⟨above, hAbove, ?_⟩
      rw [← List.singleton_append, Node.get?_append, hEntry, Option.bind_some, hRest]

theorem isDir_spell {dir : Text} {node : Node} {names : List Text} (hDir : h.node? dir = some node)
    (hLawful : node.Lawful) (hMem : names ∈ node.files) :
    h.isDir (Path.spell dir names) = false := by
  have hNe : dir ≠ [] := by
    rintro rfl
    cases hDir
  rw [Host.isDir]
  cases hNode : h.node? (Path.spell dir names) with
  | none => rfl
  | some n =>
      obtain ⟨above, hAbove, hGet⟩ := node?_spell hNe (fun _ => hLawful.isName_of_mem hMem) hNode
      obtain rfl := Option.some.inj (hDir.symm.trans hAbove)
      have hFile := (Node.isSome_content?_iff _ _).mp (hLawful.mem_files_iff.mp hMem)
      rw [hGet] at hFile
      exact Option.some.inj hFile

end Places

/-- The pattern matches the path, which is not that of a directory. Exclusion is not part of it. -/
def Matches (h : Host) (pattern p : Text) : Prop :=
  p ∈ (Glob.Pattern.ofText? pattern).toList.flatMap (·.expand h) ∧ h.isDir p = false

/-- The pattern stands for the path. So it is valid, and some of its matches are left after
exclusion. -/
def Keeps (h : Host) (exclude : List Text) (pattern p : Text) : Prop :=
  ∃ paths, ofPattern h exclude pattern = .ok paths ∧ p ∈ paths

/-- Of its matches, a pattern stands for those that are not excluded. All names of directories in
the path as it is matched count. -/
theorem keeps_iff {pattern p : Text} (hMatches : Matches h pattern p) :
    Keeps h exclude pattern p ↔ Path.isExcluded exclude p = false := by
  obtain ⟨hMem, hFile⟩ := hMatches
  obtain ⟨P, hPattern, hExpand⟩ := List.mem_flatMap.mp hMem
  rw [Keeps, ofPattern, Option.mem_toList.mp hPattern]
  dsimp only
  have hListed :
      p ∈ (P.expand h).filter (fun path => !h.isDir path && !Path.isExcluded exclude path) ↔
      Path.isExcluded exclude p = false := by
    simp [hExpand, hFile]
  rw [← hListed]
  split
  next hEmpty =>
    rw [List.isEmpty_iff.mp hEmpty]
    simp
  · simp

/-- A walk finds the files below a directory that are known and do not lie in an excluded directory
below it, in the order of their names. A pattern that matches such a file leaves it out if the file
lies in an excluded directory below the one of the walk, or if that one, or one above it that the
match goes through, has an excluded name. -/
theorem walk_eq_filter (exclude : List Text) (extensions : List (Text × Text)) {dir : Text}
    {entries : List (Text × Node)} (hDir : h.node? dir = some (.dir entries))
    (hLawful : (Node.dir entries).Lawful) :
    walk h exclude extensions dir =
        ((Node.dir entries).files.filter fun names =>
          decide (names.length ≤ maxDepth) && !Path.isExcluded exclude (Path.spell [] names) &&
            Language.isKnownFile extensions (Path.spell dir names)).map (Path.spell dir) ∧
      (Node.dir entries).files.Pairwise (· < ·) ∧
      (∀ names, names ∈ (Node.dir entries).files ↔
        ((Node.dir entries).content? names).isSome = true) ∧
      ∀ names ∈ (Node.dir entries).files,
        (Path.isExcluded exclude (Path.spell [] names) = true ↔
          ∃ name ∈ names.dropLast, name ∈ exclude) ∧
        Path.components (Path.spell dir names) = Path.components dir ++ names.map .name ∧
        h.isDir (Path.spell dir names) = false ∧
        ∀ pattern p front, Matches h pattern p → Path.components p = front ++ names.map .name →
          (Keeps h exclude pattern p ↔
            Path.isExcluded exclude (Path.spell [] names) = false ∧
              ∀ name ∈ exclude, .name name ∉ front) := by
  have hExcluded : ∀ names ∈ (Node.dir entries).files,
      (Path.isExcluded exclude (Path.spell [] names) = true ↔
        ∃ name ∈ names.dropLast, name ∈ exclude) := by
    intro names hMem
    exact Path.isExcluded_relative_iff (Node.ne_nil_of_mem_files rfl hMem)
      fun name => hLawful.isName_of_mem hMem
  refine ⟨?_, hLawful.pairwise_files, fun names => hLawful.mem_files_iff, ?_⟩
  · rw [walk, hDir]
    dsimp only
    rw [filesBelow_eq exclude maxDepth dir hLawful, List.filter_map, List.filter_filter]
    congr 1
    apply List.filter_congr
    intro names hMem
    have hPruned :
        names.dropLast.any exclude.contains = Path.isExcluded exclude (Path.spell [] names) := by
      rw [Bool.eq_iff_iff, hExcluded names hMem, List.any_eq_true]
      simp only [List.contains_iff_mem]
    rw [Function.comp_apply, found, hPruned, Bool.and_comm]
  · intro names hMem
    refine ⟨hExcluded names hMem, Path.components_spell dir fun name => hLawful.isName_of_mem hMem,
      isDir_spell hDir hLawful hMem, ?_⟩
    intro pattern p front hMatches hp
    rw [keeps_iff hMatches, ← Bool.not_eq_true, ← Bool.not_eq_true,
      Path.isExcluded_iff_of_components (Node.ne_nil_of_mem_files rfl hMem) hp,
      hExcluded names hMem, not_or]
    simp only [not_exists, not_and]

/-- One name is that of a directory and, further down, that of a file. -/
def mixed : List (Text × Node) :=
  [("a.go".toList, .file ByteArray.empty),
    ("gen.go".toList, .dir [("b.go".toList, .file ByteArray.empty)]),
    ("lib".toList, .dir [("gen.go".toList, .file ByteArray.empty)])]

theorem lawful_mixed : (Node.dir mixed).Lawful := by
  apply Node.Lawful.dir (by decide) (by decide)
  simp only [mixed, List.forall_mem_cons]
  refine ⟨.file _, ?_, ?_, List.forall_mem_nil _⟩
  · exact .dir (by decide) (by decide) (List.forall_mem_singleton.mpr (.file _))
  · exact .dir (by decide) (by decide) (List.forall_mem_singleton.mpr (.file _))

/-- A machine with this directory in its root. -/
def project : Host where
  disk := .dir [("src".toList, .dir mixed)]
  cwd := []
  home := none

/-- The directory is left out with what is in it, and the file is found. -/
theorem walk_eq_filter_project :
    project.isDir "src".toList = true ∧
      walk project ["gen.go".toList] [] "src".toList =
        ["src/a.go".toList, "src/lib/gen.go".toList] ∧
      Keeps project ["gen.go".toList] "src/*/*.go".toList "src/lib/gen.go".toList ∧
      ¬Keeps project ["gen.go".toList] "src/*/*.go".toList "src/gen.go/b.go".toList := by
  have hDir : project.node? "src".toList = some (.dir mixed) := by rfl
  obtain ⟨hWalk, -, -, hFiles⟩ :=
    walk_eq_filter ["gen.go".toList] [] hDir lawful_mixed
  refine ⟨by decide, hWalk.trans (by decide +kernel), ?_, ?_⟩
  · obtain ⟨-, hPath, -, hKeeps⟩ := hFiles ["lib".toList, "gen.go".toList] (by decide)
    have hMatches : Matches project "src/*/*.go".toList "src/lib/gen.go".toList :=
      ⟨by decide +kernel, by decide⟩
    exact (hKeeps _ _ _ hMatches hPath).mpr (by decide)
  · obtain ⟨-, hPath, -, hKeeps⟩ := hFiles ["gen.go".toList, "b.go".toList] (by decide)
    have hMatches : Matches project "src/*/*.go".toList "src/gen.go/b.go".toList :=
      ⟨by decide +kernel, by decide⟩
    rw [hKeeps _ _ _ hMatches hPath]
    decide

/-- A directory with an excluded name, in which there is one file. -/
def vendored : Host where
  disk :=
  .dir [("work".toList, .dir [("vendor".toList, .dir [("dep.go".toList, .file ByteArray.empty)])])]
  cwd := ["work".toList]
  home := none

/-- A walk from a directory with an excluded name finds a file that a pattern leaves out. -/
theorem not_walk_agrees_vendored :
    vendored.isDir "vendor".toList = true ∧
      walk vendored ["vendor".toList] [] "vendor".toList = ["vendor/dep.go".toList] ∧
      Path.isExcluded ["vendor".toList] (Path.spell [] ["dep.go".toList]) = false ∧
      Matches vendored "vendor/*.go".toList "vendor/dep.go".toList ∧
      ¬Keeps vendored ["vendor".toList] "vendor/*.go".toList "vendor/dep.go".toList := by
  have hMatches : Matches vendored "vendor/*.go".toList "vendor/dep.go".toList :=
    ⟨by decide +kernel, by decide⟩
  have hExcluded : Path.isExcluded ["vendor".toList] "vendor/dep.go".toList = true := by decide
  refine ⟨by decide, by decide, by decide, hMatches, ?_⟩
  rw [keeps_iff hMatches, hExcluded]
  decide

end Expansion

end Reflow
