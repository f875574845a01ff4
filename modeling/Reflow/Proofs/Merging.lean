import Reflow.Proofs.Discovery
import Reflow.Proofs.Toml

/-!
The settings that found files give together. Whatever the files are, each part of the settings comes
from the last file that can be read and sets it, and a key of the file extensions is a part by
itself.
-/

namespace Reflow

namespace Settings

/-- To read the values of entries as texts leaves their keys. -/
theorem keys_of_mapM {entries : List (Text × Toml.Value)} {pairs : List (Text × Text)}
    (h : (entries.mapM fun (key, value) => value.string?.map fun t => (key, t)) = some pairs) :
    pairs.map Prod.fst = entries.map Prod.fst := by
  induction entries generalizing pairs with
  | nil =>
      obtain rfl := Option.some.inj h
      rfl
  | cons entry entries ih =>
      rw [List.mapM_cons] at h
      simp only [Option.bind_eq_bind, Option.bind_eq_some_iff, Option.pure_def, Option.some.injEq,
        Option.map_eq_some_iff] at h
      obtain ⟨-, ⟨t, -, rfl⟩, tail, hTail, rfl⟩ := h
      rw [List.map_cons, List.map_cons, ih hTail]

/-- The settings of a file have no two entries for a file extension, because a document that has a
key twice is malformed. -/
theorem uniqueKeys_of_ofText? {t : Text} {s : Settings} (h : ofText? t = some s) :
    UniqueKeys s.extensions := by
  obtain ⟨entries, hParse, hSettings⟩ := Option.bind_eq_some_iff.mp h
  simp only [ofEntries?, Option.bind_eq_bind, Option.bind_eq_some_iff, Option.pure_def,
    Option.some.injEq] at hSettings
  obtain ⟨column, -, tabWidth, -, exclude, -, extensions, hExtensions, rfl⟩ := hSettings
  rw [setting?] at hExtensions
  split at hExtensions
  · obtain rfl := Option.some.inj hExtensions
    exact uniqueKeys_nil
  next v hLookup =>
    obtain ⟨pairs, hPairs, rfl⟩ := Option.map_eq_some_iff.mp hExtensions
    obtain ⟨table, hTable, hMap⟩ := Option.bind_eq_some_iff.mp hPairs
    show (pairs.map Prod.fst).Nodup
    rw [keys_of_mapM hMap]
    exact Toml.tidy_of_parse? hParse hLookup table hTable

end Settings

namespace Config

/-- No key is new but that of the entry which is put in. -/
theorem mem_keys_insertExtension {entries : List (Text × Text)} {entry : Text × Text} {key : Text}
    (h : key ∈ (insertExtension entries entry).map Prod.fst) :
    key = entry.1 ∨ key ∈ entries.map Prod.fst := by
  induction entries with
  | nil => exact Or.inl (List.mem_singleton.mp h)
  | cons e es ih =>
      rw [insertExtension] at h
      split at h
      · exact (List.mem_cons.mp h).imp_right (List.mem_cons_of_mem _)
      · rcases List.mem_cons.mp h with rfl | h
        · exact Or.inr List.mem_cons_self
        · exact (ih h).imp_right (List.mem_cons_of_mem _)

/-- An entry that is put in takes the place of the one with its key, so keys stay unique. -/
theorem uniqueKeys_insertExtension {entries : List (Text × Text)} (h : UniqueKeys entries)
    (entry : Text × Text) : UniqueKeys (insertExtension entries entry) := by
  induction entries with
  | nil => exact List.nodup_singleton entry.1
  | cons e es ih =>
      obtain ⟨hFresh, hTail⟩ := List.nodup_cons.mp h
      rw [insertExtension]
      split
      next hKey => exact List.nodup_cons.mpr ⟨hKey ▸ hFresh, hTail⟩
      next hKey =>
        apply List.nodup_cons.mpr ⟨_, ih hTail⟩
        intro hMem
        exact (mem_keys_insertExtension hMem).elim hKey hFresh

theorem uniqueKeys_foldl_insertExtension {entries : List (Text × Text)} (h : UniqueKeys entries)
    (added : List (Text × Text)) : UniqueKeys (added.foldl insertExtension entries) := by
  induction added generalizing entries with
  | nil => exact h
  | cons entry added ih => exact ih (uniqueKeys_insertExtension h entry)

/-- The settings that files give, a later one laid over an earlier one. Files that give none are
passed over. -/
def merge (h : Host) (files : List Text) : Config :=
  (files.filterMap (settings? h)).foldl overlay {}

/-- What a file sets of a part of the settings, if it can be read. A file that is unreadable or
malformed leaves every part open. -/
def given? {α : Type} (h : Host) (part : Settings → Option α) (file : Text) : Option α :=
  (settings? h file).bind part

/-- The value that files give to a part of the settings: that of the last file that sets it, and the
default if none does. It says nothing of how the value is computed, so it can be read as the
specification of a merge. -/
inductive Decided {α : Type} (given? : Text → Option α) (default : α) (files : List Text) : α → Prop
  | last {before after : List Text} {file : Text} {value : α}
      (hFiles : files = before ++ file :: after)
      (hGiven : given? file = some value) (hOpen : ∀ f ∈ after, given? f = none) :
      Decided given? default files value
  | unset (hOpen : ∀ f ∈ files, given? f = none) : Decided given? default files default

namespace Decided

variable {α : Type} {given? : Text → Option α} {default value : α} {files : List Text}

/-- One more file decides if it sets the part. If it leaves it open, the part is decided as
before. -/
theorem concat (h : Decided given? default files value) (file : Text) :
    Decided given? default (files ++ [file]) ((given? file).getD value) := by
  cases hFile : given? file with
  | some new => exact .last rfl hFile (List.forall_mem_nil _)
  | none =>
      rw [Option.getD_none]
      have hOne : ∀ f ∈ [file], given? f = none := List.forall_mem_singleton.mpr hFile
      cases h with
      | last hFiles hGiven hOpen =>
          rw [hFiles, List.append_assoc, List.cons_append]
          exact .last rfl hGiven (List.forall_mem_append.mpr ⟨hOpen, hOne⟩)
      | unset hOpen => exact .unset (List.forall_mem_append.mpr ⟨hOpen, hOne⟩)

/-- A part that is none by default is none if no file sets it, unless a file sets it to none. -/
theorem eq_none_iff {given? : Text → Option (Option α)} {value : Option α}
    (h : Decided given? none files value) (hSome : ∀ f, given? f ≠ some none) :
    value = none ↔ ∀ f ∈ files, given? f = none := by
  cases h with
  | unset hOpen => exact iff_of_true rfl hOpen
  | last hFiles hGiven hOpen =>
      apply iff_of_false
      · rintro rfl
        exact hSome _ hGiven
      · intro hNone
        rw [hNone _ (hFiles ▸ List.mem_append_right _ List.mem_cons_self)] at hGiven
        cases hGiven

end Decided

/-- The settings are what the files set, the last of them that sets a part deciding it. A key of the
file extensions counts as a part. -/
structure Merged (h : Host) (files : List Text) (c : Config) : Prop where
  column : Decided (given? h Settings.column) ({} : Config).column files c.column
  tabWidth : Decided (given? h Settings.tabWidth) ({} : Config).tabWidth files c.tabWidth
  exclude : Decided (given? h Settings.exclude) ({} : Config).exclude files c.exclude
  extension : ∀ key, Decided (given? h fun s => (s.extensions.lookup key).map some) none files
    (c.extensions.lookup key)
  /-- A key has no entry if no file has one for it. -/
  absent : ∀ key, c.extensions.lookup key = none ↔
    ∀ file ∈ files, ∀ s, settings? h file = some s → key ∉ s.extensions.map Prod.fst
  keys : UniqueKeys c.extensions

variable {h : Host}

theorem settings?_eq_some_iff {file : Text} {s : Settings} : settings? h file = some s ↔
    ∃ t, h.readText? file = some t ∧ Settings.ofText? t = some s :=
  Option.bind_eq_some_iff

/-- A file that gives settings maps no file extension twice. -/
theorem uniqueKeys_of_settings? {file : Text} {s : Settings} (hFile : settings? h file = some s) :
    UniqueKeys s.extensions := by
  obtain ⟨t, -, hSettings⟩ := settings?_eq_some_iff.mp hFile
  exact Settings.uniqueKeys_of_ofText? hSettings

/-- More files are laid over what the first ones gave. -/
theorem merge_append (files more : List Text) :
    merge h (files ++ more) = (more.filterMap (settings? h)).foldl overlay (merge h files) := by
  rw [merge, List.filterMap_append, List.foldl_append, merge]

/-- A file that gives no settings counts for nothing, wherever among the files it is. -/
theorem merge_append_cons_of_none {before after : List Text} {file : Text}
    (hFile : settings? h file = none) :
    merge h (before ++ file :: after) = merge h (before ++ after) := by
  rw [merge_append, List.filterMap_cons_none hFile, ← merge_append]

/-- The last file is laid over what all files before it give. -/
theorem merge_concat_of_some {files : List Text} {file : Text} {s : Settings}
    (hFile : settings? h file = some s) :
    merge h (files ++ [file]) = (merge h files).overlay s := by
  rw [merge_append, List.filterMap_cons_some hFile]
  rfl

/-- Every part of the settings is decided in the same way: this is the one argument for the column,
the tab width, the exclusions and each key of the file extensions. -/
theorem decided_merge {α : Type} (x : Part α) (h : Host) (files : List Text) :
    Decided (given? h x.given) (x.whole {}) files (x.whole (merge h files)) := by
  induction files using List.reverseRecOn with
  | nil => exact .unset (List.forall_mem_nil _)
  | append_singleton files file ih =>
      have hConcat := ih.concat file
      cases hFile : settings? h file with
      | none =>
          rw [merge_append_cons_of_none hFile, List.append_nil]
          rwa [given?, hFile] at hConcat
      | some s =>
          rw [merge_concat_of_some hFile, x.overlay]
          rwa [given?, hFile] at hConcat

/-- However many files are merged, no file extension is mapped twice. -/
theorem uniqueKeys_merge (h : Host) (files : List Text) :
    UniqueKeys (merge h files).extensions := by
  induction files using List.reverseRecOn with
  | nil => exact uniqueKeys_nil
  | append_singleton files file ih =>
      cases hFile : settings? h file with
      | none =>
          rw [merge_append_cons_of_none hFile, List.append_nil]
          exact ih
      | some s =>
          rw [merge_concat_of_some hFile, overlay]
          exact uniqueKeys_foldl_insertExtension ih s.extensions

theorem given?_extension (h : Host) (key : Text) :
    given? h (Part.extension key).given = given? h fun s => (s.extensions.lookup key).map some := by
  funext file
  rw [given?, given?]
  cases hFile : settings? h file with
  | none => rfl
  | some s =>
      show (s.extensions.reverse.lookup key).map some = (s.extensions.lookup key).map some
      rw [(uniqueKeys_of_settings? hFile).lookup_perm (List.reverse_perm _).symm]

/-- A file leaves a file extension open if it gives no settings, or has no entry for it. -/
theorem given?_lookup_eq_none_iff {file key : Text} :
    given? h (fun s => (s.extensions.lookup key).map some) file = none ↔
      ∀ s, settings? h file = some s → key ∉ s.extensions.map Prod.fst := by
  rw [given?, Option.bind_eq_none_iff]
  apply forall₂_congr
  intro s hFile
  rw [Option.map_eq_none_iff, lookup_eq_none_iff_notMem_keys]

/-- Whatever the files are, in whatever order and however often, they are merged as specified. -/
theorem merged_merge (h : Host) (files : List Text) : Merged h files (merge h files) := by
  have hExtension : ∀ key, Decided (given? h fun s => (s.extensions.lookup key).map some) none files
      ((merge h files).extensions.lookup key) := by
    intro key
    rw [← given?_extension]
    exact decided_merge (.extension key) h files
  refine ⟨decided_merge .column h files, decided_merge .tabWidth h files,
    decided_merge .exclude h files, hExtension, ?_, uniqueKeys_merge h files⟩
  intro key
  simp only [← given?_lookup_eq_none_iff]
  apply (hExtension key).eq_none_iff
  intro file hNone
  obtain ⟨s, -, hSome⟩ := Option.bind_eq_some_iff.mp hNone
  obtain ⟨name, -, hName⟩ := Option.map_eq_some_iff.mp hSome
  cases hName

/-- The settings for an input are those that the files found for it give: of every part, the last
file that can be read and sets it decides. A file counts if its text is read and makes settings, and
then these are laid over what the files before it gave; files that are unreadable or malformed count
for nothing. Which files are found for an input is not said here. -/
theorem merged_ofDiscovered (h : Host) :
    (∀ path, ofDiscovered h path = merge h (discover h path)) ∧
      (∀ files, Merged h files (merge h files)) ∧
      (∀ file s, settings? h file = some s ↔
        ∃ t, h.readText? file = some t ∧ Settings.ofText? t = some s) ∧
      (∀ before file t s, h.readText? file = some t → Settings.ofText? t = some s →
        merge h (before ++ [file]) = (merge h before).overlay s) ∧
      (∀ before file after,
        (h.readText? file = none ∨ ∃ t, h.readText? file = some t ∧ Settings.ofText? t = none) →
          merge h (before ++ file :: after) = merge h (before ++ after)) ∧
      ∀ file s, settings? h file = some s → UniqueKeys s.extensions := by
  refine ⟨fun path => rfl, merged_merge h, fun file s => settings?_eq_some_iff, ?_, ?_,
    fun file s => uniqueKeys_of_settings?⟩
  · intro before file t s hRead hSettings
    exact merge_concat_of_some (settings?_eq_some_iff.mpr ⟨t, hRead, hSettings⟩)
  · intro before file after hFile
    apply merge_append_cons_of_none
    rw [settings?]
    rcases hFile with hUnreadable | ⟨t, hRead, hMalformed⟩
    · rw [hUnreadable, Option.bind_none]
    · rw [hRead, Option.bind_some, hMalformed]

/-- A malformed file lies between two that count. -/
example : ofDiscovered
    { disk := .dir [
        ("rewrap.toml".toList, .file "column = 60\n[extensions]\nh = 'c'".toUTF8),
        ("w".toList, .dir [
          ("rewrap.toml".toList, .file "column = ".toUTF8),
          ("x".toList, .dir [("rewrap.toml".toList, .file "[extensions]\nh = 'cpp'".toUTF8)])])]
      cwd := []
      home := none } "/w/x".toList =
    { column := 60, extensions := [("h".toList, "cpp".toList)] } := by decide +kernel

end Config

end Reflow
