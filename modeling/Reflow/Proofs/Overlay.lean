import Mathlib.Data.List.Induction
import Reflow.Config.Basic

/-!
Settings laid over each other. Of every part of the settings, the last file that sets it decides,
and the mappings of file extensions count as parts by themselves.
-/

namespace Reflow

theorem lookup_cons_ite (entry : Text × Text) (entries : List (Text × Text)) (key : Text) :
    (entry :: entries).lookup key = if key = entry.1 then some entry.2 else entries.lookup key := by
  rw [List.lookup_cons]
  by_cases hKey : key = entry.1
  · rw [if_pos hKey, beq_iff_eq.mpr hKey]
  · rw [if_neg hKey, beq_false_of_ne hKey]

/-- The new entry is found under its key, and all others as before. -/
theorem lookup_insertExtension (entries : List (Text × Text)) (entry : Text × Text) (key : Text) :
    (Config.insertExtension entries entry).lookup key =
      if key = entry.1 then some entry.2 else entries.lookup key := by
  induction entries with
  | nil => exact lookup_cons_ite entry [] key
  | cons e es ih =>
      rw [Config.insertExtension, lookup_cons_ite e]
      by_cases hEntry : e.1 = entry.1
      · rw [if_pos hEntry, lookup_cons_ite, hEntry]
        by_cases hKey : key = entry.1
        · rw [if_pos hKey, if_pos hKey]
        · rw [if_neg hKey, if_neg hKey, if_neg hKey]
      · rw [if_neg hEntry, lookup_cons_ite, ih]
        by_cases hKey : key = e.1
        · rw [if_pos hKey, if_neg (hKey ▸ hEntry), if_pos hKey]
        · rw [if_neg hKey, if_neg hKey]

/-- The last of the new entries for a key counts, and if there is none, the old one. -/
theorem lookup_foldl_insertExtension (entries added : List (Text × Text)) (key : Text) :
    (added.foldl Config.insertExtension entries).lookup key =
      (added.reverse.lookup key).or (entries.lookup key) := by
  induction added using List.reverseRecOn with
  | nil => rfl
  | append_singleton added entry ih =>
      rw [List.foldl_append, List.foldl_cons, List.foldl_nil, lookup_insertExtension, ih,
        List.reverse_append, List.reverse_singleton, List.singleton_append, lookup_cons_ite]
      by_cases hKey : key = entry.1
      · rw [if_pos hKey, if_pos hKey, Option.some_or]
      · rw [if_neg hKey, if_neg hKey]

/-- A part of all settings that a file may leave open. What it sets wins. Facts about how settings
are laid over each other are proved of all parts at once. -/
structure Part (α : Type) where
  whole : Config → α
  given : Settings → Option α
  overlay : ∀ c s, whole (c.overlay s) = (given s).getD (whole c)

namespace Part

def column : Part Nat where
  whole := Config.column
  given := Settings.column
  overlay _ _ := rfl

def tabWidth : Part Nat where
  whole := Config.tabWidth
  given := Settings.tabWidth
  overlay _ _ := rfl

/-- The names of excluded directories. A file that sets them replaces those of the files before. -/
def exclude : Part (List Text) where
  whole := Config.exclude
  given := Settings.exclude
  overlay _ _ := rfl

/-- The language that a file extension is mapped to. A file that does not map it leaves it open; no
file can take back what another one maps. -/
def extension (key : Text) : Part (Option Text) where
  whole c := c.extensions.lookup key
  given s := (s.extensions.reverse.lookup key).map some
  overlay c s := by
    rw [Config.overlay, lookup_foldl_insertExtension]
    cases s.extensions.reverse.lookup key with
    | none => rfl
    | some name => rfl

/-- The last file that sets a part of the settings decides. If none does, the settings that the
files are laid over do. -/
theorem whole_foldl_overlay {α : Type} (x : Part α) (ss : List Settings) (c : Config) :
    x.whole (ss.foldl Config.overlay c) = (ss.filterMap x.given).getLast?.getD (x.whole c) := by
  induction ss using List.reverseRecOn with
  | nil => rfl
  | append_singleton ss s ih =>
      rw [List.foldl_append, List.foldl_cons, List.foldl_nil, x.overlay, ih, List.filterMap_append,
        List.getLast?_append]
      cases hGiven : x.given s with
      | none => simp [hGiven]
      | some value => simp [hGiven]

end Part

namespace Config

/-- The same settings, whatever order the mappings of file extensions are kept in. The language of a
file does not depend on that order. -/
structure Agree (c d : Config) : Prop where
  column : c.column = d.column
  tabWidth : c.tabWidth = d.tabWidth
  exclude : c.exclude = d.exclude
  extension : ∀ key, c.extensions.lookup key = d.extensions.lookup key

/-- The two have the same in all that `s` sets. What it leaves open may differ. -/
structure AgreeOn (s : Settings) (c d : Config) : Prop where
  column : s.column.isSome → c.column = d.column
  tabWidth : s.tabWidth.isSome → c.tabWidth = d.tabWidth
  exclude : s.exclude.isSome → c.exclude = d.exclude
  extension : ∀ entry ∈ s.extensions,
    c.extensions.lookup entry.1 = d.extensions.lookup entry.1

/-- Settings that have the same in every part are the same. -/
theorem agree_of_forall_part {c d : Config} (h : ∀ {α : Type} (x : Part α), x.whole c = x.whole d) :
    Agree c d :=
  ⟨h .column, h .tabWidth, h .exclude, fun key => h (.extension key)⟩

/-- Settings that have the same in every part that `s` sets are the same as far as `s` goes. -/
theorem agreeOn_of_forall_part {s : Settings} {c d : Config}
    (h : ∀ {α : Type} (x : Part α), (x.given s).isSome → x.whole c = x.whole d) :
    AgreeOn s c d := by
  refine ⟨h .column, h .tabWidth, h .exclude, fun entry hEntry => h (.extension entry.1) ?_⟩
  rw [Part.extension, Option.isSome_map, Option.isSome_iff_ne_none, ne_eq, List.lookup_eq_none_iff]
  intro hNone
  have hKey := hNone entry (List.mem_reverse.mpr hEntry)
  simp at hKey

end Config

end Reflow
