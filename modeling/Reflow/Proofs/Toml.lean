import Reflow.Proofs.Keys
import Reflow.Toml.Parser

/-!
Documents have every key once. A table that is read holds no key twice, be it opened by a header,
made by dotted keys or written inline.
-/

namespace Reflow

namespace Toml

/-- The value holds every key once, if it is a table. Tables further down are not judged: no setting
is read from them. -/
def Value.Tidy (v : Value) : Prop := ∀ entries, v.entries? = some entries → UniqueKeys entries

/-- Every table of the tree holds every key once, at all depths. -/
inductive Tree.Tidy : Tree → Prop where
  | value {v : Value} (hv : v.Tidy) : Tidy (.value v)
  | table {origin : Origin} {entries : Entries} (hKeys : UniqueKeys entries)
      (hTrees : ∀ entry ∈ entries, Tidy entry.2) : Tidy (.table origin entries)
  | tables {all : List Entries} (hKeys : ∀ entries ∈ all, UniqueKeys entries)
      (hTrees : ∀ entries ∈ all, ∀ entry ∈ entries, Tidy entry.2) : Tidy (.tables all)

/-- Every key stands once among the entries and in every table below them. This is what reading a
document keeps line by line. -/
structure TidyEntries (entries : Entries) : Prop where
  keys : UniqueKeys entries
  trees : ∀ entry ∈ entries, Tree.Tidy entry.2

namespace Tree

/-- Entries that are turned into values have the same keys, in the same order. -/
theorem keys_entriesToValues (entries : Entries) :
    (entriesToValues entries).map Prod.fst = entries.map Prod.fst := by
  induction entries with
  | nil => rfl
  | cons entry entries ih =>
      rw [entriesToValues, List.map_cons, List.map_cons, ih]

theorem lookup_entriesToValues (key : Text) (entries : Entries) :
    (entriesToValues entries).lookup key = (entries.lookup key).map toValue := by
  induction entries with
  | nil => rfl
  | cons entry entries ih =>
      rw [entriesToValues, List.lookup_cons, List.lookup_cons]
      cases key == entry.1 with
      | true => rfl
      | false => exact ih

/-- A tidy tree makes a tidy value. -/
theorem tidy_toValue {tree : Tree} (h : tree.Tidy) : (toValue tree).Tidy := by
  cases h with
  | value hv => exact hv
  | table hKeys hTrees =>
      intro entries hEntries
      obtain rfl := Option.some.inj hEntries
      rw [UniqueKeys, keys_entriesToValues]
      exact hKeys
  | tables hKeys hTrees =>
      intro entries hEntries
      cases hEntries

/-- After a key is set, there are no entries but this one and old ones. -/
theorem mem_set {key : Text} {tree : Tree} {entries : Entries} {entry : Text × Tree}
    (h : entry ∈ set key tree entries) : entry = (key, tree) ∨ entry ∈ entries := by
  induction entries with
  | nil => exact Or.inl (List.mem_singleton.mp h)
  | cons first entries ih =>
      obtain ⟨k, old⟩ := first
      rw [set] at h
      split at h
      next hKey =>
        rw [hKey] at h
        exact (List.mem_cons.mp h).imp_right (List.mem_cons_of_mem _)
      · rcases List.mem_cons.mp h with rfl | h
        · exact Or.inr List.mem_cons_self
        · exact (ih h).imp_right (List.mem_cons_of_mem _)

/-- A key that is set replaces its own entry, or it is a new one. In both cases it stands once. -/
theorem uniqueKeys_set {key : Text} {tree : Tree} {entries : Entries} (h : UniqueKeys entries) :
    UniqueKeys (set key tree entries) := by
  induction entries with
  | nil => exact List.nodup_singleton key
  | cons first entries ih =>
      obtain ⟨k, old⟩ := first
      obtain ⟨hFresh, hTail⟩ := List.nodup_cons.mp h
      rw [set]
      split
      · exact h
      next hKey =>
        apply List.nodup_cons.mpr ⟨_, ih hTail⟩
        intro hMem
        obtain ⟨entry, hEntry, hFst⟩ := List.mem_map.mp hMem
        rcases mem_set hEntry with rfl | hOld
        · exact hKey hFst.symm
        · exact hFresh (hFst ▸ List.mem_map_of_mem hOld)

/-- To set a key to a tidy tree keeps entries tidy. -/
theorem tidyEntries_set {key : Text} {tree : Tree} {entries : Entries} (h : TidyEntries entries)
    (hTree : tree.Tidy) : TidyEntries (set key tree entries) := by
  refine ⟨uniqueKeys_set h.keys, ?_⟩
  intro entry hEntry
  rcases mem_set hEntry with rfl | hOld
  · exact hTree
  · exact h.trees entry hOld

/-- Changing a table somewhere below the entries keeps them tidy, if the change keeps that table
tidy. The tables on the way are opened or made by the path, dotted or not. -/
theorem tidyEntries_update {dotted : Bool} {change : Origin → Entries → Option Entries}
    (hChange : ∀ origin inner out, TidyEntries inner → change origin inner = some out →
      TidyEntries out)
    {path : List Text} {origin : Origin} {entries out : Entries} (h : TidyEntries entries)
    (hUpdate : update dotted change path origin entries = some out) : TidyEntries out := by
  induction path generalizing origin entries out with
  | nil => exact hChange origin entries out h hUpdate
  | cons key path ih =>
      rw [update] at hUpdate
      split at hUpdate
      · obtain ⟨inner, hInner, rfl⟩ := Option.map_eq_some_iff.mp hUpdate
        obtain ⟨hKeys, hTrees⟩ := ih ⟨uniqueKeys_nil, List.forall_mem_nil _⟩ hInner
        exact tidyEntries_set h (.table hKeys hTrees)
      · cases hUpdate
      next origin' inner hLookup =>
        split at hUpdate
        · cases hUpdate
        · obtain ⟨changed, hInner, rfl⟩ := Option.map_eq_some_iff.mp hUpdate
          cases h.trees _ (mem_of_lookup hLookup) with
          | table hOldKeys hOldTrees =>
              obtain ⟨hKeys, hTrees⟩ := ih ⟨hOldKeys, hOldTrees⟩ hInner
              exact tidyEntries_set h (.table hKeys hTrees)
      · cases hUpdate
      next last others hLookup =>
        obtain ⟨changed, hInner, rfl⟩ := Option.map_eq_some_iff.mp hUpdate
        cases h.trees _ (mem_of_lookup hLookup) with
        | tables hOldKeys hOldTrees =>
            rw [List.forall_mem_cons] at hOldKeys hOldTrees
            obtain ⟨hKeys, hTrees⟩ := ih ⟨hOldKeys.1, hOldTrees.1⟩ hInner
            exact tidyEntries_set h (.tables (List.forall_mem_cons.mpr ⟨hKeys, hOldKeys.2⟩)
              (List.forall_mem_cons.mpr ⟨hTrees, hOldTrees.2⟩))

variable {path : List Text} {key : Text} {entries out : Entries} (h : TidyEntries entries)
include h

/-- Defining a key keeps the tables tidy. It fails where the key is there already, and what is on
the way to it stays tidy. -/
theorem tidyEntries_define {v : Value} {origin : Origin} (hv : v.Tidy)
    (hDefine : define path key v origin entries = some out) : TidyEntries out := by
  refine tidyEntries_update ?_ h hDefine
  intro o inner result hInner hPut
  split at hPut
  · cases hPut
  split at hPut
  · cases hPut
  · obtain rfl := Option.some.inj hPut
    exact tidyEntries_set hInner (.value hv)

/-- A header that opens a table keeps the tables tidy. -/
theorem tidyEntries_openTable (hOpen : openTable path key entries = some out) :
    TidyEntries out := by
  refine tidyEntries_update ?_ h hOpen
  intro o inner result hInner hPut
  split at hPut
  · obtain rfl := Option.some.inj hPut
    exact tidyEntries_set hInner (.table uniqueKeys_nil (List.forall_mem_nil _))
  next named hLookup =>
    obtain rfl := Option.some.inj hPut
    cases hInner.trees _ (mem_of_lookup hLookup) with
    | table hKeys hTrees => exact tidyEntries_set hInner (.table hKeys hTrees)
  · cases hPut

/-- A header that adds a table to an array keeps the tables tidy, the new one being empty. -/
theorem tidyEntries_openArrayTable (hOpen : openArrayTable path key entries = some out) :
    TidyEntries out := by
  refine tidyEntries_update ?_ h hOpen
  intro o inner result hInner hPut
  have hNew : UniqueKeys ([] : Entries) := uniqueKeys_nil
  split at hPut
  · obtain rfl := Option.some.inj hPut
    exact tidyEntries_set hInner (.tables (List.forall_mem_singleton.mpr hNew)
      (List.forall_mem_singleton.mpr (List.forall_mem_nil _)))
  next all hLookup =>
    obtain rfl := Option.some.inj hPut
    cases hInner.trees _ (mem_of_lookup hLookup) with
    | tables hKeys hTrees =>
        exact tidyEntries_set hInner (.tables (List.forall_mem_cons.mpr ⟨hNew, hKeys⟩)
          (List.forall_mem_cons.mpr ⟨List.forall_mem_nil _, hTrees⟩))
  · cases hPut

theorem tidyEntries_defineUnder {header : List Text} {v : Value} (hv : v.Tidy)
    (hDefine : defineUnder header path key v entries = some out) : TidyEntries out := by
  refine tidyEntries_update ?_ h hDefine
  intro o inner result hInner hPut
  exact tidyEntries_define hInner hv hPut

end Tree

section Reading

/-- A value that is no table has no keys to repeat. -/
theorem tidy_of_entries?_eq_none {v : Value} (h : v.entries? = none) : v.Tidy := by
  intro entries hEntries
  rw [h] at hEntries
  cases hEntries

/-- The pairs of an inline table keep it tidy, if their values are tidy. -/
theorem tidyEntries_pairs? {value : Text → Option (Value × Text)}
    (hValue : ∀ t v rest, value t = some (v, rest) → v.Tidy) {entries out : Entries} {t rest : Text}
    (h : TidyEntries entries) (hPairs : pairs? value entries t = some (out, rest)) :
    TidyEntries out := by
  fun_induction pairs? value entries t with
  | case1 => cases hPairs
  | case2 => cases hPairs
  | case3 => cases hPairs
  | case4 => cases hPairs
  | case5 entries t keys u hKey u' hEq v after hv path key hSplit entries' hDefine rest' hClose =>
      obtain ⟨rfl, -⟩ := Prod.mk.inj (Option.some.inj hPairs)
      exact Tree.tidyEntries_define h (hValue _ _ _ hv) hDefine
  | case6 entries t keys u hKey u' hEq v after hv path key hSplit entries' hDefine rest' hComma hLt
      ih =>
      exact ih (Tree.tidyEntries_define h (hValue _ _ _ hv) hDefine) hPairs
  | case7 => cases hPairs
  | case8 => cases hPairs

theorem tidy_of_numeric? {t rest : Text} {v : Value} (h : numeric? t = some (v, rest)) :
    v.Tidy := by
  rw [numeric?] at h
  split at h
  · obtain ⟨rfl, -⟩ := Prod.mk.inj (Option.some.inj h)
    intro entries hEntries
    obtain rfl := Option.some.inj hEntries
    exact List.nodup_singleton _
  split at h
  · obtain ⟨rfl, -⟩ := Prod.mk.inj (Option.some.inj h)
    exact tidy_of_entries?_eq_none rfl
  · obtain ⟨n, -, hValue⟩ := Option.map_eq_some_iff.mp h
    obtain ⟨rfl, -⟩ := Prod.mk.inj hValue
    exact tidy_of_entries?_eq_none rfl

/-- Of all values only an inline table can have several keys that are read. Arrays may hold tables,
but these are not looked into. -/
theorem tidy_of_value? {depth : Nat} {t rest : Text} {v : Value}
    (h : value? depth t = some (v, rest)) : v.Tidy := by
  induction depth generalizing t rest v with
  | zero => cases h
  | succ depth ih =>
      unfold value? at h
      split at h
      · cases h
      · split at h
        · cases h
        · obtain ⟨vs, -, hValue⟩ := Option.map_eq_some_iff.mp h
          obtain ⟨rfl, -⟩ := Prod.mk.inj hValue
          exact tidy_of_entries?_eq_none rfl
      -- An inline table is empty, or its pairs are defined one after the other.
      · split at h
        · cases h
        split at h
        · obtain ⟨rfl, -⟩ := Prod.mk.inj (Option.some.inj h)
          intro entries hEntries
          obtain rfl := Option.some.inj hEntries
          exact uniqueKeys_nil
        · obtain ⟨⟨entries, u⟩, hPairs, hValue⟩ := Option.map_eq_some_iff.mp h
          obtain ⟨rfl, -⟩ := Prod.mk.inj hValue
          have hTidy :=
            tidyEntries_pairs? (fun _ _ _ => ih) ⟨uniqueKeys_nil, List.forall_mem_nil _⟩ hPairs
          have hTable : Tree.Tidy (.table .header entries) := .table hTidy.keys hTidy.trees
          exact Tree.tidy_toValue hTable
      · obtain ⟨s, -, hValue⟩ := Option.map_eq_some_iff.mp h
        obtain ⟨rfl, -⟩ := Prod.mk.inj hValue
        exact tidy_of_entries?_eq_none rfl
      · obtain ⟨s, -, hValue⟩ := Option.map_eq_some_iff.mp h
        obtain ⟨rfl, -⟩ := Prod.mk.inj hValue
        exact tidy_of_entries?_eq_none rfl
      · split at h
        · obtain ⟨rfl, -⟩ := Prod.mk.inj (Option.some.inj h)
          exact tidy_of_entries?_eq_none rfl
        · obtain ⟨rfl, -⟩ := Prod.mk.inj (Option.some.inj h)
          exact tidy_of_entries?_eq_none rfl
        · exact tidy_of_numeric? h

/-- Reading a line keeps the tables of a draft tidy, whether it is a header, a pair or blank. -/
theorem tidyEntries_line? {d out : Draft} {t rest : Text} (hd : TidyEntries d.root)
    (h : line? d t = some (out, rest)) : TidyEntries out.root := by
  unfold line? at h
  split at h
  · simp only [Option.bind_eq_bind, Option.bind_eq_some_iff, Option.pure_def, Option.some.injEq,
      Prod.mk.injEq] at h
    obtain ⟨keys, -, u, -, root, hOpen, -, -, rfl, -⟩ := h
    exact Tree.tidyEntries_openArrayTable hd hOpen
  · simp only [Option.bind_eq_bind, Option.bind_eq_some_iff, Option.pure_def, Option.some.injEq,
      Prod.mk.injEq] at h
    obtain ⟨keys, -, u, -, root, hOpen, -, -, rfl, -⟩ := h
    exact Tree.tidyEntries_openTable hd hOpen
  · simp only [Option.bind_eq_bind, Option.bind_eq_some_iff, Option.pure_def, Option.some.injEq,
      Prod.mk.injEq] at h
    obtain ⟨keys, -, u, -, ⟨v, w⟩, hv, root, hDefine, -, -, rfl, -⟩ := h
    exact Tree.tidyEntries_defineUnder hd (tidy_of_value? hv) hDefine

theorem tidyEntries_lines? {d out : Draft} {t : Text} (hd : TidyEntries d.root)
    (h : lines? d t = some out) : TidyEntries out.root := by
  fun_induction lines? d t with
  | case1 d t hEnd =>
      obtain rfl := Option.some.inj h
      exact hd
  | case2 => cases h
  | case3 d t next rest hShorter hSome hLine ih => exact ih (tidyEntries_line? hd hLine) h
  | case4 => cases h

/-- A table of a document holds every key once. So the mapping of file extensions that is read from
it is a map. -/
theorem tidy_of_parse? {t : Text} {entries : List (Text × Value)} (h : parse? t = some entries)
    {key : Text} {v : Value} (hv : entries.lookup key = some v) : v.Tidy := by
  rw [parse?] at h
  obtain ⟨d, hLines, rfl⟩ := Option.map_eq_some_iff.mp h
  have hTidy := tidyEntries_lines? (d := {}) ⟨uniqueKeys_nil, List.forall_mem_nil _⟩ hLines
  rw [Tree.lookup_entriesToValues] at hv
  obtain ⟨tree, hLookup, rfl⟩ := Option.map_eq_some_iff.mp hv
  exact Tree.tidy_toValue (hTidy.trees _ (mem_of_lookup hLookup))

end Reading

end Toml

end Reflow
