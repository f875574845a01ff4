import Mathlib.Data.List.Nodup
import Reflow.Text.Basic

/-!
Lists of entries in which no key stands twice. The entry of a key is the same whichever way such a
list is searched, so the list is a map.
-/

namespace Reflow

variable {α : Type} {entries : List (Text × α)} {key : Text} {x : α}

/-- No key has two entries. Nothing is said of the values: two keys may have the same one. -/
def UniqueKeys (entries : List (Text × α)) : Prop := (entries.map Prod.fst).Nodup

instance (entries : List (Text × α)) : Decidable (UniqueKeys entries) :=
  inferInstanceAs (Decidable (List.Nodup _))

theorem uniqueKeys_nil : UniqueKeys ([] : List (Text × α)) := List.nodup_nil

/-- The order of the entries is irrelevant to whether their keys are unique. -/
theorem UniqueKeys.perm {others : List (Text × α)} (h : UniqueKeys entries)
    (hPerm : entries.Perm others) : UniqueKeys others :=
  (hPerm.map Prod.fst).nodup h

theorem mem_keys_of_mem (h : (key, x) ∈ entries) : key ∈ entries.map Prod.fst :=
  List.mem_map.mpr ⟨(key, x), h, rfl⟩

/-- What is found under a key is an entry. The converse needs unique keys, because only the first
entry of a key is found: see `lookup_eq_some_iff_mem`. -/
theorem mem_of_lookup (h : entries.lookup key = some x) : (key, x) ∈ entries := by
  obtain ⟨front, back, rfl, -⟩ := List.lookup_eq_some_iff.mp h
  exact List.mem_append_right front List.mem_cons_self

/-- With unique keys, to look a key up is to ask for the entry with that key, wherever in the list
it stands. -/
theorem lookup_eq_some_iff_mem (hKeys : UniqueKeys entries) :
    entries.lookup key = some x ↔ (key, x) ∈ entries := by
  constructor
  · exact mem_of_lookup
  · intro hMem
    induction entries with
    | nil => cases hMem
    | cons entry entries ih =>
        obtain ⟨hFresh, hTail⟩ := List.nodup_cons.mp hKeys
        rw [List.lookup_cons]
        rcases List.mem_cons.mp hMem with rfl | hMem
        · rw [beq_self_eq_true]
        · have hKey : key ≠ entry.1 := fun hEq => hFresh (hEq ▸ mem_keys_of_mem hMem)
          rw [beq_false_of_ne hKey]
          exact ih hTail hMem

theorem lookup_eq_none_iff_notMem_keys :
    entries.lookup key = none ↔ key ∉ entries.map Prod.fst := by
  rw [List.lookup_eq_none_iff, List.mem_map]
  constructor
  · rintro hAll ⟨entry, hEntry, rfl⟩
    simpa using hAll entry hEntry
  · intro hNone entry hEntry
    exact bne_iff_ne.mpr fun hKey => hNone ⟨entry, hEntry, hKey.symm⟩

/-- A list with unique keys is a map: what is found under a key does not depend on the order of the
entries. -/
theorem UniqueKeys.lookup_perm {others : List (Text × α)} (h : UniqueKeys entries)
    (hPerm : entries.Perm others) (key : Text) : others.lookup key = entries.lookup key := by
  apply Option.ext
  intro x
  rw [lookup_eq_some_iff_mem (h.perm hPerm), lookup_eq_some_iff_mem h, hPerm.mem_iff]

end Reflow
