import Mathlib.Data.List.Infix
import Reflow.Disk
import Reflow.Proofs.Path

/-!
Where the components of paths lead, whether there is anything or not. The stations of a path lead to
the places on its way one after the other, so a way into a directory comes by that directory.
-/

namespace Reflow

namespace Component

/-- Go from a place to where a component leads. The root has nothing above it: going up from there
stays. -/
def move (place : List Text) : Component → List Text
  | .root => []
  | .here => place
  | .up => place.dropLast
  | .name t => place ++ [t]

theorem foldl_move_names (place names : List Text) :
    (names.map Component.name).foldl Component.move place = place ++ names := by
  induction names generalizing place with
  | nil => exact (List.append_nil place).symm
  | cons name names ih =>
      rw [List.map_cons, List.foldl_cons, ih, List.append_cons place name names]
      rfl

/-- The way through names comes by all places on it, from where it starts to where it ends. -/
theorem scanl_move_names (place names : List Text) :
    (names.map Component.name).scanl Component.move place = names.inits.map (place ++ ·) := by
  induction names generalizing place with
  | nil => rw [List.map_nil, List.scanl_nil, List.inits, List.map_singleton, List.append_nil]
  | cons name names ih =>
      rw [List.map_cons, List.scanl_cons, ih, List.inits_cons, List.map_cons, List.map_map,
        List.append_nil]
      congr 1
      apply List.map_congr_left
      intro front _
      exact List.append_assoc place [name] front

/-- No component leads more than one level down. -/
theorem length_foldl_move_le (place : List Text) (cs : List Component) :
    (cs.foldl Component.move place).length ≤ place.length + cs.length := by
  induction cs generalizing place with
  | nil => exact Nat.le_refl _
  | cons c cs ih =>
      have hMove : (c.move place).length ≤ place.length + 1 := by
        cases c <;> simp [Component.move]
        omega
      have hRest := ih (c.move place)
      rw [List.foldl_cons, List.length_cons]
      omega

/-- Components each of which leads one level down are names. The other ones lead up, to the root or
nowhere, and the way would end less deep than there are components. -/
theorem exists_names_of_length_foldl_move {place : List Text} {cs : List Component}
    (hLength : (cs.foldl Component.move place).length = place.length + cs.length) :
    ∃ names : List Text, cs = names.map .name := by
  induction cs generalizing place with
  | nil => exact ⟨[], rfl⟩
  | cons c cs ih =>
      rw [List.foldl_cons, List.length_cons] at hLength
      have hRest := length_foldl_move_le (c.move place) cs
      cases c with
      | name t =>
          have hBelow : (cs.foldl Component.move (place ++ [t])).length =
              (place ++ [t]).length + cs.length := by
            rw [List.length_append, List.length_singleton]
            exact hLength.trans (by omega)
          obtain ⟨names, rfl⟩ := ih hBelow
          exact ⟨t :: names, rfl⟩
      | root =>
          simp only [Component.move, List.length_nil] at hRest hLength
          omega
      | here =>
          simp only [Component.move] at hRest hLength
          omega
      | up =>
          simp only [Component.move, List.length_dropLast] at hRest hLength
          omega

/-- Every name on the place where a way ends was there at its start or is one of its components. -/
theorem mem_of_mem_foldl_move {t : Text} {place : List Text} {cs : List Component}
    (ht : t ∈ cs.foldl Component.move place) : t ∈ place ∨ .name t ∈ cs := by
  induction cs generalizing place with
  | nil => exact Or.inl ht
  | cons c cs ih =>
      rcases ih ht with hMove | hRest
      · cases c with
        | root => cases hMove
        | here => exact Or.inl hMove
        | up => exact Or.inl ((List.dropLast_prefix place).subset hMove)
        | name s =>
            rcases List.mem_append.mp hMove with hPlace | hName
            · exact Or.inl hPlace
            · rw [List.mem_singleton.mp hName]
              exact Or.inr List.mem_cons_self
      · exact Or.inr (List.mem_cons_of_mem c hRest)

/-- A component that leads into a directory from outside leads to that directory. A way cannot get
deeper in at once, since it goes down by one level at a time. -/
theorem eq_move_of_isPrefix {dir place : List Text} {c : Component}
    (hIn : dir <+: c.move place) (hOut : ¬dir <+: place) : dir = c.move place := by
  cases c with
  | root => exact List.prefix_nil.mp hIn
  | here => exact absurd hIn hOut
  | up => exact absurd (hIn.trans (List.dropLast_prefix place)) hOut
  | name t =>
      rcases List.prefix_concat_iff.mp hIn with hEq | hPrefix
      · exact hEq
      · exact absurd hPrefix hOut

end Component

namespace Host

variable {h : Host}

/-- Where the components of a path lead, whether there is anything or not. This ignores the disk; a
path that leads somewhere on the disk leads there, as is shown with the disk in view. -/
def resolve (h : Host) (p : Text) : List Text := (Path.components p).foldl Component.move h.cwd

/-- A path that never goes up leads through names from where it starts. For an absolute path this is
the root, for a relative one the working directory. -/
theorem resolve_of_components {p : Text} {names : List Text}
    (hComponents : Path.components p = Path.start p ++ names.map .name) :
    h.resolve p = (Path.start p).foldl Component.move h.cwd ++ names := by
  rw [resolve, hComponents, List.foldl_append, Component.foldl_move_names]

/-- A path leads one component further than the path above it. -/
theorem resolve_of_extends {q p : Text} {c : Component} (hExt : Path.Extends q p c) :
    h.resolve p = c.move (h.resolve q) := by
  rw [resolve, hExt.components_eq, List.foldl_append]
  rfl

/-- Stations that lead into a directory from outside come by it. The way may leave the directory
again and come back: one of the stations is meant, not the last. -/
theorem exists_mem_resolve_eq {dir : List Text} {q : Text} {stations : List Text}
    (hChain : (q :: stations).IsChain fun q r => ∃ c, Path.Extends q r c)
    (hOut : ¬dir <+: h.resolve q) (hIn : ∃ r ∈ stations, dir <+: h.resolve r) :
    ∃ r ∈ stations, h.resolve r = dir := by
  induction stations generalizing q with
  | nil =>
      obtain ⟨r, hr, -⟩ := hIn
      cases hr
  | cons s stations ih =>
      obtain ⟨⟨c, hExt⟩, hRest⟩ := List.isChain_cons_cons.mp hChain
      by_cases hNext : dir <+: h.resolve s
      · refine ⟨s, List.mem_cons_self, ?_⟩
        rw [resolve_of_extends hExt] at hNext ⊢
        exact (Component.eq_move_of_isPrefix hNext hOut).symm
      · obtain ⟨r, hr, hPrefix⟩ := hIn
        rcases List.mem_cons.mp hr with rfl | hr
        · exact absurd hPrefix hNext
        · obtain ⟨d, hd, hEq⟩ := ih hRest hNext ⟨r, hr, hPrefix⟩
          exact ⟨d, List.mem_cons_of_mem s hd, hEq⟩

/-- An absolute path comes by every directory above the place it leads to, even if it goes up in
between. For a relative path this fails above the working directory, from where it starts. -/
theorem exists_mem_stations_of_isPrefix {p : Text} (hAbsolute : Path.isAbsolute p = true)
    {dir : List Text} (hDir : dir <+: h.resolve p) : ∃ q ∈ Path.stations p, h.resolve q = dir := by
  obtain ⟨root, hHead, hRoot⟩ := Path.exists_head?_stations p
  obtain ⟨stations, hStations⟩ := List.head?_eq_some_iff.mp hHead
  have hPlace : h.resolve root = [] := by
    rw [resolve, hRoot, if_pos hAbsolute]
    rfl
  rw [hStations]
  by_cases hNil : dir = []
  · exact ⟨root, List.mem_cons_self, hPlace.trans hNil.symm⟩
  · have hOut : ¬dir <+: h.resolve root := by
      rw [hPlace, List.prefix_nil]
      exact hNil
    have hChain := Path.isChain_stations p
    rw [hStations] at hChain
    have hLast := List.mem_of_getLast? (Path.getLast?_stations p)
    rw [hStations] at hLast
    rcases List.mem_cons.mp hLast with rfl | hMem
    · exact absurd hDir hOut
    · obtain ⟨q, hq, hEq⟩ := exists_mem_resolve_eq hChain hOut ⟨p, hMem, hDir⟩
      exact ⟨q, List.mem_cons_of_mem root hq, hEq⟩

/-- The way of a path comes by the places that its components lead to one after the other. The start
is the root for an absolute path, whose first component is left out for this, and the working
directory for a relative one. -/
theorem exists_map_resolve_stations (p : Text) :
    ∃ cs, Path.components p = (if Path.isAbsolute p then [.root] else []) ++ cs ∧
      (Path.stations p).map h.resolve =
        cs.scanl Component.move (if Path.isAbsolute p then [] else h.cwd) := by
  have hStart : ∀ absolute : Bool,
      (if absolute then [Component.root] else []).foldl Component.move h.cwd =
        if absolute then [] else h.cwd := by
    intro absolute
    cases absolute with
    | true => rfl
    | false => rfl
  induction p using Path.stations_induction with
  | start p hOne hComponents =>
      refine ⟨[], by rw [hComponents, List.append_nil], ?_⟩
      rw [hOne, List.map_singleton, resolve, hComponents, List.scanl_nil, hStart]
  | below q p c hExt hStations ih =>
      obtain ⟨cs, hComponents, hPlaces⟩ := ih
      have hq :
          h.resolve q = cs.foldl Component.move (if Path.isAbsolute p then [] else h.cwd) := by
        rw [resolve, hComponents, List.foldl_append, hExt.isAbsolute_eq, hStart]
      rw [hExt.isAbsolute_eq] at hComponents hPlaces
      refine ⟨cs ++ [c], by rw [hExt.components_eq, hComponents, List.append_assoc], ?_⟩
      rw [hStations, List.map_append, hPlaces, List.scanl_append, List.scanl_singleton,
        List.map_singleton, resolve_of_extends hExt, hq]
      rfl

/-- A relative path comes by the places that its components lead to from the working directory. That
is the first of them, by way of the empty station. -/
theorem map_resolve_stations_of_relative {p : Text} (hRelative : Path.isAbsolute p = false) :
    (Path.stations p).map h.resolve = (Path.components p).scanl Component.move h.cwd := by
  obtain ⟨cs, hComponents, hPlaces⟩ := exists_map_resolve_stations (h := h) p
  rw [hRelative] at hComponents hPlaces
  rw [hPlaces, hComponents]
  rfl

/-- An absolute path comes by the places that its components lead to from the root. The working
directory is not involved. -/
theorem map_resolve_stations_of_absolute {p : Text} {cs : List Component}
    (hAbsolute : Path.isAbsolute p = true) (hComponents : Path.components p = .root :: cs) :
    (Path.stations p).map h.resolve = cs.scanl Component.move [] := by
  obtain ⟨ds, hStart, hPlaces⟩ := exists_map_resolve_stations (h := h) p
  rw [hAbsolute] at hStart hPlaces
  rw [hPlaces, (List.cons.inj (hComponents.symm.trans hStart)).2]
  rfl

end Host

end Reflow
