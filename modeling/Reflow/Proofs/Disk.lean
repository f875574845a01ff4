import Mathlib.Data.List.Pairwise
import Reflow.Disk

/-!
What writes change. A write replaces the content of one file and nothing else: every path leads
where it led before, other files keep their content, and writes to different files may be done in
any order.
-/

namespace Reflow

/-- Bytes are compared by their values. -/
instance lawfulBEqByteArray : LawfulBEq ByteArray where
  eq_of_beq {a b} hEq := by
    obtain ⟨a⟩ := a
    obtain ⟨b⟩ := b
    exact congrArg ByteArray.mk (eq_of_beq (α := Array UInt8) hEq)
  rfl {a} := beq_self_eq_true a.data

namespace Node

/-- The content of the file that the names lead to. A directory has none. -/
def content? (names : List Text) (n : Node) : Option ByteArray :=
  match n.get? names with
  | some (.file content) => some content
  | _ => none

/-- Content is found where a file stands, be it empty. -/
theorem isSome_content?_iff (names : List Text) (n : Node) :
    (n.content? names).isSome = true ↔ (n.get? names).map isDir = some false := by
  rw [content?]
  cases n.get? names with
  | none => simp
  | some child => cases child <;> simp [isDir]

/-- What is below a place is looked up in what stands there. -/
theorem get?_append (names more : List Text) (n : Node) :
    n.get? (names ++ more) = (n.get? names).bind (get? more) := by
  induction names generalizing n with
  | nil => rfl
  | cons name names ih =>
      cases n with
      | file content => rfl
      | dir entries =>
          simp only [List.cons_append, get?]
          cases entries.lookup name with
          | none => rfl
          | some child => exact ih child

/-- An entry of a directory is found under its name. If a name were there twice, this is the first
entry. -/
theorem get?_append_singleton {place : List Text} {n : Node} {entries : List (Text × Node)}
    (h : n.get? place = some (.dir entries)) (name : Text) :
    n.get? (place ++ [name]) = entries.lookup name := by
  rw [get?_append, h, Option.bind_some, get?]
  cases entries.lookup name <;> rfl

/-- To change the entries of one name changes what is found under that name, and only that. -/
theorem lookup_map_write (g : Node → Node) (name x : Text) (entries : List (Text × Node)) :
    (entries.map fun (n, child) => if n = name then (n, g child) else (n, child)).lookup x =
      (entries.lookup x).map fun child => if x = name then g child else child := by
  induction entries with
  | nil => rfl
  | cons entry entries ih =>
      obtain ⟨n, child⟩ := entry
      by_cases hx : x = n
      · subst hx
        by_cases hn : x = name <;> simp [hn]
      · have hLookup : ∀ c : Node, ((n, c) :: entries.map fun (n, child) =>
            if n = name then (n, g child) else (n, child)).lookup x =
            (entries.lookup x).map fun child => if x = name then g child else child := by
          intro c
          rw [List.lookup_cons, beq_false_of_ne hx]
          exact ih
        rw [List.lookup_cons, beq_false_of_ne hx, List.map_cons]
        dsimp only
        split
        · exact hLookup _
        · exact hLookup _

/-- Where the names lead into an entry of a directory, they do so in what was written there. This is
the step with which writes are followed down the tree. -/
theorem get?_write_dir (content : ByteArray) (name x : Text) (names more : List Text)
    (entries : List (Text × Node)) :
    (write content (name :: names) (.dir entries)).get? (x :: more) =
      (entries.lookup x).bind fun child =>
        (if x = name then write content names child else child).get? more := by
  rw [write, get?, lookup_map_write]
  cases entries.lookup x <;> rfl

/-- Files stay files and directories stay directories. A write makes no new node and takes none
away, even if the names lead nowhere. -/
theorem map_isDir_get?_write (content : ByteArray) (names place : List Text) (n : Node) :
    ((write content names n).get? place).map isDir = (n.get? place).map isDir := by
  induction names generalizing place n with
  | nil => cases n <;> cases place <;> rfl
  | cons name names ih =>
      cases n with
      | file old => rfl
      | dir entries =>
          cases place with
          | nil => rfl
          | cons x more =>
              rw [get?_write_dir, get?]
              cases entries.lookup x with
              | none => rfl
              | some child =>
                  dsimp only [Option.bind_some]
                  split
                  · exact ih more child
                  · rfl

/-- A write leaves the content of all other files as it is. -/
theorem content?_write_of_ne (content : ByteArray) {names place : List Text} (h : place ≠ names)
    (n : Node) : (write content names n).content? place = n.content? place := by
  induction names generalizing place n with
  | nil =>
      obtain ⟨x, more, rfl⟩ := List.exists_cons_of_ne_nil h
      cases n <;> rfl
  | cons name names ih =>
      cases n with
      | file old => rfl
      | dir entries =>
          cases place with
          | nil => rfl
          | cons x more =>
              rw [content?, content?, get?_write_dir, get?]
              cases entries.lookup x with
              | none => rfl
              | some child =>
                  dsimp only [Option.bind_some]
                  by_cases hx : x = name
                  · have hMore : more ≠ names := fun hMore => h (by rw [hx, hMore])
                    rw [if_pos hx]
                    exact ih hMore child
                  · rw [if_neg hx]

/-- A file has the content that was written to it. If there is no file at the place, the write has
no effect, so none is found there afterwards either. -/
theorem content?_write_self (content : ByteArray) {names : List Text} {n : Node}
    (h : (n.content? names).isSome = true) :
    (write content names n).content? names = some content := by
  induction names generalizing n with
  | nil =>
      cases n with
      | file old => rfl
      | dir entries => cases h
  | cons name names ih =>
      cases n with
      | file old => cases h
      | dir entries =>
          rw [content?, get?] at h
          rw [content?, get?_write_dir]
          cases hChild : entries.lookup name with
          | none =>
              rw [hChild] at h
              cases h
          | some child =>
              rw [hChild] at h
              simp only [Option.bind_some, if_true]
              exact ih h

/-- Writes to two places do not disturb each other. To the same place, the later write would win. -/
theorem write_write_comm (content other : ByteArray) {names place : List Text} (h : names ≠ place)
    (n : Node) :
    write other place (write content names n) = write content names (write other place n) := by
  induction names generalizing place n with
  | nil =>
      obtain ⟨x, more, rfl⟩ := List.exists_cons_of_ne_nil h.symm
      cases n <;> rfl
  | cons name names ih =>
      cases n with
      | file old => cases place <;> rfl
      | dir entries =>
          cases place with
          | nil => rfl
          | cons x more =>
              simp only [write, List.map_map, dir.injEq]
              apply List.map_congr_left
              rintro ⟨n, child⟩ -
              by_cases hName : n = name
              · by_cases hx : n = x
                · have hApart : names ≠ more := fun hEq => h (by rw [← hName, hx, hEq])
                  simp [hName.symm, hx.symm, ih hApart child]
                · simp [hName, hName ▸ hx]
              · by_cases hx : n = x
                · simp [hx, hx ▸ hName]
                · simp [hName, hx]

/-- Replace the content of several files, one after the other. Of two contents for one file, the
later one wins. -/
def writeAll (edits : List (List Text × ByteArray)) (n : Node) : Node :=
  edits.foldl (fun m edit => m.write edit.2 edit.1) n

theorem writeAll_cons (edit : List Text × ByteArray) (edits : List (List Text × ByteArray))
    (n : Node) :
    writeAll (edit :: edits) n = writeAll edits (write edit.2 edit.1 n) :=
  rfl

theorem writeAll_concat (edits : List (List Text × ByteArray)) (edit : List Text × ByteArray)
    (n : Node) : writeAll (edits ++ [edit]) n = write edit.2 edit.1 (writeAll edits n) :=
  List.foldl_append

/-- However many files are written, files stay files and directories stay directories. -/
theorem map_isDir_get?_writeAll (edits : List (List Text × ByteArray)) (place : List Text)
    (n : Node) :
    ((writeAll edits n).get? place).map isDir = (n.get? place).map isDir := by
  induction edits generalizing n with
  | nil => rfl
  | cons edit edits ih => rw [writeAll_cons, ih, map_isDir_get?_write]

/-- Files that none of the writes is for keep their content. -/
theorem content?_writeAll_of_notMem {edits : List (List Text × ByteArray)} {place : List Text}
    (h : ∀ edit ∈ edits, place ≠ edit.1) (n : Node) :
    (writeAll edits n).content? place = n.content? place := by
  induction edits generalizing n with
  | nil => rfl
  | cons edit edits ih =>
      rw [List.forall_mem_cons] at h
      rw [writeAll_cons, ih h.2, content?_write_of_ne _ h.1]

section Apart

variable {edits : List (List Text × ByteArray)}
  (hApart : edits.Pairwise fun edit other => edit.1 ≠ other.1)
include hApart

/-- A file has the content that one of the writes was for, if no two writes are for the same
file. -/
theorem content?_writeAll_of_mem {place : List Text} {content : ByteArray} {n : Node}
    (hMem : (place, content) ∈ edits) (h : (n.content? place).isSome = true) :
    (writeAll edits n).content? place = some content := by
  induction edits generalizing n with
  | nil => cases hMem
  | cons edit edits ih =>
      obtain ⟨hHead, hTail⟩ := List.pairwise_cons.mp hApart
      rw [writeAll_cons]
      rcases List.mem_cons.mp hMem with rfl | hMem
      · rw [content?_writeAll_of_notMem hHead, content?_write_self content h]
      · have hNe : place ≠ edit.1 := (hHead _ hMem).symm
        exact ih hTail hMem (by rwa [content?_write_of_ne _ hNe])

/-- Writes to different files may be done in any order: the whole tree is the same after them. -/
theorem writeAll_perm {others : List (List Text × ByteArray)} (hPerm : edits.Perm others)
    (n : Node) :
    writeAll edits n = writeAll others n := by
  have : Std.Symm fun edit other : List Text × ByteArray => edit.1 ≠ other.1 :=
    ⟨fun _ _ hNe => hNe.symm⟩
  refine hPerm.foldl_eq' ?_ n
  intro edit hEdit other hOther m
  by_cases hEq : edit = other
  · rw [hEq]
  · exact write_write_comm edit.2 other.2 (hApart.forall hEdit hOther hEq) m

end Apart

end Node

namespace Host

/-- The path leads to the file at `place`. Several paths may lead to one file, but no path leads to
two. -/
def Names (h : Host) (p : Text) (place : List Text) : Prop :=
  h.locate p = .ok place ∧ (h.disk.content? place).isSome = true

/-- The machine `k` is `h`, save that files at places of `changed` may have another content. No file
or directory is added or taken away, and the environment is the same. -/
structure SameElsewhere (changed : List Text → Prop) (h k : Host) : Prop where
  cwd : k.cwd = h.cwd
  home : k.home = h.home
  shape : ∀ place, (k.disk.get? place).map Node.isDir = (h.disk.get? place).map Node.isDir
  content : ∀ place, ¬changed place → k.disk.content? place = h.disk.content? place

/-- What is read depends on the content of a file and on what else stands at the place. Without
content it is an error, which says whether a directory is in the way. -/
theorem read_of_locate {h : Host} {p : Text} {place : List Text}
    (hLocate : h.locate p = .ok place) :
    h.read p = match h.disk.content? place with
      | some content => .ok content
      | none =>
        .error
          (if ((h.disk.get? place).map Node.isDir).isSome then .isDirectory else .notFound) := by
  rw [read, hLocate, Node.content?]
  dsimp only
  cases h.disk.get? place with
  | none => rfl
  | some n => cases n <;> rfl

/-- A path is read if it leads to a file, and then the content of that file is what is read. -/
theorem read_eq_ok_iff {h : Host} {p : Text} {content : ByteArray} :
    h.read p = .ok content ↔
      ∃ place, h.locate p = .ok place ∧ h.disk.content? place = some content := by
  cases hLocate : h.locate p with
  | error e => simp [read, hLocate]
  | ok place =>
      rw [read_of_locate hLocate]
      cases hContent : h.disk.content? place <;> simp [hContent]

namespace SameElsewhere

variable {changed : List Text → Prop} {h k : Host} (hSame : SameElsewhere changed h k)
include hSame

/-- Paths are looked up in the same way on both machines, piece by piece, since no content is looked
at. -/
theorem step_eq (place : List Text) (piece : Text) : k.step place piece = h.step place piece := by
  have hShape := hSame.shape place
  unfold step
  cases hk : k.disk.get? place with
  | none =>
      rw [hk, Option.map_none, eq_comm, Option.map_eq_none_iff] at hShape
      rw [hShape]
  | some n =>
      cases hh : h.disk.get? place with
      | none => simp [hk, hh] at hShape
      | some m =>
          rw [hk, hh] at hShape
          cases n with
          | file new =>
              cases m with
              | file old => rfl
              | dir entries => cases hShape
          | dir entries =>
              cases m with
              | file old => cases hShape
              | dir others =>
                  have hEntry : (entries.lookup piece).isSome = (others.lookup piece).isSome := by
                    rw [← Node.get?_append_singleton hk, ← Node.get?_append_singleton hh,
                      ← Option.isSome_map (f := Node.isDir), hSame.shape, Option.isSome_map]
                  simp only [hEntry]

/-- Every path leads to the same place on both machines, or nowhere for the same reason. -/
theorem locate_eq (p : Text) : k.locate p = h.locate p := by
  have hStep : k.step = h.step := funext fun place => funext fun piece => hSame.step_eq place piece
  rw [locate, locate, hStep, hSame.cwd]

theorem map_isDir_node?_eq (p : Text) :
    (k.node? p).map Node.isDir = (h.node? p).map Node.isDir := by
  rw [node?, node?, hSame.locate_eq]
  cases h.locate p with
  | error e => rfl
  | ok place => exact hSame.shape place

theorem isFile_eq (p : Text) : k.isFile p = h.isFile p := by
  have hShape : ∀ o : Option Node, o.any (!Node.isDir ·) = (o.map Node.isDir).any (!·) := by
    intro o
    cases o <;> rfl
  rw [isFile, isFile, hShape, hShape, hSame.map_isDir_node?_eq]

theorem isDir_eq (p : Text) : k.isDir p = h.isDir p := by
  have hShape : ∀ o : Option Node, o.any Node.isDir = (o.map Node.isDir).any id := by
    intro o
    cases o <;> rfl
  rw [isDir, isDir, hShape, hShape, hSame.map_isDir_node?_eq]

theorem cwdPath_eq : k.cwdPath = h.cwdPath := by
  rw [cwdPath, cwdPath, hSame.cwd]

/-- What is read by a path is the same unless the file that it leads to has changed. -/
theorem read_eq {p : Text} (hp : ∀ place, h.Names p place → ¬changed place) :
    k.read p = h.read p := by
  cases hLocate : h.locate p with
  | error e => rw [read, read, hSame.locate_eq, hLocate]
  | ok place =>
      have hk : k.locate p = .ok place := by rw [hSame.locate_eq, hLocate]
      have hContent : k.disk.content? place = h.disk.content? place := by
        cases hFile : (h.disk.content? place).isSome with
        | true => exact hSame.content place (hp place ⟨hLocate, hFile⟩)
        | false =>
            have hNone : (k.disk.content? place).isSome = false := by
              rw [← Bool.not_eq_true, Node.isSome_content?_iff] at hFile ⊢
              rwa [hSame.shape]
            rw [Option.isSome_eq_false_iff, Option.isNone_iff_eq_none] at hFile hNone
            rw [hFile, hNone]
      rw [read_of_locate hk, read_of_locate hLocate, hContent, hSame.shape]

theorem readText?_eq {p : Text} (hp : ∀ place, h.Names p place → ¬changed place) :
    k.readText? p = h.readText? p := by
  rw [readText?, readText?, hSame.read_eq hp]

theorem mono {more : List Text → Prop} (hMore : ∀ place, changed place → more place) :
    SameElsewhere more h k :=
  ⟨hSame.cwd, hSame.home, hSame.shape,
    fun place hKept => hSame.content place fun hChanged => hKept (hMore place hChanged)⟩

end SameElsewhere

/-- The machine after several files were written. Its working directory and home directory stay. -/
def writeAll (h : Host) (edits : List (List Text × ByteArray)) : Host :=
  { h with disk := h.disk.writeAll edits }

/-- After several files were written, only these have changed. -/
theorem sameElsewhere_writeAll (h : Host) (edits : List (List Text × ByteArray)) :
    SameElsewhere (fun place => ∃ edit ∈ edits, place = edit.1) h (h.writeAll edits) where
  cwd := rfl
  home := rfl
  shape place := Node.map_isDir_get?_writeAll edits place h.disk
  content _ hKept :=
    Node.content?_writeAll_of_notMem (fun edit hEdit hEq => hKept ⟨edit, hEdit, hEq⟩) h.disk

/-- A path leads to the same file after others were written. So one more write by a path is one more
write to the place that the path led to at first. -/
theorem write_writeAll {h : Host} {p : Text} {place : List Text} (hLocate : h.locate p = .ok place)
    (edits : List (List Text × ByteArray)) (content : ByteArray) :
    (h.writeAll edits).write p content = h.writeAll (edits ++ [(place, content)]) := by
  rw [write, (sameElsewhere_writeAll h edits).locate_eq, hLocate]
  simp only [writeAll, Node.writeAll_concat]

end Host

end Reflow
