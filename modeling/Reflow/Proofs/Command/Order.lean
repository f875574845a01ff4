import Mathlib.Data.List.Induction
import Mathlib.Logic.Relation
import Reflow.Command.Parallel
import Reflow.Proofs.Command.Printing
import Reflow.Proofs.Discovery

/-!
Work in place does not depend on the order of the files. What is made of a file is decided by the
machine as it was at first: others are written in the meantime, but neither the file itself nor one
with settings. So every run does the writes of one and the same list, in some order, and these are
writes to different files.
-/

namespace Reflow.Command

/-- The paths lead to different files, and to none with settings. A path that leads nowhere is no
obstacle: it fails, in whatever order. -/
structure Separate (h : Host) (files : List Text) : Prop where
  apart : files.Pairwise fun p q => ∀ place, h.Names p place → ¬h.Names q place
  plain : ∀ p ∈ files, ∀ place, h.Names p place → place.getLast? ≠ some Config.fileName

namespace Separate

variable {h : Host} {files others : List Text}

/-- Whether paths lead to different files does not depend on their order. -/
theorem perm (hSep : Separate h files) (hPerm : files.Perm others) : Separate h others where
  apart := hSep.apart.perm hPerm fun hApart place hq hp => hApart place hp hq
  plain p hp := hSep.plain p (hPerm.mem_iff.mpr hp)

theorem of_append_left (hSep : Separate h (files ++ others)) : Separate h files where
  apart := (List.pairwise_append.mp hSep.apart).1
  plain p hp := hSep.plain p (List.mem_append_left others hp)

/-- Only one of the paths leads to a given file. -/
theorem eq_of_names (hSep : Separate h files) {p q : Text} (hp : p ∈ files) (hq : q ∈ files)
    {place : List Text} (hpPlace : h.Names p place) (hqPlace : h.Names q place) : p = q := by
  have : Std.Symm fun p q => ∀ place, h.Names p place → ¬h.Names q place :=
    ⟨fun _ _ hApart place hq hp => hApart place hp hq⟩
  by_contra hNe
  exact hSep.apart.forall hp hq hNe place hpPlace hqPlace

theorem apart_last {p : Text} (hSep : Separate h (files ++ [p])) :
    ∀ q ∈ files, ∀ place, h.Names q place → ¬h.Names p place :=
  fun q hq => (List.pairwise_append.mp hSep.apart).2.2 q hq p (List.mem_singleton_self p)

end Separate

/-- The place of a file and its new content, if it is rewrapped and changes. A file that fails or
stays as it is has none. -/
def edit? (a : Arguments) (base : Config) (h : Host) (p : Text) : Option (List Text × ByteArray) :=
  match h.locate p, rewrapFile a base h p with
  | .ok place, .ok (old, new) => if new == old then none else some (place, new)
  | _, _ => none

/-- The report on a file, if it fails. It is made on the machine that is given, before anything is
written. -/
def failure? (a : Arguments) (base : Config) (h : Host) (p : Text) : Option (Text × Failure) :=
  match rewrapFile a base h p with
  | .error e => some (p, e)
  | .ok _ => none

section File

variable {a : Arguments} {base : Config} {h : Host} {p : Text}

/-- A file is written exactly if its content rewrapped is another one, and it is written where its
path leads. -/
theorem edit?_eq_some_iff {place : List Text} {new : ByteArray} :
    edit? a base h p = some (place, new) ↔
      h.locate p = .ok place ∧ ∃ old, Rewraps a base h p old new ∧ new ≠ old := by
  simp only [edit?, ← rewrapFile_eq_ok_iff]
  cases h.locate p with
  | error e => simp
  | ok found =>
      cases rewrapFile a base h p with
      | error e => simp
      | ok contents =>
          obtain ⟨old, made⟩ := contents
          simp only [beq_iff_eq, Except.ok.injEq, Prod.mk.injEq]
          constructor
          · intro hSome
            split at hSome
            · cases hSome
            next hNe =>
              obtain ⟨rfl, rfl⟩ := Prod.mk.inj (Option.some.inj hSome)
              exact ⟨rfl, old, ⟨rfl, rfl⟩, hNe⟩
          · rintro ⟨rfl, _, ⟨rfl, rfl⟩, hNe⟩
            rw [if_neg hNe]

theorem edit?_of_rewraps {place : List Text} {old new : ByteArray}
    (hLocate : h.locate p = .ok place) (hFile : Rewraps a base h p old new) :
    edit? a base h p = if new == old then none else some (place, new) := by
  rw [edit?, hLocate, rewrapFile_eq_ok_iff.mpr hFile]

/-- A file that is written is there. -/
theorem names_of_edit? {edit : List Text × ByteArray} (hEdit : edit? a base h p = some edit) :
    h.Names p edit.1 := by
  obtain ⟨hLocate, old, hFile, -⟩ := edit?_eq_some_iff.mp hEdit
  obtain ⟨place, hPlace, hContent⟩ := Host.read_eq_ok_iff.mp hFile.read_eq
  rw [hLocate] at hPlace
  obtain rfl := Except.ok.inj hPlace
  exact ⟨hLocate, by rw [hContent]; rfl⟩

/-- The settings for a file stay while files change that are no settings. -/
theorem fileConfig_eq_of_sameElsewhere {changed : List Text → Prop} {k : Host}
    (hSame : Host.SameElsewhere changed h k)
    (hPlain : ∀ place, changed place → place.getLast? ≠ some Config.fileName) (p : Text) :
    fileConfig a base k p = fileConfig a base h p := by
  rw [fileConfig, fileConfig]
  cases hConfig : a.config with
  | some file => rfl
  | none => simp only [configFor, hConfig, Config.ofDiscovered_eq hSame hPlain]

/-- What is made of a file stays while files change that are neither the file nor settings. -/
theorem rewrapFile_eq_of_sameElsewhere {changed : List Text → Prop} {k : Host}
    (hSame : Host.SameElsewhere changed h k)
    (hPlain : ∀ place, changed place → place.getLast? ≠ some Config.fileName)
    (hKept : ∀ place, h.Names p place → ¬changed place) :
    rewrapFile a base k p = rewrapFile a base h p := by
  have hRead := hSame.read_eq hKept
  rw [rewrapFile, rewrapFile, fileConfig_eq_of_sameElsewhere hSame hPlain]
  cases fileConfig a base h p with
  | error e => rfl
  | ok c => simp only [rewrapFound, hRead]

end File

section Run

variable {a : Arguments} {base : Config} {h : Host} {files : List Text}

/-- The machine after some files were rewrapped in place, each as it was at first. That a run leads
here is what has to be shown, since a run takes each file from the machine at that time. -/
def rewritten (a : Arguments) (base : Config) (h : Host) (files : List Text) : Host :=
  h.writeAll (files.filterMap (edit? a base h))

/-- Writes to separate files are to different places. -/
theorem pairwise_edits (hSep : Separate h files) :
    (files.filterMap (edit? a base h)).Pairwise fun edit other => edit.1 ≠ other.1 := by
  rw [List.pairwise_filterMap]
  refine hSep.apart.imp fun hApart edit hEdit other hOther hEq => ?_
  exact hApart edit.1 (names_of_edit? hEdit) (hEq ▸ names_of_edit? hOther)

/-- In which order files are rewrapped makes no difference to what is on the disk then. -/
theorem rewritten_perm (hSep : Separate h files) {order : List Text} (hPerm : files.Perm order) :
    rewritten a base h files = rewritten a base h order := by
  rw [rewritten, rewritten, Host.writeAll, Host.writeAll,
    Node.writeAll_perm (pairwise_edits hSep) (hPerm.filterMap _)]

/-- Only files among those that were rewrapped have changed. Those that fail have not. -/
theorem sameElsewhere_rewritten (a : Arguments) (base : Config) (h : Host) (files : List Text) :
    Host.SameElsewhere (fun place => ∃ p ∈ files, h.Names p place ∧ ¬Fails a base h p) h
      (rewritten a base h files) := by
  refine (Host.sameElsewhere_writeAll h _).mono ?_
  rintro place ⟨edit, hEdit, rfl⟩
  obtain ⟨p, hp, hEdit⟩ := List.mem_filterMap.mp hEdit
  obtain ⟨-, old, hFile, -⟩ := edit?_eq_some_iff.mp hEdit
  exact ⟨p, hp, names_of_edit? hEdit, hFile.not_fails⟩

theorem fileConfig_rewritten (hSep : Separate h files) (p : Text) :
    fileConfig a base (rewritten a base h files) p = fileConfig a base h p := by
  refine fileConfig_eq_of_sameElsewhere (sameElsewhere_rewritten a base h files) ?_ p
  rintro place ⟨q, hq, hPlace, -⟩
  exact hSep.plain q hq place hPlace

/-- What is made of the next file is what would have been made of it at first. It is not among those
that were written, and neither are its settings. -/
theorem rewrapFile_rewritten {p : Text} (hSep : Separate h (files ++ [p])) :
    rewrapFile a base (rewritten a base h files) p = rewrapFile a base h p := by
  refine rewrapFile_eq_of_sameElsewhere (sameElsewhere_rewritten a base h files) ?_ ?_
  · rintro place ⟨q, hq, hPlace, -⟩
    exact hSep.of_append_left.plain q hq place hPlace
  · rintro place hp ⟨q, hq, hPlace, -⟩
    exact hSep.apart_last q hq place hPlace hp

theorem rewritten_concat (p : Text) :
    rewritten a base h (files ++ [p]) = match edit? a base h p with
      | none => rewritten a base h files
      | some edit => (rewritten a base h files).write p edit.2 := by
  cases hEdit : edit? a base h p with
  | none => simp [rewritten, hEdit]
  | some edit =>
      obtain ⟨hLocate, -⟩ := edit?_eq_some_iff.mp hEdit
      simp [rewritten, hEdit, Host.write_writeAll hLocate]

/-- A file that is rewrapped ends with its new content. If that is the old one, it was not written,
which comes to the same. -/
theorem read_rewritten (hSep : Separate h files) {p : Text} (hp : p ∈ files) {old new : ByteArray}
    (hFile : Rewraps a base h p old new) : (rewritten a base h files).read p = .ok new := by
  obtain ⟨place, hLocate, hContent⟩ := Host.read_eq_ok_iff.mp hFile.read_eq
  have hNames : h.Names p place := ⟨hLocate, by rw [hContent]; rfl⟩
  refine Host.read_eq_ok_iff.mpr ⟨place, ?_, ?_⟩
  · rw [(sameElsewhere_rewritten a base h files).locate_eq, hLocate]
  · by_cases hEq : new = old
    · have hKept : ∀ edit ∈ files.filterMap (edit? a base h), place ≠ edit.1 := by
        rintro edit hEdit rfl
        obtain ⟨q, hq, hEdit⟩ := List.mem_filterMap.mp hEdit
        rw [hSep.eq_of_names hq hp (names_of_edit? hEdit) hNames, edit?_of_rewraps hLocate hFile,
          if_pos (beq_iff_eq.mpr hEq)] at hEdit
        cases hEdit
      rw [hEq, ← hContent]
      exact Node.content?_writeAll_of_notMem hKept h.disk
    · have hEdit : (place, new) ∈ files.filterMap (edit? a base h) :=
        List.mem_filterMap.mpr ⟨p, hp, edit?_eq_some_iff.mpr ⟨hLocate, old, hFile, hEq⟩⟩
      exact Node.content?_writeAll_of_mem (pairwise_edits hSep) hEdit hNames.2

end Run

namespace Work

variable {a : Arguments} {base : Config} {h : Host} {files : List Text}

/-- With `--write`, to record what was made of a file is to do its write, if there is one. -/
theorem host_record (hWrite : a.write = true) (w : Work) (p : Text) :
    (w.record a p (rewrapFile a base h p)).host = match edit? a base h p with
      | none => w.host
      | some edit => w.host.write p edit.2 := by
  cases hFile : rewrapFile a base h p with
  | error e =>
      have hEdit : edit? a base h p = none := by
        rw [edit?, hFile]
        cases h.locate p <;> rfl
      rw [hEdit]
      rfl
  | ok contents =>
      obtain ⟨old, new⟩ := contents
      rw [rewrapFile_eq_ok_iff] at hFile
      obtain ⟨place, hLocate, -⟩ := Host.read_eq_ok_iff.mp hFile.read_eq
      rw [edit?_of_rewraps hLocate hFile, record, if_pos hWrite]
      cases new == old <;> cases a.verbose <;> rfl

/-- To record what was made of a file adds its report, if it fails. -/
theorem failed_record (w : Work) (p : Text) :
    (w.record a p (rewrapFile a base h p)).failed =
      w.failed ++ (failure? a base h p).toList := by
  rw [failure?]
  cases rewrapFile a base h p with
  | error e => rfl
  | ok contents =>
      obtain ⟨old, new⟩ := contents
      rw [Option.toList_none, List.append_nil, record]
      split
      · cases a.verbose <;> cases new == old <;> rfl
      · rfl

/-- Files that are taken one after the other do not see what was made of those before them. So they
leave the machine that is described, and their own reports in their order. -/
theorem foldl_file (base : Config) (hWrite : a.write = true) (hSep : Separate h files) :
    (files.foldl (file a base) { host := h }).host = rewritten a base h files ∧
      (files.foldl (file a base) { host := h }).failed = files.filterMap (failure? a base h) := by
  induction files using List.reverseRecOn with
  | nil => exact ⟨rfl, rfl⟩
  | append_singleton files p ih =>
      obtain ⟨hHost, hFailed⟩ := ih hSep.of_append_left
      rw [List.foldl_append, List.foldl_cons, List.foldl_nil, file, hHost,
        rewrapFile_rewritten hSep]
      constructor
      · rw [host_record hWrite, hHost, rewritten_concat]
      · rw [failed_record, hFailed, List.filterMap_append]
        cases hFailure : failure? a base h p <;> simp [hFailure]

end Work

namespace Jobs

variable {a : Arguments} {base : Config} {h : Host} {files : List Text}

/-- Some files were rewrapped, one after the other, and those that were begun have the settings that
they have on `h`. The others are waiting, so no file is lost or taken twice. This is the invariant
of a run. -/
def Follows (a : Arguments) (base : Config) (h : Host) (files : List Text) (jobs : Jobs) : Prop :=
  ∃ order, (order ++ (jobs.begun.map Prod.fst ++ jobs.waiting)).Perm files ∧
    jobs.work = order.foldl (Work.file a base) { host := h } ∧
    ∀ entry ∈ jobs.begun, entry.2 = fileConfig a base h entry.1

/-- A step keeps this: the machine that it is done on has the settings of `h`. To begin a file reads
its settings, and to finish it does its write, possibly after others were begun. -/
theorem Step.follows (hWrite : a.write = true) (hSep : Separate h files) {jobs next : Jobs}
    (hStep : Step a base jobs next) (hJobs : Follows a base h files jobs) :
    Follows a base h files next := by
  obtain ⟨order, hPerm, hWork, hBegun⟩ := hJobs
  have hOrder : Separate h order := (hSep.perm hPerm.symm).of_append_left
  have hConfig : ∀ p, fileConfig a base jobs.work.host p = fileConfig a base h p := by
    intro p
    rw [hWork, (Work.foldl_file base hWrite hOrder).1, fileConfig_rewritten hOrder]
  cases hStep with
  | @configure before after path begun work =>
      refine ⟨order, ?_, hWork, List.forall_mem_cons.mpr ⟨hConfig path, hBegun⟩⟩
      -- The file moves from those that wait to those that were begun.
      have hMoved : (path :: (begun.map Prod.fst ++ before ++ after)).Perm
          (begun.map Prod.fst ++ before ++ path :: after) := List.perm_middle.symm
      refine List.Perm.trans ?_ hPerm
      simpa only [List.map_cons, List.cons_append, List.append_assoc] using hMoved.append_left order
  | @process before after path found waiting work =>
      have hFound := hBegun (path, found) (List.mem_append_right before List.mem_cons_self)
      refine ⟨order ++ [path], ?_, ?_, fun entry hEntry => ?_⟩
      · have hMoved : (path :: (before.map Prod.fst ++ (after.map Prod.fst ++ waiting))).Perm
            (before.map Prod.fst ++ path :: (after.map Prod.fst ++ waiting)) :=
          List.perm_middle.symm
        refine List.Perm.trans ?_ hPerm
        simpa only [List.map_append, List.map_cons, List.cons_append, List.append_assoc,
          List.nil_append] using hMoved.append_left order
      · rw [List.foldl_append, ← hWork, List.foldl_cons, List.foldl_nil, Work.file, rewrapFile,
          hConfig, ← hFound]
      · rcases List.mem_append.mp hEntry with hEntry | hEntry
        · exact hBegun entry (List.mem_append_left _ hEntry)
        · exact hBegun entry (List.mem_append_right before (List.mem_cons_of_mem _ hEntry))

/-- Work on the files, begun on the machine `h`, can end with `w`. Different orders of steps may end
differently as far as this goes. -/
def Completes (a : Arguments) (base : Config) (h : Host) (files : List Text) (w : Work) : Prop :=
  Relation.ReflTransGen (Step a base) (start h files) (done w)

/-- The invariant holds however far a run has come. -/
theorem follows_of_runs (hWrite : a.write = true) (hSep : Separate h files) {jobs : Jobs}
    (hRun : Relation.ReflTransGen (Step a base) (start h files) jobs) :
    Follows a base h files jobs := by
  induction hRun with
  | refl => exact ⟨[], List.Perm.refl files, rfl, nofun⟩
  | tail _ hStep ih => exact hStep.follows hWrite hSep ih

/-- Files may be taken one after the other, in any order. Each is begun and finished before the
next. -/
theorem runs_foldl_file {order waiting : List Text} (hPerm : order.Perm waiting) (w : Work) :
    Relation.ReflTransGen (Step a base) { waiting, work := w }
      (done (order.foldl (Work.file a base) w)) := by
  induction order generalizing waiting w with
  | nil =>
      rw [List.nil_perm.mp hPerm]
      exact .refl
  | cons p order ih =>
      obtain ⟨before, after, rfl⟩ := List.append_of_mem (hPerm.mem_iff.mp List.mem_cons_self)
      have hRest : order.Perm (before ++ after) := (hPerm.trans List.perm_middle).cons_inv
      have hConfigure := @Step.configure a base before after p [] w
      have hProcess := @Step.process a base [] [] p (fileConfig a base w.host p) (before ++ after) w
      exact .head hConfigure (.head hProcess (ih hRest (w.file a base p)))

/-- Every run ends like one that takes the files one after the other, and every such run is
possible. -/
theorem completes_iff (hWrite : a.write = true) (hSep : Separate h files) {w : Work} :
    Completes a base h files w ↔
      ∃ order : List Text, order.Perm files ∧
        w = order.foldl (Work.file a base) { host := h } := by
  constructor
  · intro hRun
    obtain ⟨order, hPerm, hWork, -⟩ := follows_of_runs hWrite hSep hRun
    refine ⟨order, ?_, hWork⟩
    rwa [done, List.map_nil, List.append_nil, List.append_nil] at hPerm
  · rintro ⟨order, hPerm, rfl⟩
    exact runs_foldl_file hPerm { host := h }

end Jobs

/-- There are as many reports as files that fail. -/
theorem length_failures (a : Arguments) (base : Config) (h : Host) (files : List Text) :
    (files.filterMap (failure? a base h)).length = files.countP (Fails a base h) := by
  rw [List.length_filterMap_eq_countP]
  refine List.countP_congr fun p _ => ?_
  rw [decide_eq_true_iff, ← exists_rewrapFile_eq_error_iff, failure?]
  cases rewrapFile a base h p <;> simp

theorem Work.code_outcome (w : Work) (total : Nat) :
    (w.outcome total).code = if w.failed.length = 0 then 0 else 1 := by
  rw [outcome]
  cases w.failed <;> rfl

/-- Files may be rewrapped in place in any order, step by step: each that does not fail ends with
its own content rewrapped by its own settings, nothing else changes, and as many failures are
counted as there are files that fail. So the files taken one after the other give the same. -/
theorem completes_in_any_order {a : Arguments} {base : Config} {h : Host} {files : List Text}
    (hWrite : a.write = true) (hBase : baseConfig a h = .ok base) (hSep : Separate h files) :
    (∀ order : List Text, order.Perm files →
      Jobs.Completes a base h files (order.foldl (Work.file a base) { host := h })) ∧
    ∀ w, Jobs.Completes a base h files w →
      (∀ p ∈ files, ∀ old new, Rewraps a base h p old new → w.host.read p = .ok new) ∧
      Host.SameElsewhere (fun place => ∃ p ∈ files, h.Names p place ∧ ¬Fails a base h p) h w.host ∧
      w.failed.length = files.countP (Fails a base h) ∧
      ((w.outcome files.length).code ≠ 0 ↔ 0 < files.countP (Fails a base h)) ∧
      (a.inputs ≠ [] → Expansion.expand h base.exclude base.extensions a.inputs = .ok files →
        ∀ stdin, (run a stdin h).host = w.host ∧
          (run a stdin h).code = (w.outcome files.length).code) := by
  refine ⟨fun order hPerm => (Jobs.completes_iff hWrite hSep).mpr ⟨order, hPerm, rfl⟩, ?_⟩
  intro w hRun
  obtain ⟨order, hPerm, rfl⟩ := (Jobs.completes_iff hWrite hSep).mp hRun
  have hOrder : Separate h order := hSep.perm hPerm.symm
  have hHost : (order.foldl (Work.file a base) { host := h }).host = rewritten a base h files := by
    rw [(Work.foldl_file base hWrite hOrder).1, rewritten_perm hOrder hPerm]
  have hFailed : (order.foldl (Work.file a base) { host := h }).failed.length =
      files.countP (Fails a base h) := by
    rw [(Work.foldl_file base hWrite hOrder).2, length_failures, hPerm.countP_eq]
  refine ⟨fun p hp old new hFile => ?_, ?_, hFailed, ?_, fun hInputs hFiles stdin => ?_⟩
  · rw [hHost, read_rewritten hSep hp hFile]
  · rw [hHost]
    exact sameElsewhere_rewritten a base h files
  · rw [Work.code_outcome, hFailed]
    split <;> omega
  · obtain ⟨hHosts, hFaileds⟩ := Work.foldl_file base hWrite hSep
    rw [run_eq_runFiles hInputs hBase, runFiles, hFiles]
    constructor
    · exact hHosts.trans hHost.symm
    · rw [Work.code_outcome, Work.code_outcome, hFailed, ← length_failures, ← hFaileds]

/-- Rewrap both files, and one between them that is missing. -/
def writeThree : Arguments := { printThree with write := true }

/-- The second file and then the missing one are done before the first. -/
theorem completes_in_any_order_missing :
    writeThree.write = true ∧ baseConfig writeThree twoFiles = .ok { column := 3 } ∧
      Separate twoFiles writeThree.inputs ∧
      Jobs.Completes writeThree { column := 3 } twoFiles writeThree.inputs
        (writeThree.inputs.reverse.foldl (Work.file writeThree { column := 3 })
          { host := twoFiles }) ∧
      ∀ w, Jobs.Completes writeThree { column := 3 } twoFiles writeThree.inputs w →
        w.host.read "a.txt".toList = .ok "ab\ncd".toUTF8 ∧ w.failed.length = 1 ∧
          (w.outcome 3).code ≠ 0 ∧ (run writeThree none twoFiles).host = w.host := by
  have hBase : baseConfig writeThree twoFiles = .ok { column := 3 } := by decide +kernel
  have hPlaces : ∀ p ∈ writeThree.inputs, twoFiles.locate p = .ok [p] ∨
      twoFiles.locate p = .error .notFound := by decide +kernel
  have hPlace : ∀ p ∈ writeThree.inputs, ∀ place, twoFiles.Names p place → place = [p] := by
    rintro p hp place ⟨hLocate, -⟩
    rcases hPlaces p hp with hOk | hError
    · exact Except.ok.inj (hLocate.symm.trans hOk)
    · cases hLocate.symm.trans hError
  have hSep : Separate twoFiles writeThree.inputs :=
    { apart := (by decide : writeThree.inputs.Nodup).imp_of_mem
        fun hp hq hNe place hpPlace hqPlace =>
          hNe (List.singleton_inj.mp ((hPlace _ hp _ hpPlace).symm.trans (hPlace _ hq _ hqPlace)))
      plain := fun p hp place hpPlace hName => by
        rw [hPlace p hp place hpPlace, List.getLast?_singleton, Option.some.injEq] at hName
        exact (by decide : Config.fileName ∉ writeThree.inputs) (hName ▸ hp) }
  have hFirst : Rewraps writeThree { column := 3 } twoFiles "a.txt".toList "ab cd".toUTF8
      "ab\ncd".toUTF8 :=
    ⟨{ column := 3 }, none, by decide +kernel, by decide +kernel, by decide +kernel,
      by decide +kernel⟩
  have hCount : writeThree.inputs.countP (Fails writeThree { column := 3 } twoFiles) = 1 := by
    decide +kernel
  obtain ⟨hOrders, hRuns⟩ := completes_in_any_order rfl hBase hSep
  refine ⟨rfl, hBase, hSep, hOrders _ (List.reverse_perm _), fun w hRun => ?_⟩
  obtain ⟨hRead, -, hFailed, hCode, hAgree⟩ := hRuns w hRun
  refine ⟨hRead _ (by decide) _ _ hFirst, hFailed.trans hCount, ?_, ?_⟩
  · exact hCode.mpr (by rw [hCount]; decide)
  · exact (hAgree (by decide) (by decide +kernel) none).1

end Reflow.Command
