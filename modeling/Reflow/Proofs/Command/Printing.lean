import Mathlib.Data.List.Forall2
import Reflow.Command.Run

/-!
What is made of one file, and runs that leave the files alone: those that fail before any file is
read, and those that print.
-/

namespace Reflow

/-- A computation on every entry of a list gives results if it does on each. The error of the first
that fails is that of the whole. -/
theorem exists_mapM_eq_ok_iff {α β ε : Type} (f : α → Except ε β) (xs : List α) :
    (∃ ys, xs.mapM f = .ok ys) ↔ ∀ x ∈ xs, ∃ y, f x = .ok y := by
  induction xs with
  | nil => exact ⟨fun _ => List.forall_mem_nil _, fun _ => ⟨[], rfl⟩⟩
  | cons x xs ih =>
      rw [List.forall_mem_cons, ← ih, List.mapM_cons]
      cases f x with
      | error e => simp [bind, Except.bind]
      | ok y => cases xs.mapM f <;> simp [bind, Except.bind, pure, Except.pure]

namespace Expansion

/-- The inputs stand for files if each of them does. One pattern without a match is enough for the
whole run to fail. -/
theorem exists_expand_eq_ok_iff (h : Host) (exclude : List Text) (extensions : List (Text × Text))
    (inputs : List Text) :
    (∃ files, expand h exclude extensions inputs = .ok files) ↔
      ∀ input ∈ inputs, ∃ found, ofInput h exclude extensions input = .ok found := by
  rw [← exists_mapM_eq_ok_iff, expand]
  cases inputs.mapM (ofInput h exclude extensions) <;> simp [bind, Except.bind, pure, Except.pure]

end Expansion

namespace Config

/-- The column or the tab width is zero or beyond its maximum, wherever the value comes from. -/
def OutOfBounds (c : Config) : Prop :=
  (c.column = 0 ∨ maxColumn < c.column) ∨ c.tabWidth = 0 ∨ maxTabWidth < c.tabWidth

/-- The file cannot be read as text, or its text makes no settings. -/
def Unusable (h : Host) (file : Text) : Prop :=
  h.readText? file = none ∨ ∃ t, h.readText? file = some t ∧ Settings.ofText? t = none

/-- Settings are at fault exactly if they are out of bounds. Which fault is reported, if there are
several, is not said here. -/
theorem exists_fault?_eq_some_iff {c : Config} :
    (∃ fault, c.fault? = some fault) ↔ c.OutOfBounds := by
  unfold fault? OutOfBounds
  split
  next hZero => simp [hZero]
  next hSome =>
    split
    next hLarge => simp [hLarge]
    next hSmall =>
      split
      next hZeroTab => simp [hZeroTab]
      next hSomeTab =>
        split
        next hLargeTab => simp [hLargeTab]
        next hSmallTab => simp [hSome, hSmall, hSomeTab, hSmallTab]

end Config

namespace Command

section Settings

/-- The settings that a run starts from for an input: those of the named file, or without one those
of the files that are found. -/
def Given (a : Arguments) (h : Host) (path : Text) (c : Config) : Prop :=
  (∃ file t s, a.config = some file ∧ h.readText? file = some t ∧ Settings.ofText? t = some s ∧
    c = ({} : Config).overlay s) ∨
  (a.config = none ∧ c = Config.ofDiscovered h path)

/-- The settings with those of the arguments, which win over files and add to their exclusions. The
mapping of file extensions has no argument. -/
def withArguments (a : Arguments) (c : Config) : Config :=
  { c with
    column := a.column.getD c.column
    tabWidth := a.tabWidth.getD c.tabWidth
    exclude := c.exclude ++ a.exclude }

variable {a : Arguments} {h : Host} {path : Text}

/-- The arguments are laid over the settings that a run starts from, and the result is checked. -/
theorem configFor_of_given {c : Config} (hGiven : Given a h path c) :
    configFor a h path = match (withArguments a c).fault? with
      | some fault => .error (.invalid fault)
      | none => .ok (withArguments a c) := by
  rcases hGiven with ⟨file, t, s, hConfig, hRead, hSettings, rfl⟩ | ⟨hConfig, rfl⟩
  · rw [configFor, hConfig]
    simp only [Config.ofFile, hRead, hSettings]
    rfl
  · rw [configFor, hConfig]
    rfl

/-- Only a named file can leave an input without settings to start from. Files that are found never
do: one that cannot be read or is malformed is passed over. -/
theorem exists_given_or (a : Arguments) (h : Host) (path : Text) :
    (∃ file, a.config = some file ∧ Config.Unusable h file) ∨ ∃ c, Given a h path c := by
  cases hConfig : a.config with
  | none => exact Or.inr ⟨_, Or.inr ⟨hConfig, rfl⟩⟩
  | some file =>
      cases hRead : h.readText? file with
      | none => exact Or.inl ⟨file, rfl, Or.inl hRead⟩
      | some t =>
          cases hSettings : Settings.ofText? t with
          | none => exact Or.inl ⟨file, rfl, Or.inr ⟨t, hRead, hSettings⟩⟩
          | some s => exact Or.inr ⟨_, Or.inl ⟨file, t, s, hConfig, hRead, hSettings, rfl⟩⟩

/-- There are no settings for an input if the file named by `--config` is unusable, or if column or
tab width are out of bounds. The bounds are those of the value that counts: that of the arguments,
which win, or of the named file, or of the files that are found if none is named. -/
theorem exists_configFor_eq_error_iff : (∃ e, configFor a h path = .error e) ↔
    (∃ file, a.config = some file ∧ Config.Unusable h file) ∨
      ∃ c, Given a h path c ∧ (withArguments a c).OutOfBounds := by
  constructor
  · rintro ⟨e, hError⟩
    rcases exists_given_or a h path with hFile | ⟨c, hGiven⟩
    · exact Or.inl hFile
    · refine Or.inr ⟨c, hGiven, Config.exists_fault?_eq_some_iff.mp ?_⟩
      rw [configFor_of_given hGiven] at hError
      split at hError
      next fault hFault => exact ⟨fault, hFault⟩
      · cases hError
  · rintro (⟨file, hConfig, hRead | ⟨t, hRead, hMalformed⟩⟩ | ⟨c, hGiven, hBounds⟩)
    · exact ⟨.config (.unreadable file), by simp only [configFor, hConfig, Config.ofFile, hRead]⟩
    · exact ⟨.config (.malformed file), by
        simp only [configFor, hConfig, Config.ofFile, hRead, hMalformed]⟩
    · obtain ⟨fault, hFault⟩ := Config.exists_fault?_eq_some_iff.mpr hBounds
      exact ⟨.invalid fault, by rw [configFor_of_given hGiven, hFault]⟩

/-- **When a run has no settings.** Its settings are those for the working directory, so this is
when the file named by `--config` cannot be read or is malformed, or when column or tab width are
out of bounds. -/
theorem exists_baseConfig_eq_error_iff : (∃ e, baseConfig a h = .error e) ↔
    (∃ file, a.config = some file ∧ Config.Unusable h file) ∨
      ∃ c, Given a h h.cwdPath c ∧ (withArguments a c).OutOfBounds :=
  exists_configFor_eq_error_iff

end Settings

/-- The file is configured and read, its language is known, and `new` is its content rewrapped. The
machine is that on which the file is taken up, which matters if others were written before. -/
def Rewraps (a : Arguments) (base : Config) (h : Host) (p : Text) (old new : ByteArray) : Prop :=
  ∃ c lang, fileConfig a base h p = .ok c ∧ h.read p = .ok old ∧
    Language.resolve (some p) a.lang c.extensions = .ok lang ∧
    new = Source.rewrapBytes c.layout lang old

/-- The file has no valid settings, cannot be read, or is of an unknown language. A file that is no
text is read all the same. -/
def Fails (a : Arguments) (base : Config) (h : Host) (p : Text) : Prop :=
  (∃ e, fileConfig a base h p = .error e) ∨ (∃ e, h.read p = .error e) ∨
    ∃ c e, fileConfig a base h p = .ok c ∧
      Language.resolve (some p) a.lang c.extensions = .error e

section File

variable {a : Arguments} {base : Config} {h : Host} {p : Text}

/-- What is made of a file that does not fail is its content rewrapped. -/
theorem rewrapFile_eq_ok_iff {old new : ByteArray} :
    rewrapFile a base h p = .ok (old, new) ↔ Rewraps a base h p old new := by
  rw [rewrapFile, Rewraps]
  cases fileConfig a base h p with
  | error e => simp [rewrapFound]
  | ok c =>
      cases hRead : h.read p with
      | error e => simp [rewrapFound, hRead]
      | ok content =>
          cases hLang : Language.resolve (some p) a.lang c.extensions with
          | error e => simp [rewrapFound, hRead, hLang]
          | ok lang =>
              simp only [rewrapFound, hRead, hLang, Except.ok.injEq, Prod.mk.injEq]
              constructor
              · rintro ⟨rfl, rfl⟩
                exact ⟨c, lang, rfl, rfl, hLang, rfl⟩
              · rintro ⟨_, _, rfl, rfl, hFound, rfl⟩
                rw [hLang, Except.ok.injEq] at hFound
                exact ⟨rfl, by rw [hFound]⟩

/-- A file gives an error exactly if it fails. -/
theorem exists_rewrapFile_eq_error_iff :
    (∃ e, rewrapFile a base h p = .error e) ↔ Fails a base h p := by
  rw [rewrapFile, Fails]
  cases fileConfig a base h p with
  | error e => simp [rewrapFound]
  | ok c =>
      cases hRead : h.read p with
      | error e => simp [rewrapFound, hRead]
      | ok content =>
          cases hLang : Language.resolve (some p) a.lang c.extensions <;>
            simp [rewrapFound, hRead, hLang]

theorem Rewraps.read_eq {old new : ByteArray} (hFile : Rewraps a base h p old new) :
    h.read p = .ok old := by
  obtain ⟨_, _, -, hRead, -⟩ := hFile
  exact hRead

/-- A file that is rewrapped does not fail. So each file does one of the two. -/
theorem Rewraps.not_fails {old new : ByteArray} (hFile : Rewraps a base h p old new) :
    ¬Fails a base h p := by
  intro hFails
  obtain ⟨e, hError⟩ := exists_rewrapFile_eq_error_iff.mpr hFails
  rw [rewrapFile_eq_ok_iff.mpr hFile] at hError
  cases hError

end File

instance (a : Arguments) (base : Config) (h : Host) : DecidablePred (Fails a base h) := fun p =>
  match hFile : rewrapFile a base h p with
  | .error e => .isTrue (exists_rewrapFile_eq_error_iff.mp ⟨e, hFile⟩)
  | .ok _ => .isFalse (rewrapFile_eq_ok_iff.mp hFile).not_fails

/-- What is printed of a file: its content rewrapped, and nothing if it fails. The report on a
failure is not part of the output. -/
def Prints (a : Arguments) (base : Config) (h : Host) (p : Text) (part : ByteArray) : Prop :=
  (∃ old, Rewraps a base h p old part) ∨ (Fails a base h p ∧ part = ByteArray.empty)

namespace Work

variable {a : Arguments} (hWrite : a.write = false)
include hWrite

/-- Without `--write`, a file adds to the output what is printed of it and changes nothing. This is
the step of a run that prints. -/
theorem file_eq_of_not_write (base : Config) (w : Work) (p : Text) :
    (file a base w p).host = w.host ∧ (file a base w p).written = w.written ∧
      ∃ part, Prints a base w.host p part ∧ (file a base w p).stdout = w.stdout ++ part := by
  rw [file]
  cases hFile : rewrapFile a base w.host p with
  | error e =>
      have hFails := exists_rewrapFile_eq_error_iff.mp ⟨e, hFile⟩
      exact ⟨rfl, rfl, _, Or.inr ⟨hFails, rfl⟩, (ByteArray.append_empty).symm⟩
  | ok contents =>
      obtain ⟨old, new⟩ := contents
      have hRecord : w.record a p (.ok (old, new)) = w.print new := by
        rw [record, hWrite]
        rfl
      rw [hRecord]
      exact ⟨rfl, rfl, new, Or.inl ⟨old, rewrapFile_eq_ok_iff.mp hFile⟩, rfl⟩

/-- Without `--write`, the output is what is printed of the files one after the other, and nothing
is changed. -/
theorem foldl_file_of_not_write (base : Config) (files : List Text) (w : Work) :
    (files.foldl (file a base) w).host = w.host ∧
      (files.foldl (file a base) w).written = w.written ∧
      ∃ parts, List.Forall₂ (Prints a base w.host) files parts ∧
        (files.foldl (file a base) w).stdout = parts.foldl (· ++ ·) w.stdout := by
  induction files generalizing w with
  | nil => exact ⟨rfl, rfl, [], .nil, rfl⟩
  | cons p files ih =>
      obtain ⟨hHost, hWritten, part, hPart, hOut⟩ := file_eq_of_not_write hWrite base w p
      obtain ⟨hHosts, hWrittens, parts, hParts, hOuts⟩ := ih (file a base w p)
      rw [hHost] at hHosts hParts
      refine ⟨hHosts, hWrittens.trans hWritten, part :: parts, .cons hPart hParts, ?_⟩
      rw [List.foldl_cons, hOuts, hOut, List.foldl_cons]

end Work

section Run

variable {a : Arguments} {h : Host} (hInputs : a.inputs ≠ [])
include hInputs

/-- A run that has no settings fails at once, whether it has inputs or not. -/
theorem run_of_baseConfig_eq_error {e : Failure} (hBase : baseConfig a h = .error e)
    (stdin : Option ByteArray) : run a stdin h = .failed h e := by
  simp [run, hInputs, hBase]

theorem run_eq_runFiles {base : Config} (hBase : baseConfig a h = .ok base)
    (stdin : Option ByteArray) : run a stdin h = runFiles a base h := by
  simp [run, hInputs, hBase]

/-- A run that fails before it reads a file changes nothing and prints nothing. A run without
`--write` changes nothing, and prints what the files that do not fail are rewrapped to, in their
order; a file that fails does not touch what is printed of the others. -/
theorem run_keeps_files (stdin : Option ByteArray) :
    (((∃ e, baseConfig a h = .error e) ∨
        ∃ base, baseConfig a h = .ok base ∧ ∃ input ∈ a.inputs, ∃ e,
          Expansion.ofInput h base.exclude base.extensions input = .error e) →
      (run a stdin h).host = h ∧ (run a stdin h).written = [] ∧
        (run a stdin h).stdout = ByteArray.empty ∧ (run a stdin h).code ≠ 0) ∧
    (a.write = false →
      (run a stdin h).host = h ∧ (run a stdin h).written = [] ∧
        ∀ base files, baseConfig a h = .ok base →
          Expansion.expand h base.exclude base.extensions a.inputs = .ok files →
            ∃ parts, List.Forall₂ (Prints a base h) files parts ∧
              (run a stdin h).stdout = parts.foldl (· ++ ·) ByteArray.empty) := by
  constructor
  · rintro (⟨e, hBase⟩ | ⟨base, hBase, input, hInput, e, hError⟩)
    · rw [run_of_baseConfig_eq_error hInputs hBase]
      exact ⟨rfl, rfl, rfl, Nat.one_ne_zero⟩
    · rw [run_eq_runFiles hInputs hBase, runFiles]
      cases hExpand : Expansion.expand h base.exclude base.extensions a.inputs with
      | error e => exact ⟨rfl, rfl, rfl, Nat.one_ne_zero⟩
      | ok files =>
          obtain ⟨found, hFound⟩ :=
            (Expansion.exists_expand_eq_ok_iff h _ _ _).mp ⟨files, hExpand⟩ input hInput
          rw [hError] at hFound
          cases hFound
  · intro hWrite
    cases hBase : baseConfig a h with
    | error e =>
        rw [run_of_baseConfig_eq_error hInputs hBase]
        exact ⟨rfl, rfl, fun _ _ hOk => (nomatch hOk)⟩
    | ok base =>
        rw [run_eq_runFiles hInputs hBase, runFiles]
        cases hExpand : Expansion.expand h base.exclude base.extensions a.inputs with
        | error e =>
            refine ⟨rfl, rfl, fun base' files hOk hFiles => ?_⟩
            rw [← Except.ok.inj hOk, hExpand] at hFiles
            cases hFiles
        | ok files =>
            obtain ⟨hHost, hWritten, parts, hParts, hOut⟩ :=
              Work.foldl_file_of_not_write hWrite base files { host := h }
            refine ⟨hHost, hWritten, fun base' files' hOk hFiles => ?_⟩
            obtain rfl := Except.ok.inj hOk
            rw [hExpand] at hFiles
            obtain rfl := Except.ok.inj hFiles
            exact ⟨parts, hParts, hOut⟩

end Run

/-- Two text files with settings beside them. The working directory is the root. -/
def twoFiles : Host where
  disk := .dir [("a.txt".toList, .file "ab cd".toUTF8), ("c.txt".toList, .file "ef".toUTF8),
    ("rewrap.toml".toList, .file "column = 3".toUTF8)]
  cwd := []
  home := none

/-- Print both files, and one between them that is missing. -/
def printThree : Arguments where
  inputs := ["a.txt".toList, "b.txt".toList, "c.txt".toList]

/-- Rewrap a file and those that a pattern matches, which are none. -/
def writeUnmatched : Arguments where
  inputs := ["a.txt".toList, "*.go".toList]
  write := true

theorem run_keeps_files_missing :
    (printThree.inputs ≠ [] ∧ printThree.write = false ∧
      baseConfig printThree twoFiles = .ok { column := 3 } ∧
      Expansion.expand twoFiles [] [] printThree.inputs = .ok printThree.inputs ∧
      ∃ parts, List.Forall₂ (Prints printThree { column := 3 } twoFiles) printThree.inputs parts ∧
        (run printThree none twoFiles).stdout = parts.foldl (· ++ ·) ByteArray.empty) ∧
    writeUnmatched.inputs ≠ [] ∧ baseConfig writeUnmatched twoFiles = .ok { column := 3 } ∧
      Expansion.ofInput twoFiles [] [] "*.go".toList = .error (.noMatch "*.go".toList) ∧
      (run writeUnmatched none twoFiles).host = twoFiles ∧
      (run writeUnmatched none twoFiles).code ≠ 0 := by
  have hPrint : baseConfig printThree twoFiles = .ok { column := 3 } := by decide +kernel
  have hFiles : Expansion.expand twoFiles [] [] printThree.inputs = .ok printThree.inputs := by
    decide +kernel
  have hWrite : baseConfig writeUnmatched twoFiles = .ok { column := 3 } := by decide +kernel
  have hPattern : Expansion.ofInput twoFiles [] [] "*.go".toList =
      .error (.noMatch "*.go".toList) := by decide +kernel
  refine ⟨⟨by decide, rfl, hPrint, hFiles, ?_⟩, by decide, hWrite, hPattern, ?_⟩
  · exact ((run_keeps_files (by decide) none).2 rfl).2.2 _ _ hPrint hFiles
  · obtain ⟨hHost, -, -, hCode⟩ := (run_keeps_files (by decide) none).1
      (Or.inr ⟨_, hWrite, _, by decide, _, hPattern⟩)
    exact ⟨hHost, hCode⟩

/-- The missing file leaves no trace in the output. -/
example : (run printThree none twoFiles).stdout = "ab\ncdef".toUTF8 := by decide +kernel

end Command

end Reflow
