import Reflow.Layout
import Reflow.Toml.Parser

/-!
All settings, the settings that one file gives, and how these are laid over each other.
-/

namespace Reflow

structure Config where
  column : Nat := 100
  tabWidth : Nat := 4
  /-- Names of directories that are skipped. -/
  exclude : List Text := []
  /-- Language names by file extension. -/
  extensions : List (Text × Text) := []
  deriving DecidableEq, Repr

/-- The settings of one file, each of which it may leave open. Other entries of the file are no
settings and are not kept. -/
structure Settings where
  column : Option Nat := none
  tabWidth : Option Nat := none
  exclude : Option (List Text) := none
  extensions : List (Text × Text) := []
  deriving DecidableEq, Repr

/-- Settings that make no sense. A negative number in a file is malformed instead. -/
inductive ConfigFault where
  | zeroColumn
  | largeColumn (column : Nat)
  | zeroTabWidth
  | largeTabWidth (tabWidth : Nat)
  deriving DecidableEq, Repr

namespace Config

def maxColumn : Nat := 1000

def maxTabWidth : Nat := 16

def fault? (c : Config) : Option ConfigFault :=
  if c.column = 0 then some .zeroColumn
  else if maxColumn < c.column then some (.largeColumn c.column)
  else if c.tabWidth = 0 then some .zeroTabWidth
  else if maxTabWidth < c.tabWidth then some (.largeTabWidth c.tabWidth)
  else none

/-- Put an entry in place of one of the same key, or at the end. The order of the other entries is
kept. -/
def insertExtension (entries : List (Text × Text)) (entry : Text × Text) : List (Text × Text) :=
  match entries with
  | [] => [entry]
  | e :: es => if e.1 = entry.1 then entry :: es else e :: insertExtension es entry

/-- Lay the settings of one file over all settings: what it sets wins, and extensions are joined key
by key. -/
def overlay (c : Config) (s : Settings) : Config where
  column := s.column.getD c.column
  tabWidth := s.tabWidth.getD c.tabWidth
  exclude := s.exclude.getD c.exclude
  extensions := s.extensions.foldl insertExtension c.extensions

def layout (c : Config) : Layout := { column := c.column, tab := c.tabWidth }

end Config

namespace ConfigFault

def decimal (n : Nat) : Text := Nat.toDigits 10 n

def message : ConfigFault → Text
  | zeroColumn => "column must be at least 1".toList
  | largeColumn n =>
    "column ".toList ++ decimal n ++ " exceeds maximum of ".toList ++ decimal Config.maxColumn
  | zeroTabWidth => "tab_width must be at least 1".toList
  | largeTabWidth n =>
    "tab_width ".toList ++ decimal n ++ " exceeds maximum of ".toList ++ decimal Config.maxTabWidth

end ConfigFault

namespace Settings

/-- Read a setting that may be missing but may not be of the wrong kind. The outer result says
whether it is, the inner one whether it is there. -/
def setting? {α : Type} (entries : List (Text × Toml.Value)) (key : String)
    (read : Toml.Value → Option α) : Option (Option α) :=
  match entries.lookup key.toList with
  | none => some none
  | some v => (read v).map some

def natural? (v : Toml.Value) : Option Nat :=
  v.integer?.bind fun n => if 0 ≤ n then some n.toNat else none

def texts? (v : Toml.Value) : Option (List Text) := v.array?.bind (·.mapM Toml.Value.string?)

def mapping? (v : Toml.Value) : Option (List (Text × Text)) :=
  v.entries?.bind (·.mapM fun (key, value) => value.string?.map fun t => (key, t))

/-- The settings in the entries of a document. Entries that are no settings are passed over. One
setting of the wrong kind makes the whole file malformed, whatever else it sets. -/
def ofEntries? (entries : List (Text × Toml.Value)) : Option Settings := do
  let column ← setting? entries "column" natural?
  let tabWidth ← setting? entries "tab_width" natural?
  let exclude ← setting? entries "exclude" texts?
  let extensions ← setting? entries "extensions" mapping?
  return { column, tabWidth, exclude, extensions := extensions.getD [] }

def ofText? (t : Text) : Option Settings := (Toml.parse? t).bind ofEntries?

end Settings

end Reflow
