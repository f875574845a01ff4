import Reflow.Language.Basic

/-!
The languages that are known without configuration.
-/

namespace Reflow.Language

def lineOnly (name : String) (extensions : List String) (marker : String)
    (directives : List String) : Language where
  name := name.toList
  extensions := extensions.map String.toList
  lineMarkers := [marker.toList]
  directives := directives.map String.toList

def slashStar (name : String) (extensions : List String) (markers : List String) : Language where
  name := name.toList
  extensions := extensions.map String.toList
  lineMarkers := markers.map String.toList
  blockStart := ["/*".toList]
  blockEnd := ["*/".toList]

def go : Language :=
  { slashStar "go" [".go"] ["//"] with
    directives := ["go:", "line ", "export ", "nolint"].map String.toList
    docMarker := some "//".toList }

/-- Document comments come first among the markers, so that they are not taken for plain ones. A run
of them is not joined with a run of plain ones. -/
def rust : Language := slashStar "rust" [".rs"] ["///", "//!", "//"]

def markdown : Language where
  name := "markdown".toList
  extensions := [".md", ".markdown"].map String.toList
  kind := .document

/-- The known languages, in the order in which they are searched. No two of them share a name or an
extension. -/
def all : List Language := [
  go,
  slashStar "c" [".c", ".h"] ["//"],
  slashStar "cpp" [".cpp", ".cc", ".cxx", ".hpp", ".hxx"] ["//"],
  { slashStar "java" [".java"] ["//"] with gutter := some " * ".toList },
  slashStar "javascript" [".js", ".jsx", ".mjs", ".cjs"] ["//"],
  slashStar "typescript" [".ts", ".tsx", ".mts", ".cts"] ["//"],
  lineOnly "python" [".py"] "#" ["!", " -*-"],
  lineOnly "shell" [".sh", ".bash", ".zsh"] "#" ["!"],
  lineOnly "ruby" [".rb"] "#" ["!", " frozen_string_literal:"],
  rust,
  lineOnly "toml" [".toml"] "#" [],
  lineOnly "yaml" [".yaml", ".yml"] "#" [],
  markdown]

/-- The language of that name, in any case of letters. -/
def ofName? (name : Text) : Option Language :=
  all.find? fun lang => Text.sameIgnoringCase lang.name name

/-- The language of a file extension, with or without its dot and in any case of letters. -/
def ofExtension? (extension : Text) : Option Language :=
  let key := Text.lower extension
  let key := if Text.startsWith key ['.'] then key else '.' :: key
  all.find? fun lang => lang.extensions.contains key

end Reflow.Language
