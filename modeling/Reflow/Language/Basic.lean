import Reflow.Text.Basic

/-!
The comment conventions of a language.
-/

namespace Reflow

inductive LanguageKind where
  /-- Comments are found line by line and rewrapped, code is kept. -/
  | source
  /-- Paragraphs of a marked-up document are rewrapped, everything else is kept. -/
  | document
  deriving DecidableEq, Repr

/-- The comment conventions of a language. A language without tokens of one kind has no comments of
that kind. -/
structure Language where
  name : Text
  /-- File extensions with their dot. -/
  extensions : List Text := []
  /-- Tokens that start a line comment; the first that fits is taken. -/
  lineMarkers : List Text := []
  /-- Tokens that open a block comment. -/
  blockStart : List Text := []
  /-- Tokens that close a block comment, in the order of `blockStart`. -/
  blockEnd : List Text := []
  /-- What stands before the text of a rewrapped block comment. -/
  gutter : Option Text := none
  /-- Texts that, right behind a line marker, make the line an instruction to a tool. -/
  directives : List Text := []
  /-- The line marker whose comments are structured. -/
  docMarker : Option Text := none
  kind : LanguageKind := .source
  deriving DecidableEq, Repr

namespace Language

def defaultGutter : Text := " * ".toList

/-- What stands before the text of a rewrapped block comment. It follows the indentation of the
comment. -/
def blockGutter (lang : Language) : Text := lang.gutter.getD defaultGutter

/-- The token that closes a comment opened by the token at `index`; the first closing token serves
every opening token that has none of its own. Without any closing token there is none. -/
def blockEndFor (lang : Language) (index : Nat) : Option Text :=
  (lang.blockEnd[index]?).or lang.blockEnd.head?

def isDocument (lang : Language) : Bool := lang.kind == .document

/-- Comments behind `marker` are structured; spaces at its end do not count. A language names one
such marker or none. -/
def hasDocComments (lang : Language) (marker : Text) : Bool :=
  lang.docMarker == some (Text.dropEndSpaces marker)

end Language

end Reflow
