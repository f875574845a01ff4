import Reflow.Language.Table
import Reflow.Path

/-!
The language of an input, from what the user asked for, the configured extensions, and the known
languages, in this order.
-/

namespace Reflow.Language

/-- The name that asks for plain text. -/
def plainText : Text := "text".toList

/-- A name that is no language. The second kind names the extension for which it is configured. -/
inductive ResolveError where
  | unknown (name : Text)
  | unknownFor (extension name : Text)
  deriving DecidableEq, Repr

namespace ResolveError

def message : ResolveError → Text
  | unknown name => "unknown language: ".toList ++ name
  | unknownFor extension name =>
    "unknown language for extension .".toList ++ extension ++ ": ".toList ++ name

end ResolveError

/-- The language of a path by its extension alone. -/
def ofPath? (p : Text) : Option Language := (Path.extension? p).bind ofExtension?

/-- A configured key stands for an extension, with or without its dot and in any case of letters.
Several keys may stand for one extension. -/
def keyMatches (extension key : Text) : Bool :=
  Text.sameIgnoringCase ((Text.dropPrefix? ['.'] key).getD key) extension

/-- The key `a` is preferred to `b`: keys without a dot come first, then the lower key. Of two
different keys only one is preferred to the other. -/
def preferred (a b : Text) : Bool :=
  let dotted (t : Text) := Text.startsWith t ['.']
  if dotted a == dotted b then Text.atMost a b else !dotted a

def choose (best : Option (Text × Text)) (entry : Text × Text) : Option (Text × Text) :=
  match best with
  | none => some entry
  | some b => some (if preferred b.1 entry.1 then b else entry)

/-- The language name that is configured for an extension. Whether there is such a language is not
asked here. -/
def configured? (extensions : List (Text × Text)) (extension : Text) : Option Text :=
  ((extensions.filter fun entry => keyMatches extension entry.1).foldl choose none).map Prod.snd

/-- The language of a name, where plain text is none. The caller says what the error is to be. -/
def ofRequest (name : Text) (error : ResolveError) : Except ResolveError (Option Language) :=
  if Text.sameIgnoringCase name plainText then .ok none
  else
    match ofName? name with
    | some lang => .ok (some lang)
    | none => .error error

/-- The language of an input: an explicit name wins, then a configured extension, then a known one.
An empty explicit name is no name. -/
def resolve (path explicit : Option Text) (extensions : List (Text × Text)) :
    Except ResolveError (Option Language) :=
  match explicit.filter (!List.isEmpty ·) with
  | some name => ofRequest name (.unknown name)
  | none =>
    match path.bind Path.extension? with
    -- Text without an extension is plain.
    | none => .ok none
    | some extension =>
      match configured? extensions extension with
      | some name => ofRequest name (.unknownFor extension name)
      | none => .ok (ofExtension? extension)

/-- The file has an extension that is known or configured. A configured extension counts even if its
language does not exist, so that the error is seen. -/
def isKnownFile (extensions : List (Text × Text)) (p : Text) : Bool :=
  (ofPath? p).isSome ||
    (Path.extension? p).any fun extension => extensions.any fun entry =>
      keyMatches extension entry.1

end Reflow.Language
