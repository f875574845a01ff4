/-!
Text as a list of characters: blank characters, trimming, lines, and the first occurrence of one
text in another. Everything that reads or writes text in this library is built from these.
-/

namespace Reflow

/-- Text is a list of characters; a line is a text that holds no line feed. Characters are scalar
values of Unicode, so no text is ill-formed. -/
abbrev Text := List Char

/-- Blank characters are those of the Unicode property White_Space. They are more than those of the
ASCII range. -/
def isBlank (c : Char) : Bool :=
  let n := c.toNat
  (9 ≤ n && n ≤ 13) || n == 0x20 || n == 0x85 || n == 0xA0 || n == 0x1680 ||
    (0x2000 ≤ n && n ≤ 0x200A) || n == 0x2028 || n == 0x2029 || n == 0x202F ||
    n == 0x205F || n == 0x3000

/-- The only characters that indent a line or separate words on it. All other blanks inside a line
are parts of words. -/
def isGap (c : Char) : Bool := c == ' ' || c == '\t'

namespace Text

/-- Drop the longest run at the end whose characters all satisfy `p`. If all do, nothing is left. -/
def dropEndWhile (p : Char → Bool) (t : Text) : Text := (t.reverse.dropWhile p).reverse

def trimStart (t : Text) : Text := t.dropWhile isBlank

def trimEnd (t : Text) : Text := dropEndWhile isBlank t

def trim (t : Text) : Text := trimEnd (trimStart t)

/-- A text without any visible character; the empty text is one. -/
def allBlank (t : Text) : Bool := t.all isBlank

/-- Drop the spaces, and only the spaces, at the end. -/
def dropEndSpaces (t : Text) : Text := dropEndWhile (· == ' ') t

/-- Leading spaces and tabs, and what follows them. -/
def splitIndent (t : Text) : Text × Text := (t.takeWhile isGap, t.dropWhile isGap)

/-- The lines between line feeds; a text with `n` line feeds has `n + 1` lines. The empty text has
one line, which is empty. -/
def lines (t : Text) : List Text := t.splitOn '\n'

/-- Lines with a line feed between each two. There is none at the end, so this takes `lines`
back. -/
def unlines (ls : List Text) : Text := List.intercalate ['\n'] ls

/-- What follows `start` in a text that begins with it. Case counts. -/
def dropPrefix? : (start t : Text) → Option Text
  | [], t => some t
  | _ :: _, [] => none
  | a :: start, b :: t => if a = b then dropPrefix? start t else none

def startsWith (t start : Text) : Bool := (dropPrefix? start t).isSome

def endsWith (t c : Text) : Bool := startsWith t.reverse c.reverse

/-- The parts before and after the first occurrence of `mark`. An empty mark occurs at the start. -/
def cut? (mark : Text) : Text → Option (Text × Text)
  | [] => (dropPrefix? mark []).map fun after => ([], after)
  | c :: t =>
    match dropPrefix? mark (c :: t) with
    | some after => some ([], after)
    | none => (cut? mark t).map fun (before, after) => (c :: before, after)

def contains (t mark : Text) : Bool := (cut? mark t).isSome

/-- Divide a text where its first `n` bytes of UTF-8 end; there is no such place inside a character
or behind the end. This is how a length in bytes is carried over to a text of characters. -/
def splitBytes? (n : Nat) : Text → Option (Text × Text)
  | [] => if n = 0 then some ([], []) else none
  | c :: t =>
    if n = 0 then some ([], c :: t)
    else if c.utf8Size ≤ n then
      (splitBytes? (n - c.utf8Size) t).map fun (front, back) => (c :: front, back)
    else none

def byteLength (t : Text) : Nat := t.foldr (fun c n => c.utf8Size + n) 0

/-- The order of a dictionary whose alphabet is ordered by code point. A text stands behind all of
its beginnings. -/
def atMost : Text → Text → Bool
  | [], _ => true
  | _ :: _, [] => false
  | a :: s, b :: t => a.toNat < b.toNat || (a == b && atMost s t)

/-- Letters of the ASCII range in lower case; every other character is kept. -/
def lower (t : Text) : Text := t.map Char.toLower

/-- Equality that does not tell ASCII capitals from small letters. -/
def sameIgnoringCase (a b : Text) : Bool := lower a == lower b

theorem dropPrefix?_eq_some {start t rest : Text} (h : dropPrefix? start t = some rest) :
    t = start ++ rest := by
  induction start generalizing t with
  | nil => simpa [dropPrefix?] using h
  | cons a start ih =>
      cases t with
      | nil => simp [dropPrefix?] at h
      | cons b t =>
          by_cases hab : a = b
          · subst hab
            simp only [dropPrefix?, if_true] at h
            simp [ih h]
          · simp [dropPrefix?, hab] at h

@[simp] theorem dropPrefix?_append (start rest : Text) :
    dropPrefix? start (start ++ rest) = some rest := by
  induction start with
  | nil => rfl
  | cons a start ih => simpa [dropPrefix?] using ih

/-- Nothing is lost by cutting a text at a mark. That the mark does not occur earlier is not said
here. -/
theorem cut?_eq_some {mark t before after : Text} (h : cut? mark t = some (before, after)) :
    t = before ++ mark ++ after := by
  induction t generalizing before with
  | nil =>
      simp only [cut?, Option.map_eq_some_iff, Prod.mk.injEq] at h
      obtain ⟨rest, hrest, rfl, rfl⟩ := h
      simpa using dropPrefix?_eq_some hrest
  | cons c t ih =>
      rw [cut?] at h
      split at h
      next rest hrest =>
        simp only [Option.some.injEq, Prod.mk.injEq] at h
        obtain ⟨rfl, rfl⟩ := h
        simpa using dropPrefix?_eq_some hrest
      next =>
        simp only [Option.map_eq_some_iff, Prod.mk.injEq] at h
        obtain ⟨⟨b, a⟩, hcut, rfl, rfl⟩ := h
        simp [ih hcut]

end Text

end Reflow
