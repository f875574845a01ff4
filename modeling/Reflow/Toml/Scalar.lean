import Reflow.Text.CharacterClass
import Reflow.Toml.Value

/-!
Strings, numbers, dates and times. Every reader takes a text and answers what it read and what
follows, or nothing if the text does not start in that way.
-/

namespace Reflow.Toml

def isSpace (c : Char) : Bool := c == ' ' || c == '\t'

def skipSpace (t : Text) : Text := t.dropWhile isSpace

/-- Characters that may stand in a comment or a string: all but control characters, and the tab. -/
def isPrintable (c : Char) : Bool := c == '\t' || (0x20 ≤ c.toNat && c.toNat != 0x7F)

/-- What follows a line ending, which is a line feed with or without a carriage return. -/
def newline? : Text → Option Text
  | '\n' :: t => some t
  | '\r' :: '\n' :: t => some t
  | _ => none

def hexValue? (c : Char) : Option Nat :=
  if '0' ≤ c && c ≤ '9' then some (c.toNat - 48)
  else if 'a' ≤ c && c ≤ 'f' then some (c.toNat - 87)
  else if 'A' ≤ c && c ≤ 'F' then some (c.toNat - 55)
  else none

/-- The character of a code point, which may not be a surrogate. Any other code point is a
character, also one that is not assigned. -/
def scalar? (n : Nat) : Option Char := if Nat.isValidChar n then some (Char.ofNat n) else none

/-- The character of `count` hexadecimal digits, and what follows. -/
def hexChar? (count : Nat) (t : Text) : Option (Char × Text) :=
  let digits := (t.take count).filterMap hexValue?
  if digits.length < count then none
  else (scalar? (digits.foldl (fun n d => 16 * n + d) 0)).map fun c => (c, t.drop count)

/-- The character that an escape stands for, behind the backslash, and what follows. No other
escapes are allowed. -/
def escape? : Text → Option (Char × Text)
  | 'b' :: t => some ('\x08', t)
  | 't' :: t => some ('\t', t)
  | 'n' :: t => some ('\n', t)
  | 'f' :: t => some ('\x0c', t)
  | 'r' :: t => some ('\r', t)
  | '"' :: t => some ('"', t)
  | '\\' :: t => some ('\\', t)
  | 'u' :: t => hexChar? 4 t
  | 'U' :: t => hexChar? 8 t
  | _ => none

/-- A string in double quotes, behind the opening one. -/
def basic? (t : Text) : Option (Text × Text) :=
  match t with
  | [] => none
  | '"' :: rest => some ([], rest)
  | '\\' :: rest =>
    match escape? rest with
    | none => none
    | some (c, after) =>
      if after.length < rest.length then (basic? after).map fun (s, u) => (c :: s, u) else none
  | c :: rest =>
    if isPrintable c then (basic? rest).map fun (s, u) => (c :: s, u) else none
termination_by t.length

/-- A string in single quotes, behind the opening one. -/
def literal? : Text → Option (Text × Text)
  | [] => none
  | '\'' :: rest => some ([], rest)
  | c :: rest =>
    if isPrintable c then (literal? rest).map fun (s, u) => (c :: s, u) else none

/-- The end of a string in triple quotes `q`: up to two quotes right before the closing three belong
to the string. More than five in a row end it too early, and the rest is an error. -/
def tripleEnd? (q : Char) (t : Text) : Option (Text × Text) :=
  let run := (t.takeWhile (· == q)).length
  if run < 3 then none
  else
    let inside := min (run - 3) 2
    some (List.replicate inside q, t.drop (inside + 3))

/-- White space that a backslash at the end of a line removes, up to the next visible character. -/
def skipBroken (t : Text) : Text :=
  match t with
  | [] => []
  | '\n' :: rest => skipBroken rest
  | '\r' :: '\n' :: rest => skipBroken rest
  | c :: rest => if isSpace c then skipBroken rest else c :: rest

/-- A string in three double quotes, behind the opening ones. -/
def multiBasic? (t : Text) : Option (Text × Text) :=
  match tripleEnd? '"' t with
  | some found => some found
  | none =>
    match t with
    | [] => none
    | '\\' :: rest =>
      match newline? (skipSpace rest) with
      | some after =>
        if (skipBroken after).length ≤ rest.length then multiBasic? (skipBroken after) else none
      | none =>
        match escape? rest with
        | none => none
        | some (c, after) =>
          if after.length ≤ rest.length then (multiBasic? after).map fun (s, u) => (c :: s, u)
          else none
    | '\n' :: rest => (multiBasic? rest).map fun (s, u) => ('\n' :: s, u)
    | '\r' :: '\n' :: rest => (multiBasic? rest).map fun (s, u) => ('\n' :: s, u)
    | c :: rest =>
      if isPrintable c then (multiBasic? rest).map fun (s, u) => (c :: s, u) else none
termination_by t.length

/-- A string in three single quotes, behind the opening ones. -/
def multiLiteral? (t : Text) : Option (Text × Text) :=
  match tripleEnd? '\'' t with
  | some found => some found
  | none =>
    match t with
    | [] => none
    | '\n' :: rest => (multiLiteral? rest).map fun (s, u) => ('\n' :: s, u)
    | '\r' :: '\n' :: rest => (multiLiteral? rest).map fun (s, u) => ('\n' :: s, u)
    | c :: rest =>
      if isPrintable c then (multiLiteral? rest).map fun (s, u) => (c :: s, u) else none
termination_by t.length

def dropNewline (t : Text) : Text := (newline? t).getD t

/-- A string of any kind. -/
def string? : Text → Option (Text × Text)
  | '"' :: '"' :: '"' :: t => multiBasic? (dropNewline t)
  | '\'' :: '\'' :: '\'' :: t => multiLiteral? (dropNewline t)
  | '"' :: t => basic? t
  | '\'' :: t => literal? t
  | _ => none

/-- Digits in which an underscore may stand between each two; the answer has no underscores. At
least one digit is needed. -/
def digitRun? (isDigit : Char → Bool) (t : Text) : Option (Text × Text) :=
  let run := t.takeWhile fun c => isDigit c || c == '_'
  let groups := run.splitOn '_'
  if groups.all (!List.isEmpty ·) then some (groups.flatten, t.drop run.length) else none

def sign (t : Text) : Bool × Text :=
  match t with
  | '-' :: rest => (true, rest)
  | '+' :: rest => (false, rest)
  | t => (false, t)

def valueOf (base : Nat) (digits : Text) : Nat :=
  digits.foldl (fun n c => base * n + (hexValue? c).getD 0) 0

/-- Decimal digits without a zero in front of others. A sign is read before. -/
def decimal? (t : Text) : Option (Text × Text) :=
  match digitRun? isAsciiDigit t with
  | none => none
  | some (digits, rest) =>
    if digits.length > 1 && digits.head? == some '0' then none else some (digits, rest)

def inRange (n : Int) : Bool := Int64.minValue.toInt ≤ n && n ≤ Int64.maxValue.toInt

/-- An integer of base `base`, behind the letters that announce it. It has no sign, and is refused
beyond 64 bits. -/
def based? (base : Nat) (t : Text) : Option (Int × Text) :=
  match digitRun? (fun c => (hexValue? c).any (· < base)) t with
  | none => none
  | some (digits, rest) =>
    let n : Int := valueOf base digits
    if inRange n then some (n, rest) else none

def integer? : Text → Option (Int × Text)
  | '0' :: 'x' :: t => based? 16 t
  | '0' :: 'o' :: t => based? 8 t
  | '0' :: 'b' :: t => based? 2 t
  | t =>
    let (negative, rest) := sign t
    match decimal? rest with
    | none => none
    | some (digits, after) =>
      let n : Int := valueOf 10 digits
      let n := if negative then -n else n
      if inRange n then some (n, after) else none

/-- The exponent of a float and what follows; without one it is zero. -/
def exponent? (t : Text) : Option (Int × Text) :=
  match t with
  | c :: rest =>
    if c == 'e' || c == 'E' then
      let (negative, digits) := sign rest
      (digitRun? isAsciiDigit digits).map fun (ds, after) =>
        let n : Int := valueOf 10 ds
        (if negative then -n else n, after)
    else some (0, t)
  | [] => some (0, [])

/-- The number `m * 10 ^ e` is nearer to infinity than to every finite double. Sizes far from the
limit are told by the number of digits, before any power is formed. -/
def overflows (m : Nat) (e : Int) : Bool :=
  if m == 0 then false
  else
    let size : Int := (Nat.toDigits 10 m).length + e
    if size < 300 then false
    else if 320 < size then true
    else
      let bound := Nat.pow 2 1024 - Nat.pow 2 970
      if 0 ≤ e then bound ≤ m * Nat.pow 10 e.toNat else bound * Nat.pow 10 (-e).toNat ≤ m

/-- What follows a float: a whole part with a fraction, an exponent or both, or a special value. A
positive number that is too large for a double is none. The number itself is not kept. -/
def float? (t : Text) : Option Text :=
  let (negative, rest) := sign t
  match Text.dropPrefix? "inf".toList rest, Text.dropPrefix? "nan".toList rest with
  | some after, _ => some after
  | none, some after => some after
  | none, none =>
    match decimal? rest with
    | none => none
    | some (whole, after) =>
      let fraction := match after with
        | '.' :: u => digitRun? isAsciiDigit u
        | _ => some ([], after)
      match fraction with
      | none => none
      | some (part, afterPart) =>
        match exponent? afterPart with
        | none => none
        | some (e, final) =>
          if final.length == after.length then none
          else if !negative && overflows (valueOf 10 (whole ++ part)) (e - part.length) then none
          else some final

/-- Exactly `count` digits, with their value between `low` and `high`. -/
def number? (count low high : Nat) (t : Text) : Option (Nat × Text) :=
  let digits := t.take count
  let n := valueOf 10 digits
  if digits.length == count && digits.all isAsciiDigit && low ≤ n && n ≤ high then
    some (n, t.drop count)
  else none

/-- A number with zeros in front, so that it has at least `width` digits. More digits are not
cut. -/
def padded (width n : Nat) : Text :=
  let digits := Nat.toDigits 10 n
  List.replicate (width - digits.length) '0' ++ digits

def isLeapYear (year : Nat) : Bool := year % 4 == 0 && (year % 100 != 0 || year % 400 == 0)

def daysIn (year month : Nat) : Nat :=
  if month == 2 then if isLeapYear year then 29 else 28
  else if month == 4 || month == 6 || month == 9 || month == 11 then 30
  else 31

def date? (t : Text) : Option (Text × Text) := do
  let (year, t) ← number? 4 0 9999 t
  let t ← Text.dropPrefix? ['-'] t
  let (month, t) ← number? 2 1 12 t
  let t ← Text.dropPrefix? ['-'] t
  let (day, t) ← number? 2 1 (daysIn year month) t
  return (padded 4 year ++ '-' :: padded 2 month ++ '-' :: padded 2 day, t)

/-- The fraction of a second in its normal text: at most nine digits and no zero at the end. Further
digits are dropped and not rounded. -/
def secondFraction? (t : Text) : Option (Text × Text) :=
  match t with
  | '.' :: rest =>
    let digits := rest.takeWhile isAsciiDigit
    if digits.isEmpty then none
    else
      let kept := Text.dropEndWhile (· == '0') (digits.take 9)
      some (if kept.isEmpty then [] else '.' :: kept, rest.drop digits.length)
  | t => some ([], t)

/-- A time of day in its normal text. -/
def time? (t : Text) : Option (Text × Text) := do
  let (hour, t) ← number? 2 0 23 t
  let t ← Text.dropPrefix? [':'] t
  let (minute, t) ← number? 2 0 59 t
  let t ← Text.dropPrefix? [':'] t
  let (second, t) ← number? 2 0 60 t
  let (fraction, t) ← secondFraction? t
  return (padded 2 hour ++ ':' :: padded 2 minute ++ ':' :: padded 2 second ++ fraction, t)

/-- The offset of a time in its normal text, which is empty for a local time. -/
def offset? (t : Text) : Option (Text × Text) :=
  match t with
  | c :: rest =>
    if c == 'Z' || c == 'z' then some (['Z'], rest)
    else if c == '+' || c == '-' then do
      let (hour, u) ← number? 2 0 23 rest
      let u ← Text.dropPrefix? [':'] u
      let (minute, u) ← number? 2 0 59 u
      let shown := if c == '-' && 0 < 60 * hour + minute then '-' else '+'
      return (shown :: padded 2 hour ++ ':' :: padded 2 minute, u)
    else some ([], t)
  | [] => some ([], [])

/-- A date, a time, or both in their normal text. A space between date and time counts only if a
time follows it. Otherwise the date stands alone. -/
def datetime? (t : Text) : Option (Text × Text) :=
  match date? t with
  | none => time? t
  | some (date, rest) =>
    match rest with
    | c :: after =>
      if c == 'T' || c == 't' || (c == ' ' && after.head?.any isAsciiDigit) then do
        let (time, u) ← time? after
        let (offset, u) ← offset? u
        return (date ++ 'T' :: time ++ offset, u)
      else some (date, rest)
    | [] => some (date, [])

/-- A number, a date or a time. What could be several of these is the first that fits, in this
order. -/
def numeric? (t : Text) : Option (Value × Text) :=
  match datetime? t with
  | some (text, rest) => some (.datetime text, rest)
  | none =>
    match float? t with
    | some rest => some (.float, rest)
    | none => (integer? t).map fun (n, rest) => (.integer n, rest)

end Reflow.Toml
