import Reflow.Text.Property

/-!
Character classes that markup recognition asks about. The classes of the ASCII range are answered
without a table.
-/

namespace Reflow

def isAsciiLetter (c : Char) : Bool := ('a' ≤ c && c ≤ 'z') || ('A' ≤ c && c ≤ 'Z')

def isAsciiDigit (c : Char) : Bool := '0' ≤ c && c ≤ '9'

def isAsciiAlphanumeric (c : Char) : Bool := isAsciiLetter c || isAsciiDigit c

/-- Visible characters of the ASCII range that are neither letters nor digits. -/
def isAsciiPunctuation (c : Char) : Bool := '!' ≤ c && c ≤ '~' && !isAsciiAlphanumeric c

/-- Letters and numbers of every script. Vowel signs count as letters here, other marks do not. -/
def isAlphanumeric (c : Char) : Bool :=
  if c.toNat < 128 then isAsciiAlphanumeric c
  else Property.holds Property.alphabetic c || Property.holds Property.decimal c ||
    Property.holds Property.otherNumber c

/-- Characters that a word is made of: letters, marks, digits, connecting punctuation and the two
joiners. Numbers of category No are not among them. -/
def isWordChar (c : Char) : Bool :=
  if c.toNat < 128 then isAsciiAlphanumeric c || c == '_'
  else Property.holds Property.alphabetic c || Property.holds Property.mark c ||
    Property.holds Property.decimal c || Property.holds Property.connector c ||
    c.toNat == 0x200C || c.toNat == 0x200D

end Reflow
