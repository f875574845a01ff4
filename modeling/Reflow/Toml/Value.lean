import Reflow.Text.Basic

/-!
Values of the TOML format.
-/

namespace Reflow.Toml

/-- A value. A float is kept only as the kind of value it is, and a date or time as its normal text.
This is enough for settings, none of which is a float. -/
inductive Value where
  | string (t : Text)
  | integer (n : Int)
  | float
  | boolean (b : Bool)
  | datetime (t : Text)
  | array (values : List Value)
  | table (entries : List (Text × Value))
  deriving Repr

namespace Value

def string? : Value → Option Text
  | string t => some t
  | _ => none

def integer? : Value → Option Int
  | integer n => some n
  | _ => none

def array? : Value → Option (List Value)
  | array vs => some vs
  | _ => none

/-- The key under which a date or time holds its text where a table is wanted. -/
def datetimeKey : Text := "$__toml_private_datetime".toList

/-- The entries of a table; a date or time is a table of one entry. -/
def entries? : Value → Option (List (Text × Value))
  | table entries => some entries
  | datetime t => some [(datetimeKey, string t)]
  | _ => none

end Value

end Reflow.Toml
