/-!
# How values are written

Lists are written in square brackets, records by name with their fields in braces, and the entries
of a table in braces. An element that is not there is written as an empty set.
-/

namespace TourForest.Text

/-- Items in square brackets. -/
def list (items : List String) : String := "[" ++ ", ".intercalate items ++ "]"

/-- Entries of a table: key, colon, value. -/
def table (entries : List (String × String)) : String :=
  "\x7b" ++ ", ".intercalate (entries.map fun (key, value) => key ++ ": " ++ value) ++ "\x7d"

/-- A record with its fields in order. -/
def record (name : String) (fields : List (String × String)) : String :=
  let written := fields.map fun (field, value) => field ++ ": " ++ value
  name ++ " \x7b " ++ ", ".intercalate written ++ " \x7d"

/-- A pair in parentheses. -/
def pair (a b : String) : String := "(" ++ a ++ ", " ++ b ++ ")"

/-- The index of an element, or the sign for none. -/
def element : Option Nat → String
  | none => "∅"
  | some u => toString u

end TourForest.Text
