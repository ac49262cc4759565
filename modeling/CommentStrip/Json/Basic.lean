import CommentStrip.Text

/-!
# JSON values

The tree of a JSON text, as far as options need it: object members keep their order and may repeat
a name, and a number is known by its value only where it is written as a natural number.
-/
namespace CommentStrip

inductive Json where
  | null
  | bool (value : Bool)
  /-- A number, with its value if it is written without sign, fraction and exponent. -/
  | number (natural : Option Nat)
  /-- A string, with its text unless an escape in it is half of a surrogate pair. -/
  | string (text : Option Text)
  | array (items : List Json)
  | object (members : List (Option Text × Json))

namespace Json

/-- Space, tab, line feed or carriage return. -/
def isBlank (c : Char) : Bool :=
  c == ' ' || c == '\t' || isLineBreak c

/-- The value of the member with this name among members that all have readable names: nothing if
there is none, and no answer at all if there are several. -/
def member? (members : List (Option Text × Json)) (name : Text) : Option (Option Json) :=
  match members.filter (·.1 == some name) with
  | [] => some none
  | [member] => some (some member.2)
  | _ => none

end Json

end CommentStrip
