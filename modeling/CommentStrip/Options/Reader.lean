import CommentStrip.Error
import CommentStrip.Json.Parse
import CommentStrip.Options.Basic

/-!
# Reading options

Options are written in JSON, as an object or as an array of the same values in order. What is left
out takes its standard value. An object may have members that mean nothing here; one that does mean
something must not be repeated. A range of lines needs both of its ends.
-/
namespace CommentStrip

/-- The largest number that options can hold. -/
def largestNumber : Nat := 0xffffffffffffffff

/-- The values of the named members, each with whether it is there. No answer if one of the names
is repeated, or if the name of any member is no text. -/
def readMembers? (names : List String) (members : List (Option Text × Json)) :
    Option (List (Option Json)) :=
  if members.all (·.1.isSome) then names.mapM fun name => Json.member? members name.toList
  else none

/-- A truth value; what is left out takes the value `absent`. -/
def readBool? (absent : Bool) : Option Json → Option Bool
  | none => some absent
  | some (.bool value) => some value
  | some _ => none

/-- A line number. -/
def readLine? : Json → Option Nat
  | .number (some value) => if value ≤ largestNumber then some value else none
  | _ => none

namespace LineRange

/-- A range from its two ends. -/
def ofEnds? (start stop : Json) : Option LineRange := do
  return ⟨← readLine? start, ← readLine? stop⟩

def ofJson? : Json → Option LineRange
  | .array [start, stop] => ofEnds? start stop
  | .object members =>
    match readMembers? ["start", "end"] members with
    | some [some start, some stop] => ofEnds? start stop
    | _ => none
  | _ => none

/-- A range or, if it is left out or null, none. -/
def read? : Option Json → Option (Option LineRange)
  | none => some none
  | some .null => some none
  | some value => (ofJson? value).map some

end LineRange

namespace Options

/-- Options from the values of their three fields. -/
def ofFields? (removeFloatingStrings keepDocComments lineRange : Option Json) :
    Option Options := do
  return ⟨← readBool? standard.removeFloatingStrings removeFloatingStrings,
    ← readBool? standard.keepDocComments keepDocComments, ← LineRange.read? lineRange⟩

def ofJson? : Json → Option Options
  | .array [] => ofFields? none none none
  | .array [first] => ofFields? (some first) none none
  | .array [first, second] => ofFields? (some first) (some second) none
  | .array [first, second, third] => ofFields? (some first) (some second) (some third)
  | .object members =>
    match readMembers? ["remove_floating_strings", "keep_doc_comments", "line_range"] members with
    | some [first, second, third] => ofFields? first second third
    | _ => none
  | _ => none

/-- Reads options from a text, with the given detail of the error for one that is malformed. -/
def parseOr (detail : String) (text : Text) : Except Error Options :=
  match (Json.parse? text).bind ofJson? with
  | some options => .ok options
  | none => .error (.config detail)

/-- Reads options from a text. -/
def parse (text : Text) : Except Error Options :=
  parseOr "Failed to parse options" text

/-- Reads options from the contents of a file, or from none if the file cannot be opened. -/
def parseFile : Option Text → Except Error Options
  | some contents => parseOr "Failed to parse options file" contents
  | none => .error (.config "Failed to open options file")

end Options

end CommentStrip
