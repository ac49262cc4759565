import CommentStrip.Json.Token

/-!
# Reading JSON

A machine reads the tokens one by one. What it expects next is its mode, and the arrays and objects
that are still open around that are its frames, innermost first. No recursion follows the nesting,
so values may be nested to any depth.
-/
namespace CommentStrip.Json

/-- An array or an object around the value that is being read. -/
inductive Frame where
  /-- The items before the value, last first. -/
  | array (items : List Json)
  /-- The members before the value, last first, and the name of the value. -/
  | object (members : List (Option Text × Json)) (name : Option Text)

/-- What comes next. -/
inductive Mode where
  | value
  /-- A value, or the end of the array that has just begun. -/
  | firstItem
  /-- A name, or the end of the object that has just begun. -/
  | firstName
  /-- The name of one more member after those before, last first. -/
  | name (members : List (Option Text × Json))
  /-- The separator after a name. -/
  | separator (members : List (Option Text × Json)) (name : Option Text)
  /-- What follows a value that has been read. -/
  | done (value : Json)

/-- The step over a token that begins a value. -/
def beginValue (token : Token) (frames : List Frame) : Option (Mode × List Frame) :=
  match token with
  | .scalar value => some (.done value, frames)
  | .string text => some (.done (.string text), frames)
  | .beginArray => some (.firstItem, .array [] :: frames)
  | .beginObject => some (.firstName, frames)
  | _ => none

/-- The step over a token that follows a value. -/
def afterValue (value : Json) (token : Token) (frames : List Frame) :
    Option (Mode × List Frame) :=
  match token, frames with
  | .valueSeparator, .array items :: outer => some (.value, .array (value :: items) :: outer)
  | .endArray, .array items :: outer => some (.done (.array (value :: items).reverse), outer)
  | .valueSeparator, .object members name :: outer =>
    some (.name ((name, value) :: members), outer)
  | .endObject, .object members name :: outer =>
    some (.done (.object ((name, value) :: members).reverse), outer)
  | _, _ => none

/-- One step of the machine. -/
def step (mode : Mode) (token : Token) (frames : List Frame) : Option (Mode × List Frame) :=
  match mode, token, frames with
  | .firstItem, .endArray, _ :: outer => some (.done (.array []), outer)
  | .firstItem, _, _ => beginValue token frames
  | .value, _, _ => beginValue token frames
  | .firstName, .endObject, _ => some (.done (.object []), frames)
  | .firstName, .string name, _ => some (.separator [] name, frames)
  | .name members, .string name, _ => some (.separator members name, frames)
  | .separator members name, .nameSeparator, _ => some (.value, .object members name :: frames)
  | .done value, _, _ => afterValue value token frames
  | _, _, _ => none

/-- The value that tokens write, given what has been read before them. -/
def ofTokens? : Mode → List Frame → List Token → Option Json
  | .done value, [], [] => some value
  | _, _, [] => none
  | mode, frames, token :: rest =>
    match step mode token frames with
    | some (next, around) => ofTokens? next around rest
    | none => none

/-- The value that a text writes, with nothing but blanks around it. -/
def parse? (text : Text) : Option Json :=
  (tokens? text).bind (ofTokens? .value [])

end CommentStrip.Json
