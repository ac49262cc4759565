import CommentStrip.Unicode.Class

/-!
# Text

Source text as the list of its characters, with the measures and searches that every part of
the library shares. Lengths in bytes are those of the UTF-8 encoding; an index into a text counts
characters unless it is called an offset.
-/
namespace CommentStrip

/-- Source text: its Unicode scalar values in order. -/
abbrev Text := List Char

/-- Space, tab or form feed: the blanks that do not end a line. -/
def isInlineBlank (c : Char) : Bool :=
  c == ' ' || c == '\t' || c == '\x0c'

/-- Line feed or carriage return. -/
def isLineBreak (c : Char) : Bool :=
  c == '\n' || c == '\r'

/-- A character that may continue a name: alphanumeric or an underscore. -/
def isNameChar (c : Char) : Bool :=
  Unicode.isAlphanumeric c || c == '_'

/-- A character of a word token: one of a name, or a dollar sign. -/
def isTokenWord (c : Char) : Bool :=
  isNameChar c || c == '$'

namespace Text

/-- The number of bytes that `text` takes in UTF-8. -/
def byteLength : Text → Nat
  | [] => 0
  | c :: rest => c.utf8Size + byteLength rest

@[simp] theorem byteLength_nil : byteLength [] = 0 := rfl

@[simp] theorem byteLength_cons (c : Char) (text : Text) :
    byteLength (c :: text) = c.utf8Size + byteLength text := rfl

@[simp] theorem byteLength_append (left right : Text) :
    byteLength (left ++ right) = byteLength left + byteLength right := by
  induction left with
  | nil => exact (Nat.zero_add _).symm
  | cons c rest ih =>
    rw [List.cons_append, byteLength_cons, byteLength_cons, ih, Nat.add_assoc]

/-- Every character takes at least one byte. -/
theorem length_le_byteLength (text : Text) : text.length ≤ byteLength text := by
  induction text with
  | nil => exact Nat.le_refl _
  | cons c rest ih =>
    have positive := c.utf8Size_pos
    simp only [List.length_cons, byteLength_cons]
    omega

/-- Equality up to the case of the letters A to Z. -/
def sameIgnoringCase (left right : Text) : Bool :=
  left.map Char.toLower == right.map Char.toLower

/-- The index of the first occurrence of `sought`. -/
def occurrence? (sought : Text) : Text → Option Nat
  | [] => if sought.isEmpty then some 0 else none
  | c :: rest =>
    if sought.isPrefixOf (c :: rest) then some 0
    else (occurrence? sought rest).map (· + 1)

/-- The text without the white space at its start. -/
def trimStart (text : Text) : Text :=
  text.dropWhile Unicode.isWhiteSpace

/-- The text without the white space at its start and end. -/
def trim (text : Text) : Text :=
  (trimStart (trimStart text).reverse).reverse

end Text

end CommentStrip
