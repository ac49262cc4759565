import CommentStrip.Text

/-!
# Spans

A span is a contiguous region of source text of one kind. Its place is given twice: in bytes, and
as a line and a column, which start at one and count characters.
-/
namespace CommentStrip

/-- What a region of source text is. -/
inductive Kind where
  | code
  | stringLiteral
  | lineComment
  | blockComment
  | whitespace
  | newline
  deriving DecidableEq

namespace Kind

/-- Every kind. -/
def all : List Kind :=
  [code, stringLiteral, lineComment, blockComment, whitespace, newline]

/-- The written name of a kind. -/
def name : Kind → String
  | code => "code"
  | stringLiteral => "string_literal"
  | lineComment => "line_comment"
  | blockComment => "block_comment"
  | whitespace => "whitespace"
  | newline => "newline"

/-- The kind with a given name, for spans that come from outside as data. -/
def ofName? (text : String) : Option Kind :=
  all.find? fun kind => kind.name == text

theorem ofName?_name (kind : Kind) : ofName? kind.name = some kind := by
  cases kind <;> decide

/-- A line or block comment. -/
def isComment (kind : Kind) : Bool :=
  kind == lineComment || kind == blockComment

/-- Whitespace or a line break. -/
def isBlank (kind : Kind) : Bool :=
  kind == whitespace || kind == newline

/-- A blank or a comment: what never affects the structure of a program. -/
def isTrivia (kind : Kind) : Bool :=
  kind.isBlank || kind.isComment

end Kind

/-- A place between two characters of a source text. -/
structure Position where
  /-- Bytes before the place. -/
  offset : Nat
  /-- One more than the line breaks before the place. -/
  line : Nat
  /-- One more than the characters since the last line break. -/
  column : Nat
  deriving DecidableEq

namespace Position

/-- The place before the first character. -/
def start : Position := ⟨0, 1, 1⟩

/--
The place after a text that begins at `place`. A line feed ends a line, and so does a carriage
return unless a line feed comes right after it, which then ends the line for both.
-/
def after (place : Position) : Text → Position
  | [] => place
  | c :: rest =>
    let offset := place.offset + c.utf8Size
    if c = '\n' ∨ (c = '\r' ∧ rest.head? ≠ some '\n') then
      after ⟨offset, place.line + 1, 1⟩ rest
    else
      after ⟨offset, place.line, place.column + 1⟩ rest

theorem offset_after (place : Position) (text : Text) :
    (place.after text).offset = place.offset + text.byteLength := by
  induction text generalizing place with
  | nil => rfl
  | cons c rest ih =>
    simp only [after]
    split <;> simp [ih, Nat.add_assoc]

end Position

/-- A region of one kind, the bytes `start` to `stop` of its source. -/
structure Span where
  kind : Kind
  start : Nat
  stop : Nat
  line : Nat
  column : Nat
  text : Text
  deriving DecidableEq

namespace Span

/-- The region that `text` takes when it begins at `place`. -/
def covering (kind : Kind) (place : Position) (text : Text) : Span :=
  ⟨kind, place.offset, (place.after text).offset, place.line, place.column, text⟩

/-- Whether a line ends inside the span. -/
def containsLineBreak (span : Span) : Bool :=
  span.text.any isLineBreak

/-- Neither blank nor comment. -/
def isSignificant (span : Span) : Bool :=
  !span.kind.isTrivia

/-- Whether the text of the span ends with the character `c`. -/
def endsWith (span : Span) (c : Char) : Bool :=
  span.text.getLast? == some c

end Span

end CommentStrip
