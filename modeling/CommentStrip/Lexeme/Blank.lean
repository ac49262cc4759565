import CommentStrip.Lexeme.Reading
import CommentStrip.Text

/-!
# Blanks

Line breaks and runs of blanks inside a line. A carriage return and the line feed after it are one
line break.
-/
namespace CommentStrip.Blank

/-- Reads one line break. -/
def readNewline : Text → Reading
  | '\r' :: '\n' :: _ => .ok 2
  | '\n' :: _ => .ok 1
  | '\r' :: _ => .ok 1
  | _ => .error (.notOpened 0)

/-- Reads the blanks up to the next character that is none. -/
def readWhitespace (text : Text) : Reading :=
  match (text.takeWhile isInlineBlank).length with
  | 0 => .error (.notOpened 0)
  | length => .ok length

end CommentStrip.Blank
