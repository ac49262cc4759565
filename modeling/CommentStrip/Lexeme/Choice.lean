import CommentStrip.Error
import CommentStrip.Lexeme.Blank
import CommentStrip.Lexeme.Comment
import CommentStrip.Lexeme.Opening
import CommentStrip.Lexeme.Regex
import CommentStrip.Span.Cursor

/-!
# The choice of a lexeme

Several constructs may stand at one place. The first of these that does is taken: a string literal,
a regular expression, a block comment, a line comment, a line break, a run of blanks, and otherwise
one character of code. A string literal or block comment that opens without being closed is taken
too, as a failure; a regular expression that is not closed is none.
-/
namespace CommentStrip

/-- The kind of the text at some place, and how many characters follow its first one. -/
structure Lexeme where
  kind : Kind
  more : Nat
  deriving DecidableEq

/--
What a reading means for the lexeme at a place: nothing, if the construct does not stand there or
is empty; otherwise the lexeme or, for constructs that have to be closed, the construct that is
not.
-/
def Lexeme.ofReading? (kind : Kind) (mustClose : Option Construct) :
    Reading → Option (Except Construct Lexeme)
  | .ok 0 => none
  | .ok (more + 1) => some (.ok ⟨kind, more⟩)
  | .error (.notOpened _) => none
  | .error (.notClosed _) => mustClose.map .error

namespace Language

variable (language : Language)

/-- The regular expression at the start of `text`, if one may stand there. Where its closing slash
is missing, its first slash divides. -/
def regexAt? (cursor : Cursor) (text : Text) : Option (Except Construct Lexeme) :=
  if language.regexLiterals && cursor.regexAllowed then
    Lexeme.ofReading? .stringLiteral none (Regex.read text)
  else none

/-- The lexeme at the start of a nonempty text. -/
def lexemeAt (cursor : Cursor) (text : Text) : Except Construct Lexeme :=
  (Lexeme.ofReading? .stringLiteral (some .stringLiteral)
      (language.readString cursor.previous text)
    <|> language.regexAt? cursor text
    <|> language.blockComments.findSome? (fun block =>
      Lexeme.ofReading? .blockComment (some .blockComment) (block.readComment text))
    <|> language.lineMarkers.findSome? (fun marker =>
      Lexeme.ofReading? .lineComment none (readLineComment marker text))
    <|> Lexeme.ofReading? .newline none (Blank.readNewline text)
    <|> Lexeme.ofReading? .whitespace none (Blank.readWhitespace text)).getD (.ok ⟨.code, 0⟩)

end Language

end CommentStrip
