import CommentStrip.Span.Basic

/-!
# Cursors

Everything about the text scanned so far that the text to come depends on: where the scan stands,
the last character, which decides whether a string prefix may begin, and whether a slash begins a
regular expression. The last is settled by the code before the slash: after an operand a slash
divides.
-/
namespace CommentStrip

/-- What the text scanned so far means for the text to come. -/
structure Cursor where
  position : Position
  /-- The last character, if there is one. -/
  previous : Option Char
  /-- Whether a slash here would begin a regular expression and not divide. -/
  regexAllowed : Bool
  deriving DecidableEq

/-- Before any text. -/
def Cursor.start : Cursor := ⟨Position.start, none, true⟩

/-- Words after which an expression begins, so that a slash after them does not divide. -/
def expressionKeywords : List Text :=
  ["return", "typeof", "instanceof", "in", "of", "new", "delete", "void", "throw", "case",
    "do", "else", "yield", "await"].map String.toList

/-- Whether a run of code, given last character first, ends with the word `keyword`: nothing before
it may make a longer word of it. -/
def endsWithWord (run keyword : Text) : Bool :=
  keyword.reverse.isPrefixOf run && !(run.drop keyword.length).head?.any isTokenWord

/--
Whether a regular expression may follow a run of code, given last character first. A word ends an
operand unless it is one of `expressionKeywords`, and so does a closing parenthesis or square
bracket.
-/
def regexMayFollow : (run : Text) → Bool
  | [] => true
  | c :: rest =>
    if isTokenWord c then expressionKeywords.any (endsWithWord (c :: rest))
    else c != ')' && c != ']'

/-- The run of code, last character first, that goes on after one more lexeme. -/
def codeRunAfter (run : Text) (kind : Kind) (text : Text) : Text :=
  if kind = .code then text.reverse ++ run else []

/-- The cursor after a lexeme. Blanks and comments leave the meaning of a slash as it was. -/
def Cursor.after (cursor : Cursor) (run : Text) (kind : Kind) (text : Text) : Cursor where
  position := cursor.position.after text
  previous := text.getLast?.or cursor.previous
  regexAllowed :=
    match kind with
    | .stringLiteral => false
    | .code => regexMayFollow (codeRunAfter run kind text)
    | _ => cursor.regexAllowed

end CommentStrip
