import CommentStrip.Span.Basic

/-!
# Errors

Everything that can go wrong, by cause. A text fails only where a literal or a block comment is
never closed, and the error then says where it opened.
-/
namespace CommentStrip

/-- A construct that has to be closed. -/
inductive Construct where
  | stringLiteral
  | blockComment
  deriving DecidableEq

/-- What messages call a construct. -/
def Construct.description : Construct → String
  | .stringLiteral => "string literal"
  | .blockComment => "block comment"

/-- A construct that the source never closes, and the place where it opens. -/
structure Unterminated where
  construct : Construct
  place : Position
  deriving DecidableEq

inductive Error where
  | unterminated (cause : Unterminated)
  | unsupportedLanguage (id : String)
  | config (detail : String)
  deriving DecidableEq

namespace Error

/-- The name of the sort of failure, for callers that report failures as data. -/
def kind : Error → String
  | unterminated _ => "unterminated_literal"
  | unsupportedLanguage _ => "unsupported_language"
  | config _ => "config"

/-- The byte of the source that the failure points at. -/
def offset? : Error → Option Nat
  | unterminated cause => some cause.place.offset
  | unsupportedLanguage _ => none
  | config _ => none

def message : Error → String
  | unterminated cause =>
    "Tokenizer error: unterminated " ++ cause.construct.description ++ " opened at line: "
      ++ toString cause.place.line ++ ", column: " ++ toString cause.place.column
      ++ ", offset: " ++ toString cause.place.offset
  | unsupportedLanguage id => "Unsupported language: " ++ id
  | config detail => "Config error: " ++ detail

end Error

end CommentStrip
