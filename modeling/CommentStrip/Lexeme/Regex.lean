import CommentStrip.Lexeme.Reading
import CommentStrip.Text

/-!
# Regular expression literals

A regular expression literal is a body between two slashes, followed by flags. A slash is no closer
after a backslash or in a character class. A line break that no backslash precedes ends the search:
the first slash was a division then.
-/
namespace CommentStrip.Regex

/-- The index of the closing slash of a body, given whether its first character is escaped and
whether it stands in a character class. -/
def closeFrom? : (escaped inClass : Bool) → Text → Option Nat
  | _, _, [] => none
  | true, inClass, _ :: rest => (closeFrom? false inClass rest).map (· + 1)
  | false, inClass, c :: rest =>
    if c = '\\' then (closeFrom? true inClass rest).map (· + 1)
    else if isLineBreak c then none
    else if c = '[' then (closeFrom? false true rest).map (· + 1)
    else if c = ']' then (closeFrom? false false rest).map (· + 1)
    else if c = '/' ∧ inClass = false then some 0
    else (closeFrom? false inClass rest).map (· + 1)

/-- The index of the closing slash of a body. A body that begins with a slash or a star belongs to
a comment and is never closed. -/
def closeIndex? (body : Text) : Option Nat :=
  if body.head? = some '/' ∨ body.head? = some '*' then none
  else closeFrom? false false body

/-- The number of flag characters at the start of a text. -/
def flagCount (text : Text) : Nat :=
  (text.takeWhile Unicode.isAlphanumeric).length

/-- Reads a regular expression literal with its flags. -/
def read : Text → Reading
  | '/' :: body =>
    match closeIndex? body with
    | some index => .ok (index + 2 + flagCount (body.drop (index + 1)))
    | none => .error (.notClosed 1)
  | _ => .error (.notOpened 0)

end CommentStrip.Regex
