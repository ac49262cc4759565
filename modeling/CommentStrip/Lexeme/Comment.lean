import CommentStrip.Language.Basic
import CommentStrip.Lexeme.Reading

/-!
# Comments

A line comment runs from its marker to the end of the line, which is not part of it. A block
comment runs from its opener to the first closer after it; block comments do not nest.
-/
namespace CommentStrip

/-- Reads the line comment that `marker` begins. -/
def readLineComment (marker text : Text) : Reading :=
  if marker.isPrefixOf text then
    .ok (marker.length + ((text.drop marker.length).takeWhile (!isLineBreak ·)).length)
  else .error (.notOpened 0)

/-- Reads a block comment between these delimiters. -/
def Delimiters.readComment (block : Delimiters) (text : Text) : Reading :=
  if block.opener.isPrefixOf text then
    match Text.occurrence? block.closer (text.drop block.opener.length) with
    | some index => .ok (block.opener.length + index + block.closer.length)
    | none => .error (.notClosed block.opener.length)
  else .error (.notOpened 0)

end CommentStrip
