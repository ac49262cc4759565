import CommentStrip.Language.Basic
import CommentStrip.Lexeme.Reading

/-!
# String literals

A string literal is an optional prefix, an opening quote, a body and a closing quote. Its content
means nothing here; the point is where it ends. In the body, the escape character makes the next
character inert; the interpolation opener written twice stands for itself; written once, it begins
an embedded expression, in which the closing quote does not count. The expression ends at its
matching brace, where braces in quotes inside the expression do not count either.
-/
namespace CommentStrip

/-- What decides where the body of a string literal ends. -/
structure BodyRule where
  closer : Text
  escape : Option Char
  /-- What opens an embedded expression. An empty text opens none. -/
  interpolation : Option Text
  deriving DecidableEq

/-- Where in the body of a literal a character stands. -/
inductive BodyPart where
  /-- In the literal's own text. -/
  | own
  /-- In an embedded expression, inside `depth` more braces than its own, and inside the given
  quote if there is one. -/
  | expression (depth : Nat) (quote : Option Char)
  deriving DecidableEq

/-- A character that quotes text in an embedded expression. -/
def isExpressionQuote (c : Char) : Bool :=
  c == '\x27' || c == '\x22' || c == '\x60'

namespace BodyRule

variable (rule : BodyRule)

/--
If an interpolation opener stands at the start of `text`: its length and the part that follows.
The opener written twice leaves the literal's own text going on.
-/
def interpolationAt? (text : Text) : Option (Nat × BodyPart) :=
  match rule.interpolation with
  | none => none
  | some opener =>
    if opener.isEmpty || !opener.isPrefixOf text then none
    else if (opener ++ opener).isPrefixOf text then some (2 * opener.length, .own)
    else some (opener.length, .expression 0 none)

/--
One step over the character `c`, before which the body is in the given part: how many characters
after `c` are inert, and the part that follows them. There is no step where the closing quote
stands.
-/
def step (c : Char) (rest : Text) : BodyPart → Option (Nat × BodyPart)
  | .own =>
    if rule.escape = some c then some (1, .own)
    else
      match rule.interpolationAt? (c :: rest) with
      | some (length, part) => some (length - 1, part)
      | none => if rule.closer.isPrefixOf (c :: rest) then none else some (0, .own)
  | .expression depth (some quote) =>
    if c = '\\' then some (1, .expression depth (some quote))
    else if c = quote then some (0, .expression depth none)
    else some (0, .expression depth (some quote))
  | .expression depth none =>
    if isExpressionQuote c then some (0, .expression depth (some c))
    else if c = '\x7b' then some (0, .expression (depth + 1) none)
    else if c = '\x7d' then
      match depth with
      | 0 => some (0, .own)
      | outer + 1 => some (0, .expression outer none)
    else some (0, .expression depth none)

/-- The index of the closing quote in a body whose first `inert` characters are passed over, and
which is in the given part after them. -/
def closeFrom? : (inert : Nat) → BodyPart → Text → Option Nat
  | _, _, [] => none
  | inert + 1, part, _ :: rest => (closeFrom? inert part rest).map (· + 1)
  | 0, part, c :: rest =>
    match rule.step c rest part with
    | none => some 0
    | some (inert, next) => (closeFrom? inert next rest).map (· + 1)

/-- The index of the closing quote in a body. -/
def closeIndex? (body : Text) : Option Nat :=
  rule.closeFrom? 0 .own body

end BodyRule

/-- The body rule of a literal: raw literals have no escapes. -/
def Quote.bodyRule (quote : Quote) (raw : Bool) (interpolation : Option Text) : BodyRule :=
  ⟨quote.closer, if raw then none else quote.escape, interpolation⟩

/-- Reads the string literal that begins with exactly the prefix `lead` and the opening quote. -/
def Quote.read (quote : Quote) (lead : Text) (raw : Bool) (interpolation : Option Text)
    (text : Text) : Reading :=
  if !lead.isPrefixOf text then .error (.notOpened 0)
  else if !quote.opener.isPrefixOf (text.drop lead.length) then .error (.notOpened lead.length)
  else
    let bodyStart := lead.length + quote.opener.length
    match (quote.bodyRule raw interpolation).closeIndex? (text.drop bodyStart) with
    | some index => .ok (bodyStart + index + quote.closer.length)
    | none => .error (.notClosed bodyStart)

end CommentStrip
