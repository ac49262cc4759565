import CommentStrip.Layout.Line

/-!
# Continued lines

A line goes on with the one before it while a bracket is open or after a backslash at the end of a
line. Two questions follow: whether a line continues an earlier one, and which text forms the
logical line that ends at a span. Both read code from right to left, so that an opening bracket
counts unless its closing one has been passed. Only code holds brackets.
-/
namespace CommentStrip.Layout

def isOpeningBracket (c : Char) : Bool :=
  c == '(' || c == '[' || c == '\x7b'

def isClosingBracket (c : Char) : Bool :=
  c == ')' || c == ']' || c == '\x7d'

/-- Whether an opening bracket is left over in a text that is given last character first, once
`closed` more brackets after it are matched. -/
def hasOpenBracket : (closed : Nat) → Text → Bool
  | _, [] => false
  | closed, c :: rest =>
    if isClosingBracket c then hasOpenBracket (closed + 1) rest
    else if isOpeningBracket c then
      match closed with
      | 0 => true
      | closed + 1 => hasOpenBracket closed rest
    else hasOpenBracket closed rest

/-- The text of the code among the spans. -/
def codeText (spans : List Span) : Text :=
  (spans.filter (·.kind == .code)).flatMap Span.text

/-- Whether the last line of the spans, whose line break is the last span, ends with a backslash
in code. -/
def endsWithBackslash (spans : List Span) : Bool :=
  match spans.reverse with
  | _ :: span :: _ => span.kind == .code && span.endsWith '\\'
  | _ => false

/-- Whether the line of the span at `index` continues an earlier one. -/
def continuesLine (spans : List Span) (index : Nat) : Bool :=
  let earlier := spans.take (lineStart spans index)
  endsWithBackslash earlier || hasOpenBracket 0 (codeText earlier).reverse

/-- Whether the span is a string literal that is a statement: alone on its line or lines, which
continue no earlier one. -/
def isStatementLiteral (spans : List Span) (index : Nat) : Bool :=
  spans[index]?.any (·.kind == .stringLiteral)
    && startsLine spans index && endsLine spans index && !continuesLine spans index

/-- The closing brackets left unmatched by a text that is given last character first, when
`closed` of them are unmatched after it. Opening brackets that nothing closes are passed over. -/
def closedBefore (closed : Nat) : Text → Nat
  | [] => closed
  | c :: rest =>
    if isClosingBracket c then closedBefore (closed + 1) rest
    else if isOpeningBracket c then closedBefore (closed - 1) rest
    else closedBefore closed rest

/--
The spans, nearest first, that belong to the logical line whose end has been read from right to
left up to here. A line break ends it if all brackets closed so far are open again and the span
before the break does not end with a backslash.
-/
def logicalBefore : (closed : Nat) → List Span → List Span
  | _, [] => []
  | closed, span :: earlier =>
    match span.kind with
    | .code => span :: logicalBefore (closedBefore closed span.text.reverse) earlier
    | .newline =>
      if closed = 0 ∧ (earlier.head?.any (·.endsWith '\\')) = false then []
      else span :: logicalBefore closed earlier
    | _ => span :: logicalBefore closed earlier

/-- The spans of the logical line that ends with the span at `index`, nearest first. -/
def logicalSpans (spans : List Span) (index : Nat) : List Span :=
  logicalBefore 0 (before spans (index + 1))

/-- The first span of the logical line that ends with the span at `index`. -/
def logicalStart (spans : List Span) (index : Nat) : Nat :=
  index + 1 - (logicalSpans spans index).length

/-- The text of the logical line that ends with the span at `index`, without its comments. -/
def logicalLine (spans : List Span) (index : Nat) : Text :=
  ((logicalSpans spans index).reverse.filter (!·.kind.isComment)).flatMap Span.text

end CommentStrip.Layout
