import CommentStrip.Span.Basic

/-!
# Lines

Where a span sits among the others: its significant neighbours, the line it starts on, and what
else is on that line. Spans are named by their index. A line here ends at a line break of its own;
one inside a literal or a comment ends no line.
-/
namespace CommentStrip.Layout

/-- The spans before `index`, nearest first. -/
def before (spans : List Span) (index : Nat) : List Span :=
  (spans.take index).reverse

/-- The spans after `index`. -/
def after (spans : List Span) (index : Nat) : List Span :=
  spans.drop (index + 1)

/-- The nearest span before `index` that is neither blank nor comment. -/
def previousSignificant? (spans : List Span) (index : Nat) : Option Nat :=
  ((before spans index).findIdx? Span.isSignificant).map fun distance => index - 1 - distance

/-- The nearest span after `index` that is neither blank nor comment. -/
def nextSignificant? (spans : List Span) (index : Nat) : Option Nat :=
  ((after spans index).findIdx? Span.isSignificant).map fun distance => index + 1 + distance

/-- The spans before `index` on its line, nearest first. -/
def lineBefore (spans : List Span) (index : Nat) : List Span :=
  (before spans index).takeWhile (·.kind != .newline)

/-- The spans after `index` up to the end of its line. -/
def lineAfter (spans : List Span) (index : Nat) : List Span :=
  (after spans index).takeWhile (·.kind != .newline)

/-- The first span of the line on which the span at `index` starts. -/
def lineStart (spans : List Span) (index : Nat) : Nat :=
  index - (lineBefore spans index).length

theorem lineStart_le (spans : List Span) (index : Nat) : lineStart spans index ≤ index :=
  Nat.sub_le _ _

/-- Whether only blanks come before the span on its line. -/
def startsLine (spans : List Span) (index : Nat) : Bool :=
  (lineBefore spans index).all (·.kind == .whitespace)

/-- Whether only blanks and comments come after the span on its line. -/
def endsLine (spans : List Span) (index : Nat) : Bool :=
  (lineAfter spans index).all fun span => span.kind == .whitespace || span.kind.isComment

/-- The number of blanks that begin the line on which the span at `index` starts. -/
def indentation (spans : List Span) (index : Nat) : Nat :=
  match spans[lineStart spans index]? with
  | some first => if first.kind = .whitespace then first.text.length else 0
  | none => 0

end CommentStrip.Layout
