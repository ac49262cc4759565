import CommentStrip.Decision.Basic

/-!
# Rewriting

Puts the text of spans together again without the removed ones. This is done line by line, where a
line ends with a line break of its own. A line that loses all its content disappears; one that
keeps some keeps its indentation; and where a span between two others goes, they stay apart if
joining them would make one token of two, or if the span held a line break.
-/
namespace CommentStrip

/-- A span, and whether it is to be removed. -/
structure Piece where
  span : Span
  removed : Bool

namespace Piece

/-- Kept, and not blank. -/
def isContent (piece : Piece) : Bool :=
  !piece.removed && !piece.span.kind.isBlank

def isWhitespace (piece : Piece) : Bool :=
  piece.span.kind == .whitespace

end Piece

/-- The spans with a mark on those whose index is among `removed`. -/
def markRemoved (spans : List Span) (removed : List Nat) : List Piece :=
  spans.zipIdx.map fun entry => ⟨entry.1, removed.contains entry.2⟩

/-- Cuts after each line break; what comes after the last one is a line too. -/
def lineGroups : List Piece → List (List Piece)
  | [] => []
  | piece :: rest =>
    if piece.span.kind = .newline then [piece] :: lineGroups rest
    else
      match lineGroups rest with
      | [] => [[piece]]
      | group :: others => (piece :: group) :: others

theorem flatten_lineGroups (pieces : List Piece) : (lineGroups pieces).flatten = pieces := by
  induction pieces with
  | nil => rfl
  | cons piece rest ih =>
    rw [lineGroups]
    split
    · simp [ih]
    · cases h : lineGroups rest with
      | nil =>
        rw [h] at ih
        exact congrArg (piece :: ·) ih
      | cons group others =>
        rw [h] at ih
        exact congrArg (piece :: ·) ih

/-- A character of an operator, two of which may form one operator. -/
def isOperatorChar (c : Char) : Bool :=
  "+-*/%=<>!&|^~?:.".toList.contains c

/-- Whether a text that ends with `last` and the span right after it would read as one token: two
words, two operators, or a word as the prefix of a literal. -/
def wouldFuse (last : Char) (span : Span) : Bool :=
  span.text.head?.any fun first =>
    (isTokenWord last && isTokenWord first) || (isOperatorChar last && isOperatorChar first)
      || (span.kind == .stringLiteral && isTokenWord last)

/-- A line in the making: what is written, last character first, and whether blanks that come
next are left out. -/
structure Draft where
  written : Text
  skipping : Bool

namespace Draft

def empty : Draft := ⟨[], false⟩

/-- The draft without the blanks that it ends with. -/
def trimmed (draft : Draft) : Text :=
  draft.written.dropWhile isInlineBlank

/-- Whether anything but white space is written. -/
def hasContent (draft : Draft) : Bool :=
  draft.written.any (!Unicode.isWhiteSpace ·)

/-- The draft after a removed span in front of the pieces `rest` of its line. -/
def afterRemoved (draft : Draft) (span : Span) (rest : List Piece) : Draft :=
  if !rest.any Piece.isContent then ⟨draft.trimmed, true⟩
  else if !draft.hasContent then ⟨draft.written, true⟩
  else if span.containsLineBreak then ⟨'\n' :: draft.trimmed, true⟩
  else if draft.written.head?.any isInlineBlank then ⟨draft.written, true⟩
  else if rest.head?.any fun next =>
      next.isContent && draft.written.head?.any (wouldFuse · next.span) then
    ⟨' ' :: draft.written, false⟩
  else ⟨draft.written, false⟩

/-- The draft after the rest of its line. -/
def after (draft : Draft) : List Piece → Draft
  | [] => draft
  | piece :: rest =>
    if draft.skipping && piece.isWhitespace then after draft rest
    else if piece.removed then after (draft.afterRemoved piece.span rest) rest
    else after ⟨piece.span.text.reverse ++ draft.written, false⟩ rest

end Draft

/-- The text of a line without its removed spans. A line that loses nothing is written as it is,
and one that loses all content is not written at all. -/
def writeGroup (group : List Piece) : Text :=
  if group.all (!·.removed) then group.flatMap (·.span.text)
  else if group.any Piece.isContent then (Draft.empty.after group).written.reverse
  else []

/-- A rewritten text, and how many spans were removed from it. -/
structure Rewritten where
  text : Text
  removedCount : Nat
  deriving DecidableEq

/-- The indices that the decisions remove, each once. -/
def removedIndices (decisions : List Decision) : List Nat :=
  ((decisions.filter Decision.isRemoval).map Decision.span).eraseDups

/-- The text of the spans without those that the decisions remove. -/
def rewrite (spans : List Span) (decisions : List Decision) : Rewritten :=
  let removed := removedIndices decisions
  ⟨(lineGroups (markRemoved spans removed)).flatMap writeGroup, removed.length⟩

end CommentStrip
