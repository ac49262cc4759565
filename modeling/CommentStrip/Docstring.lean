import CommentStrip.Language.Basic
import CommentStrip.Layout.Continuation

/-!
# Docstrings

A string literal that is a statement documents what it opens: a module, if nothing significant
comes before it, or a block whose header ends right before it. Every other literal is none,
whatever it says.
-/
namespace CommentStrip

/-- Whether a text begins with the keyword and white space after it. -/
def startsWithKeyword (text keyword : Text) : Bool :=
  keyword.isPrefixOf text && (text.drop keyword.length).head?.any Unicode.isWhiteSpace

namespace HeaderRule

variable (rule : HeaderRule)

/-- Whether the span is code that ends with the terminator, as every header does. -/
def endsHeader (span : Span) : Bool :=
  span.kind == .code && span.endsWith rule.terminator

/-- Whether the span at `index` ends the header of a block that may open with a docstring. -/
def opensDocumentedBlock (spans : List Span) (index : Nat) : Bool :=
  spans[index]?.any rule.endsHeader
    && rule.keywords.any (startsWithKeyword (Layout.logicalLine spans index).trimStart)

/-- Whether the span at `index` is a docstring. -/
def isDocstring (spans : List Span) (index : Nat) : Bool :=
  Layout.isStatementLiteral spans index
    && (Layout.previousSignificant? spans index).all (rule.opensDocumentedBlock spans)

end HeaderRule

/-- The indices of the docstrings, in order. -/
def Language.docstringIndices (language : Language) (spans : List Span) : List Nat :=
  match language.docstrings with
  | none => []
  | some rule => (List.range spans.length).filter (rule.isDocstring spans)

theorem Language.exists_rule_of_docstring {language : Language} {spans : List Span} {index : Nat}
    (docstring : index ∈ language.docstringIndices spans) :
    ∃ rule ∈ language.docstrings, rule.isDocstring spans index = true := by
  unfold docstringIndices at docstring
  split at docstring
  · simp at docstring
  next rule known => exact ⟨rule, known, (List.mem_filter.mp docstring).2⟩

end CommentStrip
