import CommentStrip.Decision.Rules
import CommentStrip.Language.Registry
import CommentStrip.Options.Reader
import CommentStrip.Rewriting
import CommentStrip.Span.Scan

/-!
# Analyses

The whole way of a source text: its spans, the decisions about them, the changes that a user makes
to the decisions, and the rewritten text.
-/
namespace CommentStrip

/-- The spans of a source text with what is decided about them. -/
structure Analysis where
  language : Language
  options : Options
  spans : List Span
  decisions : List Decision

/-- A comment, or a string literal on its own, with what is decided about it. -/
structure Comment where
  span : Span
  verdict : Verdict
  reason : Reason
  deriving DecidableEq

/-- Analyzes a source text of a language. -/
def analyze (language : Language) (options : Options) (source : Text) :
    Except Error Analysis :=
  match language.spans source with
  | .ok spans => .ok ⟨language, options, spans, classify language options spans⟩
  | .error cause => .error (.unterminated cause)

namespace Analysis

variable (analysis : Analysis)

/-- The spans that have been decided about, in order. -/
def comments : List Comment :=
  analysis.decisions.filterMap fun decision =>
    analysis.spans[decision.span]?.map fun span => ⟨span, decision.verdict, decision.reason⟩

/-- Whether the decision is about the span that starts at this byte. -/
def concerns (offset : Nat) (decision : Decision) : Bool :=
  analysis.spans[decision.span]?.any (·.start == offset)

/-- The decisions after a search for the first one about a span that starts at this byte, which is
then retained. There are none if the search finds nothing. -/
def decisionsRetaining? (offset : Nat) : Option (List Decision) :=
  Decision.retainFirst (analysis.concerns offset) analysis.decisions

/-- Whether a span that has been decided about is found at this byte. -/
def isDecidedAt (offset : Nat) : Bool :=
  (analysis.decisionsRetaining? offset).isSome

/-- Keeps the span that starts at this byte, if it has been decided about. -/
def retain (offset : Nat) : Analysis :=
  { analysis with
    decisions := (analysis.decisionsRetaining? offset).getD analysis.decisions }

/-- The source text without what is decided to be removed. -/
def rewritten : Rewritten :=
  rewrite analysis.spans analysis.decisions

/-- Analyzes the rewritten text in turn, with the same language and options. -/
def reanalyze : Except Error Analysis :=
  analyze analysis.language analysis.options analysis.rewritten.text

end Analysis

/-- The source text, in the language that `id` names, without its disposable commentary. -/
def process (id : String) (options : Options) (source : Text) : Except Error Rewritten := do
  let analysis ← analyze (← Language.lookup id) options source
  return analysis.rewritten

end CommentStrip
