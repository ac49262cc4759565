import CommentStrip.Decision.Basic
import CommentStrip.Docstring
import CommentStrip.Options.Basic

/-!
# Rules of decision

Comments are decided about, and in a language with docstrings also the string literals that are
statements. The first reason to keep such a span wins: an interpreter directive, an encoding
declaration among the first lines, a docstring, a documentation comment, a string literal that is
to be kept or that its block cannot do without, or a place outside the range of lines. Without any
of these it is commentary and is removed.
-/
namespace CommentStrip

/-- A character of the name of an encoding. -/
def isEncodingNameChar (c : Char) : Bool :=
  Unicode.isWord c || c == '-' || c == '.'

/-- Whether a text begins with the word `coding`, a colon or equals sign, any white space, and a
character of the name of an encoding. -/
def beginsEncoding (text : Text) : Bool :=
  let word := "coding".toList
  word.isPrefixOf text &&
    match text.drop word.length with
    | [] => false
    | c :: rest => (c == ':' || c == '=') && (Text.trimStart rest).head?.any isEncodingNameChar

/-- Whether a text declares an encoding anywhere. -/
def declaresEncoding : Text → Bool
  | [] => false
  | c :: rest => beginsEncoding (c :: rest) || declaresEncoding rest

/-- The lines, at most two, on which the first spans that are not blank start. -/
def headerLines (spans : List Span) : List Nat :=
  match (spans.filter (!·.kind.isBlank)).map Span.line with
  | [] => []
  | first :: others => first :: (others.find? (· != first)).toList

/-- Everything a decision depends on, apart from the span it is about. -/
structure DecisionContext where
  language : Language
  options : Options
  spans : List Span
  /-- The indices of the docstrings. -/
  docstrings : List Nat

namespace DecisionContext

variable (context : DecisionContext)

/-- Whether the span at `index` is decided about. -/
def isCandidate (index : Nat) (span : Span) : Bool :=
  span.kind.isComment
    || span.kind == .stringLiteral && context.language.hasDocstrings
      && (context.docstrings.contains index || Layout.isStatementLiteral context.spans index)

/-- Whether the line comment names the program that runs the file. -/
def isInterpreterDirective (span : Span) : Bool :=
  span.kind == .lineComment && span.start == 0 && "#!".toList.isPrefixOf span.text

/-- Whether the line comment declares the encoding of the file, as only one of its first two lines
can. -/
def isEncodingDirective (span : Span) : Bool :=
  span.kind == .lineComment && declaresEncoding span.text
    && (headerLines context.spans).contains span.line

/--
Whether a block indented by `indent` is left without a statement once every string literal on its
own is removed, given the indices of the significant spans that follow. The block ends where the
indentation shrinks.
-/
def blockEndsEmpty (spans : List Span) (indent : Nat) : List Nat → Bool
  | [] => true
  | next :: later =>
    if Layout.indentation spans next < indent then true
    else if !Layout.isStatementLiteral spans next then false
    else blockEndsEmpty spans indent later

/-- The indices of the significant spans after `index`. -/
def significantAfter (spans : List Span) (index : Nat) : List Nat :=
  (List.range' (index + 1) (spans.length - (index + 1))).filter fun later =>
    spans[later]?.any Span.isSignificant

/-- Whether the string literal at `index` opens a block that would be empty without it and the
literals after it. -/
def holdsBlockOpen (index : Nat) : Bool :=
  context.language.docstrings.any fun rule =>
    (Layout.previousSignificant? context.spans index).any (fun previous =>
        context.spans[previous]?.any rule.endsHeader)
      && blockEndsEmpty context.spans (Layout.indentation context.spans index)
        (significantAfter context.spans index)

/-- Whether the span starts on a line that the options exempt. -/
def isOutsideRange (span : Span) : Bool :=
  context.options.lineRange.any fun range => !range.contains span.line

/-- The reason to keep the candidate at `index`, if there is one. -/
def reasonToKeep? (index : Nat) (span : Span) : Option Reason :=
  if isInterpreterDirective span then some .interpreterDirective
  else if context.isEncodingDirective span then some .encodingDirective
  else if context.docstrings.contains index then some .docstring
  else if span.kind.isComment && context.options.keepDocComments
      && context.language.isDocComment span.text then
    some .docComment
  else if span.kind == .stringLiteral && !context.options.removeFloatingStrings then
    some .floatingStringRetained
  else if span.kind == .stringLiteral && context.holdsBlockOpen index then some .blockPlaceholder
  else if context.isOutsideRange span then some .outsideRange
  else none

/-- What is decided about the candidate at `index`. -/
def decisionFor (index : Nat) (span : Span) : Decision :=
  match context.reasonToKeep? index span with
  | some reason => .keep index reason
  | none => .remove index

/-- The decisions about all candidates, in order. -/
def decisions : List Decision :=
  (context.spans.zipIdx.filter fun entry => context.isCandidate entry.2 entry.1).map
    fun entry => context.decisionFor entry.2 entry.1

end DecisionContext

/-- The decisions about the spans of a source in a language. -/
def classify (language : Language) (options : Options) (spans : List Span) : List Decision :=
  DecisionContext.decisions ⟨language, options, spans, language.docstringIndices spans⟩

end CommentStrip
