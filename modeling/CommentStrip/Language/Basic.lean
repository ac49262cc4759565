import CommentStrip.Text

/-!
# Languages

The lexical conventions of a language: how its comments, string literals and regular expressions
are delimited, which comments document, and where a string literal on its own is a docstring.
Everything else in the library is stated for an arbitrary language.
-/
namespace CommentStrip

/-- The texts that open and close a region. -/
structure Delimiters where
  opener : Text
  closer : Text
  deriving DecidableEq

/-- The delimiters of a string literal, with the character that makes the next one inert. -/
structure Quote extends Delimiters where
  escape : Option Char
  deriving DecidableEq

/-- Expressions embedded in string literals. -/
structure Interpolation where
  /-- The text that opens an embedded expression. -/
  opener : Text
  /-- Prefixes whose literals have embedded expressions, whatever their quote. -/
  prefixes : List Text
  /-- Opening quotes whose literals have embedded expressions unless they are raw. -/
  quotes : List Text
  deriving DecidableEq

/--
How a block announces itself: a header begins with one of the keywords, if the block may open with
a docstring, and every header ends with the terminator.
-/
structure HeaderRule where
  keywords : List Text
  terminator : Char
  deriving DecidableEq

/-- The lexical conventions of a language. -/
structure Language where
  name : String
  /-- Further names it goes by, in lower case. -/
  aliases : List String
  /-- Extensions of its files, without the dot. -/
  extensions : List String
  /-- What opens a comment that runs to the end of its line. -/
  lineMarkers : List Text
  blockComments : List Delimiters
  quotes : List Quote
  /-- What may stand right before an opening quote, in any case of its letters. -/
  stringPrefixes : List Text
  /-- The prefixes that turn the escape character off. -/
  rawPrefixes : List Text
  /-- How a documentation comment begins. -/
  docMarkers : List Text
  interpolation : Option Interpolation
  /-- Whether there are regular expression literals between slashes. -/
  regexLiterals : Bool
  /-- Where docstrings stand; without a rule, no string literal is ever commentary. -/
  docstrings : Option HeaderRule

namespace Language

variable (language : Language)

/-- Whether some string literals of the language are documentation. -/
def hasDocstrings : Bool :=
  language.docstrings.isSome

/-- Whether a literal with this prefix has no escapes. -/
def isRawPrefix (lead : Text) : Bool :=
  language.rawPrefixes.any (·.sameIgnoringCase lead)

/--
What opens an embedded expression in a literal with this prefix and opening quote. The prefix
decides in any case, the quote only if the literal is not raw.
-/
def interpolationOpener? (lead quoteOpener : Text) (raw : Bool) : Option Text :=
  language.interpolation.bind fun interpolation =>
    let byPrefix := !lead.isEmpty && interpolation.prefixes.any (·.sameIgnoringCase lead)
    let byQuote := !raw && interpolation.quotes.contains quoteOpener
    if byPrefix || byQuote then some interpolation.opener else none

/-- Whether a comment documents. A block comment without content, such as an opener directly
followed by its closer, never does. -/
def isDocComment (comment : Text) : Bool :=
  language.blockComments.all (fun block => comment != block.opener ++ block.closer)
    && language.docMarkers.any (·.isPrefixOf comment)

end Language

end CommentStrip
