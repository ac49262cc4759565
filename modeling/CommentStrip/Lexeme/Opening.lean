import CommentStrip.Lexeme.Quoted

/-!
# Openings of string literals

Several of a language's prefixes and quotes may fit at one place. The longest opening is taken, so
that a tripled quote wins over a single one, and a prefix over none. A prefix stands only where no
name goes on: the letters at the end of a longer name are no prefix.
-/
namespace CommentStrip

/-- A way for a string literal to begin: its prefix as it is written, and its quote. -/
structure Opening where
  lead : Text
  quote : Quote

namespace Opening

/-- The bytes up to the body. -/
def byteLength (opening : Opening) : Nat :=
  opening.lead.byteLength + opening.quote.opener.byteLength

/-- The opening with the most bytes, the last one if several have as many. -/
def longest? : List Opening → Option Opening
  | [] => none
  | opening :: others =>
    match longest? others with
    | none => some opening
    | some best => if opening.byteLength ≤ best.byteLength then some best else some opening

end Opening

namespace Language

variable (language : Language)

/-- The prefixes that `text` begins with, as they are written there, after the empty one. -/
def leadsAt (previous : Option Char) (text : Text) : List Text :=
  if previous.any isNameChar then [[]]
  else
    [] :: language.stringPrefixes.filterMap fun known =>
      let written : Text := text.take known.length
      if written.sameIgnoringCase known then some written else none

/-- The ways in which a string literal can begin at the start of `text`, which comes after the
character `previous`. -/
def openingsAt (previous : Option Char) (text : Text) : List Opening :=
  (language.leadsAt previous text).flatMap fun lead =>
    (language.quotes.filter fun quote => quote.opener.isPrefixOf (text.drop lead.length)).map
      fun quote => ⟨lead, quote⟩

/-- Reads the string literal with a given opening, raw and interpolated as the language says. -/
def readOpened (opening : Opening) (text : Text) : Reading :=
  let raw := !opening.lead.isEmpty && language.isRawPrefix opening.lead
  opening.quote.read opening.lead raw
    (language.interpolationOpener? opening.lead opening.quote.opener raw) text

/-- Reads the string literal at the start of `text`, which comes after the character `previous`. -/
def readString (previous : Option Char) (text : Text) : Reading :=
  match Opening.longest? (language.openingsAt previous text) with
  | some opening => language.readOpened opening text
  | none => .error (.notOpened 0)

end Language

end CommentStrip
