import CommentStrip.Error
import CommentStrip.Language.Basic
import CommentStrip.Path

/-!
# Known languages

The languages the library knows, and how one is found by its name, by a file extension or by a
path. Names and extensions are compared without regard to case.
-/
namespace CommentStrip

namespace Quote

/-- A quote that closes itself, with the backslash as escape character. -/
def escaped (mark : String) : Quote :=
  ⟨⟨mark.toList, mark.toList⟩, some '\\'⟩

/-- Single and double quotes, each also tripled; the tripled ones may span lines. -/
def tripled : List Quote :=
  [escaped "\"\"\"", escaped "'''", escaped "\"", escaped "'"]

/-- Double and single quotes and the backquote. -/
def withBackquote : List Quote :=
  [escaped "\"", escaped "'", escaped "\x60"]

end Quote

/-- Comments between slash-star and star-slash, which do not nest. -/
def Delimiters.slashStar : Delimiters :=
  ⟨"/*".toList, "*/".toList⟩

namespace Language

def python : Language where
  name := "Python"
  aliases := ["python", "python3", "py"]
  extensions := ["py", "pyw", "pyi"]
  lineMarkers := ["#".toList]
  blockComments := []
  quotes := Quote.tripled
  stringPrefixes := ["r", "u", "b", "f", "br", "rb", "fr", "rf"].map String.toList
  rawPrefixes := []
  docMarkers := []
  interpolation := some ⟨"\x7b".toList, ["f", "fr", "rf"].map String.toList, []⟩
  regexLiterals := false
  docstrings := some ⟨["def", "class", "async def"].map String.toList, ':'⟩

def javaScript : Language where
  name := "JavaScript"
  aliases := ["javascript", "js", "jsx"]
  extensions := ["js", "jsx", "mjs", "cjs"]
  lineMarkers := ["//".toList]
  blockComments := [Delimiters.slashStar]
  quotes := Quote.withBackquote
  stringPrefixes := []
  rawPrefixes := []
  docMarkers := ["/**".toList]
  interpolation := some ⟨"$\x7b".toList, [], ["\x60".toList]⟩
  regexLiterals := true
  docstrings := none

/-- Differs from `javaScript` in its names only. -/
def typeScript : Language :=
  { javaScript with
    name := "TypeScript"
    aliases := ["typescript", "ts", "tsx"]
    extensions := ["ts", "tsx", "mts", "cts"] }

def dart : Language where
  name := "Dart"
  aliases := ["dart"]
  extensions := ["dart"]
  lineMarkers := ["//".toList]
  blockComments := [Delimiters.slashStar]
  quotes := Quote.tripled
  stringPrefixes := ["r".toList]
  rawPrefixes := ["r".toList]
  docMarkers := ["/**".toList, "///".toList]
  interpolation := some ⟨"$\x7b".toList, [], Quote.tripled.map (·.opener)⟩
  regexLiterals := false
  docstrings := none

/-- The known languages, in the order in which they are tried. -/
def registered : List Language :=
  [python, javaScript, typeScript, dart]

/-- Whether `id` is the name or an alias of the language. -/
def answersTo (language : Language) (id : Text) : Bool :=
  (language.name :: language.aliases).any fun known => Text.sameIgnoringCase known.toList id

/-- The language that `id`, white space around it aside, names. -/
def lookup (id : String) : Except Error Language :=
  match registered.find? (·.answersTo (Text.trim id.toList)) with
  | some language => .ok language
  | none => .error (.unsupportedLanguage id)

/-- The language of files with this extension; one dot before it is ignored. -/
def ofExtension? (extension : Text) : Option Language :=
  let bare := if extension.head? = some '.' then extension.tail else extension
  registered.find? fun language =>
    language.extensions.any fun known => Text.sameIgnoringCase known.toList bare

/-- The language of the file that a path names. -/
def ofPath? (path : Text) : Option Language :=
  (Path.extension? path).bind ofExtension?

end Language

end CommentStrip
