import CommentStrip.Lexeme.Choice

/-!
# Scanning

Cuts source text into spans. Lexemes are found one at a time; code characters that follow each
other are then joined into one span. The cursor where a scan ends carries everything that later
text depends on, so a source can be scanned in pieces.
-/
namespace CommentStrip

/-- The lexemes of a text up to its end or to a construct that is never closed. -/
structure Lexing where
  lexemes : List Span
  /-- Where the lexemes end. -/
  cursor : Cursor
  /-- What opens there without being closed, if the text goes on. -/
  unclosed : Option Construct

/-- The lexemes of a text, given the run of code right before it. -/
def Language.lex (language : Language) (cursor : Cursor) (run : Text) : Text → Lexing
  | [] => ⟨[], cursor, none⟩
  | c :: rest =>
    match language.lexemeAt cursor (c :: rest) with
    | .error construct => ⟨[], cursor, some construct⟩
    | .ok lexeme =>
      let text := c :: rest.take lexeme.more
      let later := language.lex (cursor.after run lexeme.kind text)
        (codeRunAfter run lexeme.kind text) (rest.drop lexeme.more)
      { later with lexemes := Span.covering lexeme.kind cursor.position text :: later.lexemes }
termination_by text => text.length
decreasing_by
  simp only [List.length_drop, List.length_cons]
  omega

/-- The lexemes of a text in which everything is closed make up the text. -/
theorem Language.flatMap_text_lex (language : Language) (cursor : Cursor) (run text : Text)
    (closed : (language.lex cursor run text).unclosed = none) :
    (language.lex cursor run text).lexemes.flatMap Span.text = text := by
  fun_induction Language.lex language cursor run text with
  | case1 => rfl
  | case2 => simp at closed
  | case3 cursor run c rest lexeme found text later ih =>
    rw [List.flatMap_cons, ih closed]
    simp [Span.covering, text]

namespace Span

/-- Puts a span in front of others, joining it with the first of them if both are code. -/
def attach (span : Span) : List Span → List Span
  | [] => [span]
  | next :: others =>
    if span.kind = .code ∧ next.kind = .code then
      { span with stop := next.stop, text := span.text ++ next.text } :: others
    else span :: next :: others

/-- Joins spans of code that follow each other. -/
def coalesce (spans : List Span) : List Span :=
  spans.foldr attach []

theorem flatMap_text_attach (span : Span) (spans : List Span) :
    (attach span spans).flatMap text = span.text ++ spans.flatMap text := by
  cases spans with
  | nil => rfl
  | cons next others =>
    simp only [attach]
    split <;> simp

/-- Joining spans keeps their text. -/
theorem flatMap_text_coalesce (spans : List Span) :
    (coalesce spans).flatMap text = spans.flatMap text := by
  induction spans with
  | nil => rfl
  | cons span rest ih =>
    rw [List.flatMap_cons, ← ih]
    exact flatMap_text_attach span (coalesce rest)

end Span

namespace Language

variable (language : Language)

/-- Scans text that goes on at `cursor`: its spans, unless a construct is never closed, and the
cursor where they end or where that construct opens. -/
def scan (cursor : Cursor) (text : Text) : Except Unterminated (List Span) × Cursor :=
  let lexing := language.lex cursor [] text
  match lexing.unclosed with
  | some construct => (.error ⟨construct, lexing.cursor.position⟩, lexing.cursor)
  | none => (.ok (Span.coalesce lexing.lexemes), lexing.cursor)

/-- The spans of a whole source text. -/
def spans (source : Text) : Except Unterminated (List Span) :=
  (language.scan .start source).1

end Language

end CommentStrip
