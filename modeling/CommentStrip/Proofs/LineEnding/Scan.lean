import CommentStrip.Proofs.Edit
import CommentStrip.Proofs.LineEnding.Reading
import Mathlib.Data.List.Forall2

/-!
# Scans of line feeds and pairs

The scan of a text whose line feeds have become pairs goes from span to span as the scan of the text
itself does. Corresponding spans are of one kind and start in the same line; both scans end, or come
upon a construct that is not closed, in the same line and column.
-/
namespace CommentStrip

open Text

/-- A place, and where it has come to be: only bytes are counted differently. -/
structure Position.Crlf (place other : Position) : Prop where
  start : other.offset = 0 ↔ place.offset = 0
  line : other.line = place.line
  column : other.column = place.column

/-- Both characters of a pair lead to the place after the line feed. -/
theorem Position.Crlf.after {place other : Position} (same : place.Crlf other) {text : Text}
    (feeds : '\r' ∉ text) : (place.after text).Crlf (other.after (crlf text)) := by
  induction text generalizing place other with
  | nil => exact same
  | cons c rest ih =>
    obtain ⟨noReturn, later⟩ : '\r' ≠ c ∧ '\r' ∉ rest := by simpa using feeds
    by_cases feed : c = '\n'
    · -- the carriage return ends no line, since the line feed comes right after it
      subst feed
      have onward : Position.Crlf ⟨place.offset + '\n'.utf8Size, place.line + 1, 1⟩
          ⟨other.offset + '\r'.utf8Size + '\n'.utf8Size, other.line + 1, 1⟩ := by
        refine ⟨?_, by simp [same.line], rfl⟩
        have positive := '\n'.utf8Size_pos
        dsimp only
        omega
      simpa [Position.after] using ih onward later
    · have onward : Position.Crlf ⟨place.offset + c.utf8Size, place.line, place.column + 1⟩
          ⟨other.offset + c.utf8Size, other.line, other.column + 1⟩ := by
        refine ⟨?_, same.line, by simp [same.column]⟩
        have positive := c.utf8Size_pos
        dsimp only
        omega
      rw [crlf_cons feed]
      simpa [Position.after, feed, noReturn.symm] using ih onward later

/-- A cursor, and what it has come to be. -/
structure Cursor.Crlf (cursor other : Cursor) : Prop where
  position : cursor.position.Crlf other.position
  previous : other.previous = cursor.previous

theorem Cursor.Crlf.after {cursor other : Cursor} (same : cursor.Crlf other) {text : Text}
    (feeds : '\r' ∉ text) (kind : Kind) (run otherRun : Text) :
    (cursor.after run kind text).Crlf (other.after otherRun kind (crlf text)) where
  position := same.position.after feeds
  previous := by
    simp only [Cursor.after, getLast?_crlf, same.previous]

/-- A span, and what it has come to be. Besides line breaks, only string literals hold line feeds. -/
structure Span.Crlf (span other : Span) : Prop where
  kind : other.kind = span.kind
  start : other.start = 0 ↔ span.start = 0
  line : other.line = span.line
  text : other.text = crlf span.text
  plain : span.kind ≠ .newline → span.kind ≠ .stringLiteral → '\n' ∉ span.text

namespace Span.Crlf

variable {span other : Span}

theorem same_text (same : span.Crlf other) (noNewline : span.kind ≠ .newline)
    (noLiteral : span.kind ≠ .stringLiteral) : other.text = span.text := by
  rw [same.text, crlf_of_plain (same.plain noNewline noLiteral)]

/-- Joining code goes together with turning line feeds into pairs. -/
theorem attach (same : span.Crlf other) {spans others : List Span}
    (rest : List.Forall₂ Span.Crlf spans others) :
    List.Forall₂ Span.Crlf (Span.attach span spans) (Span.attach other others) := by
  cases rest with
  | nil => exact .cons same .nil
  | @cons next otherNext more otherMore first later =>
    simp only [Span.attach, same.kind, first.kind]
    split
    next code =>
      refine .cons ⟨rfl, same.start, same.line, ?_, fun _ _ => ?_⟩ later
      · simp [same.text, first.text]
      · have left := same.plain (by simp [code.1]) (by simp [code.1])
        have right := first.plain (by simp [code.2]) (by simp [code.2])
        simp [left, right]
    · exact .cons same (.cons first later)

end Span.Crlf

theorem Span.forall₂_coalesce {spans others : List Span}
    (same : List.Forall₂ Span.Crlf spans others) :
    List.Forall₂ Span.Crlf (coalesce spans) (coalesce others) := by
  induction same with
  | nil => exact .nil
  | cons first _ ih => exact first.attach ih

/-- Lexemes in the same order, up to corresponding places where the same construct is not closed or
the texts end. -/
structure Lexing.Crlf (source target : Lexing) : Prop where
  lexemes : List.Forall₂ Span.Crlf source.lexemes target.lexemes
  cursor : source.cursor.Crlf target.cursor
  unclosed : target.unclosed = source.unclosed

namespace Language.LineOriented

variable {language : Language} (lines : language.LineOriented)

include lines

/-- A token is read as what it has come to be. -/
theorem readsAt_crlf {point target : Point} {kind : Kind} {word after : Text}
    (reads : language.ReadsAt point ⟨kind, word⟩ after)
    (same : target.cursor.previous = point.cursor.previous) (feeds : '\r' ∉ word ++ after) :
    language.ReadsAt target ⟨kind, crlf word⟩ (crlf after) := by
  obtain ⟨nonempty, found⟩ := reads
  refine ⟨by simpa using nonempty, ?_⟩
  have text : word ++ after ≠ [] := by simp [nonempty]
  rw [← crlf_append, lines.lexemeAt_crlf same text feeds, found]
  -- the token is as long as its word has become
  simp only [Except.map, Lexeme.crlf, sub_add_length nonempty, crlfLength_append]

/-- Besides line breaks themselves, only string literals hold what ends a line. -/
theorem unbroken_of_readsAt {point : Point} {kind : Kind} {word after : Text}
    (reads : language.ReadsAt point ⟨kind, word⟩ after) (noNewline : kind ≠ .newline)
    (noLiteral : kind ≠ .stringLiteral) : ∀ c ∈ word, isLineBreak c = false := by
  intro c member
  cases kind with
  | newline => exact absurd rfl noNewline
  | stringLiteral => exact absurd rfl noLiteral
  | whitespace =>
    have inline := reads.whitespace c member
    simp only [isInlineBlank, Bool.or_eq_true, beq_iff_eq] at inline
    rcases inline with (rfl | rfl) | rfl <;> rfl
  | blockComment =>
    obtain ⟨known, -⟩ := reads.block lines.toConventional
    simp [lines.noBlocks] at known
  | lineComment =>
    obtain ⟨marker, known, body, rfl, unbroken, -⟩ := reads.line
    rcases List.mem_append.mp member with inMarker | inBody
    · rcases lines.markers marker known with rfl | rfl
      · obtain rfl : c = '#' := by simpa using inMarker
        rfl
      · obtain rfl : c = '/' := by simpa using inMarker
        rfl
    · exact unbroken c inBody
  | code =>
    obtain ⟨d, rfl, solid, -⟩ := reads.code lines.toConventional
    obtain rfl : c = d := by simpa using member
    exact (Bool.or_eq_false_iff.mp solid).2

/-- The two scans go from lexeme to lexeme together. -/
theorem lex_crlf {cursor target : Cursor} (same : cursor.Crlf target) (run otherRun : Text)
    {text : Text} (feeds : '\r' ∉ text) :
    (language.lex cursor run text).Crlf (language.lex target otherRun (crlf text)) := by
  -- along the lexemes of the text, with corresponding cursors as the invariant
  fun_induction Language.lex language cursor run text generalizing target otherRun with
  | case1 cursor run =>
    rw [crlf_nil, lex]
    exact ⟨.nil, same, rfl⟩
  | case2 cursor run c rest construct found =>
    have there := lines.lexemeAt_crlf same.previous (List.cons_ne_nil c rest) feeds
    rw [found] at there
    obtain ⟨d, others, whole⟩ := List.exists_cons_of_ne_nil
      (crlf_eq_nil.not.mpr (List.cons_ne_nil c rest))
    rw [whole] at there ⊢
    rw [lex, there]
    exact ⟨.nil, same, rfl⟩
  | case3 cursor run c rest lexeme found word later =>
    rename_i ih
    have reads : language.ReadsAt ⟨cursor, run⟩ ⟨lexeme.kind, word⟩ (rest.drop lexeme.more) :=
      readsAt_of_lexemeAt found
    have whole : word ++ rest.drop lexeme.more = c :: rest := by simp [word]
    rw [← whole] at feeds
    obtain ⟨inWord, inRest⟩ : '\r' ∉ word ∧ '\r' ∉ rest.drop lexeme.more := by
      simpa using feeds
    have there : language.ReadsAt ⟨target, otherRun⟩ ⟨lexeme.kind, crlf word⟩
        (crlf (rest.drop lexeme.more)) := lines.readsAt_crlf reads same.previous feeds
    have first : (Span.covering lexeme.kind cursor.position word).Crlf
        (Span.covering lexeme.kind target.position (crlf word)) :=
      ⟨rfl, same.position.start, same.position.line, rfl,
        fun noNewline noLiteral =>
          not_mem_feed_of_unbroken (lines.unbroken_of_readsAt reads noNewline noLiteral)⟩
    have onward := ih (same.after inWord lexeme.kind run otherRun)
      (codeRunAfter otherRun lexeme.kind (crlf word)) inRest
    rw [← whole, crlf_append, lex_of_readsAt there]
    exact ⟨.cons first onward.lexemes, onward.cursor, onward.unclosed⟩

/-- A text whose line feeds have become pairs is scanned without failure if the text itself is, and
its spans are what the spans of the text have come to be. -/
theorem spans_crlf {source : Text} (feeds : '\r' ∉ source) {spans : List Span}
    (scanned : language.spans source = .ok spans) :
    ∃ others, language.spans (crlf source) = .ok others ∧ List.Forall₂ Span.Crlf spans others := by
  obtain ⟨closed, rfl⟩ := lex_of_spans scanned
  have start : Cursor.start.Crlf Cursor.start := ⟨⟨Iff.rfl, rfl, rfl⟩, rfl⟩
  have same := lines.lex_crlf start [] [] feeds
  refine ⟨Span.coalesce (language.lex .start [] (crlf source)).lexemes, ?_,
    Span.forall₂_coalesce same.lexemes⟩
  have closedThere := same.unclosed.trans closed
  simp only [spans, scan, closedThere]

/-- If the text is not scanned, neither is the other one: the same construct is not closed there, and
it opens in the same line and column. -/
theorem error_crlf {source : Text} (feeds : '\r' ∉ source) {cause : Unterminated}
    (failed : language.spans source = .error cause) :
    ∃ other, language.spans (crlf source) = .error other ∧ other.construct = cause.construct
      ∧ other.place.line = cause.place.line ∧ other.place.column = cause.place.column := by
  have start : Cursor.start.Crlf Cursor.start := ⟨⟨Iff.rfl, rfl, rfl⟩, rfl⟩
  have same := lines.lex_crlf start [] [] feeds
  simp only [spans, scan] at failed ⊢
  cases unclosed : (language.lex .start [] source).unclosed with
  | none => simp [unclosed] at failed
  | some construct =>
    rw [unclosed] at failed
    obtain rfl := Except.error.inj failed
    have there := same.unclosed.trans unclosed
    rw [there]
    exact ⟨_, rfl, rfl, same.cursor.position.line, same.cursor.position.column⟩

end Language.LineOriented

end CommentStrip
