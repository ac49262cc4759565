import CommentStrip.Proofs.Rereading
import CommentStrip.Proofs.Seam

/-!
# Edits of scanned text

The spans of a scanned text, some of which are marked as removed. What the scan says about each
span makes the pieces regular, so that the gaps between kept pieces are rewritten as seams.
-/
namespace CommentStrip

namespace Language

section Shapes

variable {language : Language} {point : Point} {word rest : Text}

theorem ReadsAt.newline (reads : language.ReadsAt point ⟨.newline, word⟩ rest) :
    ∀ c ∈ word, isLineBreak c = true := by
  rcases reads.newline_shape with rfl | rfl | ⟨rfl, -⟩ <;> simp [isLineBreak]

theorem ReadsAt.whitespace (reads : language.ReadsAt point ⟨.whitespace, word⟩ rest) :
    ∀ c ∈ word, isInlineBlank c = true :=
  reads.whitespace_shape.2.1

theorem ReadsAt.code (conventional : language.Conventional)
    (reads : language.ReadsAt point ⟨.code, word⟩ rest) :
    ∃ c, word = [c] ∧ isBlankChar c = false ∧ language.marks c = false := by
  have single := more_of_code reads.2 rfl
  have nonempty := reads.1
  match word, nonempty, single with
  | _ :: _ :: _, _, single => simp at single
  | [c], _, _ =>
    have takes := reads.takes
    simp only [List.cons_append, List.nil_append] at takes
    cases takes with
    | code unquoted noRegex noBlock noLine noNewline noWhitespace =>
      rw [newlineAt?_eq_none] at noNewline
      rw [whitespaceAt?_eq_none] at noWhitespace
      refine ⟨c, rfl, by simp [isBlankChar, noNewline, noWhitespace], ?_⟩
      by_contra marked
      rw [Bool.not_eq_false] at marked
      obtain ⟨quote, known, opener⟩ := List.any_eq_true.mp marked
      rw [beq_iff_eq] at opener
      rw [conventional.quotedAt?_eq_none, List.eq_nil_iff_forall_not_mem] at unquoted
      refine unquoted ⟨[], quote⟩ (mem_openingsAt_iff.mpr ⟨?_, known, ?_⟩)
      · exact mem_leadsAt_iff.mpr (.inl rfl)
      · simp [opener]

theorem not_isBlankChar_of_start {c : Char}
    (start : c.isAlpha = true ∨ isExpressionQuote c = true ∨ c = '/' ∨ c = '#') :
    isBlankChar c = false := by
  by_contra blank
  rw [Bool.not_eq_false] at blank
  rcases start with letter | mark | rfl | rfl
  · simp [not_isAlpha_of_isBlankChar blank] at letter
  · simp [not_isExpressionQuote_of_isBlankChar blank] at mark
  · exact absurd blank (by decide)
  · exact absurd blank (by decide)

/-- Comments and literals begin with a letter, a quotation mark, a slash or a hash. -/
theorem ReadsAt.start (conventional : language.Conventional) {kind : Kind}
    (reads : language.ReadsAt point ⟨kind, word⟩ rest) (solid : kind.isBlank = false)
    (noCode : kind ≠ .code) : ∃ c others, word = c :: others
      ∧ (c.isAlpha = true ∨ isExpressionQuote c = true ∨ c = '/' ∨ c = '#') := by
  cases kind with
  | code => exact absurd rfl noCode
  | whitespace => simp [Kind.isBlank] at solid
  | newline => simp [Kind.isBlank] at solid
  | stringLiteral =>
    rcases reads.literal conventional with ⟨_, _, _, quoted⟩ | ⟨-, body, flags, regex⟩
    · obtain ⟨c, others, whole, start⟩ := quoted.head
      exact ⟨c, others, whole, start.imp_right .inl⟩
    · exact ⟨'/', _, regex.whole, .inr (.inr (.inl rfl))⟩
  | blockComment =>
    obtain ⟨-, body, whole, -⟩ := reads.block conventional
    exact ⟨'/', _, whole, .inr (.inr (.inl rfl))⟩
  | lineComment =>
    obtain ⟨marker, known, body, whole, -⟩ := reads.line
    rcases conventional.markers marker known with rfl | rfl
    · exact ⟨'#', _, whole, .inr (.inr (.inr rfl))⟩
    · exact ⟨'/', _, whole, .inr (.inr (.inl rfl))⟩

/-- What is not blank does not begin with a blank. -/
theorem ReadsAt.first (conventional : language.Conventional) {kind : Kind}
    (reads : language.ReadsAt point ⟨kind, word⟩ rest) (solid : kind.isBlank = false) :
    ∀ c ∈ word.head?, isBlankChar c = false := by
  by_cases code : kind = .code
  · subst code
    obtain ⟨c, rfl, other, -⟩ := reads.code conventional
    simpa using other
  · obtain ⟨c, others, rfl, start⟩ := reads.start conventional solid code
    simpa using not_isBlankChar_of_start start

/-- Literals end with a quotation mark or, if they begin with a slash, with a slash and flags. -/
theorem ReadsAt.literal_last (conventional : language.Conventional)
    (reads : language.ReadsAt point ⟨.stringLiteral, word⟩ rest) :
    ∃ c, word.getLast? = some c ∧ (isExpressionQuote c = true ∧ word.head? ≠ some '/'
      ∨ language.regexLiterals = true ∧ (c = '/' ∨ Unicode.isAlphanumeric c = true)) := by
  rcases reads.literal conventional with ⟨_, mark, _, quoted⟩ | ⟨allowed, body, flags, regex⟩
  · refine ⟨mark, quoted.getLast?_word, .inl ⟨quoted.marked, fun slash => ?_⟩⟩
    obtain ⟨c, others, whole, start⟩ := quoted.head
    obtain rfl : c = '/' := by simpa [whole] using slash
    exact absurd start (by decide)
  · rw [regex.whole, List.append_cons, ← List.cons_append, List.getLast?_append]
    cases last : flags.getLast? with
    | none =>
      refine ⟨'/', ?_, .inr ⟨allowed.1, .inl rfl⟩⟩
      rw [Option.none_or, ← List.cons_append, List.getLast?_append]
      rfl
    | some c =>
      exact ⟨c, by simp, .inr ⟨allowed.1, .inr (regex.flags c (List.mem_of_getLast? last))⟩⟩

/-- What is not blank does not end with a blank, unless it is a line comment. -/
theorem ReadsAt.last (conventional : language.Conventional) {kind : Kind}
    (reads : language.ReadsAt point ⟨kind, word⟩ rest) (solid : kind.isBlank = false)
    (noLine : kind ≠ .lineComment) : ∀ c ∈ word.getLast?, isBlankChar c = false := by
  cases kind with
  | lineComment => exact absurd rfl noLine
  | whitespace => simp [Kind.isBlank] at solid
  | newline => simp [Kind.isBlank] at solid
  | code =>
    obtain ⟨c, rfl, other, -⟩ := reads.code conventional
    simpa using other
  | blockComment =>
    obtain ⟨-, body, rfl, -⟩ := reads.block conventional
    rw [← List.cons_append, ← List.cons_append, List.getLast?_append]
    simp [isBlankChar, isInlineBlank, isLineBreak]
  | stringLiteral =>
    obtain ⟨c, last, shape⟩ := reads.literal_last conventional
    rw [last]
    rintro _ ⟨rfl⟩
    rcases shape with ⟨mark, -⟩ | ⟨-, slash | flag⟩
    · exact not_isBlankChar_of_start (.inr (.inl mark))
    · exact not_isBlankChar_of_start (.inr (.inr (.inl slash)))
    · exact not_isBlankChar_of_isNameChar (by simp [isNameChar, flag])

/-- Only a line break begins with a character that ends a line. -/
theorem ReadsAt.newline_of_lineBreak (conventional : language.Conventional) {kind : Kind} {c : Char}
    (reads : language.ReadsAt point ⟨kind, word⟩ rest) (head : word.head? = some c)
    (lineBreak : isLineBreak c = true) : kind = .newline := by
  cases blank : kind.isBlank with
  | false =>
    have other := reads.first conventional blank c head
    simp [isBlankChar, lineBreak] at other
  | true =>
    simp only [Kind.isBlank, Bool.or_eq_true, beq_iff_eq] at blank
    rcases blank with rfl | rfl
    · obtain ⟨others, rfl⟩ := List.head?_eq_some_iff.mp head
      have inline := reads.whitespace c List.mem_cons_self
      simp [not_isInlineBlank_of_isLineBreak lineBreak] at inline
    · rfl

/-- Only a literal begins with a quotation mark. -/
theorem ReadsAt.literal_of_marks (conventional : language.Conventional) {kind : Kind} {c : Char}
    (reads : language.ReadsAt point ⟨kind, word⟩ rest) (head : word.head? = some c)
    (marked : language.marks c = true) : kind = .stringLiteral := by
  obtain ⟨quote, known, opener⟩ := List.any_eq_true.mp marked
  rw [beq_iff_eq] at opener
  have mark : isExpressionQuote c = true := by
    obtain ⟨mark, quotes, shape | shape, -⟩ := conventional.quote_shape known
    · obtain rfl : c = mark := by simpa [opener] using shape
      exact quotes
    · simp [opener] at shape
  cases kind with
  | stringLiteral => rfl
  | code =>
    obtain ⟨d, rfl, -, unmarked⟩ := reads.code conventional
    obtain rfl : d = c := by simpa using head
    simp [unmarked] at marked
  | newline =>
    obtain ⟨others, rfl⟩ := List.head?_eq_some_iff.mp head
    have blank : isBlankChar c = true := by
      simp [isBlankChar, reads.newline c List.mem_cons_self]
    simp [not_isExpressionQuote_of_isBlankChar blank] at mark
  | whitespace =>
    obtain ⟨others, rfl⟩ := List.head?_eq_some_iff.mp head
    have blank : isBlankChar c = true := by
      simp [isBlankChar, reads.whitespace c List.mem_cons_self]
    simp [not_isExpressionQuote_of_isBlankChar blank] at mark
  | blockComment =>
    obtain ⟨-, body, rfl, -⟩ := reads.block conventional
    obtain rfl : '/' = c := by simpa using head
    exact absurd mark (by decide)
  | lineComment =>
    obtain ⟨marker, listed, body, rfl, -⟩ := reads.line
    rcases conventional.markers marker listed with rfl | rfl
    · obtain rfl : '#' = c := by simpa using head
      exact absurd mark (by decide)
    · obtain rfl : '/' = c := by simpa using head
      exact absurd mark (by decide)

/-- Right after a name, only code goes on with a character of a name. -/
theorem ReadsAt.not_isNameChar (conventional : language.Conventional) {kind : Kind} {c : Char}
    (reads : language.ReadsAt point ⟨kind, word⟩ rest) (head : word.head? = some c)
    (name : point.cursor.previous.any isNameChar = true) (noCode : kind ≠ .code) :
    isNameChar c = false := by
  cases blank : kind.isBlank with
  | true =>
    have white : isBlankChar c = true := by
      obtain ⟨others, rfl⟩ := List.head?_eq_some_iff.mp head
      simp only [Kind.isBlank, Bool.or_eq_true, beq_iff_eq] at blank
      rcases blank with rfl | rfl
      · simp [isBlankChar, reads.whitespace c List.mem_cons_self]
      · simp [isBlankChar, reads.newline c List.mem_cons_self]
    exact not_isNameChar_of_isWhiteSpace (isWhiteSpace_of_isBlankChar white)
  | false =>
    have slash : isNameChar '/' = false := by decide
    have hash : isNameChar '#' = false := by decide
    obtain ⟨d, others, whole, start⟩ := reads.start conventional blank noCode
    obtain rfl : d = c := by simpa [whole] using head
    rcases start with letter | mark | rfl | rfl
    · -- a letter would be a prefix, and none may stand right after a name
      by_cases literal : kind = .stringLiteral
      · subst literal
        rcases reads.literal conventional with ⟨opening, mark, body, quoted⟩ | ⟨-, _, _, regex⟩
        · rcases (conventional.mem_leadsAt quoted.lead_mem).2.2 with none | free
          · obtain ⟨tail, made, -⟩ := quoted.exists_tail
            rw [none] at made
            obtain ⟨rfl, -⟩ := List.cons.inj (whole.symm.trans made)
            simp [not_isAlpha_of_isExpressionQuote quoted.marked] at letter
          · simp [free] at name
        · obtain ⟨rfl, -⟩ := List.cons.inj (whole.symm.trans regex.whole)
          exact slash
      · cases kind with
        | blockComment =>
          obtain ⟨-, body, made, -⟩ := reads.block conventional
          obtain ⟨rfl, -⟩ := List.cons.inj (whole.symm.trans made)
          exact slash
        | lineComment =>
          obtain ⟨marker, listed, body, made, -⟩ := reads.line
          rcases conventional.markers marker listed with rfl | rfl
          · obtain ⟨rfl, -⟩ := List.cons.inj (whole.symm.trans made)
            exact hash
          · obtain ⟨rfl, -⟩ := List.cons.inj (whole.symm.trans made)
            exact slash
        | _ => simp_all [Kind.isBlank]
    · exact not_isNameChar_of_isExpressionQuote mark
    · exact slash
    · exact hash

end Shapes

end Language

namespace Piece

/-- A span that is not marked. -/
def kept (span : Span) : Piece :=
  ⟨span, false⟩

theorem textOf_map_kept (spans : List Span) : textOf (spans.map kept) = spans.flatMap Span.text :=
  List.flatMap_map ..

theorem getLast?_textOf_concat {piece : Piece} (nonempty : piece.span.text ≠ [])
    (earlier : List Piece) : (textOf (earlier ++ [piece])).getLast? = piece.span.text.getLast? := by
  rw [textOf_append, textOf_cons, textOf_nil, List.append_nil,
    List.getLast?_append_of_ne_nil _ nonempty]

/-- The lexemes that pieces are scanned as, whether they are removed or not. -/
def lexemes (pieces : List Piece) : List Token :=
  pieces.flatMap (·.span.token.lexemes)

/-- Where the scan of a text stands after its first pieces. -/
def pointAfter (pieces : List Piece) : Point :=
  Point.start.pastAll (lexemes pieces)

theorem lexemes_eq (pieces : List Piece) :
    lexemes pieces = ((pieces.map span).map Span.token).flatMap Token.lexemes := by
  simp [lexemes, List.flatMap_map]

@[simp] theorem lexemes_nil : lexemes [] = [] := rfl

@[simp] theorem lexemes_cons (piece : Piece) (pieces : List Piece) :
    lexemes (piece :: pieces) = piece.span.token.lexemes ++ lexemes pieces := rfl

@[simp] theorem lexemes_append (first second : List Piece) :
    lexemes (first ++ second) = lexemes first ++ lexemes second := by
  simp [lexemes]

theorem pointAfter_append (first second : List Piece) :
    pointAfter (first ++ second) = (pointAfter first).pastAll (lexemes second) := by
  simp [pointAfter]

theorem textOf_lexemes (pieces : List Piece) : Token.textOf (lexemes pieces) = textOf pieces := by
  rw [lexemes_eq, Token.textOf_flatMap_lexemes, Token.textOf_map_token]
  simp [textOf, List.flatMap_map]

end Piece

namespace Language

/-- The spans of a source text in a conventional language with a mark on some of them. Comments may
be marked, and literals too if none of them is a regular expression. -/
structure Edit (language : Language) (source : Text) (pieces : List Piece) : Prop where
  conventional : language.Conventional
  scanned : language.spans source = .ok (pieces.map Piece.span)
  removable : ∀ piece ∈ pieces, piece.removed = true → piece.span.kind.isComment = true
    ∨ piece.span.kind = .stringLiteral ∧ language.regexLiterals = false

/-- The spans of a source with no mark on any of them are an edit of it. -/
theorem edit_of_spans {language : Language} {source : Text} {spans : List Span}
    (known : language ∈ registered) (scanned : language.spans source = .ok spans) :
    language.Edit source (spans.map Piece.kept) where
  conventional := conventional_of_registered known
  scanned := by
    rw [List.map_map]
    exact scanned.trans (congrArg Except.ok (List.map_id spans).symm)
  removable := by
    rw [List.forall_mem_map]
    nofun

namespace Edit

variable {language : Language} {source : Text} {pieces earlier later : List Piece}
  {piece next : Piece}

theorem textOf_pieces (edit : language.Edit source pieces) : Piece.textOf pieces = source := by
  have text := (partition_of_spans edit.scanned).text
  rwa [List.flatMap_map] at text

/-- Each piece is read where the scan of the source stands. -/
theorem reads (edit : language.Edit source pieces) (split : pieces = earlier ++ piece :: later) :
    language.Reads (Piece.pointAfter earlier) piece.span.token.lexemes (Piece.textOf later) := by
  obtain ⟨reads, -⟩ := reads_of_spans edit.scanned
  rw [← Piece.lexemes_eq, split, Piece.lexemes_append, Piece.lexemes_cons, reads_append,
    reads_append] at reads
  have here := reads.2.1
  rwa [List.append_nil, Piece.textOf_lexemes] at here

/-- Code is never marked. -/
theorem isContent_of_code (edit : language.Edit source pieces) {piece : Piece}
    (member : piece ∈ pieces) (code : piece.span.kind = .code) : piece.isContent = true := by
  have stays : piece.removed = false := by
    by_contra removed
    rw [Bool.not_eq_false] at removed
    simpa [code, Kind.isComment] using edit.removable piece member removed
  simp [Piece.isContent, stays, code, Kind.isBlank]

theorem text_ne_nil (edit : language.Edit source pieces) {piece : Piece} (member : piece ∈ pieces) :
    piece.span.text ≠ [] :=
  text_ne_nil_of_spans edit.scanned (List.mem_map_of_mem member)

theorem readsAt (edit : language.Edit source pieces) (split : pieces = earlier ++ piece :: later)
    (noCode : piece.span.kind ≠ .code) :
    language.ReadsAt (Piece.pointAfter earlier) piece.span.token (Piece.textOf later) := by
  have reads := edit.reads split
  rw [Token.lexemes_of_ne_code noCode] at reads
  simpa [Reads] using reads.1

/-- A character of code is read where the scan of the source stands. -/
theorem readsAt_code (edit : language.Edit source pieces)
    (split : pieces = earlier ++ piece :: later) (code : piece.span.kind = .code) {c : Char}
    {before after : Text} (whole : piece.span.text = before ++ c :: after) :
    language.ReadsAt ((Piece.pointAfter earlier).pastAll (Token.lexemes ⟨.code, before⟩))
      ⟨.code, [c]⟩ (after ++ Piece.textOf later) := by
  have reads := edit.reads split
  have token : piece.span.token = ⟨.code, before ++ c :: after⟩ := by
    rw [Span.token, code, whole]
  rw [token, Token.lexemes_of_code, List.map_append, reads_append] at reads
  have made : Token.textOf (after.map fun c => ⟨.code, [c]⟩) = after :=
    Token.textOf_lexemes ⟨.code, after⟩
  have here := reads.2.1
  rwa [made] at here

/-- The first and the last lexeme of a piece begin and end like it. -/
theorem exists_lexemes (edit : language.Edit source pieces)
    (split : pieces = earlier ++ piece :: later) :
    (∃ word rest, language.ReadsAt (Piece.pointAfter earlier) ⟨piece.span.kind, word⟩ rest
        ∧ word.head? = piece.span.text.head?)
      ∧ ∃ point word, language.ReadsAt point ⟨piece.span.kind, word⟩ (Piece.textOf later)
        ∧ word.getLast? = piece.span.text.getLast? := by
  by_cases code : piece.span.kind = .code
  · have nonempty := edit.text_ne_nil (split ▸ List.mem_append_right _ List.mem_cons_self)
    constructor
    · obtain ⟨c, rest, whole⟩ := List.exists_cons_of_ne_nil nonempty
      have here := edit.readsAt_code split code (show _ = [] ++ c :: rest from whole)
      rw [code]
      exact ⟨[c], _, here, by rw [whole]; rfl⟩
    · have whole := (List.dropLast_concat_getLast nonempty).symm
      have here := edit.readsAt_code split code whole
      rw [code]
      exact ⟨_, [_], here, by rw [List.getLast?_eq_some_getLast nonempty]; rfl⟩
  · have here := edit.readsAt split code
    exact ⟨⟨_, _, here, rfl⟩, _, _, here, rfl⟩

theorem separated (edit : language.Edit source pieces) :
    pieces.IsChain fun piece next => ¬(piece.span.kind = .code ∧ next.span.kind = .code) := by
  have chain := (partition_of_spans edit.scanned).separated
  rwa [List.isChain_map] at chain

/-- A line comment is followed by a line break. -/
theorem newline_of_line (edit : language.Edit source pieces)
    (split : pieces = earlier ++ piece :: next :: later) (line : piece.span.kind = .lineComment) :
    next.span.kind = .newline := by
  have here := edit.readsAt split (by simp [line])
  obtain ⟨-, -, -, -, -, ends⟩ := ReadsAt.line (by simpa [Span.token, line] using here)
  rw [List.append_cons] at split
  obtain ⟨⟨word, rest, reads, head⟩, -⟩ := edit.exists_lexemes split
  obtain ⟨c, others, whole⟩ := List.exists_cons_of_ne_nil reads.1
  simp only at whole
  rw [whole] at head
  have lineBreak : isLineBreak c = true := by
    refine ends c ?_
    rw [List.head?_append, ← head]
    rfl
  exact reads.newline_of_lineBreak edit.conventional (by rw [whole]; rfl) lineBreak

/-- The pieces of an edit are those that rewriting expects. -/
theorem regular (edit : language.Edit source pieces) : Regular pieces where
  comments := by
    rw [List.isChain_iff_forall_rel_of_append_cons_cons]
    intro piece next earlier later split
    exact edit.newline_of_line split
  each := by
    intro piece member
    obtain ⟨earlier, later, split⟩ := List.append_of_mem member
    obtain ⟨⟨first, _, reads, head⟩, _, last, readsLast, final⟩ := edit.exists_lexemes split
    refine ⟨edit.text_ne_nil member, ?_, ?_, ?_, ?_, ?_⟩
    · intro removed
      rcases edit.removable piece member removed with comment | ⟨literal, -⟩
      · cases kind : piece.span.kind <;> simp_all [Kind.isComment, Kind.isBlank]
      · simp [literal, Kind.isBlank]
    · intro whitespace
      have here := edit.readsAt split (by simp [whitespace])
      exact ReadsAt.whitespace (by simpa [Span.token, whitespace] using here)
    · intro newline
      have here := edit.readsAt split (by simp [newline])
      exact ReadsAt.newline (by simpa [Span.token, newline] using here)
    · intro solid
      rw [← head]
      exact reads.first edit.conventional solid
    · intro solid noLine
      rw [← final]
      exact readsLast.last edit.conventional solid noLine

end Edit

end Language

end CommentStrip
