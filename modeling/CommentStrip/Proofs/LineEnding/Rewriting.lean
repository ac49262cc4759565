import CommentStrip.Proofs.Lines
import CommentStrip.Proofs.LineEnding.Decision
import CommentStrip.Proofs.Removal

/-!
# Rewriting line feeds and pairs

A text whose line feeds have become pairs is rewritten to what has become of the rewritten text. The
only character that rewriting makes up besides a space is the line feed that it leaves for a removed
span with a line break in it. In Python no such line feed is written: only string literals hold line
breaks, and one that is removed is the first thing on its line.
-/
namespace CommentStrip

open Text

/-- A piece, and what it has come to be. -/
structure Piece.Crlf (piece other : Piece) : Prop where
  span : piece.span.Crlf other.span
  removed : other.removed = piece.removed

namespace Piece.Crlf

variable {piece other : Piece} (same : piece.Crlf other)

include same

theorem isContent_eq : other.isContent = piece.isContent := by
  rw [isContent, isContent, same.removed, same.span.kind]

theorem isWhitespace_eq : other.isWhitespace = piece.isWhitespace := by
  rw [isWhitespace, isWhitespace, same.span.kind]

theorem isNewline_eq : other.isNewline = piece.isNewline := by
  rw [isNewline, isNewline, same.span.kind]

end Piece.Crlf

theorem Span.Crlf.containsLineBreak_eq {span other : Span} (same : span.Crlf other) :
    other.containsLineBreak = span.containsLineBreak := by
  rw [Span.containsLineBreak, Span.containsLineBreak, same.text]
  exact any_crlf span.text rfl

/-- No pair begins a word or an operator, and no line feed does. -/
theorem Span.Crlf.wouldFuse_eq {span other : Span} (same : span.Crlf other) (last : Char) :
    wouldFuse last other = wouldFuse last span := by
  rw [wouldFuse, wouldFuse, same.text, same.kind]
  cases span.text with
  | nil => rfl
  | cons c rest =>
    by_cases feed : c = '\n'
    · -- neither the line feed nor its carriage return is part of a word or an operator
      subst feed
      have word {c : Char} (space : Unicode.isWhiteSpace c = true) : isTokenWord c = false :=
        not_isTokenWord_of_isWhiteSpace space
      have noReturn := word (c := '\r') (by decide)
      have noFeed := word (c := '\n') (by decide)
      have operator : isOperatorChar '\r' = isOperatorChar '\n' := by decide
      simp [noReturn, noFeed, operator]
    · rw [crlf_cons feed]
      rfl

section Pieces

variable {pieces others : List Piece} (same : List.Forall₂ Piece.Crlf pieces others)

include same

theorem any_isContent_eq : others.any Piece.isContent = pieces.any Piece.isContent := by
  induction same with
  | nil => rfl
  | cons first _ ih => rw [List.any_cons, List.any_cons, first.isContent_eq, ih]

theorem all_kept_eq : others.all (!·.removed) = pieces.all (!·.removed) := by
  induction same with
  | nil => rfl
  | cons first _ ih => rw [List.all_cons, List.all_cons, first.removed, ih]

theorem flatMap_text_pieces :
    others.flatMap (·.span.text) = crlf (pieces.flatMap (·.span.text)) := by
  induction same with
  | nil => rfl
  | cons first _ ih => rw [List.flatMap_cons, List.flatMap_cons, crlf_append, first.span.text, ih]

end Pieces

/-- Blanks at the end of a text are cut off as before. -/
theorem Text.reverse_dropWhile_crlf {p : Char → Bool} (feed : p '\n' = false) (text : Text) :
    ((crlf text).reverse.dropWhile p).reverse = crlf (text.reverse.dropWhile p).reverse := by
  induction text using List.reverseRecOn with
  | nil => rfl
  | append_singleton earlier last ih =>
    rw [crlf_append, List.reverse_append, List.reverse_append]
    by_cases lineFeed : last = '\n'
    · -- a text that ends with a line feed is not cut, nor is one that ends with a pair
      subst lineFeed
      simp [feed]
    · rw [crlf_cons lineFeed]
      simp only [crlf_nil, List.reverse_singleton, List.singleton_append, List.dropWhile_cons]
      split
      · exact ih
      · simp [crlf_cons lineFeed]

namespace Draft

/-- A draft, and what it has come to be. -/
structure Crlf (draft other : Draft) : Prop where
  written : other.written.reverse = crlf draft.written.reverse
  skipping : other.skipping = draft.skipping

namespace Crlf

variable {draft other : Draft} (same : draft.Crlf other)

include same

theorem written_eq : other.written = (crlf draft.written.reverse).reverse := by
  rw [← same.written, List.reverse_reverse]

theorem trimmed_eq : other.trimmed.reverse = crlf draft.trimmed.reverse := by
  rw [trimmed, trimmed, same.written_eq, reverse_dropWhile_crlf (by decide), List.reverse_reverse]

theorem hasContent_eq : other.hasContent = draft.hasContent := by
  rw [hasContent, hasContent, same.written_eq, List.any_reverse, any_crlf _ (by decide),
    List.any_reverse]

theorem head?_eq : other.written.head? = draft.written.head? := by
  rw [same.written_eq, List.head?_reverse, getLast?_crlf, List.getLast?_reverse]

/-- What is written next is what has become of it. -/
theorem write {text otherText : Text} (texts : otherText = crlf text) (skipping : Bool) :
    Crlf ⟨text.reverse ++ draft.written, skipping⟩ ⟨otherText.reverse ++ other.written, skipping⟩ where
  written := by
    rw [List.reverse_append, List.reverse_append, List.reverse_reverse, List.reverse_reverse,
      crlf_append, same.written, texts]
  skipping := rfl

/-- A removed span is left out in the same way, as long as it leaves no line feed of its own. -/
theorem afterRemoved {span otherSpan : Span} (spans : span.Crlf otherSpan)
    {rest others : List Piece} (later : List.Forall₂ Piece.Crlf rest others)
    (bare : span.containsLineBreak = true → draft.hasContent = false) :
    (draft.afterRemoved span rest).Crlf (other.afterRemoved otherSpan others) := by
  have apart : (others.head?.any fun next =>
        next.isContent && draft.written.head?.any (wouldFuse · next.span))
      = rest.head?.any fun next =>
        next.isContent && draft.written.head?.any (wouldFuse · next.span) := by
    cases later with
    | nil => rfl
    | cons first _ =>
      simp only [List.head?_cons, Option.any_some, first.isContent_eq, first.span.wouldFuse_eq]
  unfold Draft.afterRemoved
  -- each question that decides what is written has the same answer in both drafts
  rw [any_isContent_eq later, same.hasContent_eq, spans.containsLineBreak_eq, same.head?_eq, apart]
  split
  · exact ⟨same.trimmed_eq, rfl⟩
  · split
    · exact ⟨same.written, rfl⟩
    next content =>
      -- something is written on the line, so the span held no line break
      have unbroken : span.containsLineBreak = false := by
        by_contra broken
        rw [Bool.not_eq_false] at broken
        simp [bare broken] at content
      simp only [unbroken, Bool.false_eq_true, if_false]
      split
      · exact ⟨same.written, rfl⟩
      · split
        · have space : [' '] = crlf [' '] := rfl
          exact same.write space false
        · exact ⟨same.written, rfl⟩

end Crlf

/-- Where a piece with a line break in it is removed, nothing is written yet on its line, neither in
the draft nor of the pieces before it. -/
def Bare (draft : Draft) (line : List Piece) : Prop :=
  ∀ before piece rest, line = before ++ piece :: rest →
    piece.removed = true → piece.span.containsLineBreak = true →
    draft.hasContent = false ∧ ∀ other ∈ before, other.isWhitespace = true

variable {draft other onward : Draft} {piece : Piece} {line rest others : List Piece}

/-- If what is written of the first piece is blank, where that is all it may be, the rest of the line
is as bare as the line. -/
theorem Bare.tail (bare : draft.Bare (piece :: rest))
    (blank : piece.isWhitespace = true → onward.hasContent = draft.hasContent) :
    onward.Bare rest := by
  intro before broken later split removed lineBreak
  obtain ⟨nothing, blanks⟩ := bare (piece :: before) broken later (congrArg (piece :: ·) split)
    removed lineBreak
  rw [List.forall_mem_cons] at blanks
  exact ⟨(blank blanks.1).trans nothing, blanks.2⟩

/-- Blanks are no content. -/
private theorem hasContent_blank (regular : piece.Regular) (whitespace : piece.isWhitespace = true)
    (skipping : Bool) :
    Draft.hasContent ⟨piece.span.text.reverse ++ draft.written, skipping⟩ = draft.hasContent := by
  have hidden := regular.hidden_of_isBlank (Piece.isBlank_of_isWhitespace whitespace)
  rw [hasContent, hasContent, List.any_append, List.any_reverse, hidden, Bool.false_or]

/-- Both drafts go on in the same way to the end of their line. -/
theorem Crlf.after (same : draft.Crlf other) (pieces : List.Forall₂ Piece.Crlf line others)
    (regular : ∀ piece ∈ line, piece.Regular) (bare : draft.Bare line) :
    (draft.after line).Crlf (other.after others) := by
  -- along the line, with the drafts in step and the rest of the line bare
  induction pieces generalizing draft other with
  | nil => exact same
  | @cons piece otherPiece rest others first later ih =>
    rw [List.forall_mem_cons] at regular
    rw [Draft.after, Draft.after, same.skipping, first.isWhitespace_eq, first.removed]
    split
    · exact ih same regular.2 (bare.tail fun _ => rfl)
    · split
      next removed =>
        apply ih (same.afterRemoved first.span later _) regular.2
        · -- a removed piece is no blank, so what is removed after it holds no line break
          apply bare.tail
          intro whitespace
          have kept := regular.1.kept_of_isBlank (Piece.isBlank_of_isWhitespace whitespace)
          simp [kept] at removed
        · exact fun broken => (bare [] piece rest rfl removed broken).1
      · apply ih (same.write first.span.text false) regular.2
        exact bare.tail fun whitespace => hasContent_blank regular.1 whitespace false

end Draft

section Lines

variable {pieces others group otherGroup : List Piece}

theorem forall₂_lineGroups (same : List.Forall₂ Piece.Crlf pieces others) :
    List.Forall₂ (List.Forall₂ Piece.Crlf) (lineGroups pieces) (lineGroups others) := by
  induction same with
  | nil => exact .nil
  | @cons piece other rest more first later ih =>
    cases newline : piece.isNewline with
    | true =>
      rw [lineGroups_newline newline, lineGroups_newline (first.isNewline_eq.trans newline)]
      exact .cons (.cons first .nil) ih
    | false =>
      rw [lineGroups_other newline, lineGroups_other (first.isNewline_eq.trans newline)]
      generalize lineGroups rest = lines, lineGroups more = otherLines at ih
      -- the piece joins the line after it, if there is one
      cases ih with
      | nil => exact .cons (.cons first .nil) .nil
      | cons line lines => exact .cons (.cons first line) lines

/-- A line is written as what has become of it. -/
theorem writeGroup_crlf (same : List.Forall₂ Piece.Crlf group otherGroup)
    (regular : ∀ piece ∈ group, piece.Regular) (bare : Draft.empty.Bare group) :
    writeGroup otherGroup = crlf (writeGroup group) := by
  have start : Draft.empty.Crlf Draft.empty := ⟨rfl, rfl⟩
  rw [writeGroup, writeGroup, all_kept_eq same, any_isContent_eq same]
  split
  · -- a line that loses nothing is written as it is, and its pairs with it
    exact flatMap_text_pieces same
  · split
    · exact (start.after same regular bare).written
    · rfl

/-- A removed piece with a line break in it has only blanks before it on its line. -/
def Piece.Led (pieces : List Piece) : Prop :=
  ∀ earlier left body piece later, pieces = earlier ++ left :: (body ++ piece :: later) →
    (∀ other ∈ left :: body, other.isNewline = false) →
    piece.removed = true → piece.span.containsLineBreak = true → left.isWhitespace = true

theorem Piece.Led.bare (led : Piece.Led pieces) (member : group ∈ lineGroups pieces) :
    Draft.empty.Bare group := by
  obtain ⟨earlier, later, split, unbroken⟩ := exists_split_of_mem_lineGroups member
  intro before piece rest whole removed lineBreak
  refine ⟨rfl, fun left inside => ?_⟩
  obtain ⟨first, body, rfl⟩ := List.append_of_mem inside
  apply led (earlier ++ first) left body piece (rest ++ later)
  · simp [split, whole]
  · -- what comes before the piece in its line is no line break
    intro other between
    apply unbroken
    rw [whole, List.dropLast_append_of_ne_nil (List.cons_ne_nil _ _)]
    apply List.mem_append_left
    exact List.mem_append_right _ between
  · exact removed
  · exact lineBreak

/-- The lines are written as what has become of them. -/
theorem writeLines_crlf (same : List.Forall₂ Piece.Crlf pieces others)
    (regular : ∀ piece ∈ pieces, piece.Regular) (led : Piece.Led pieces) :
    writeLines others = crlf (writeLines pieces) := by
  have ready : ∀ group ∈ lineGroups pieces,
      (∀ piece ∈ group, piece.Regular) ∧ Draft.empty.Bare group := by
    intro group member
    refine ⟨fun piece inside => regular piece ?_, led.bare member⟩
    rw [← flatten_lineGroups pieces]
    exact List.mem_flatten_of_mem member inside
  have groups := forall₂_lineGroups same
  -- line after line, each of which is ready to be written
  rw [writeLines, writeLines]
  generalize lineGroups pieces = lines, lineGroups others = otherLines at groups ready
  induction groups with
  | nil => rfl
  | cons first _ ih =>
    rw [List.forall_mem_cons] at ready
    rw [List.flatMap_cons, List.flatMap_cons, crlf_append,
      writeGroup_crlf first ready.1.1 ready.1.2, ih ready.2]

end Lines

section Analyses

variable {language : Language} {options : Options} {source : Text} {analysis : Analysis}

/-- An analysis of a line-oriented language removes line breaks only at the start of a line: what is
removed elsewhere are comments. -/
theorem Analysis.Restricts.led (restricts : analysis.Restricts language options source)
    (lines : language.LineOriented) (edit : language.Edit source analysis.pieces) :
    Piece.Led analysis.pieces := by
  intro earlier left body piece later split sameLine removed lineBreak
  have place : analysis.pieces = (earlier ++ left :: body) ++ piece :: later := by simp [split]
  rcases restricts.removed place removed with comment | ⟨-, statement⟩
  · -- a comment holds no line break
    have other {kind : Kind} (solid : kind.isComment = false) : piece.span.kind ≠ kind := by
      rintro rfl
      simp [solid] at comment
    have reads := edit.readsAt place (other rfl)
    have unbroken := lines.unbroken_of_readsAt reads (other rfl) (other rfl)
    obtain ⟨c, member, ends⟩ := List.any_eq_true.mp lineBreak
    rw [unbroken c member] at ends
    exact absurd ends (by decide)
  · -- a literal that is a statement is the first on its line
    exact isWhitespace_of_statement split statement sameLine

/-- The same marks make corresponding pieces of corresponding spans. -/
theorem forall₂_markRemoved {spans others : List Span} (same : List.Forall₂ Span.Crlf spans others)
    (removed : List Nat) :
    List.Forall₂ Piece.Crlf (markRemoved spans removed) (markRemoved others removed) := by
  rw [markRemoved, markRemoved]
  generalize 0 = index
  induction same generalizing index with
  | nil => exact .nil
  | cons first _ ih => exact .cons ⟨first, rfl⟩ (ih (index + 1))

/-- What the rules decide is carried out in the same way. -/
theorem rewrite_classify_crlf (known : language ∈ Language.registered)
    (lines : language.LineOriented) (options : Options) {spans others : List Span}
    (scanned : language.spans source = .ok spans) (same : List.Forall₂ Span.Crlf spans others) :
    rewrite others (classify language options others)
      = ⟨crlf (rewrite spans (classify language options spans)).text,
        (rewrite spans (classify language options spans)).removedCount⟩ := by
  have restricts := Analysis.restricts_of_analyze (analyze_of_spans options scanned)
  have edit := restricts.edit known
  have marked := forall₂_markRemoved same (removedIndices (classify language options spans))
  have written := writeLines_crlf marked edit.regular.each (restricts.led lines edit)
  rw [classify_crlf same lines, rewrite, rewrite]
  exact congrArg (Rewritten.mk · _) written

end Analyses

/--
Whatever the options, a Python source whose line feeds have become pairs is processed as the source
itself is. If that succeeds, the line feeds of the rewritten text have become pairs and as many spans
are removed. If it fails, the same construct is not closed, from the same line and column on.
-/
theorem process_crlf {id : String} (found : Language.lookup id = .ok .python) (options : Options)
    {source : Text} (feeds : '\r' ∉ source) :
    (process id options (crlf source)).isOk = (process id options source).isOk
      ∧ (∀ rewritten, process id options source = .ok rewritten →
        process id options (crlf source) = .ok ⟨crlf rewritten.text, rewritten.removedCount⟩)
      ∧ ∀ error, process id options source = .error error →
        ∃ cause other, error = .unterminated cause
          ∧ process id options (crlf source) = .error (.unterminated other)
          ∧ other.construct = cause.construct ∧ other.place.line = cause.place.line
          ∧ other.place.column = cause.place.column := by
  rw [process_of_lookup found, process_of_lookup found, analyze, analyze]
  cases scanned : Language.python.spans source with
  | ok spans =>
    obtain ⟨others, again, same⟩ := Language.lineOriented_python.spans_crlf feeds scanned
    have known : Language.python ∈ Language.registered := by simp [Language.registered]
    rw [again]
    refine ⟨by simp [Except.map, Except.isOk, Except.toBool], fun rewritten made => ?_,
      fun error failed => by simp [Except.map] at failed⟩
    obtain rfl := Except.ok.inj made
    apply congrArg Except.ok
    exact rewrite_classify_crlf known Language.lineOriented_python options scanned same
  | error cause =>
    obtain ⟨other, again, construct, line, column⟩ :=
      Language.lineOriented_python.error_crlf feeds scanned
    rw [again]
    refine ⟨by simp [Except.map, Except.isOk, Except.toBool],
      fun rewritten made => by simp [Except.map] at made, fun error failed => ?_⟩
    obtain rfl := Except.error.inj failed
    exact ⟨cause, other, rfl, rfl, construct, line, column⟩

/-- A literal with a line feed in it goes with its line, and one that is not closed opens in the same
place. -/
theorem process_crlf_tripled_literals :
    '\r' ∉ "x=1 #a\n'''b\nc'''\ny\n".toList ∧ '\r' ∉ "x\n '''".toList
      ∧ process "py" .standard (crlf "x=1 #a\n'''b\nc'''\ny\n".toList)
        = .ok ⟨"x=1\r\ny\r\n".toList, 2⟩
      ∧ ∃ other, process "py" .standard (crlf "x\n '''".toList) = .error (.unterminated other)
        ∧ other.construct = .stringLiteral ∧ other.place.line = 2 ∧ other.place.column = 2 := by
  have found : Language.lookup "py" = .ok .python := by rfl
  have feeds : '\r' ∉ "x=1 #a\n'''b\nc'''\ny\n".toList := by decide
  have openFeeds : '\r' ∉ "x\n '''".toList := by decide
  have scanned : Language.python.spans "x=1 #a\n'''b\nc'''\ny\n".toList
      = .ok [⟨.code, 0, 3, 1, 1, "x=1".toList⟩, ⟨.whitespace, 3, 4, 1, 4, " ".toList⟩,
        ⟨.lineComment, 4, 6, 1, 5, "#a".toList⟩, ⟨.newline, 6, 7, 1, 7, "\n".toList⟩,
        ⟨.stringLiteral, 7, 16, 2, 1, "'''b\nc'''".toList⟩,
        ⟨.newline, 16, 17, 3, 5, "\n".toList⟩, ⟨.code, 17, 18, 4, 1, "y".toList⟩,
        ⟨.newline, 18, 19, 4, 2, "\n".toList⟩] := by
    rw [Language.spans_eq_lexWithin]
    decide +kernel
  have failed : Language.python.spans "x\n '''".toList = .error ⟨.stringLiteral, ⟨3, 2, 2⟩⟩ := by
    rw [Language.spans_eq_lexWithin]
    decide +kernel
  have rewritten : process "py" .standard "x=1 #a\n'''b\nc'''\ny\n".toList
      = .ok ⟨"x=1\ny\n".toList, 2⟩ := by
    rw [process_of_lookup found, analyze_of_spans .standard scanned]
    decide +kernel
  have unclosed : process "py" .standard "x\n '''".toList
      = .error (.unterminated ⟨.stringLiteral, ⟨3, 2, 2⟩⟩) := by
    rw [process_of_lookup found, analyze, failed]
    rfl
  refine ⟨feeds, openFeeds, (process_crlf found .standard feeds).2.1 _ rewritten, ?_⟩
  obtain ⟨cause, other, same, again, construct, line, column⟩ :=
    (process_crlf found .standard openFeeds).2.2 _ unclosed
  obtain rfl := Error.unterminated.inj same
  exact ⟨other, again, construct, line, column⟩

end CommentStrip
