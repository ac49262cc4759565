import CommentStrip.Proofs.Removal

/-!
# Preservation of programs

Rewriting keeps a program: the rewritten text is scanned without failure, and its tokens are those
that were to be kept. In Python this holds of every source and whatever is retained, since
something that stays is left between kept tokens wherever anything goes. In the languages with block
comments it holds exactly where no kept token fuses with what it now stands next to.
-/
namespace CommentStrip

section Python

variable {options : Options} {source : Text} {analysis : Analysis}
  {earlier gap later : List Piece} {left piece next : Piece} {tokens : List Token}

theorem no_block_in_python {pieces : List Piece}
    (edit : Language.python.Edit source pieces) (member : piece ∈ pieces) :
    piece.span.kind ≠ .blockComment := by
  intro block
  obtain ⟨before, after, split⟩ := List.append_of_mem member
  have here := edit.readsAt split (by simp [block])
  obtain ⟨known, -⟩ :=
    Language.ReadsAt.block edit.conventional (by simpa [Span.token, block] using here)
  simp [Language.python] at known

/-- In Python a comment ends its line. -/
theorem not_isComment_of_unbroken {pieces : List Piece} (edit : Language.python.Edit source pieces)
    (split : pieces = earlier ++ piece :: (gap ++ next :: later))
    (unbroken : ∀ other ∈ gap, other.isNewline = false) (same : next.isNewline = false) :
    piece.span.kind.isComment = false := by
  by_contra comment
  rw [Bool.not_eq_false] at comment
  have noBlock := no_block_in_python edit (show piece ∈ pieces by simp [split])
  have line : piece.span.kind = .lineComment := by
    cases kind : piece.span.kind <;> simp_all [Kind.isComment]
  cases gap with
  | nil =>
    have ending := edit.newline_of_line split line
    simp [Piece.isNewline, ending] at same
  | cons first others =>
    have ending := edit.newline_of_line split line
    have other := unbroken first List.mem_cons_self
    simp [Piece.isNewline, ending] at other

/-- In Python only a literal on its own is removed from a line on which more comes after it. -/
theorem statement_of_removed (restricts : analysis.Restricts .python options source)
    (split : analysis.pieces = earlier ++ piece :: (gap ++ next :: later))
    (removed : piece.removed = true) (unbroken : ∀ other ∈ gap, other.isNewline = false)
    (same : next.isNewline = false) :
    Layout.isStatementLiteral analysis.spans earlier.length = true := by
  rcases restricts.removed split removed with comment | ⟨-, statement⟩
  · have edit := restricts.edit (by simp [Language.registered])
    simp [not_isComment_of_unbroken edit split unbroken same] at comment
  · exact statement

/-- In Python nothing is removed from a line between a kept piece and what comes after it. -/
theorem kept_of_unbroken (restricts : analysis.Restricts .python options source)
    (split : analysis.pieces = earlier ++ left :: (gap ++ next :: later))
    (content : left.isContent = true) (unbroken : ∀ other ∈ gap, other.isNewline = false)
    (same : next.isNewline = false) : ∀ piece ∈ gap, piece.removed = false := by
  intro piece member
  by_contra removed
  rw [Bool.not_eq_false] at removed
  obtain ⟨before, after, rfl⟩ := List.append_of_mem member
  have place : analysis.pieces
      = (earlier ++ left :: before) ++ piece :: (after ++ next :: later) := by simp [split]
  have statement := statement_of_removed restricts place removed
    (fun other inside => unbroken other (by simp [inside])) same
  -- but a literal on its own is the first on its line
  have whole : analysis.pieces
      = earlier ++ left :: (before ++ piece :: (after ++ next :: later)) := by simp [place]
  have first := Analysis.isWhitespace_of_statement whole statement (by
    rw [List.forall_mem_cons]
    refine ⟨Piece.not_isNewline_of_isContent content, fun other inside => ?_⟩
    exact unbroken other (List.mem_append_left _ inside))
  simp [Piece.not_isWhitespace_of_isContent content] at first

/-- In Python something is written between two kept pieces, unless nothing was between them. -/
private theorem gap_of_python (restricts : analysis.Restricts .python options source)
    (split : analysis.pieces = earlier ++ left :: (gap ++ next :: later))
    (content : left.isContent = true) (nextContent : next.isContent = true)
    (seam : Seam (some left) gap (some next) []) : gap = [] := by
  have edit := restricts.edit (by simp [Language.registered])
  by_cases newline : ∃ piece ∈ gap, piece.isNewline = true
  · exact absurd (seam.grows rfl newline) (by simp [Draft.breaks])
  have unbroken : ∀ piece ∈ gap, piece.isNewline = false := by simpa using newline
  have none := seam.unchanged (kept_of_unbroken restricts split content unbroken
    (Piece.not_isNewline_of_isContent nextContent))
  cases gap with
  | nil => rfl
  | cons first others =>
    have nonempty := edit.text_ne_nil (show first ∈ analysis.pieces by simp [split])
    simp [nonempty] at none

/-- In Python no kept piece fuses with what is written after it. -/
theorem sound_of_python (restricts : analysis.Restricts .python options source) :
    Language.python.Sound [] analysis.pieces := by
  have edit := restricts.edit (by simp [Language.registered])
  intro before piece after split content fuses
  -- what is not blank and comes next came next in the source
  have adjacent {c : Char} (head : (writtenAfter before piece after).head? = some c)
      (solid : isBlankChar c = false) : (Piece.textOf after).head? = some c := by
    obtain ⟨gap, next, rest, rfl, empty, nextContent, start, seam⟩ :=
      edit.meets split content head solid
    obtain rfl := gap_of_python restricts split content nextContent seam
    obtain ⟨others, whole⟩ := List.head?_eq_some_iff.mp start
    simp [whole]
  rw [List.nil_append] at fuses
  cases fuses with
  | flag literal flagged =>
    obtain ⟨c, head, flag⟩ := (Option.any_eq_true _ _).mp flagged.2
    have solid : isBlankChar c = false := not_isBlankChar_of_isNameChar (by simp [isNameChar, flag])
    refine (edit.not_goes_on split literal).1 ⟨flagged.1, ?_⟩
    rw [adjacent head solid]
    exact flag
  | quote literal tripled =>
    obtain ⟨lead, mark, whole, absent, triples, head⟩ := tripled
    have solid : isBlankChar mark = false := Language.not_isBlankChar_of_start
      (.inr (.inl (Language.isExpressionQuote_of_triples edit.conventional triples)))
    exact (edit.not_goes_on split literal).2
      ⟨lead, mark, whole, absent, triples, adjacent head solid⟩
  | slash regexes => simp [Language.python] at regexes

/-- In Python the kept tokens of code stay apart. -/
theorem separated_of_python (restricts : analysis.Restricts .python options source)
    (laid : Laid earlier later tokens) (split : analysis.pieces = earlier ++ later)
    (kept : ∀ piece ∈ earlier.getLast?, piece.isContent = true) :
    Token.Separated tokens ∧ ∀ piece ∈ earlier.getLast?, piece.span.kind = .code →
      ∀ token ∈ tokens.head?, token.kind ≠ .code := by
  have edit := restricts.edit (by simp [Language.registered])
  have other {token : Token} (blank : token.kind.isBlank = true) : token.kind ≠ .code := by
    intro code
    simp [code, Kind.isBlank] at blank
  induction laid with
  | rest empty blank seam =>
    refine ⟨?_, fun _ _ _ token head => other (blank token (List.mem_of_head? head))⟩
    simpa using Token.separated_blanks_append blank List.isChain_nil
  | @next earlier gap later next blanks tokens empty content blank seam laid ih =>
    obtain ⟨separated, apart⟩ := ih (by simp [split]) (by simpa using content)
    refine ⟨Token.separated_blanks_append blank (Token.separated_cons.mpr ⟨?_, separated⟩), ?_⟩
    · exact fun code => apart next (by simp) code
    · intro left last code token head
      cases blanks with
      | cons first others =>
        obtain rfl : first = token := by simpa using head
        exact other (blank first List.mem_cons_self)
      | nil =>
        obtain rfl : next.span.token = token := by simpa using head
        obtain ⟨before, rfl⟩ := List.getLast?_eq_some_iff.mp last
        rw [List.getLast?_concat] at seam kept
        rw [List.append_assoc, List.singleton_append] at split
        obtain rfl := gap_of_python restricts split (kept left rfl) content seam
        exact edit.next_of_code split code

/-- In Python the spans of the rewritten text are the kept tokens, with blanks between them. -/
theorem exists_laid_of_python (restricts : analysis.Restricts .python options source) :
    ∃ spans, Language.python.spans analysis.rewritten.text = .ok spans
      ∧ Laid [] analysis.pieces (spans.map Span.token)
      ∧ ∀ token ∈ spans.map Span.token, token.text ≠ [] := by
  have edit := restricts.edit (by simp [Language.registered])
  obtain ⟨spans, tokens, scanned, laid, nonempty, made⟩ :=
    edit.spans_of_sound (sound_of_python restricts)
  obtain ⟨separated, -⟩ := separated_of_python restricts laid rfl (by simp)
  -- no code is joined, so each kept token is a span by itself
  rw [Token.joinCode_of_separated separated] at made
  exact ⟨spans, scanned, made ▸ laid, made ▸ nonempty⟩

/--
Whatever the options and whatever is retained, in any order, the rewritten text of a Python source
is scanned without failure, and its tokens that are not blank are those of the source that are not
decided to be removed.
-/
theorem python_rewrite_keeps (options : Options) (source : Text) (analysis : Analysis)
    (analyzed : analyze .python options source = .ok analysis) (offsets : List Nat) :
    ∃ spans, Language.python.spans (offsets.foldl Analysis.retain analysis).rewritten.text
        = .ok spans
      ∧ Token.contents (spans.map Span.token) = (offsets.foldl Analysis.retain analysis).kept := by
  have restricts := (Analysis.restricts_of_analyze analyzed).foldl_retain offsets
  generalize offsets.foldl Analysis.retain analysis = final at restricts ⊢
  obtain ⟨spans, scanned, laid, -⟩ := exists_laid_of_python restricts
  exact ⟨spans, scanned, by rw [laid.contents, Analysis.kept_eq]⟩

/-- A comment that is retained is still there, while a literal on its own goes. -/
theorem python_rewrite_keeps_retained :
    ∃ analysis, analyze .python .standard "x#a\n'b'\n#c".toList = .ok analysis
      ∧ ([8].foldl Analysis.retain analysis).rewritten.text = "x\n#c".toList
      ∧ ∃ spans, Language.python.spans "x\n#c".toList = .ok spans
        ∧ Token.contents (spans.map Span.token)
          = [⟨.code, "x".toList⟩, ⟨.lineComment, "#c".toList⟩] := by
  have scanned : Language.python.spans "x#a\n'b'\n#c".toList
      = .ok [⟨.code, 0, 1, 1, 1, "x".toList⟩, ⟨.lineComment, 1, 3, 1, 2, "#a".toList⟩,
        ⟨.newline, 3, 4, 1, 4, "\n".toList⟩, ⟨.stringLiteral, 4, 7, 2, 1, "'b'".toList⟩,
        ⟨.newline, 7, 8, 2, 4, "\n".toList⟩, ⟨.lineComment, 8, 10, 3, 1, "#c".toList⟩] := by
    rw [Language.spans_eq_lexWithin]
    decide +kernel
  have analyzed := analyze_of_spans .standard scanned
  refine ⟨_, analyzed, by decide +kernel, ?_⟩
  obtain ⟨spans, again, kept⟩ := python_rewrite_keeps .standard _ _ analyzed [8]
  exact ⟨spans, again, kept.trans (by decide +kernel)⟩

end Python

section BlockComments

variable {language : Language} {options : Options} {source : Text}

/--
The rewritten text of a JavaScript, TypeScript or Dart source is scanned without failure and has the
kept tokens, up to the cuts in code, exactly if no two of them collide.
-/
theorem process_preserves_iff
    (known : language ∈ [Language.javaScript, Language.typeScript, Language.dart])
    {analysis : Analysis} (analyzed : analyze language .standard source = .ok analysis) :
    process language.name .standard source = .ok analysis.rewritten
      ∧ ((∃ spans, language.spans analysis.rewritten.text = .ok spans
          ∧ Token.joinCode (Token.contents (spans.map Span.token)) = Token.joinCode analysis.kept)
        ↔ ¬Collision language analysis.pieces) := by
  have registered : language ∈ Language.registered := List.mem_cons_of_mem _ known
  have edit := (Analysis.restricts_of_analyze analyzed).edit registered
  refine ⟨process_of_analyze registered analyzed, ?_⟩
  rw [Analysis.text_rewritten, Analysis.kept_eq, edit.preserves_iff]
  exact Language.sound_iff edit

theorem no_collision_of_words :
    ∃ analysis, analyze .javaScript .standard "a/**/b".toList = .ok analysis
      ∧ ¬Collision .javaScript analysis.pieces := by
  have scanned : Language.javaScript.spans "a/**/b".toList
      = .ok [⟨.code, 0, 1, 1, 1, "a".toList⟩, ⟨.blockComment, 1, 5, 1, 2, "/**/".toList⟩,
        ⟨.code, 5, 6, 1, 6, "b".toList⟩] := by
    rw [Language.spans_eq_lexWithin]
    decide +kernel
  have again : Language.javaScript.spans "a b".toList
      = .ok [⟨.code, 0, 1, 1, 1, "a".toList⟩, ⟨.whitespace, 1, 2, 1, 2, " ".toList⟩,
        ⟨.code, 2, 3, 1, 3, "b".toList⟩] := by
    rw [Language.spans_eq_lexWithin]
    decide +kernel
  have analyzed := analyze_of_spans .standard scanned
  obtain ⟨-, preserved⟩ := process_preserves_iff (by simp) analyzed
  exact ⟨_, analyzed, preserved.mp ⟨_, again, by decide +kernel⟩⟩

/-- Without the comment, an empty Dart literal and the next one open a tripled literal, which is never
closed. -/
theorem dart_rewrite_not_scanned :
    process "Dart" .standard "\"\"/**/\"a\"".toList = .ok ⟨"\"\"\"a\"".toList, 1⟩
      ∧ ¬∃ spans, Language.dart.spans "\"\"\"a\"".toList = .ok spans := by
  have scanned : Language.dart.spans "\"\"/**/\"a\"".toList
      = .ok [⟨.stringLiteral, 0, 2, 1, 1, "\"\"".toList⟩, ⟨.blockComment, 2, 6, 1, 3, "/**/".toList⟩,
        ⟨.stringLiteral, 6, 9, 1, 7, "\"a\"".toList⟩] := by
    rw [Language.spans_eq_lexWithin]
    decide +kernel
  have failed : Language.dart.spans "\"\"\"a\"".toList
      = .error ⟨.stringLiteral, ⟨0, 1, 1⟩⟩ := by
    rw [Language.spans_eq_lexWithin]
    decide +kernel
  constructor
  · have known : Language.dart ∈ Language.registered := by simp [Language.registered]
    refine (process_of_analyze known (analyze_of_spans .standard scanned)).trans ?_
    decide +kernel
  · rintro ⟨spans, again⟩
    rw [failed] at again
    simp at again

end BlockComments

end CommentStrip
