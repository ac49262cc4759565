import CommentStrip.Proofs.Counterpart

/-!
# Literals on their own in the rewritten text

In Python, a string literal that is a statement of the rewritten text was one in the source. Comments
and literals on their own take no line break with them that keeps a line apart, and a line that
continues another one does so by a bracket or a backslash that is kept.
-/
namespace CommentStrip

/-- A gap has no code in it. -/
theorem codeText_of_gap {gap : List Piece}
    (kept : ∀ piece ∈ gap, piece.span.kind = .code → piece.isContent = true)
    (empty : ∀ piece ∈ gap, piece.isContent = false) :
    (∀ span ∈ gap.map Piece.span, span.kind ≠ .code) ∧ Layout.codeText (gap.map Piece.span) = [] := by
  have plain : ∀ span ∈ gap.map Piece.span, span.kind ≠ .code := by
    rw [List.forall_mem_map]
    intro piece member code
    exact absurd (kept piece member code) (by simp [empty piece member])
  exact ⟨plain, Layout.codeText_of_ne_code plain⟩

/-- The same code is found. -/
theorem Found.codeText_eq {pieces : List Piece} {spans : List Span} (found : Found pieces spans)
    (kept : ∀ piece ∈ pieces, piece.span.kind = .code → piece.isContent = true) :
    Layout.codeText spans = Layout.codeText (pieces.map Piece.span) := by
  induction found with
  | start => rfl
  | @next earlier gap piece before blanks span found empty content blank seam same ih =>
    have gapPlain := (codeText_of_gap (fun other member => kept other (by simp [member])) empty).2
    have blanksPlain : Layout.codeText blanks = [] := by
      apply Layout.codeText_of_ne_code
      intro other member code
      simpa [code, Kind.isBlank] using blank other member
    have kind : span.kind = piece.span.kind := congrArg Token.kind same
    have text : span.text = piece.span.text := congrArg Token.text same
    rw [List.map_append, List.map_append, Layout.codeText_append, Layout.codeText_append,
      Layout.codeText_append, Layout.codeText_append, gapPlain, blanksPlain,
      ih fun other member => kept other (by simp [member]), List.map_singleton,
      Layout.codeText_singleton, Layout.codeText_singleton, kind, text]

section Python

variable {options : Options} {source : Text} {analysis : Analysis}
  {earlier gap later : List Piece} {left piece : Piece} {before blanks after : List Span} {span : Span}

/-- The blanks of a gap that holds nothing else are found again. -/
theorem tokens_of_blank_gap (restricts : analysis.Restricts .python options source)
    (scanned : Language.python.spans analysis.rewritten.text = .ok (before ++ blanks ++ span :: after))
    (split : analysis.pieces = earlier ++ gap ++ piece :: later)
    (blank : ∀ other ∈ blanks, other.kind.isBlank = true)
    (hidden : ∀ other ∈ gap, other.span.kind.isBlank = true)
    {last next : Option Piece} (seam : Seam last gap next (blanks.flatMap Span.text)) :
    blanks.map Span.token = gap.map (·.span.token) := by
  have known : Language.python ∈ Language.registered := by simp [Language.registered]
  have kept : ∀ other ∈ gap, other.removed = false := fun other member =>
    ((restricts.edit known).regular.each other (by simp [split, member])).kept_of_isBlank
      (hidden other member)
  have here := restricts.scanned
  rw [← analysis.map_span_pieces, split, List.map_append, List.map_append, List.map_cons] at here
  have text : blanks.flatMap Span.text = (gap.map Piece.span).flatMap Span.text := by
    rw [seam.unchanged kept, List.flatMap_map]
    rfl
  have same := Language.blanks_unique known here scanned (by simpa using hidden) blank text
  rw [same, List.map_map]
  rfl

/-- Where only blanks stand between two kept pieces, the same blanks stand between them again. -/
theorem exists_blanks_of_found (restricts : analysis.Restricts .python options source)
    (scanned : Language.python.spans analysis.rewritten.text = .ok (before ++ span :: after))
    (split : analysis.pieces = earlier ++ left :: (gap ++ piece :: later))
    (found : Found (earlier ++ left :: gap ++ [piece]) (before ++ [span]))
    (content : left.isContent = true) (hidden : ∀ other ∈ gap, other.span.kind.isBlank = true) :
    ∃ others opening blanks, before = others ++ opening :: blanks
      ∧ opening.token = left.span.token ∧ blanks.map Span.token = gap.map (·.span.token) := by
  have empty : ∀ other ∈ gap, other.isContent = false := fun other member => by
    simp [Piece.isContent, hidden other member]
  obtain ⟨others, opening, blanks, rfl, upTo, blank, seam⟩ := found.of_split content empty
  rw [List.append_cons others] at scanned
  rw [List.append_cons, ← List.append_assoc] at split
  exact ⟨others, opening, blanks, rfl, upTo.token_eq,
    tokens_of_blank_gap restricts scanned split blank hidden seam⟩

/-- What holds of the kinds of pieces holds of those of spans with the same tokens. -/
private theorem forall_kind_of_tokens {p : Kind → Prop}
    (same : blanks.map Span.token = gap.map (·.span.token))
    (all : ∀ other ∈ gap, p other.span.kind) : ∀ other ∈ blanks, p other.kind := by
  intro other member
  have inside : other.token ∈ gap.map (·.span.token) := same ▸ List.mem_map_of_mem member
  obtain ⟨piece, within, token⟩ := List.mem_map.mp inside
  rw [← show piece.span.kind = other.kind from congrArg Token.kind token]
  exact all piece within

/-- A literal that starts its line in the rewritten text started its line in the source. -/
theorem exists_lineStart_of_found (restricts : analysis.Restricts .python options source)
    (scanned : Language.python.spans analysis.rewritten.text = .ok (before ++ span :: after))
    (split : analysis.pieces = earlier ++ piece :: later)
    (found : Found (earlier ++ [piece]) (before ++ [span]))
    (significant : piece.span.isSignificant = true)
    (starts : Layout.startsLine (before ++ span :: after) before.length = true) :
    ∃ lines blanks, earlier = lines ++ blanks ∧ LineStart lines blanks := by
  have edit := restricts.edit (by simp [Language.registered])
  have apart := edit.blanks_apart
  rw [split] at apart
  obtain ⟨lines, blanks, rfl, other, white⟩ := apart.left.exists_blanks
  refine ⟨lines, blanks, rfl, ⟨fun last inside => ?_, white⟩⟩
  have noBlank := other last inside
  obtain ⟨front, rfl⟩ := List.getLast?_eq_some_iff.mp inside
  by_contra newline
  rw [Bool.not_eq_true] at newline
  have visible : last.span.kind.isBlank = false := by
    rw [Kind.isBlank, Bool.or_eq_false_iff]
    exact ⟨noBlank, newline⟩
  have sameLine : ∀ other ∈ blanks, other.isNewline = false := fun other member =>
    Piece.not_isNewline_of_isWhitespace (white other member)
  have place : analysis.pieces = front ++ last :: (blanks ++ piece :: later) := by simp [split]
  cases removed : last.removed with
  | true =>
    -- only a literal on its own is removed here, but it would be alone on its line
    have statement := statement_of_removed restricts place removed sameLine
      (Piece.not_isNewline_of_isContent found.content)
    rw [not_isStatementLiteral place sameLine significant] at statement
    exact Bool.false_ne_true statement
  | false =>
    -- what is kept would be found on the same line
    have content : last.isContent = true := by simp [Piece.isContent, removed, visible]
    have hidden : ∀ other ∈ blanks, other.span.kind.isBlank = true := fun other member =>
      Piece.isBlank_of_isWhitespace (white other member)
    obtain ⟨others, opening, spaces, rfl, token, tokens⟩ :=
      exists_blanks_of_found restricts scanned place (by simpa using found) content hidden
    have inline : ∀ other ∈ spaces, other.kind = .whitespace :=
      forall_kind_of_tokens (p := (· = .whitespace)) tokens (by simpa [Piece.isWhitespace] using white)
    have same : opening.kind = last.span.kind := congrArg Token.kind token
    rw [Kind.isBlank, Bool.or_eq_false_iff, beq_eq_false_iff_ne, beq_eq_false_iff_ne] at visible
    have onLine : Layout.startsLine (others ++ opening :: (spaces ++ span :: after))
        (others ++ opening :: spaces).length = true := by simpa using starts
    refine visible.1 (same ▸ Layout.whitespace_of_startsLine onLine ?_)
    rw [List.forall_mem_cons, same]
    exact ⟨visible.2, fun other member => by simp [inline other member]⟩

variable {lines white : List Piece}

/-- A backslash at the end of a line is found again at the end of the line before. -/
private theorem continuesLine_of_backslash (restricts : analysis.Restricts .python options source)
    (scanned : Language.python.spans analysis.rewritten.text = .ok (before ++ span :: after))
    (split : analysis.pieces = lines ++ white ++ piece :: later) (start : LineStart lines white)
    (found : Found (lines ++ white ++ [piece]) (before ++ [span]))
    (backslash : Layout.endsWithBackslash (lines.map Piece.span) = true) :
    Layout.continuesLine (before ++ span :: after) before.length = true := by
  obtain ⟨others, last, ending, whole, code, marked⟩ := Layout.endsWithBackslash_eq_true.mp backslash
  obtain ⟨front, rest, rfl, -, pair⟩ := List.map_eq_append_iff.mp whole
  obtain ⟨left, more, rfl, rfl, single⟩ := List.map_eq_cons_iff.mp pair
  obtain ⟨newline, none, rfl, rfl, nothing⟩ := List.map_eq_cons_iff.mp single
  obtain rfl := List.map_eq_nil_iff.mp nothing
  have newlineEnds := start.ends newline (by simp)
  have edit := restricts.edit (by simp [Language.registered])
  have content := edit.isContent_of_code (by simp [split]) code
  have hidden : ∀ other ∈ newline :: white, other.span.kind.isBlank = true := by
    rw [List.forall_mem_cons]
    exact ⟨Piece.isBlank_of_isNewline newlineEnds, fun other member =>
      Piece.isBlank_of_isWhitespace (start.blank other member)⟩
  -- only blanks stand between the backslash and the literal, so they are found again one by one
  have place : analysis.pieces = front ++ left :: (newline :: white ++ piece :: later) := by
    simp [split]
  obtain ⟨others, opening, blanks, rfl, token, same⟩ :=
    exists_blanks_of_found restricts scanned place (by simpa using found) content hidden
  obtain ⟨broken, spaces, rfl, lineBreak, rest⟩ := List.map_eq_cons_iff.mp same
  have broke : broken.kind = .newline := by
    rw [show broken.kind = newline.span.kind from congrArg Token.kind lineBreak]
    simpa [Piece.isNewline] using newlineEnds
  have inline : ∀ other ∈ spaces, other.kind ≠ .newline :=
    forall_kind_of_tokens (p := (· ≠ .newline)) rest (by simpa [Piece.isNewline] using start.isNewline)
  have again : others ++ opening :: broken :: spaces = (others ++ [opening, broken]) ++ spaces := by
    simp
  rw [again, List.append_assoc, Layout.continuesLine_append (by simp [broke]) inline,
    Bool.or_eq_true]
  refine .inl (Layout.endsWithBackslash_eq_true.mpr ⟨others, opening, broken, rfl, ?_, ?_⟩)
  · rw [show opening.kind = left.span.kind from congrArg Token.kind token, code]
  · rw [Span.endsWith, show opening.text = left.span.text from congrArg Token.text token]
    exact marked

/-- The same code comes before a literal, and before its line. -/
private theorem codeText_eq_of_found (restricts : analysis.Restricts .python options source)
    (split : analysis.pieces = lines ++ white ++ piece :: later) (start : LineStart lines white)
    (found : Found (lines ++ white ++ [piece]) (before ++ [span])) (other : span.kind ≠ .code) :
    Layout.codeText before = Layout.codeText (lines.map Piece.span) := by
  have edit := restricts.edit (by simp [Language.registered])
  have same := found.codeText_eq fun other member => edit.isContent_of_code (by
    rw [split, List.append_cons]
    exact List.mem_append_left _ member)
  have plain : Layout.codeText (white.map Piece.span) = [] := by
    apply Layout.codeText_of_ne_code
    rw [List.forall_mem_map]
    intro blank member code
    have space := start.blank blank member
    simp [Piece.isWhitespace, code] at space
  have kind : span.kind = piece.span.kind := congrArg Token.kind found.token_eq
  rw [List.map_append, List.map_append, Layout.codeText_append, Layout.codeText_append,
    Layout.codeText_append, plain, List.map_singleton, Layout.codeText_singleton,
    Layout.codeText_singleton, if_neg other, if_neg (kind ▸ other)] at same
  simpa using same

/-- The line of a literal continues another one in the rewritten text if it did in the source. -/
theorem continuesLine_of_found (restricts : analysis.Restricts .python options source)
    (scanned : Language.python.spans analysis.rewritten.text = .ok (before ++ span :: after))
    (split : analysis.pieces = lines ++ white ++ piece :: later) (start : LineStart lines white)
    (found : Found (lines ++ white ++ [piece]) (before ++ [span])) (other : span.kind ≠ .code)
    (starts : Layout.startsLine (before ++ span :: after) before.length = true)
    (continues : Layout.continuesLine analysis.spans (lines ++ white).length = true) :
    Layout.continuesLine (before ++ span :: after) before.length = true := by
  have ends : ∀ span ∈ (lines.map Piece.span).getLast?, span.kind = .newline := by
    simpa [Piece.isNewline] using start.ends
  have unbroken : ∀ span ∈ white.map Piece.span, span.kind ≠ .newline := by
    simpa [Piece.isNewline] using start.isNewline
  have size : (lines ++ white).length = (lines.map Piece.span ++ white.map Piece.span).length := by simp
  rw [← analysis.map_span_pieces, split, List.append_assoc, List.map_append, List.map_append, size,
    Layout.continuesLine_append ends unbroken, Bool.or_eq_true] at continues
  rcases continues with backslash | bracket
  · exact continuesLine_of_backslash restricts scanned split start found backslash
  · -- the same code comes before the line, as only blanks stand before the literal on it
    have code := codeText_eq_of_found restricts split start found other
    obtain ⟨front, spaces, rfl, ends, blank⟩ := Layout.exists_of_startsLine starts
    have noCode : Layout.codeText spaces = [] :=
      Layout.codeText_of_ne_code fun other member => by simp [blank other member]
    rw [Layout.codeText_append, noCode, List.append_nil] at code
    rw [List.append_assoc, Layout.continuesLine_append ends
      fun other member => by simp [blank other member], code, bracket, Bool.or_true]

/-- What is left of a line after a kept piece is blank or a comment, unless it is kept. -/
theorem trivia_of_line (restricts : analysis.Restricts .python options source)
    {other : Piece} (split : analysis.pieces = earlier ++ piece :: (gap ++ other :: later))
    (content : piece.isContent = true) (unbroken : ∀ between ∈ gap, between.isNewline = false)
    (same : other.isNewline = false) (gone : other.isContent = false) :
    other.span.kind = .whitespace ∨ other.span.kind.isComment = true := by
  have edit := restricts.edit (by simp [Language.registered])
  rcases (edit.regular.each other (by simp [split])).gap_cases gone with ⟨removed, -⟩ | ⟨-, blank⟩
  · have place : analysis.pieces = (earlier ++ piece :: gap) ++ other :: later := by simp [split]
    rcases restricts.removed place removed with comment | ⟨-, statement⟩
    · exact .inr comment
    · -- a literal on its own would be the first on its line
      have first := Analysis.isWhitespace_of_statement split statement
        (List.forall_mem_cons.mpr ⟨Piece.not_isNewline_of_isContent content, unbroken⟩)
      simp [Piece.not_isWhitespace_of_isContent content] at first
  · rw [Piece.isNewline] at same
    simpa [Kind.isBlank, same] using Or.inl blank

/-- What is kept next on the line of a literal is found next on its line. -/
private theorem isComment_of_next (restricts : analysis.Restricts .python options source)
    (scanned : Language.python.spans analysis.rewritten.text = .ok (before ++ span :: after))
    {next : Piece} (split : analysis.pieces = earlier ++ piece :: (gap ++ next :: later))
    (content : piece.isContent = true) (nextContent : next.isContent = true)
    (unbroken : ∀ other ∈ gap, other.isNewline = false) (empty : ∀ other ∈ gap, other.isContent = false)
    {tokens rest : List Token} (blank : ∀ token ∈ tokens, token.kind.isBlank = true)
    {last : Option Piece} (seam : Seam last gap (some next) (Token.textOf tokens))
    (made : after.map Span.token = tokens ++ next.span.token :: rest)
    (ends : Layout.endsLine (before ++ span :: after) before.length = true) :
    next.span.kind.isComment = true := by
  obtain ⟨blanks, others, rfl, rfl, tail⟩ := List.map_eq_append_iff.mp made
  obtain ⟨found, back, rfl, same, -⟩ := List.map_eq_cons_iff.mp tail
  have kept := kept_of_unbroken restricts split content unbroken
    (Piece.not_isNewline_of_isContent nextContent)
  have hidden : ∀ other ∈ gap, other.span.kind.isBlank = true := fun other member => by
    simpa [Piece.isContent, kept other member] using empty other member
  have white : ∀ other ∈ blanks, other.kind.isBlank = true :=
    fun other member => blank other.token (List.mem_map_of_mem member)
  rw [Token.textOf_map_token] at seam
  rw [List.append_cons, ← List.append_assoc] at scanned split
  have tokens := tokens_of_blank_gap restricts scanned split white hidden seam
  have inline : ∀ other ∈ blanks, other.kind ≠ .newline :=
    forall_kind_of_tokens (p := (· ≠ .newline)) tokens (by simpa [Piece.isNewline] using unbroken)
  have kind : found.kind = next.span.kind := congrArg Token.kind same
  have solid := Piece.not_isBlank_of_isContent nextContent
  rw [← kind, Kind.isBlank, Bool.or_eq_false_iff, beq_eq_false_iff_ne, beq_eq_false_iff_ne] at solid
  rw [← kind]
  exact (Layout.endsLine_append.mp ends blanks found back rfl inline solid.2).resolve_left solid.1

/-- A literal that ends its line in the rewritten text ended its line in the source. -/
theorem endsLine_of_found (restricts : analysis.Restricts .python options source)
    (scanned : Language.python.spans analysis.rewritten.text = .ok (before ++ span :: after))
    (split : analysis.pieces = earlier ++ piece :: later)
    (laid : Laid (earlier ++ [piece]) later (after.map Span.token)) (content : piece.isContent = true)
    (ends : Layout.endsLine (before ++ span :: after) before.length = true) :
    Layout.endsLine analysis.spans earlier.length = true := by
  have edit := restricts.edit (by simp [Language.registered])
  rw [← analysis.map_span_pieces, split, List.map_append, List.map_cons,
    ← List.length_map (f := Piece.span), Layout.endsLine_append]
  intro body _ rest whole unbroken same
  obtain ⟨gap, others, rfl, rfl, tail⟩ := List.map_eq_append_iff.mp whole
  obtain ⟨other, back, rfl, rfl, rfl⟩ := List.map_eq_cons_iff.mp tail
  have sameLine : ∀ piece ∈ gap, piece.isNewline = false := by simpa [Piece.isNewline] using unbroken
  have otherSame : other.isNewline = false := by simpa [Piece.isNewline] using same
  cases kept : other.isContent with
  | false => exact trivia_of_line restricts split content sameLine otherSame kept
  | true =>
    refine .inr ?_
    generalize parts : gap ++ other :: back = pieces at laid
    generalize made : after.map Span.token = tokens at laid
    cases laid with
    | rest empty =>
      subst parts
      simp [empty other (by simp)] at kept
    | @next _ first _ next blanks _ empty nextContent blank seam =>
      rcases split_of_first empty kept parts.symm with ⟨rfl, rfl, rfl⟩ | ⟨more, rfl, rfl⟩
      · exact isComment_of_next restricts scanned split content kept sameLine empty blank seam made ends
      · -- the first one that is kept would end the line
        rw [List.forall_mem_append, List.forall_mem_cons] at sameLine
        rw [List.append_assoc, List.cons_append] at split
        have comment := isComment_of_next restricts scanned split content nextContent sameLine.1 empty
          blank seam made ends
        have place : analysis.pieces = (earlier ++ piece :: first) ++ next :: (more ++ other :: back) := by
          simp [split]
        simp [not_isComment_of_unbroken edit place sameLine.2.2 otherSame] at comment

/-- A string literal that is a statement of the rewritten text was one in the source. -/
theorem isStatementLiteral_of_found (restricts : analysis.Restricts .python options source)
    (scanned : Language.python.spans analysis.rewritten.text = .ok (before ++ span :: after))
    (split : analysis.pieces = earlier ++ piece :: later)
    (found : Found (earlier ++ [piece]) (before ++ [span]))
    (laid : Laid (earlier ++ [piece]) later (after.map Span.token))
    (statement : Layout.isStatementLiteral (before ++ span :: after) before.length = true) :
    Layout.isStatementLiteral analysis.spans earlier.length = true := by
  have edit := restricts.edit (by simp [Language.registered])
  have there : (before ++ span :: after)[before.length]? = some span := by simp
  obtain ⟨literal, starts, ends, separate⟩ := (Layout.isStatementLiteral_iff there).mp statement
  have kind : piece.span.kind = .stringLiteral :=
    (congrArg Token.kind found.token_eq).symm.trans literal
  have significant := Span.isSignificant_of_literal kind
  obtain ⟨lines, white, rfl, start⟩ :=
    exists_lineStart_of_found restricts scanned split found significant starts
  obtain ⟨here, -⟩ := removed_of_markRemoved split
  have apart := edit.blanks_apart
  rw [split] at apart
  have startsLine := (start.layout apart.left.right
    (Piece.not_isWhitespace_of_isContent found.content) later).1
  rw [← split, analysis.map_span_pieces] at startsLine
  have endsLine := endsLine_of_found restricts scanned split laid found.content ends
  have other : span.kind ≠ .code := by simp [literal]
  have continues : Layout.continuesLine analysis.spans (lines ++ white).length = false := by
    by_contra continues
    rw [Bool.not_eq_false] at continues
    have again := continuesLine_of_found restricts scanned split start found other starts continues
    simp [again] at separate
  exact (Layout.isStatementLiteral_iff here).mpr ⟨kind, startsLine, endsLine, continues⟩

end Python

end CommentStrip
