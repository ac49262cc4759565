import CommentStrip.Proofs.LogicalLine

/-!
# Headers in the rewritten text

If no removed comment has held its line open with a backslash, the logical line of a header of the
source is found again in the rewritten text, up to what stands in its gaps, and it still begins with its
keyword. So a docstring that is still a statement is a docstring still.
-/
namespace CommentStrip

theorem HeaderRule.endsHeader_of_token (rule : HeaderRule) {span other : Span}
    (same : span.token = other.token) : rule.endsHeader span = rule.endsHeader other := by
  have kind : span.kind = other.kind := congrArg Token.kind same
  have text : span.text = other.text := congrArg Token.text same
  rw [HeaderRule.endsHeader, HeaderRule.endsHeader, Span.endsWith, Span.endsWith, kind, text]

/-- Outside brackets nothing goes that ends with a backslash, nor what comes next after it. -/
def BackslashesStay (pieces : List Piece) : Prop :=
  ∀ earlier piece later, pieces = earlier ++ piece :: later → piece.span.endsWith '\\' = true →
    Layout.hasOpenBracket 0 (Layout.codeText ((earlier ++ [piece]).map Piece.span)).reverse = false →
    piece.removed = false ∧ ∀ next ∈ later.find? (!·.span.kind.isBlank), next.removed = false

theorem BackslashesStay.of_unmarked {pieces : List Piece}
    (unmarked : ∀ piece ∈ pieces, piece.span.endsWith '\\' = false) : BackslashesStay pieces := by
  rintro earlier piece later rfl marked
  simp [unmarked piece (by simp)] at marked

section Python

variable {rule : HeaderRule} {options : Options} {source text other : Text} {analysis : Analysis}
  {pieces earlier gap later : List Piece} {left piece : Piece} {before blanks after : List Span}
  {span : Span} {closed : Nat}

/-- What a gap shows is passed over in front of a keyword, or it is no white space and no keyword. -/
private theorem begins_of_gap (known : rule ∈ Language.python.docstrings)
    (edit : Language.python.Edit source pieces) (inside : ∀ piece ∈ gap, piece ∈ pieces)
    (empty : ∀ piece ∈ gap, piece.isContent = false)
    (starts : rule.begins (Layout.shownText (gap.map Piece.span) ++ text) = true) :
    rule.begins text = true := by
  induction gap with
  | nil => exact starts
  | cons piece others ih =>
    rw [List.forall_mem_cons] at inside empty
    refine ih inside.2 empty.2 ?_
    rw [List.map_cons, ← List.singleton_append, Layout.shownText_append, Layout.shownText_singleton,
      List.append_assoc] at starts
    have regular := edit.regular.each piece inside.1
    rcases regular.gap_cases empty.1 with ⟨removed, -⟩ | ⟨-, blank⟩
    · rcases edit.removable piece inside.1 removed with comment | ⟨literal, -⟩
      · simpa [comment] using starts
      · obtain ⟨front, back, split⟩ := List.append_of_mem inside.1
        simp [literal, Kind.isComment, HeaderRule.not_begins_literal known edit split literal] at starts
    · have noComment : piece.span.kind.isComment = false := by
        cases kind : piece.span.kind <;> simp_all [Kind.isBlank, Kind.isComment]
      rw [noComment, if_neg Bool.false_ne_true, HeaderRule.begins_append fun c member =>
        isWhiteSpace_of_isBlankChar (regular.isBlankChar_of_blank blank c member)] at starts
      exact starts

/-- A logical line that begins in a gap begins with a keyword only if what comes after the gap does. -/
private theorem begins_after_gap (known : rule ∈ Language.python.docstrings)
    (edit : Language.python.Edit source pieces) (inside : ∀ piece ∈ gap, piece ∈ pieces)
    (empty : ∀ piece ∈ gap, piece.isContent = false) {line : List Span}
    (within : line <+: (gap.map Piece.span).reverse)
    (starts : rule.begins (Layout.shownText line.reverse ++ text) = true) : rule.begins text = true := by
  rw [← List.reverse_suffix, List.reverse_reverse] at within
  obtain ⟨front, whole⟩ := within
  obtain ⟨first, second, rfl, -, same⟩ := List.map_eq_append_iff.mp whole.symm
  rw [← same] at starts
  rw [List.forall_mem_append] at inside empty
  exact begins_of_gap known edit inside.2 empty.2 starts

/-- A logical line that begins among blanks begins with the keyword that comes after them. -/
private theorem begins_of_blanks (blank : ∀ c ∈ blanks.flatMap Span.text, isBlankChar c = true)
    {line : List Span} (within : line <+: blanks.reverse) (starts : rule.begins text = true) :
    rule.begins (Layout.shownText line.reverse ++ text) = true := by
  rw [HeaderRule.begins_append fun c member => ?_]
  · exact starts
  · obtain ⟨span, shown, inside⟩ := List.mem_flatMap.mp member
    have original := within.subset (List.mem_reverse.mp (List.mem_of_mem_filter shown))
    exact isWhiteSpace_of_isBlankChar
      (blank c (List.mem_flatMap.mpr ⟨span, List.mem_reverse.mp original, inside⟩))

/-- What is blank and ends a line is a line break. -/
private theorem exists_newline_of_breaks
    (scanned : Language.python.spans source = .ok (before ++ blanks ++ after))
    (blank : ∀ other ∈ blanks, other.kind.isBlank = true)
    (breaks : Draft.breaks (blanks.flatMap Span.text) = true) :
    ∃ other ∈ blanks, other.kind = .newline := by
  obtain ⟨c, member, lineBreak⟩ := List.any_eq_true.mp breaks
  obtain ⟨other, inside, within⟩ := List.mem_flatMap.mp member
  refine ⟨other, inside, ?_⟩
  have edit := Language.edit_of_spans (by simp [Language.registered]) scanned
  have regular := edit.regular.each (Piece.kept other) (List.mem_map_of_mem (by simp [inside]))
  have white := blank other inside
  simp only [Kind.isBlank, Bool.or_eq_true, beq_iff_eq] at white
  refine white.resolve_left fun whitespace => ?_
  have inline := regular.whitespace whitespace c within
  simp [not_isInlineBlank_of_isLineBreak lineBreak] at inline

private theorem not_endsWith_backslash {text : Text} (blank : ∀ c ∈ text, isBlankChar c = true) :
    (text.getLast? == some '\\') = false := by
  rw [beq_eq_false_iff_ne]
  intro last
  exact absurd (blank _ (List.mem_of_getLast? last)) (by decide)

/-- A gap opens no bracket. -/
private theorem balanced_past_gap (edit : Language.python.Edit source pieces)
    (split : pieces = earlier ++ gap ++ later) (empty : ∀ other ∈ gap, other.isContent = false)
    (balanced : Layout.hasOpenBracket 0 (Layout.codeText (earlier.map Piece.span)).reverse = false) :
    Layout.hasOpenBracket 0 (Layout.codeText ((earlier ++ gap).map Piece.span)).reverse = false := by
  have plain := (codeText_of_gap
    (fun other member => edit.isContent_of_code (by simp [split, member])) empty).2
  rw [List.map_append, Layout.codeText_append, plain, List.append_nil, balanced]

/-- Where something is removed from a gap outside brackets, what comes before the gap does not end with a
backslash. -/
private theorem unmarked_before_gap (edit : Language.python.Edit source pieces)
    (stays : BackslashesStay pieces) (split : pieces = earlier ++ left :: (gap ++ later))
    (empty : ∀ other ∈ gap, other.isContent = false) (gone : ∃ other ∈ gap, other.removed = true)
    (balanced : Layout.hasOpenBracket 0
      (Layout.codeText ((earlier ++ [left]).map Piece.span)).reverse = false) :
    left.span.endsWith '\\' = false := by
  have each : ∀ other ∈ gap, other.Regular := fun other member =>
    edit.regular.each other (by simp [split, member])
  by_contra marked
  rw [Bool.not_eq_false] at marked
  have next := (stays earlier left _ split marked balanced).2
  -- the first one that is no blank would stay, but the gap holds nothing that stays
  cases found : gap.find? (!·.span.kind.isBlank) with
  | none =>
    obtain ⟨other, member, removed⟩ := gone
    simpa [(each other member).removable removed] using List.find?_eq_none.mp found other member
  | some other =>
    have member := List.mem_of_find?_eq_some found
    have solid := List.find?_some found
    rcases (each other member).gap_cases (empty other member) with ⟨removed, -⟩ | ⟨-, blank⟩
    · have kept := next other (by rw [List.find?_append, found]; rfl)
      simp [removed] at kept
    · simp [blank] at solid

/-- Outside brackets, nothing in a gap ends with a backslash. -/
private theorem unmarked_in_gap (edit : Language.python.Edit source pieces)
    (stays : BackslashesStay pieces) (split : pieces = earlier ++ gap ++ later)
    (empty : ∀ other ∈ gap, other.isContent = false)
    (balanced : Layout.hasOpenBracket 0 (Layout.codeText (earlier.map Piece.span)).reverse = false) :
    ∀ other ∈ gap, other.span.endsWith '\\' = false := by
  intro other member
  have regular := edit.regular.each other (by simp [split, member])
  by_contra marked
  rw [Bool.not_eq_false] at marked
  rcases regular.gap_cases (empty other member) with ⟨removed, -⟩ | ⟨-, blank⟩
  · obtain ⟨front, back, rfl⟩ := List.append_of_mem member
    have place : pieces = (earlier ++ front) ++ other :: (back ++ later) := by simp [split]
    have upTo : pieces = earlier ++ (front ++ [other]) ++ (back ++ later) := by simp [split]
    rw [List.append_cons, List.forall_mem_append] at empty
    have level := balanced_past_gap edit upTo empty.1 balanced
    rw [← List.append_assoc] at level
    have kept := (stays _ other _ place marked level).1
    simp [removed] at kept
  · rw [Span.endsWith, not_endsWith_backslash (regular.isBlankChar_of_blank blank)] at marked
    exact Bool.false_ne_true marked

/-- Where something is removed between two kept pieces, a line ends. -/
private theorem exists_newline_of_removed (restricts : analysis.Restricts .python options source)
    (split : analysis.pieces = earlier ++ left :: (gap ++ piece :: later))
    (content : left.isContent = true) (nextContent : piece.isContent = true)
    (gone : ∃ other ∈ gap, other.removed = true) : ∃ other ∈ gap, other.isNewline = true := by
  by_contra unbroken
  obtain ⟨other, member, removed⟩ := gone
  have kept := kept_of_unbroken restricts split content (by simpa using unbroken)
    (Piece.not_isNewline_of_isContent nextContent) other member
  simp [removed] at kept

/-- Up to its first line break, a gap shows nothing but blanks. -/
private theorem isBlankChar_of_shown (restricts : analysis.Restricts .python options source)
    (split : analysis.pieces = earlier ++ left :: (gap ++ later)) (content : left.isContent = true)
    (unbroken : ∀ other ∈ gap, other.isNewline = false)
    (empty : ∀ other ∈ gap, other.isContent = false) :
    ∀ c ∈ Layout.shownText (gap.map Piece.span), isBlankChar c = true := by
  have edit := restricts.edit (by simp [Language.registered])
  intro c member
  obtain ⟨_, shown, inside⟩ := List.mem_flatMap.mp member
  obtain ⟨there, noComment⟩ := List.mem_filter.mp shown
  obtain ⟨other, within, rfl⟩ := List.mem_map.mp there
  obtain ⟨front, back, rfl⟩ := List.append_of_mem within
  have place : analysis.pieces = earlier ++ left :: (front ++ other :: (back ++ later)) := by
    simp [split]
  have white := (trivia_of_line restricts place content (fun piece member => unbroken piece (by simp [member]))
    (unbroken other within) (empty other within)).resolve_right (by simpa using noComment)
  have inline := (edit.regular.each other (by simp [place])).whitespace white c inside
  simp [isBlankChar, inline]

/-- A keyword before a gap in which a line ends stays there, and so does one after it. -/
private theorem replaces_across_gap (known : rule ∈ Language.python.docstrings)
    (restricts : analysis.Restricts .python options source)
    (split : analysis.pieces = earlier ++ left :: (gap ++ later)) (content : left.isContent = true)
    (empty : ∀ other ∈ gap, other.isContent = false) (newline : ∃ other ∈ gap, other.isNewline = true)
    {written : Text} (blank : ∀ c ∈ written, isBlankChar c = true) (some : written ≠ [])
    (replaces : rule.Replaces text other) :
    rule.Replaces (Layout.shownText (gap.map Piece.span) ++ text) (written ++ other) := by
  intro front starts
  have edit := restricts.edit (by simp [Language.registered])
  have white : ∀ c ∈ written, Unicode.isWhiteSpace c = true := fun c member =>
    isWhiteSpace_of_isBlankChar (blank c member)
  by_cases visible : front.any (!Unicode.isWhiteSpace ·) = true
  · -- the keyword stands before the first line break
    obtain ⟨ending, found⟩ := Option.isSome_iff_exists.mp (List.find?_isSome.mpr newline)
    obtain ⟨ends, line, rest, rfl, unbroken⟩ := List.find?_eq_some_iff_append.mp found
    have lineEmpty : ∀ other ∈ line, other.isContent = false := fun other member =>
      empty other (by simp [member])
    have inline := isBlankChar_of_shown restricts (by simpa using split) content
      (by simpa using unbroken) lineEmpty
    have regular := edit.regular.each ending (by simp [split])
    have kind : ending.span.kind = .newline := by simpa [Piece.isNewline] using ends
    obtain ⟨c, more, whole⟩ := List.exists_cons_of_ne_nil regular.nonempty
    have breaks := regular.newline kind c (by simp [whole])
    have shown : Layout.shownText ((line ++ ending :: rest).map Piece.span) ++ text
        = Layout.shownText (line.map Piece.span)
          ++ c :: (more ++ Layout.shownText (rest.map Piece.span) ++ text) := by
      rw [List.map_append, List.map_cons, ← List.singleton_append, Layout.shownText_append,
        Layout.shownText_append, Layout.shownText_singleton, kind, whole]
      simp [Kind.isComment]
    rw [shown] at starts
    exact (HeaderRule.plain_of_python known).begins_of_lineBreak visible breaks inline
      (fun c head => blank c (List.mem_of_head? head)) some starts
  · -- what comes before shows nothing
    have hidden : ∀ c ∈ front, Unicode.isWhiteSpace c = true := by simpa using visible
    rw [HeaderRule.begins_append hidden] at starts ⊢
    rw [HeaderRule.begins_append white]
    exact replaces [] (begins_of_gap known edit (fun piece member => by simp [split, member]) empty starts)

/-- A keyword is carried through a gap in which both lines begin. -/
private theorem carries_within_gap (known : rule ∈ Language.python.docstrings)
    (edit : Language.python.Edit source pieces) (inside : ∀ piece ∈ gap, piece ∈ pieces)
    (empty : ∀ piece ∈ gap, piece.isContent = false)
    (blank : ∀ c ∈ blanks.flatMap Span.text, isBlankChar c = true) {spans others : List Span}
    (within : Layout.logicalBefore closed spans.reverse <+: (gap.map Piece.span).reverse)
    (alsoWithin : Layout.logicalBefore closed others.reverse <+: blanks.reverse) :
    rule.Carries closed spans others :=
  fun _ _ replaces begins => begins_of_blanks blank alsoWithin
    (replaces [] (begins_after_gap known edit inside empty within begins))

/-- Outside brackets, a line ends where something goes: no backslash stands before a line break. -/
private theorem carries_outside_brackets (known : rule ∈ Language.python.docstrings)
    (edit : Language.python.Edit source pieces) (stays : BackslashesStay pieces)
    (scanned : Language.python.spans text = .ok (before ++ [span] ++ blanks ++ after))
    (split : pieces = earlier ++ left :: (gap ++ later)) (same : span.token = left.span.token)
    (empty : ∀ other ∈ gap, other.isContent = false) (gone : ∃ other ∈ gap, other.removed = true)
    (newline : ∃ other ∈ gap, other.isNewline = true)
    (blank : ∀ other ∈ blanks, other.kind.isBlank = true)
    (white : ∀ c ∈ blanks.flatMap Span.text, isBlankChar c = true)
    (breaks : Draft.breaks (blanks.flatMap Span.text) = true)
    (balanced : Layout.hasOpenBracket 0
      (Layout.codeText ((earlier ++ [left]).map Piece.span)).reverse = false) :
    rule.Carries 0 ((earlier ++ [left] ++ gap).map Piece.span) (before ++ [span] ++ blanks) := by
  have inside : ∀ other ∈ gap, other ∈ pieces := fun other member => by simp [split, member]
  have marked := unmarked_before_gap edit stays split empty gone balanced
  have alsoMarked : span.endsWith '\\' = false := by
    rw [Span.endsWith, show span.text = left.span.text from congrArg Token.text same]
    exact marked
  have gapMarked := unmarked_in_gap edit stays (by simpa using split) empty balanced
  have blanksMarked : ∀ other ∈ blanks, other.endsWith '\\' = false := fun other member =>
    not_endsWith_backslash fun c within => white c (List.mem_flatMap.mpr ⟨other, member, within⟩)
  have plain := (codeText_of_gap (fun other member => edit.isContent_of_code (inside other member))
    empty).1
  have alsoPlain : ∀ other ∈ blanks, other.kind ≠ .code := by
    intro other member code
    simpa [code, Kind.isBlank] using blank other member
  have ends : ∃ other ∈ gap.map Piece.span, other.kind = .newline := by
    simpa [Piece.isNewline] using newline
  have alsoEnds := exists_newline_of_breaks scanned blank breaks
  refine carries_within_gap known edit inside empty white ?_ ?_
  · rw [List.map_append, List.reverse_append]
    exact Layout.logicalBefore_append_of_newline (by simpa using plain) (by simpa using ends)
      (by simpa using gapMarked) (by simpa using marked)
  · rw [List.reverse_append]
    exact Layout.logicalBefore_append_of_newline (by simpa using alsoPlain) (by simpa using alsoEnds)
      (by simpa using blanksMarked) (by simpa using alsoMarked)

/-- Inside brackets a line goes on, and a keyword ends before the first line break of a gap. -/
private theorem carries_inside_brackets (known : rule ∈ Language.python.docstrings)
    (restricts : analysis.Restricts .python options source) (closes : closed ≠ 0)
    (split : analysis.pieces = earlier ++ left :: (gap ++ later)) (content : left.isContent = true)
    (empty : ∀ other ∈ gap, other.isContent = false) (newline : ∃ other ∈ gap, other.isNewline = true)
    (blank : ∀ other ∈ blanks, other.kind.isBlank = true)
    (white : ∀ c ∈ blanks.flatMap Span.text, isBlankChar c = true)
    (breaks : Draft.breaks (blanks.flatMap Span.text) = true)
    (carries : rule.Carries closed ((earlier ++ [left]).map Piece.span) before) :
    rule.Carries closed ((earlier ++ [left] ++ gap).map Piece.span) (before ++ blanks) := by
  have edit := restricts.edit (by simp [Language.registered])
  have plain := (codeText_of_gap
    (fun other member => edit.isContent_of_code (by simp [split, member])) empty).1
  have alsoPlain : ∀ other ∈ blanks, other.kind ≠ .code := by
    intro other member code
    simpa [code, Kind.isBlank] using blank other member
  have some : blanks.flatMap Span.text ≠ [] := by
    intro none
    simp [none, Draft.breaks] at breaks
  intro text other replaces begins
  -- what the gap shows comes before the text in both lines
  rw [HeaderRule.beginsLine, List.map_append, List.reverse_append,
    Layout.logicalBefore_append_of_closed closes (by simpa using plain), List.reverse_append,
    List.reverse_reverse, Layout.shownText_append, List.append_assoc] at begins
  rw [HeaderRule.beginsLine, List.reverse_append,
    Layout.logicalBefore_append_of_closed closes (by simpa using alsoPlain), List.reverse_append,
    List.reverse_reverse, Layout.shownText_append, List.append_assoc,
    Layout.shownText_of_blank blank]
  exact carries _ _
    (replaces_across_gap known restricts split content empty newline white some replaces) begins

/-- A keyword is carried through a gap. -/
private theorem carries_through_gap (known : rule ∈ Language.python.docstrings)
    (restricts : analysis.Restricts .python options source) (stays : BackslashesStay analysis.pieces)
    (scanned : Language.python.spans analysis.rewritten.text = .ok (before ++ blanks ++ span :: after))
    (split : analysis.pieces = earlier ++ gap ++ piece :: later) (found : Found earlier before)
    (empty : ∀ other ∈ gap, other.isContent = false) (content : piece.isContent = true)
    (blank : ∀ other ∈ blanks, other.kind.isBlank = true)
    (seam : Seam earlier.getLast? gap (some piece) (blanks.flatMap Span.text))
    (balanced : Layout.hasOpenBracket closed (Layout.codeText (earlier.map Piece.span)).reverse = false)
    (carries : rule.Carries closed (earlier.map Piece.span) before) :
    rule.Carries closed ((earlier ++ gap).map Piece.span) (before ++ blanks) := by
  have edit := restricts.edit (by simp [Language.registered])
  have inside : ∀ other ∈ gap, other ∈ analysis.pieces := fun other member => by simp [split, member]
  by_cases hidden : ∀ other ∈ gap, other.span.kind.isBlank = true
  · -- nothing goes, so the same blanks are found
    have tokens := tokens_of_blank_gap restricts scanned split blank hidden seam
    have plain := (codeText_of_gap (fun other member => edit.isContent_of_code (inside other member))
      empty).1
    rw [List.map_append]
    refine carries.append_of_tokens plain (by rw [tokens, List.map_map]; rfl) ?_
    rcases found.last with ⟨rfl, rfl⟩ | ⟨_, piece, _, span, rfl, rfl, -, same⟩
    · rfl
    · have text : span.text = piece.span.text := congrArg Token.text same
      simp [Span.endsWith, text]
  have gone : ∃ other ∈ gap, other.removed = true := by
    by_contra kept
    refine hidden fun other member => ?_
    have stay : other.removed = false := by simpa using fun removed => kept ⟨other, member, removed⟩
    simpa [Piece.isContent, stay] using empty other member
  rcases found.last with ⟨rfl, rfl⟩ | ⟨front, left, others, opening, rfl, rfl, leftContent, same⟩
  · -- nothing comes before the gap
    refine carries_within_gap known edit inside empty seam.blank ?_ ?_
    · exact Layout.logicalBefore_prefix _ _
    · exact Layout.logicalBefore_prefix _ _
  -- something goes, so that a line ends in the gap, here and there
  have place : analysis.pieces = front ++ left :: (gap ++ piece :: later) := by simp [split]
  have newline := exists_newline_of_removed restricts place leftContent content gone
  rw [List.getLast?_concat] at seam
  have breaks := seam.grows rfl newline
  by_cases level : closed = 0
  · subst level
    exact carries_outside_brackets known edit stays scanned place same empty gone newline blank
      seam.blank breaks balanced
  · exact carries_inside_brackets known restricts level place leftContent empty newline blank
      seam.blank breaks carries

/-- A keyword at the start of a logical line of the source is at the start of the same line of the
rewritten text. -/
theorem carries_of_found (known : rule ∈ Language.python.docstrings)
    (restricts : analysis.Restricts .python options source) (stays : BackslashesStay analysis.pieces)
    {spans : List Span} (scanned : Language.python.spans analysis.rewritten.text = .ok (spans ++ after))
    (split : analysis.pieces = pieces ++ later) (found : Found pieces spans)
    (balanced : Layout.hasOpenBracket closed (Layout.codeText (pieces.map Piece.span)).reverse = false) :
    rule.Carries closed (pieces.map Piece.span) spans := by
  -- from right to left in the lines, so that the brackets closed so far are known at each piece
  induction found generalizing closed later after with
  | start => exact .start
  | @next earlier gap piece before blanks span found empty content blank seam same ih =>
    have edit := restricts.edit (by simp [Language.registered])
    have place : analysis.pieces = earlier ++ gap ++ piece :: later := by simp [split]
    have noCode := (codeText_of_gap
      (fun other member => edit.isContent_of_code (by simp [place, member])) empty).2
    have still : Layout.hasOpenBracket (Layout.closedAt closed piece.span)
        (Layout.codeText (earlier.map Piece.span)).reverse = false := by
      rw [List.map_append, List.map_singleton] at balanced
      have whole := Layout.balanced_before balanced
      rwa [List.map_append, Layout.codeText_append, noCode, List.append_nil] at whole
    have solid := Piece.not_isNewline_of_isContent content
    rw [Piece.isNewline, beq_eq_false_iff_ne] at solid
    rw [List.append_assoc, List.singleton_append] at scanned
    rw [List.map_append, List.map_singleton]
    refine .concat ?_ solid same
    refine carries_through_gap known restricts stays scanned place found empty content blank seam still ?_
    rw [List.append_assoc] at scanned place
    exact ih scanned place still

/-- The code nearest before a piece is found again nearest before it. -/
theorem exists_previous_of_found (restricts : analysis.Restricts .python options source)
    (split : analysis.pieces = earlier ++ piece :: later)
    (found : Found (earlier ++ [piece]) (before ++ [span])) {previous : Nat} {opener : Span}
    (nearest : Layout.previousSignificant? analysis.spans earlier.length = some previous)
    (here : analysis.spans[previous]? = some opener) (code : opener.kind = .code) :
    ∃ front left trivia first opening between, earlier = front ++ left :: trivia
      ∧ front.length = previous ∧ left.span = opener ∧ before = first ++ opening :: between
      ∧ Found (front ++ [left]) (first ++ [opening])
      ∧ ∀ after, Layout.previousSignificant? (before ++ after) before.length = some first.length := by
  have edit := restricts.edit (by simp [Language.registered])
  obtain ⟨front, left, trivia, other, rest, whole, size, length, rfl, -, plain⟩ :=
    exists_split_of_previous (removed_of_markRemoved split).1 here nearest
  obtain ⟨rfl, -⟩ := List.append_inj (split.symm.trans whole) length.symm
  obtain ⟨first, opening, between, rfl, upTo, token, contents⟩ :=
    found.exists_before (edit.isContent_of_code (by simp [split]) code)
  refine ⟨front, left, trivia, first, opening, between, rfl, size, rfl, rfl, upTo, fun after => ?_⟩
  refine Layout.previousSignificant?_append
    (not_isSignificant_of_contents contents fun other member _ => plain other member) ?_ after
  have kind : opening.kind = .code := (congrArg Token.kind token).trans code
  simp [Span.isSignificant_iff, kind, Kind.isBlank, Kind.isComment]

/-- If nothing significant comes before a piece, nothing does in the rewritten text. -/
theorem previousSignificant?_eq_none_of_found (split : analysis.pieces = earlier ++ piece :: later)
    (found : Found (earlier ++ [piece]) (before ++ [span]))
    (nearest : Layout.previousSignificant? analysis.spans earlier.length = none) (after : List Span) :
    Layout.previousSignificant? (before ++ after) before.length = none := by
  rw [← analysis.map_span_pieces, split, List.map_append, ← List.length_map (f := Piece.span),
    Layout.previousSignificant?_eq_none, List.forall_mem_map] at nearest
  rw [Layout.previousSignificant?_eq_none]
  exact not_isSignificant_of_contents found.contents_before fun other member _ => nearest other member

/-- The header of a block that may open with a docstring is found again as one. -/
theorem opensDocumentedBlock_of_found (known : rule ∈ Language.python.docstrings)
    (restricts : analysis.Restricts .python options source) (stays : BackslashesStay analysis.pieces)
    (scanned : Language.python.spans analysis.rewritten.text = .ok (before ++ span :: after))
    (split : analysis.pieces = earlier ++ piece :: later)
    (found : Found (earlier ++ [piece]) (before ++ [span]))
    (balanced : Layout.hasOpenBracket 0
      (Layout.codeText ((earlier ++ [piece]).map Piece.span)).reverse = false)
    (opens : rule.opensDocumentedBlock analysis.spans earlier.length = true) :
    rule.opensDocumentedBlock (before ++ span :: after) before.length = true := by
  have there : (before ++ span :: after)[before.length]? = some span := by simp
  rw [HeaderRule.opensDocumentedBlock, (removed_of_markRemoved split).1, Option.any_some,
    Bool.and_eq_true] at opens
  obtain ⟨ends, starts⟩ := opens
  have whole : analysis.spans = earlier.map Piece.span ++ piece.span :: later.map Piece.span := by
    rw [← analysis.map_span_pieces, split]
    simp
  rw [whole, ← List.length_map (f := Piece.span), rule.any_startsWithKeyword_logicalLine] at starts
  rw [HeaderRule.opensDocumentedBlock, there, Option.any_some, Bool.and_eq_true,
    rule.any_startsWithKeyword_logicalLine, rule.endsHeader_of_token found.token_eq]
  refine ⟨ends, ?_⟩
  -- nothing comes after the header on its logical line, here or there
  rw [List.append_cons] at scanned split
  exact carries_of_found known restricts stays scanned split found balanced [] [] (fun _ => id)
    (by simpa using starts)

/-- A docstring of the source that is a statement of the rewritten text is a docstring there. -/
theorem isDocstring_of_found (known : rule ∈ Language.python.docstrings)
    (restricts : analysis.Restricts .python options source) (stays : BackslashesStay analysis.pieces)
    (scanned : Language.python.spans analysis.rewritten.text = .ok (before ++ span :: after))
    (split : analysis.pieces = earlier ++ piece :: later)
    (found : Found (earlier ++ [piece]) (before ++ [span]))
    (statement : Layout.isStatementLiteral (before ++ span :: after) before.length = true)
    (docstring : rule.isDocstring analysis.spans earlier.length = true) :
    rule.isDocstring (before ++ span :: after) before.length = true := by
  rw [HeaderRule.isDocstring, Bool.and_eq_true] at docstring ⊢
  obtain ⟨original, opens⟩ := docstring
  refine ⟨statement, ?_⟩
  cases nearest : Layout.previousSignificant? analysis.spans earlier.length with
  | none =>
    rw [previousSignificant?_eq_none_of_found split found nearest]
    rfl
  | some previous =>
    rw [nearest, Option.all_some] at opens
    have header := opens
    rw [HeaderRule.opensDocumentedBlock, Bool.and_eq_true, Option.any_eq_true] at header
    obtain ⟨⟨opener, here, ends⟩, -⟩ := header
    rw [HeaderRule.endsHeader, Bool.and_eq_true, beq_iff_eq] at ends
    obtain ⟨front, left, trivia, first, opening, between, rfl, rfl, rfl, rfl, upTo, again⟩ :=
      exists_previous_of_found restricts split found nearest here ends.1
    rw [List.append_assoc, List.cons_append] at scanned split
    have balanced := Layout.balanced_of_isStatementLiteral original nearest
    have upToHeader : analysis.spans.take (front.length + 1) = (front ++ [left]).map Piece.span := by
      rw [← analysis.map_span_pieces, split, ← List.map_take, List.append_cons,
        List.take_left' (by simp)]
    rw [upToHeader] at balanced
    rw [again, Option.all_some, List.append_assoc, List.cons_append]
    exact opensDocumentedBlock_of_found known restricts stays scanned split upTo balanced opens

end Python

end CommentStrip
