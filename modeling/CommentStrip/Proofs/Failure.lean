import CommentStrip.Proofs.Place
import CommentStrip.Proofs.Resumption

/-!
# Where a scan fails

A scan fails where a construct opens that is never closed. Everything before that place is scanned
on its own as it was scanned with the rest of the text after it, and the failure leaves the cursor
that this scan leaves: no token before the place was decided by what comes after it.
-/
namespace CommentStrip

namespace Language

/-- What stands where a construct opens, after the character `previous`: the opener of a block
comment, or a quotation mark, before which a prefix may stand if no name goes on there. -/
def Opens (language : Language) (previous : Option Char) (text : Text) : Construct → Prop
  | .blockComment => ∃ block ∈ language.blockComments, block.opener <+: text
  | .stringLiteral => ∃ lead : Text, ∃ quote ∈ language.quotes, lead ++ quote.opener <+: text
    ∧ (lead = [] ∨ previous.any isNameChar = false
      ∧ ∃ known ∈ language.stringPrefixes, lead.sameIgnoringCase known = true)

variable {language : Language} {point : Point} {cursor : Cursor} {text : Text}

section Opening

/-- Only a construct that is not closed is read as a failure. -/
private theorem ofReading?_eq_error {kind : Kind} {mustClose : Option Construct} {reading : Reading}
    {construct : Construct}
    (failed : Lexeme.ofReading? kind mustClose reading = some (.error construct)) :
    mustClose = some construct ∧ ∃ index, reading = .error (.notClosed index) := by
  match reading with
  | .ok 0 => simp [Lexeme.ofReading?] at failed
  | .ok (more + 1) => simp [Lexeme.ofReading?] at failed
  | .error (.notOpened _) => simp [Lexeme.ofReading?] at failed
  | .error (.notClosed index) =>
    cases mustClose with
    | none => simp [Lexeme.ofReading?] at failed
    | some other =>
      obtain rfl : other = construct := by simpa [Lexeme.ofReading?] using failed
      exact ⟨rfl, index, rfl⟩

/-- A string literal that is not closed opens with a quotation mark. -/
private theorem opens_of_quotedAt? {construct : Construct} (conventional : language.Conventional)
    (failed : language.quotedAt? cursor text = some (.error construct)) :
    language.Opens cursor.previous text construct := by
  obtain ⟨made, index, read⟩ := ofReading?_eq_error failed
  obtain rfl := Option.some.inj made
  simp only [readString] at read
  split at read
  next opening longest =>
    obtain ⟨lead, quote⟩ := opening
    obtain ⟨leads, known, opens⟩ := mem_openingsAt_iff.mp (Opening.longest?_eq_some longest).1
    obtain ⟨⟨rest, rfl⟩, -, -⟩ := conventional.mem_leadsAt leads
    rw [List.drop_left, List.isPrefixOf_iff_prefix] at opens
    refine ⟨lead, quote, known, (List.prefix_append_right_inj lead).mpr opens, ?_⟩
    rcases mem_leadsAt_iff.mp leads with none | ⟨allowed, other, member, -, same⟩
    · exact .inl none
    · exact .inr ⟨allowed, other, member, same⟩
  · simp at read

/-- A block comment that is not closed opens with its opener. -/
private theorem opens_of_blockAt? {construct : Construct}
    (failed : language.blockAt? text = some (.error construct)) :
    language.Opens cursor.previous text construct := by
  obtain ⟨block, known, here⟩ := List.exists_of_findSome?_eq_some failed
  obtain ⟨made, index, read⟩ := ofReading?_eq_error here
  obtain rfl := Option.some.inj made
  simp only [Delimiters.readComment] at read
  split at read
  next opens => exact ⟨block, known, List.isPrefixOf_iff_prefix.mp opens⟩
  · simp at read

private theorem orElse_getD_eq_error {first later : Option (Except Construct Lexeme)}
    {default : Lexeme} {construct : Construct}
    (failed : (first <|> later).getD (.ok default) = .error construct) :
    first = some (.error construct) ∨ later.getD (.ok default) = .error construct := by
  cases first with
  | none => exact .inr failed
  | some found => exact .inl (congrArg some failed)

/-- Where there is no lexeme, a construct opens. -/
theorem opens_of_lexemeAt (conventional : language.Conventional) {construct : Construct}
    (failed : language.lexemeAt cursor text = .error construct) :
    language.Opens cursor.previous text construct := by
  rw [lexemeAt_eq] at failed
  have never {kind : Kind} {reading : Reading} :
      Lexeme.ofReading? kind none reading ≠ some (.error construct) := by
    intro here
    obtain ⟨impossible, -⟩ := ofReading?_eq_error here
    simp at impossible
  -- of the constructs in their order, only those that must be closed fail
  rcases orElse_getD_eq_error failed with quoted | failed
  · exact opens_of_quotedAt? conventional quoted
  rcases orElse_getD_eq_error failed with regex | failed
  · unfold regexAt? at regex
    split at regex
    · exact absurd regex never
    · simp at regex
  rcases orElse_getD_eq_error failed with block | failed
  · exact opens_of_blockAt? block
  rcases orElse_getD_eq_error failed with line | failed
  · obtain ⟨marker, -, here⟩ := List.exists_of_findSome?_eq_some line
    exact absurd here never
  rcases orElse_getD_eq_error failed with newline | failed
  · exact absurd newline never
  · cases whitespace : whitespaceAt? text with
    | none => simp [whitespace] at failed
    | some result =>
      rw [whitespace, Option.getD_some] at failed
      exact absurd (failed ▸ whitespace) never

end Opening

section Truncation

variable {kind : Kind} {word after rest : Text}

/-- A closing slash is found again when more follows. -/
private theorem closeIndex?_append (closes : (Regex.closeIndex? after).isSome = true) :
    (Regex.closeIndex? (after ++ rest)).isSome = true := by
  obtain ⟨index, found⟩ := Option.isSome_iff_exists.mp closes
  obtain ⟨body, more, rfl, rfl⟩ := Regex.exists_append_of_closeIndex? found
  rw [List.append_assoc, List.cons_append, Regex.closeIndex?_local (more ++ rest) found]
  rfl

private theorem head?_of_append {c : Char} (head : after.head? = some c) :
    (after ++ rest).head? = some c := by
  rw [List.head?_append, head]
  rfl

/-- A token stays what it is when the text ends earlier after it. -/
theorem ReadsAt.truncate (conventional : language.Conventional)
    (reads : language.ReadsAt point ⟨kind, word⟩ (after ++ rest)) :
    language.ReadsAt point ⟨kind, word⟩ after := by
  have alike : language.Alike word point.cursor point.cursor := ⟨fun _ => rfl, fun _ => rfl⟩
  cases kind with
  | blockComment => exact block_reads conventional reads
  | stringLiteral =>
    obtain ⟨unflagged, untripled⟩ := (literal_iff conventional reads alike).mp reads
    refine (literal_iff conventional reads alike).mpr ⟨fun flagged => unflagged ?_, fun tripled =>
      untripled ?_⟩
    · obtain ⟨slash, flag⟩ := flagged
      obtain ⟨c, head, alphanumeric⟩ := (Option.any_eq_true _ _).mp flag
      exact ⟨slash, by rwa [head?_of_append head]⟩
    · obtain ⟨lead, mark, whole, absent, triples, head⟩ := tripled
      exact ⟨lead, mark, whole, absent, triples, head?_of_append head⟩
  | lineComment =>
    obtain ⟨-, -, -, -, -, stops⟩ := reads.line
    exact line_reads conventional reads fun c head => stops c (head?_of_append head)
  | newline =>
    apply (newline_iff conventional).mpr
    rcases reads.newline_shape with pair | feed | ⟨carriage, single⟩
    · exact .inl pair
    · exact .inr (.inl feed)
    · exact .inr (.inr ⟨carriage, fun feed => single (head?_of_append feed)⟩)
  | whitespace =>
    obtain ⟨nonempty, inline, stops⟩ := reads.whitespace_shape
    exact (whitespace_iff conventional).mpr
      ⟨nonempty, inline, fun c head => stops c (head?_of_append head)⟩
  | code =>
    obtain ⟨c, rfl, -⟩ := reads.code conventional
    -- nothing new follows, so only the search for a closing slash is to be compared
    have settled : language.Settled (c :: after) rest [] := ⟨by simp, by simp⟩
    rw [← List.append_nil after]
    refine (code_iff conventional reads alike settled).mpr ?_
    rintro ⟨regexes, allowed, rfl, closes⟩
    rw [List.append_nil] at closes
    cases reads.takes with
    | code unquoted noRegex =>
      exact regexAt?_eq_none.mp noRegex
        ⟨regexes, allowed, after ++ rest, rfl, closeIndex?_append closes⟩

/-- The tokens of a text stay what they are when the text ends after them. -/
theorem Reads.truncate (conventional : language.Conventional) {tokens : List Token}
    (reads : language.Reads point tokens rest) : language.Reads point tokens [] := by
  induction tokens generalizing point with
  | nil => trivial
  | cons token more ih =>
    obtain ⟨head, tail⟩ := reads
    refine ⟨?_, ih tail⟩
    rw [List.append_nil]
    exact head.truncate conventional

end Truncation

/-- Before a construct that is never closed there are tokens that are read one after the other. -/
theorem reads_of_unclosed (point : Point) {construct : Construct}
    (unclosed : (language.lex point.cursor point.run text).unclosed = some construct) :
    ∃ tokens opened, text = Token.textOf tokens ++ opened ∧ opened ≠ []
      ∧ language.Reads point tokens opened
      ∧ (language.lex point.cursor point.run text).cursor = (point.pastAll tokens).cursor
      ∧ language.lexemeAt (point.pastAll tokens).cursor opened = .error construct := by
  obtain ⟨cursor, run⟩ := point
  -- on the scan: each lexeme is the next token, and where there is none the construct opens
  fun_induction Language.lex language cursor run text with
  | case1 => simp at unclosed
  | case2 cursor run c rest other failed =>
    obtain rfl : other = construct := by simpa using unclosed
    exact ⟨[], c :: rest, rfl, List.cons_ne_nil c rest, trivial, rfl, failed⟩
  | case3 cursor run c rest lexeme found word later ih =>
    obtain ⟨tokens, opened, whole, nonempty, reads, stop, failed⟩ := ih unclosed
    have here : language.ReadsAt ⟨cursor, run⟩ ⟨lexeme.kind, word⟩ (rest.drop lexeme.more) :=
      readsAt_of_lexemeAt found
    refine ⟨⟨lexeme.kind, word⟩ :: tokens, opened, ?_, nonempty, ⟨whole ▸ here, reads⟩, stop,
      failed⟩
    rw [Token.textOf_cons, List.append_assoc, ← whole]
    simp [word]

/-- A text of tokens that are read one after the other is scanned without failure, and the scan ends
after them. -/
theorem scan_of_reads {tokens : List Token} (reads : language.Reads ⟨cursor, []⟩ tokens []) :
    ∃ spans, language.scan cursor (Token.textOf tokens)
      = (.ok spans, (Point.pastAll ⟨cursor, []⟩ tokens).cursor) := by
  have whole := lex_of_reads reads
  rw [List.append_nil, lex, List.append_nil] at whole
  simp only [scan, whole]
  exact ⟨_, rfl⟩

/--
If the scan of a source fails, then at a place where the construct of the failure opens. The place
is that of the text before it, and this text, scanned on its own, has spans and leaves the cursor
that the failure leaves.
-/
theorem scan_failure (known : language ∈ registered) {source : Text} {failure : Unterminated}
    (failed : language.spans source = .error failure) :
    ∃ before opened : Text, source = before ++ opened
      ∧ failure.place = ⟨before.byteLength, 1 + before.lineEnds, 1 + before.lastLine.length⟩
      ∧ failure.place.offset < source.byteLength
      ∧ language.Opens before.getLast? opened failure.construct
      ∧ ∃ spans, language.scan .start before = (.ok spans, (language.scan .start source).2) := by
  have conventional := conventional_of_registered known
  simp only [spans, scan] at failed
  split at failed
  next construct unclosed =>
    obtain rfl := Except.error.inj failed
    obtain ⟨tokens, opened, rfl, nonempty, reads, stop, here⟩ :=
      reads_of_unclosed .start unclosed
    have place := reads.position conventional
    have previous : (Point.start.pastAll tokens).cursor.previous
        = (Token.textOf tokens).getLast? := by
      rw [Point.previous_pastAll]
      exact Option.or_none
    have stands : (language.lex .start [] (Token.textOf tokens ++ opened)).cursor.position
        = ⟨_, _, _⟩ :=
      (congrArg Cursor.position stop).trans (place.trans (Position.start_after _))
    refine ⟨Token.textOf tokens, opened, rfl, stands, ?_, ?_, ?_⟩
    · -- the text goes on where the construct opens
      have more := List.length_pos_iff.mpr nonempty
      have bytes := Text.length_le_byteLength opened
      have shorter : (Token.textOf tokens).byteLength
          < (Token.textOf tokens ++ opened).byteLength := by
        rw [Text.byteLength_append]
        omega
      rwa [stands]
    · rw [← previous]
      exact opens_of_lexemeAt conventional here
    · -- without what opens, the same tokens are read
      obtain ⟨spans, scanned⟩ := scan_of_reads (reads.truncate conventional)
      rw [cursor_of_scan]
      exact ⟨spans, scanned.trans (congrArg (_, ·) stop.symm)⟩
  · simp at failed

/-- After a literal, a line break of two characters and a comment, a literal with a prefix is never
closed. -/
theorem scan_failure_of_prefixed :
    python ∈ registered
      ∧ python.spans "a='é'\r\n#\"\n  Rb'c".toList = .error ⟨.stringLiteral, ⟨13, 3, 3⟩⟩
      ∧ ∃ before opened : Text, "a='é'\r\n#\"\n  Rb'c".toList = before ++ opened
        ∧ (⟨13, 3, 3⟩ : Position)
          = ⟨before.byteLength, 1 + before.lineEnds, 1 + before.lastLine.length⟩
        ∧ 13 < Text.byteLength "a='é'\r\n#\"\n  Rb'c".toList
        ∧ python.Opens before.getLast? opened .stringLiteral
        ∧ ∃ spans, python.scan .start before
          = (.ok spans, (python.scan .start "a='é'\r\n#\"\n  Rb'c".toList).2) := by
  have known : python ∈ registered := by simp [registered]
  have failed : python.spans "a='é'\r\n#\"\n  Rb'c".toList
      = .error ⟨.stringLiteral, ⟨13, 3, 3⟩⟩ := by
    rw [spans_eq_lexWithin]
    decide +kernel
  exact ⟨known, failed, scan_failure known failed⟩

end Language

end CommentStrip
