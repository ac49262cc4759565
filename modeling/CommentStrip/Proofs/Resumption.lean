import CommentStrip.Proofs.Simulation

/-!
# Scanning in pieces

A text that is empty or ends with a line feed can be scanned on its own, and the text after it from
the cursor where this scan ends. The spans are those of both texts scanned as one, and so is the
failure, if there is one. No token of the first text is decided by what comes after it: a token that
could go on has ended at the line feed or before it. Regular expressions are left out, since a
backslash can carry one over a line break.
-/
namespace CommentStrip

namespace Span

theorem coalesce_cons (span : Span) (spans : List Span) :
    coalesce (span :: spans) = attach span (coalesce spans) := rfl

private theorem coalesce_ne_nil (span : Span) (spans : List Span) : coalesce (span :: spans) ≠ [] := by
  rw [coalesce_cons]
  cases coalesce spans with
  | nil => simp [attach]
  | cons next others =>
    rw [attach]
    split <;> exact List.cons_ne_nil _ _

/-- Only the first of the spans is joined with one in front of them. -/
theorem attach_append (span : Span) {spans : List Span} (nonempty : spans ≠ [])
    (more : List Span) : attach span (spans ++ more) = attach span spans ++ more := by
  cases spans with
  | nil => exact absurd rfl nonempty
  | cons next others =>
    simp only [List.cons_append, attach]
    split <;> rfl

/-- Where no code ends the first spans, nothing is joined across. -/
theorem coalesce_append {first : List Span} (solid : ∀ span ∈ first.getLast?, span.kind ≠ .code)
    (second : List Span) : coalesce (first ++ second) = coalesce first ++ coalesce second := by
  induction first with
  | nil => rfl
  | cons span rest ih =>
    cases rest with
    | nil =>
      -- the only span is no code and stays on its own
      have other : span.kind ≠ .code := solid span rfl
      rw [List.singleton_append, coalesce_cons]
      cases coalesce second with
      | nil => rfl
      | cons next others => simp [attach, other, coalesce]
    | cons next others =>
      rw [List.getLast?_cons_cons] at solid
      rw [List.cons_append, coalesce_cons, ih solid, attach_append span (coalesce_ne_nil next others),
        coalesce_cons span]

end Span

namespace Point

/-- The spans of tokens that are read from the point on. -/
def place : Point → List Token → List Span
  | _, [] => []
  | point, token :: more =>
    Span.covering token.kind point.cursor.position token.text :: place (point.past token) more

theorem map_token_place (point : Point) (tokens : List Token) :
    (point.place tokens).map Span.token = tokens := by
  induction tokens generalizing point with
  | nil => rfl
  | cons token more ih => rw [place, List.map_cons, ih]; rfl

end Point

namespace Language

variable {language : Language} {point : Point} {cursor middle : Cursor}

/-- Tokens that are read come first among the lexemes, and the others are those of the text after
them. -/
theorem lex_of_reads {tokens : List Token} {rest : Text} (reads : language.Reads point tokens rest) :
    language.lex point.cursor point.run (Token.textOf tokens ++ rest)
      = { language.lex (point.pastAll tokens).cursor (point.pastAll tokens).run rest with
          lexemes := point.place tokens
            ++ (language.lex (point.pastAll tokens).cursor (point.pastAll tokens).run rest).lexemes
        } := by
  induction tokens generalizing point with
  | nil => rfl
  | cons token more ih =>
    rw [Token.textOf_cons, List.append_assoc, lex_of_readsAt reads.1, ih reads.2]
    rfl

section Extension

variable {kind : Kind} {word after : Text}

/-- After a token that a line feed would make longer there is more text, if the text ends with a line
feed. -/
private theorem ReadsAt.after_ne_nil (conventional : language.Conventional)
    (reads : language.ReadsAt point ⟨kind, word⟩ after)
    (ends : (word ++ after).getLast? = some '\n') (other : kind ≠ .newline) : after ≠ [] := by
  rintro rfl
  rw [List.append_nil] at ends
  -- the token would end with the line feed, which only a line break does
  cases kind with
  | newline => exact absurd rfl other
  | whitespace =>
    have inline := reads.whitespace '\n' (List.mem_of_getLast? ends)
    exact absurd inline (by decide)
  | lineComment =>
    obtain ⟨marker, known, body, rfl, unbroken, -⟩ := reads.line
    rw [List.getLast?_append] at ends
    cases last : body.getLast? with
    | some c =>
      obtain rfl : c = '\n' := by simpa [last] using ends
      exact absurd (unbroken '\n' (List.mem_of_getLast? last)) (by decide)
    | none =>
      rcases conventional.markers marker known with rfl | rfl <;> simp [last] at ends
  | code | stringLiteral | blockComment =>
    have solid := reads.last conventional rfl nofun '\n' ends
    exact absurd solid (by decide)

/-- A token stays what it is when the text, which ends with a line feed, goes on. -/
theorem ReadsAt.extend (conventional : language.Conventional)
    (noRegex : language.regexLiterals = false)
    (reads : language.ReadsAt point ⟨kind, word⟩ after)
    (ends : (word ++ after).getLast? = some '\n') (rest : Text) :
    language.ReadsAt point ⟨kind, word⟩ (after ++ rest) := by
  have head (other : kind ≠ .newline) : (after ++ rest).head? = after.head? :=
    List.head?_append_of_ne_nil _ (reads.after_ne_nil conventional ends other)
  have alike : language.Alike word point.cursor point.cursor := ⟨fun _ => rfl, fun _ => rfl⟩
  cases kind with
  | blockComment => exact block_reads conventional reads
  | stringLiteral =>
    -- what would make the literal longer is the next character, and it is the same
    rw [literal_iff conventional reads alike]
    have now := (literal_iff conventional reads alike).mp reads
    simpa only [FlaggedBy, TripledBy, head nofun] using now
  | lineComment =>
    apply line_reads conventional reads
    obtain ⟨-, -, -, -, -, stops⟩ := reads.line
    rwa [head nofun]
  | newline =>
    apply (newline_iff conventional).mpr
    rcases reads.newline_shape with pair | feed | ⟨carriage, single⟩
    · exact .inl pair
    · exact .inr (.inl feed)
    · -- a carriage return at the end of the text would be its last character
      have more : after ≠ [] := by
        rintro rfl
        simp [carriage] at ends
      refine .inr (.inr ⟨carriage, ?_⟩)
      rwa [List.head?_append_of_ne_nil _ more]
  | whitespace =>
    obtain ⟨nonempty, inline, stops⟩ := reads.whitespace_shape
    apply (whitespace_iff conventional).mpr
    exact ⟨nonempty, inline, by rwa [head nofun]⟩
  | code =>
    obtain ⟨c, rfl, -⟩ := reads.code conventional
    -- all that was there comes first, and it ends with a line feed, after which nothing is a word
    have settled : language.Settled (c :: after) [] rest := by
      have last : (c :: after).getLast? = some '\n' := ends
      constructor
      · intro d final name
        obtain rfl : '\n' = d := by simpa [last] using final
        exact absurd name (by decide)
      · intro slash
        rw [last] at slash
        exact absurd slash (by decide)
    have here : language.ReadsAt point ⟨.code, [c]⟩ (after ++ []) := by rwa [List.append_nil]
    apply (code_iff conventional here alike settled).mpr
    simp [noRegex]

/-- The tokens of a text that ends with a line feed stay what they are when the text goes on. -/
theorem Reads.extend (conventional : language.Conventional)
    (noRegex : language.regexLiterals = false) {tokens : List Token}
    (reads : language.Reads point tokens [])
    (ends : Token.textOf tokens = [] ∨ (Token.textOf tokens).getLast? = some '\n') (rest : Text) :
    language.Reads point tokens rest := by
  induction tokens generalizing point with
  | nil => trivial
  | cons token more ih =>
    obtain ⟨head, tail⟩ := reads
    rw [List.append_nil] at head
    rw [Token.textOf_cons] at ends
    have last : (token.text ++ Token.textOf more).getLast? = some '\n' :=
      ends.resolve_left fun none => head.1 (List.append_eq_nil_iff.mp none).1
    refine ⟨head.extend conventional noRegex last rest, ih tail ?_⟩
    -- the tokens after the first one end as all of them do
    by_cases empty : Token.textOf more = []
    · exact .inl empty
    · exact .inr (by rwa [List.getLast?_append_of_ne_nil _ empty] at last)

/-- The last token of a text that ends with a line feed is no code. -/
private theorem Reads.last_ne_code (conventional : language.Conventional) {tokens : List Token}
    (reads : language.Reads point tokens [])
    (ends : Token.textOf tokens = [] ∨ (Token.textOf tokens).getLast? = some '\n') :
    ∀ token ∈ tokens.getLast?, token.kind ≠ .code := by
  cases tokens using List.reverseRecOn with
  | nil => simp
  | append_singleton earlier last =>
    obtain ⟨kind, word⟩ := last
    rw [reads_append] at reads
    obtain ⟨-, here, -⟩ := reads
    simp only [Token.textOf_append, Token.textOf_cons, Token.textOf_nil, List.append_nil,
      List.append_eq_nil_iff, here.1, and_false, false_or] at ends
    rw [List.getLast?_append_of_ne_nil _ here.1] at ends
    rw [List.getLast?_concat]
    rintro _ ⟨rfl⟩ rfl
    -- code is a character that is no blank
    obtain ⟨c, rfl, other, -⟩ := here.code conventional
    obtain rfl : c = '\n' := by simpa using ends
    exact absurd other (by decide)

end Extension

/--
Scanning a text that is empty or ends with a line feed, and then the text after it from the cursor
where that scan ends, gives the spans of both texts scanned as one. If the second scan fails, so does
the one of both texts, with the same error, and if it does not, neither does that one.
-/
theorem scan_append (known : language = .python ∨ language = .dart) {first : Text}
    (ends : first = [] ∨ first.getLast? = some '\n') {spans : List Span}
    (scanned : language.scan cursor first = (.ok spans, middle)) (rest : Text) :
    language.scan cursor (first ++ rest)
      = ((language.scan middle rest).1.map (spans ++ ·), (language.scan middle rest).2) := by
  have conventional : language.Conventional := by
    apply conventional_of_registered
    rcases known with rfl | rfl <;> simp [registered]
  have noRegex : language.regexLiterals = false := by
    rcases known with rfl | rfl <;> rfl
  have result : (language.scan cursor first).1 = .ok spans := congrArg Prod.fst scanned
  have stop : (language.scan cursor first).2 = middle := congrArg Prod.snd scanned
  obtain ⟨closed, rfl⟩ := lex_of_scan result
  rw [cursor_of_scan] at stop
  -- the lexemes of the first text are tokens that are read one after the other
  have yields : language.Yields ⟨cursor, []⟩ first
      ((language.lex cursor [] first).lexemes.map Span.token) := ⟨closed, rfl⟩
  obtain ⟨reads, made⟩ := yields.reads
  generalize (language.lex cursor [] first).lexemes.map Span.token = tokens at reads made
  subst made
  have alone := lex_of_reads reads
  rw [List.append_nil, lex, List.append_nil] at alone
  rw [alone] at stop ⊢
  subst stop
  -- the scan of the text after them starts like that of a text of its own
  have solid := reads.last_ne_code conventional ends
  have run : (Point.pastAll ⟨cursor, []⟩ tokens).run = [] := by
    rw [Point.run_pastAll solid]
    split <;> rfl
  have whole := lex_of_reads (reads.extend conventional noRegex ends rest)
  rw [run] at whole
  have apart : ∀ span ∈ (Point.place ⟨cursor, []⟩ tokens).getLast?, span.kind ≠ .code := by
    intro span last
    apply solid span.token
    rw [← Point.map_token_place ⟨cursor, []⟩ tokens, List.getLast?_map, Option.mem_def.mp last]
    rfl
  simp only [scan, whole]
  split
  · rfl
  · simp only [Except.map, Span.coalesce_append apart]

/-- A literal over two lines and a continued line come first, a literal with a prefix comes next. -/
theorem scan_append_continued_line :
    ∃ spans middle, python.scan .start "a=f'''\x7bb\x7d\n'''\\\n".toList = (.ok spans, middle)
      ∧ "a=f'''\x7bb\x7d\n'''\\\n".toList.getLast? = some '\n'
      ∧ python.scan .start ("a=f'''\x7bb\x7d\n'''\\\n".toList ++ "rb'c'#d".toList)
        = ((python.scan middle "rb'c'#d".toList).1.map (spans ++ ·),
          (python.scan middle "rb'c'#d".toList).2)
      ∧ (python.scan middle "rb'c'#d".toList).1
        = .ok [⟨.stringLiteral, 15, 20, 3, 1, "rb'c'".toList⟩,
          ⟨.lineComment, 20, 22, 3, 6, "#d".toList⟩] := by
  have scanned : python.scan .start "a=f'''\x7bb\x7d\n'''\\\n".toList
      = (.ok [⟨.code, 0, 2, 1, 1, "a=".toList⟩,
          ⟨.stringLiteral, 2, 13, 1, 3, "f'''\x7bb\x7d\n'''".toList⟩,
          ⟨.code, 13, 14, 2, 4, "\\".toList⟩, ⟨.newline, 14, 15, 2, 5, "\n".toList⟩],
        ⟨⟨15, 3, 1⟩, some '\n', true⟩) := by
    rw [scan_eq_lexWithin]
    decide +kernel
  have ends : "a=f'''\x7bb\x7d\n'''\\\n".toList.getLast? = some '\n' := by decide
  refine ⟨_, _, scanned, ends, scan_append (.inl rfl) (.inr ends) scanned _, ?_⟩
  rw [scan_eq_lexWithin]
  decide +kernel

end Language

end CommentStrip
