import CommentStrip.Proofs.Locality

/-!
# Reading a lexeme again

A lexeme of one text is met again in another, at a place where the text before means the same and
with other text after it. For each kind of lexeme it is stated here when it is read again: comments
whenever a line comment is still at the end of its line, literals unless they go on, and code unless
it turns into the start of a comment or literal. Blanks are read as blanks in any case.
-/
namespace CommentStrip

namespace Language

/-- Where the word stands, the two cursors allow the same constructs. -/
structure Alike (language : Language) (word : Text) (source target : Cursor) : Prop where
  name : word.head?.any isNameChar = true →
    target.previous.any isNameChar = source.previous.any isNameChar
  slash : language.regexLiterals = true → target.regexAllowed = source.regexAllowed

/-- Whether the word is a regular expression and what follows would be one more flag of it. -/
def FlaggedBy (word after : Text) : Prop :=
  word.head? = some '/' ∧ after.head?.any Unicode.isAlphanumeric = true

/-- Whether the mark on its own is a quote of the language. -/
def marks (language : Language) (mark : Char) : Bool :=
  language.quotes.any (·.opener == [mark])

/-- What follows a word of code neither makes a longer word of it nor, if it is new there, the
prefix of a literal or the start of a comment. -/
structure Settled (language : Language) (word after other : Text) : Prop where
  name : ∀ c ∈ word.getLast?, isNameChar c = true → ∀ d ∈ other.head?,
    isNameChar d = false ∧ (language.marks d = true → after.head? = some d)
  slash : word.getLast? = some '/' → ∀ d ∈ other.head?, d = '/' ∨ d = '*' → after.head? = some d

variable {language : Language}

theorem lexemeAt_eq (cursor : Cursor) (text : Text) :
    language.lexemeAt cursor text
      = (language.quotedAt? cursor text <|> language.regexAt? cursor text
        <|> language.blockAt? text <|> language.lineAt? text <|> newlineAt? text
        <|> whitespaceAt? text).getD (.ok ⟨.code, 0⟩) := rfl

theorem ReadsAt.takes {point : Point} {token : Token} {rest : Text}
    (reads : language.ReadsAt point token rest) :
    language.Takes point.cursor (token.text ++ rest) ⟨token.kind, token.text.length - 1⟩ :=
  takes_of_lexemeAt reads.2

private theorem findSome?_eq_some {α β : Type} {f : α → Option β} {items : List α} {result : β}
    {item : α} (member : item ∈ items) (found : f item = some result)
    (only : ∀ other ∈ items, f other = none ∨ f other = some result) :
    items.findSome? f = some result := by
  induction items with
  | nil => simp at member
  | cons first rest ih =>
    rw [List.findSome?_cons]
    rcases only first List.mem_cons_self with none | some
    · rw [none]
      rcases List.mem_cons.mp member with rfl | tail
      · rw [none] at found
        simp at found
      · exact ih tail fun other member => only other (List.mem_cons_of_mem _ member)
    · rw [some]

section Literals

variable {previous current : Option Char} {word after other : Text} {source target : Point}

theorem Quoted.head {opening : Opening} {mark : Char} {body : Text}
    (quoted : language.Quoted previous word after opening mark body) :
    ∃ c rest, word = c :: rest ∧ (c.isAlpha = true ∨ isExpressionQuote c = true) := by
  obtain ⟨tail, made, -⟩ := quoted.exists_tail
  cases lead : opening.lead with
  | nil => exact ⟨mark, tail, by rw [made, lead]; rfl, .inr quoted.marked⟩
  | cons c others =>
    exact ⟨c, others ++ mark :: tail, by rw [made, lead]; rfl,
      .inl (quoted.letters c (lead ▸ List.mem_cons_self))⟩

theorem readString_of_slash (conventional : language.Conventional) (previous : Option Char)
    (rest : Text) : language.readString previous ('/' :: rest) = .error (.notOpened 0) := by
  simp [readString, conventional.openingsAt_eq_nil rest (c := '/') (by decide) (by decide) previous,
    Opening.longest?]

private theorem not_tripledBy_of_regex (conventional : language.Conventional) (body : Text)
    {flags : Text} (all : ∀ c ∈ flags, Unicode.isAlphanumeric c = true) (after : Text) :
    ¬language.TripledBy ('/' :: (body ++ '/' :: flags)) after := by
  rintro ⟨lead, mark, whole, -, triples, -⟩
  have last := congrArg List.getLast? whole
  rw [List.append_cons lead, ← List.cons_append, List.getLast?_append, List.getLast?_append] at last
  have marked := isExpressionQuote_of_triples conventional triples
  have noName := not_isNameChar_of_isExpressionQuote marked
  cases flags with
  | nil =>
    obtain rfl : '/' = mark := by simpa using last
    exact absurd marked (by decide)
  | cons c others =>
    have member : mark ∈ c :: others := by
      simp only [List.getLast?_singleton, Option.some_or, List.getLast?_cons_cons] at last
      cases found : (c :: others).getLast? with
      | none => simp at found
      | some d =>
        rw [found, Option.some_or] at last
        obtain rfl := Option.some.inj last
        exact List.mem_of_getLast? found
    simp [isNameChar, all mark member] at noName

/-- A text that is read as a regular expression, with another one after it. -/
structure IsRegex (word after : Text) (body flags : Text) : Prop where
  whole : word = '/' :: (body ++ '/' :: flags)
  closes : Regex.closeIndex? (body ++ '/' :: (flags ++ after)) = some body.length
  flags : ∀ c ∈ flags, Unicode.isAlphanumeric c = true
  stops : ∀ c ∈ after.head?, Unicode.isAlphanumeric c = false

private theorem isRegex_of_read (read : Regex.read (word ++ after) = .ok word.length) :
    ∃ body flags, IsRegex word after body flags := by
  obtain ⟨body, flags, rest, whole, closes, all, stops, length⟩ := Regex.read_eq_ok.mp read
  obtain ⟨made, rfl⟩ : word = '/' :: (body ++ '/' :: flags) ∧ after = rest := by
    refine List.append_inj (whole.trans (by simp)) ?_
    simp only [List.length_cons, List.length_append]
    omega
  exact ⟨body, flags, made, closes, all, stops⟩

theorem sub_add_length (nonempty : word ≠ []) : word.length - 1 + 1 = word.length :=
  Nat.succ_pred_eq_of_pos (List.length_pos_iff.mpr nonempty)

/-- A literal is quoted or a regular expression. -/
theorem ReadsAt.literal (conventional : language.Conventional)
    (reads : language.ReadsAt source ⟨.stringLiteral, word⟩ after) :
    (∃ opening mark body, language.Quoted source.cursor.previous word after opening mark body)
      ∨ (language.regexLiterals = true ∧ source.cursor.regexAllowed = true)
        ∧ ∃ body flags, IsRegex word after body flags := by
  have takes := reads.takes
  simp only at takes
  generalize more : word.length - 1 = count at takes
  cases takes with
  | quoted read =>
    rw [← more, sub_add_length reads.1] at read
    exact .inl (quoted_of_readString conventional read)
  | regex unquoted allowed read =>
    rw [← more, sub_add_length reads.1] at read
    exact .inr ⟨allowed, isRegex_of_read read⟩

private theorem quoted_iff (conventional : language.Conventional) {opening : Opening} {mark : Char}
    {body : Text}
    (quoted : language.Quoted source.cursor.previous word after opening mark body)
    (alike : language.Alike word source.cursor target.cursor) :
    language.ReadsAt target ⟨.stringLiteral, word⟩ other ↔ ¬language.TripledBy word other := by
  obtain ⟨c, rest, start, first⟩ := quoted.head
  have nonempty : word ≠ [] := by simp [start]
  rw [← quoted.readString_iff conventional alike.name]
  constructor
  · intro again
    rcases again.literal conventional with ⟨_, _, _, again⟩ | ⟨-, _, _, regex⟩
    · exact (again.readString_iff conventional fun _ => rfl).mpr again.not_tripledBy
    · obtain ⟨rfl, -⟩ := List.cons.inj (start.symm.trans regex.whole)
      rcases first with letter | mark
      · exact absurd letter (by decide)
      · exact absurd mark (by decide)
  · intro read
    have found : language.quotedAt? target.cursor (word ++ other)
        = some (.ok ⟨.stringLiteral, word.length - 1⟩) := by
      rw [quotedAt?, Lexeme.ofReading?_eq_ok]
      exact ⟨rfl, by rw [read, sub_add_length nonempty]⟩
    refine ⟨nonempty, ?_⟩
    rw [lexemeAt_eq, found]
    rfl

private theorem regex_iff (conventional : language.Conventional) {body flags : Text}
    (allowed : language.regexLiterals = true ∧ source.cursor.regexAllowed = true)
    (regex : IsRegex word after body flags)
    (alike : language.Alike word source.cursor target.cursor) :
    language.ReadsAt target ⟨.stringLiteral, word⟩ other ↔ ¬FlaggedBy word other := by
  have nonempty : word ≠ [] := by simp [regex.whole]
  have noString : language.readString target.cursor.previous (word ++ other)
      = .error (.notOpened 0) := by
    rw [regex.whole]
    exact readString_of_slash conventional _ _
  constructor
  · rintro again ⟨-, flagged⟩
    rcases again.literal conventional with ⟨_, _, _, quoted⟩ | ⟨-, _, _, again⟩
    · have read := (quoted.readString_iff conventional fun _ => rfl).mpr quoted.not_tripledBy
      rw [noString] at read
      simp at read
    · cases other with
      | nil => simp at flagged
      | cons c others =>
        rw [List.head?_cons, Option.any_some, again.stops c rfl] at flagged
        simp at flagged
  · intro unflagged
    have stops : ∀ c ∈ other.head?, Unicode.isAlphanumeric c = false := by
      intro c head
      by_contra flag
      refine unflagged ⟨by rw [regex.whole]; rfl, ?_⟩
      rw [Option.mem_def.mp head]
      simpa using flag
    have read : Regex.read (word ++ other) = .ok word.length := by
      refine Regex.read_eq_ok.mpr ⟨body, flags, other, by simp [regex.whole], ?_, regex.flags, stops,
        ?_⟩
      · exact Regex.closeIndex?_local (flags ++ other) regex.closes
      · rw [regex.whole]
        simp only [List.length_cons, List.length_append]
        omega
    have found : language.regexAt? target.cursor (word ++ other)
        = some (.ok ⟨.stringLiteral, word.length - 1⟩) := by
      rw [regexAt?, if_pos (by simp [allowed, alike.slash allowed.1]), Lexeme.ofReading?_eq_ok]
      exact ⟨rfl, by rw [read, sub_add_length nonempty]⟩
    have noQuote : language.quotedAt? target.cursor (word ++ other) = none := by
      rw [quotedAt?, noString]
      rfl
    refine ⟨nonempty, ?_⟩
    rw [lexemeAt_eq, noQuote, found]
    rfl

/-- A literal is read again, unless it is a regular expression and gets another flag, or empty and
gets a third quote. -/
theorem literal_iff (conventional : language.Conventional)
    (reads : language.ReadsAt source ⟨.stringLiteral, word⟩ after)
    (alike : language.Alike word source.cursor target.cursor) :
    language.ReadsAt target ⟨.stringLiteral, word⟩ other
      ↔ ¬FlaggedBy word other ∧ ¬language.TripledBy word other := by
  rcases reads.literal conventional with ⟨opening, mark, body, quoted⟩ | ⟨allowed, body, flags, regex⟩
  · have noFlag : ¬FlaggedBy word other := by
      rintro ⟨head, -⟩
      obtain ⟨c, rest, start, first⟩ := quoted.head
      rw [start, List.head?_cons, Option.some.injEq] at head
      rw [head] at first
      exact absurd first (by decide)
    rw [quoted_iff conventional quoted alike, and_iff_right noFlag]
  · have untripled : ¬language.TripledBy word other := by
      rw [regex.whole]
      exact not_tripledBy_of_regex conventional body regex.flags other
    rw [regex_iff conventional allowed regex alike, and_iff_left untripled]

end Literals

section Comments

variable {word after other : Text} {source target : Point}

private theorem regexAt?_of_comment {cursor : Cursor} {c : Char} (rest : Text)
    (comment : c = '/' ∨ c = '*') : language.regexAt? cursor ('/' :: c :: rest) = none := by
  rw [regexAt?_eq_none]
  rintro ⟨-, -, body, whole, closes⟩
  obtain ⟨-, rfl⟩ := List.cons.inj whole
  simp [Regex.closeIndex?, comment] at closes

/-- A block comment stands between its delimiters. -/
theorem ReadsAt.block (conventional : language.Conventional)
    (reads : language.ReadsAt source ⟨.blockComment, word⟩ after) :
    Delimiters.slashStar ∈ language.blockComments
      ∧ ∃ body, word = '/' :: '*' :: (body ++ ['*', '/'])
        ∧ Text.occurrence? ['*', '/'] (body ++ (['*', '/'] ++ after)) = some body.length := by
  have takes := reads.takes
  simp only at takes
  generalize more : word.length - 1 = count at takes
  cases takes with
  | @block _ unquoted noRegex block member read =>
    obtain rfl := conventional.blocks block member
    rw [← more, sub_add_length reads.1] at read
    obtain ⟨body, rest, whole, closes, length⟩ := Delimiters.readComment_eq_ok.mp read
    obtain ⟨rfl, rfl⟩ : word = Delimiters.slashStar.opener ++ (body ++ Delimiters.slashStar.closer)
        ∧ after = rest := by
      refine List.append_inj (whole.trans (by simp)) ?_
      simp only [List.length_append] at length ⊢
      omega
    exact ⟨member, body, rfl, closes⟩

/-- A block comment is read again. -/
theorem block_reads (conventional : language.Conventional)
    (reads : language.ReadsAt source ⟨.blockComment, word⟩ after) :
    language.ReadsAt target ⟨.blockComment, word⟩ other := by
  obtain ⟨known, body, whole, closes⟩ := reads.block conventional
  have again : Delimiters.slashStar.readComment (word ++ other) = .ok word.length := by
    refine Delimiters.readComment_eq_ok.mpr ⟨body, other, ?_, Text.occurrence?_local other closes, ?_⟩
    · rw [whole]
      simp [Delimiters.slashStar]
    · rw [whole]
      change _ = 2 + body.length + 2
      simp only [List.length_cons, List.length_append, List.length_nil]
      omega
  have read : Lexeme.ofReading? .blockComment (some .blockComment)
      (Delimiters.slashStar.readComment (word ++ other))
      = some (.ok ⟨.blockComment, word.length - 1⟩) := by
    rw [Lexeme.ofReading?_eq_ok]
    exact ⟨rfl, by rw [again, sub_add_length reads.1]⟩
  have found : language.blockAt? (word ++ other)
      = some (.ok ⟨.blockComment, word.length - 1⟩) := by
    refine findSome?_eq_some known read fun block member => .inr ?_
    rw [conventional.blocks block member, read]
  have start : word ++ other = '/' :: '*' :: (body ++ ['*', '/'] ++ other) := by
    rw [whole]
    rfl
  have noString : language.quotedAt? target.cursor (word ++ other) = none := by
    rw [quotedAt?, start, readString_of_slash conventional]
    rfl
  have noRegex : language.regexAt? target.cursor (word ++ other) = none := by
    rw [start]
    exact regexAt?_of_comment _ (.inr rfl)
  refine ⟨reads.1, ?_⟩
  rw [lexemeAt_eq, noString, noRegex, found]
  rfl

/-- A line comment is its marker and the rest of its line. -/
theorem ReadsAt.line (reads : language.ReadsAt source ⟨.lineComment, word⟩ after) :
    ∃ marker ∈ language.lineMarkers, ∃ body, word = marker ++ body
      ∧ (∀ c ∈ body, isLineBreak c = false) ∧ ∀ c ∈ after.head?, isLineBreak c = true := by
  have takes := reads.takes
  simp only at takes
  generalize more : word.length - 1 = count at takes
  cases takes with
  | @line _ unquoted noRegex noBlock marker member read =>
    rw [← more, sub_add_length reads.1] at read
    obtain ⟨body, rest, whole, unbroken, ends, length⟩ := readLineComment_eq_ok.mp read
    obtain ⟨rfl, rfl⟩ : word = marker ++ body ∧ after = rest := by
      refine List.append_inj (whole.trans (by simp)) ?_
      simp only [List.length_append]
      omega
    exact ⟨marker, member, body, rfl, unbroken, ends⟩

/-- A line comment is read again if nothing comes after it on its line. -/
theorem line_reads (conventional : language.Conventional)
    (reads : language.ReadsAt source ⟨.lineComment, word⟩ after)
    (ends : ∀ c ∈ other.head?, isLineBreak c = true) :
    language.ReadsAt target ⟨.lineComment, word⟩ other := by
  obtain ⟨marker, known, body, whole, unbroken, -⟩ := reads.line
  have again : readLineComment marker (word ++ other) = .ok word.length :=
    readLineComment_eq_ok.mpr ⟨body, other, by simp [whole], unbroken, ends, by simp [whole]⟩
  have read : Lexeme.ofReading? .lineComment none (readLineComment marker (word ++ other))
      = some (.ok ⟨.lineComment, word.length - 1⟩) := by
    rw [Lexeme.ofReading?_eq_ok]
    exact ⟨rfl, by rw [again, sub_add_length reads.1]⟩
  have found : language.lineAt? (word ++ other)
      = some (.ok ⟨.lineComment, word.length - 1⟩) := by
    refine findSome?_eq_some known read fun second member => ?_
    -- another marker that stands here can only be the same one
    by_cases same : second = marker
    · exact .inr (by rw [same, read])
    · left
      have absent : second.isPrefixOf (word ++ other) = false := by
        rw [whole]
        rcases conventional.markers marker known with rfl | rfl <;>
          rcases conventional.markers second member with rfl | rfl <;>
            first
              | exact absurd rfl same
              | simp [List.isPrefixOf]
      simp [readLineComment, absent, Lexeme.ofReading?]
  have others : language.quotedAt? target.cursor (word ++ other) = none
      ∧ language.regexAt? target.cursor (word ++ other) = none
      ∧ language.blockAt? (word ++ other) = none := by
    rw [conventional.quotedAt?_eq_none, conventional.blockAt?_eq_none, whole]
    rcases conventional.markers marker known with rfl | rfl
    · refine ⟨conventional.openingsAt_eq_nil _ (by decide) (by decide) _, ?_, .inr rfl⟩
      rw [regexAt?_eq_none]
      rintro ⟨-, -, _, whole, -⟩
      exact absurd (List.cons.inj whole).1 (by decide)
    · exact ⟨conventional.openingsAt_eq_nil _ (by decide) (by decide) _,
        regexAt?_of_comment _ (.inl rfl), .inr rfl⟩
  obtain ⟨noString, noRegex, noBlock⟩ := others
  refine ⟨reads.1, ?_⟩
  rw [lexemeAt_eq, noString, noRegex, noBlock, found]
  rfl

end Comments

section Code

variable {c : Char} {word after other : Text} {source target : Point}

theorem mem_leadsAt_iff {previous : Option Char} {text lead : Text} :
    lead ∈ language.leadsAt previous text
      ↔ lead = [] ∨ previous.any isNameChar = false ∧ ∃ known ∈ language.stringPrefixes,
        lead = text.take known.length ∧ lead.sameIgnoringCase known = true := by
  simp only [leadsAt]
  split
  next name => simp [name]
  next free =>
    simp only [Bool.not_eq_true] at free
    simp only [List.mem_cons, List.mem_filterMap, free, true_and]
    apply or_congr_right
    constructor
    · rintro ⟨known, listed, written⟩
      split at written
      next same =>
        obtain rfl := Option.some.inj written
        exact ⟨known, listed, rfl, same⟩
      · simp at written
    · rintro ⟨known, listed, rfl, same⟩
      exact ⟨known, listed, by simp [same]⟩

private theorem openingsAt_code (conventional : language.Conventional) {previous current : Option Char}
    (free : language.openingsAt previous (c :: (word ++ after)) = [])
    (name : isNameChar c = true → current.any isNameChar = previous.any isNameChar)
    (settled : language.Settled (c :: word) after other) :
    language.openingsAt current (c :: (word ++ other)) = [] := by
  rw [List.eq_nil_iff_forall_not_mem] at free ⊢
  rintro ⟨lead, quote⟩ member
  obtain ⟨leads, known, opens⟩ := mem_openingsAt_iff.mp member
  obtain ⟨⟨rest, whole⟩, letters, -⟩ := conventional.mem_leadsAt leads
  obtain ⟨mark, marked, opener, -⟩ := conventional.quote_shape known
  obtain ⟨plain, plainKnown, single⟩ : ∃ plain ∈ language.quotes, plain.opener = [mark] := by
    refine conventional.single quote known mark ?_
    rcases opener with opener | opener <;> simp [opener]
  -- the same prefix and the mark on its own would have opened a literal in the source
  suffices there : ∃ rest, c :: (word ++ after) = lead ++ mark :: rest by
    obtain ⟨rest, whole⟩ := there
    refine free ⟨lead, plain⟩ (mem_openingsAt_iff.mpr ⟨?_, plainKnown, ?_⟩)
    · rcases mem_leadsAt_iff.mp leads with rfl | ⟨start, prefixed, listed, written, same⟩
      · exact mem_leadsAt_iff.mpr (.inl rfl)
      · cases lead with
        | nil => exact mem_leadsAt_iff.mpr (.inl rfl)
        | cons d others =>
          obtain ⟨rfl, -⟩ := List.cons.inj whole
          have size : (c :: others).length = prefixed.length := by
            have lengths := congrArg List.length (beq_iff_eq.mp same)
            simpa only [List.length_map] using lengths
          refine mem_leadsAt_iff.mpr (.inr ⟨?_, prefixed, listed, ?_, same⟩)
          · rw [← name (isNameChar_of_isAlpha (letters c List.mem_cons_self)), start]
          · rw [whole, ← size, List.take_left]
    · rw [whole, List.drop_left, single]
      simp
  have next : ∃ more, rest = mark :: more := by
    rw [whole, List.drop_left] at opens
    cases rest with
    | nil => rcases opener with opener | opener <;> simp [opener] at opens
    | cons d more =>
      refine ⟨more, ?_⟩
      rcases opener with opener | opener <;>
        · simp only [opener, List.isPrefixOf_cons_cons, Bool.and_eq_true, beq_iff_eq] at opens
          rw [opens.1]
  obtain ⟨more, rfl⟩ := next
  have new (inside : ∀ d ∈ c :: word, d.isAlpha = true) (d : Char) (head : d ∈ other.head?) :
      isNameChar d = false ∧ (language.marks d = true → after.head? = some d) :=
    settled.name _ (List.getLast?_eq_some_getLast (List.cons_ne_nil c word))
      (isNameChar_of_isAlpha (inside _ (List.getLast_mem _))) d head
  have entire (same : lead = c :: word) (tail : other = mark :: more) :
      ∃ rest, c :: (word ++ after) = lead ++ mark :: rest := by
    have known : language.marks mark = true :=
      List.any_eq_true.mpr ⟨plain, plainKnown, by simp [single]⟩
    have there := (new (same ▸ letters) mark (by rw [tail]; rfl)).2 known
    obtain ⟨others, rfl⟩ := List.head?_eq_some_iff.mp there
    exact ⟨others, by rw [same]; rfl⟩
  rw [← List.cons_append] at whole
  rcases List.append_eq_append_iff.mp whole with ⟨between, longer, tail⟩ | ⟨between, inside, tail⟩
  · cases between with
    | nil => exact entire (by simpa using longer) (by simpa using tail)
    | cons d others =>
      -- a longer prefix would begin a name with the character that is new after the word
      have name := isNameChar_of_isAlpha (letters d (by simp [longer]))
      rw [(new (fun e member => letters e (longer ▸ List.mem_append_left _ member)) d (by simp [tail])).1] at name
      simp at name
  · cases between with
    | nil => exact entire (by simpa using inside.symm) (by simpa using tail.symm)
    | cons d others =>
      obtain ⟨rfl, -⟩ := List.cons.inj tail
      exact ⟨others ++ after, by rw [← List.cons_append, inside]; simp⟩

private theorem slash_isPrefixOf {d : Char} (comment : d = '/' ∨ d = '*')
    (absent : ['/', d].isPrefixOf (c :: (word ++ after)) = false)
    (settled : language.Settled (c :: word) after other) :
    ['/', d].isPrefixOf (c :: (word ++ other)) = false := by
  cases word with
  | cons e others => simpa [List.isPrefixOf] using absent
  | nil =>
    by_contra opens
    simp only [List.nil_append, Bool.not_eq_false, List.isPrefixOf_cons_cons, Bool.and_eq_true,
      beq_iff_eq] at opens absent
    obtain ⟨rfl, next⟩ := opens
    cases other with
    | nil => simp at next
    | cons e others =>
      obtain rfl : d = e := by simpa using next
      have there := settled.slash rfl d rfl comment
      obtain ⟨more, rfl⟩ := List.head?_eq_some_iff.mp there
      simp at absent

/-- A character of code is read again, unless it now begins a regular expression. -/
theorem code_iff (conventional : language.Conventional)
    (reads : language.ReadsAt source ⟨.code, [c]⟩ (word ++ after))
    (alike : language.Alike [c] source.cursor target.cursor)
    (settled : language.Settled (c :: word) after other) :
    language.ReadsAt target ⟨.code, [c]⟩ (word ++ other)
      ↔ ¬(language.regexLiterals = true ∧ target.cursor.regexAllowed = true ∧ c = '/'
        ∧ (Regex.closeIndex? (word ++ other)).isSome = true) := by
  have taken := reads.takes
  simp only [List.cons_append, List.nil_append] at taken
  cases taken with
  | code unquoted noRegex noBlock noLine noNewline noWhitespace =>
    rw [conventional.quotedAt?_eq_none] at unquoted
    rw [conventional.blockAt?_eq_none] at noBlock
    rw [conventional.lineAt?_eq_none] at noLine
    rw [newlineAt?_eq_none] at noNewline
    rw [whitespaceAt?_eq_none] at noWhitespace
    have noString : language.quotedAt? target.cursor (c :: (word ++ other)) = none := by
      rw [conventional.quotedAt?_eq_none]
      refine openingsAt_code conventional unquoted (fun name => alike.name ?_) settled
      simpa using name
    have noBlock : language.blockAt? (c :: (word ++ other)) = none := by
      rw [conventional.blockAt?_eq_none]
      exact noBlock.imp_right fun absent => slash_isPrefixOf (.inr rfl) absent settled
    have noLine : language.lineAt? (c :: (word ++ other)) = none := by
      rw [conventional.lineAt?_eq_none]
      intro marker known
      have absent := noLine marker known
      rcases conventional.markers marker known with rfl | rfl
      · simpa [List.isPrefixOf] using absent
      · exact slash_isPrefixOf (.inl rfl) absent settled
    have regex : language.regexAt? target.cursor (c :: (word ++ other)) = none
        ↔ ¬(language.regexLiterals = true ∧ target.cursor.regexAllowed = true ∧ c = '/'
          ∧ (Regex.closeIndex? (word ++ other)).isSome = true) := by
      rw [regexAt?_eq_none]
      simp only [List.cons.injEq, and_assoc]
      constructor
      · rintro never ⟨known, allowed, slash, closes⟩
        exact never ⟨known, allowed, _, slash, rfl, closes⟩
      · rintro never ⟨known, allowed, _, slash, rfl, closes⟩
        exact never ⟨known, allowed, slash, closes⟩
    rw [← regex]
    constructor
    · intro again
      have taken := again.takes
      simp only [List.cons_append, List.nil_append] at taken
      cases taken with
      | code _ noRegex => exact noRegex
    · intro noRegex
      refine ⟨List.cons_ne_nil c [], ?_⟩
      rw [lexemeAt_eq]
      simp only [List.cons_append, List.nil_append, noString, noRegex, noBlock, noLine,
        newlineAt?_eq_none.mpr noNewline, whitespaceAt?_eq_none.mpr noWhitespace]
      rfl

end Code

section Blanks

variable {point : Point}

theorem lexemeAt_blank (conventional : language.Conventional) {c : Char}
    (blank : isBlankChar c = true) (cursor : Cursor) (rest : Text) :
    language.lexemeAt cursor (c :: rest)
      = (newlineAt? (c :: rest) <|> whitespaceAt? (c :: rest)).getD (.ok ⟨.code, 0⟩) := by
  have noSlash : c ≠ '/' := by
    rintro rfl
    exact absurd blank (by decide)
  have noHash : c ≠ '#' := by
    rintro rfl
    exact absurd blank (by decide)
  have noString : language.quotedAt? cursor (c :: rest) = none := by
    rw [conventional.quotedAt?_eq_none]
    exact conventional.openingsAt_eq_nil rest (not_isAlpha_of_isBlankChar blank)
      (not_isExpressionQuote_of_isBlankChar blank) _
  have noRegex : language.regexAt? cursor (c :: rest) = none := by
    rw [regexAt?_eq_none]
    rintro ⟨-, -, _, whole, -⟩
    exact noSlash (List.cons.inj whole).1
  have noBlock : language.blockAt? (c :: rest) = none := by
    rw [conventional.blockAt?_eq_none]
    right
    simp [List.isPrefixOf, noSlash.symm]
  have noLine : language.lineAt? (c :: rest) = none := by
    rw [conventional.lineAt?_eq_none]
    intro marker known
    rcases conventional.markers marker known with rfl | rfl <;>
      simp [List.isPrefixOf, noSlash.symm, noHash.symm]
  rw [lexemeAt_eq, noString, noRegex, noBlock, noLine]
  rfl

/-- A line break is one of three texts; a carriage return alone is one only where no line feed comes
next. -/
theorem ReadsAt.newline_shape {word rest : Text}
    (reads : language.ReadsAt point ⟨.newline, word⟩ rest) :
    word = ['\r', '\n'] ∨ word = ['\n'] ∨ word = ['\r'] ∧ rest.head? ≠ some '\n' := by
  have takes := reads.takes
  simp only at takes
  generalize more : word.length - 1 = count at takes
  cases takes with
  | newline read =>
    rw [← more, sub_add_length reads.1] at read
    obtain ⟨lineBreak, others, whole, length, shape⟩ := Blank.readNewline_eq_ok read
    obtain ⟨rfl, rfl⟩ := List.append_inj whole length.symm
    exact shape

theorem newline_iff (conventional : language.Conventional) {word rest : Text} :
    language.ReadsAt point ⟨.newline, word⟩ rest
      ↔ word = ['\r', '\n'] ∨ word = ['\n'] ∨ word = ['\r'] ∧ rest.head? ≠ some '\n' := by
  constructor
  · exact ReadsAt.newline_shape
  · rintro (rfl | rfl | ⟨rfl, single⟩)
    · exact ⟨List.cons_ne_nil _ _, lexemeAt_blank conventional (by decide) _ _⟩
    · exact ⟨List.cons_ne_nil _ _, lexemeAt_blank conventional (by decide) _ _⟩
    · refine ⟨List.cons_ne_nil _ _, ?_⟩
      have found : newlineAt? ('\r' :: rest) = some (.ok ⟨.newline, 0⟩) := by
        cases rest with
        | nil => rfl
        | cons d others =>
          rw [List.head?_cons, ne_eq, Option.some.injEq] at single
          unfold newlineAt? Blank.readNewline
          split <;> simp_all [Lexeme.ofReading?]
      rw [List.singleton_append, lexemeAt_blank conventional (by decide), found]
      rfl

/-- Blanks inside a line are read as far as they go. -/
theorem ReadsAt.whitespace_shape {word rest : Text}
    (reads : language.ReadsAt point ⟨.whitespace, word⟩ rest) :
    word ≠ [] ∧ (∀ c ∈ word, isInlineBlank c = true)
      ∧ ∀ c ∈ rest.head?, isInlineBlank c = false := by
  have takes := reads.takes
  simp only at takes
  generalize more : word.length - 1 = count at takes
  cases takes with
  | whitespace read =>
    rw [← more, sub_add_length reads.1] at read
    obtain ⟨blanks, others, whole, -, all, stops, length⟩ := Blank.readWhitespace_eq_ok.mp read
    obtain ⟨rfl, rfl⟩ := List.append_inj whole length
    exact ⟨reads.1, all, stops⟩

theorem whitespace_iff (conventional : language.Conventional) {word rest : Text} :
    language.ReadsAt point ⟨.whitespace, word⟩ rest
      ↔ word ≠ [] ∧ (∀ c ∈ word, isInlineBlank c = true)
        ∧ ∀ c ∈ rest.head?, isInlineBlank c = false := by
  constructor
  · exact ReadsAt.whitespace_shape
  · rintro ⟨nonempty, all, stops⟩
    refine ⟨nonempty, ?_⟩
    obtain ⟨c, others, rfl⟩ := List.exists_cons_of_ne_nil nonempty
    have inline := all c List.mem_cons_self
    have noNewline : newlineAt? (c :: (others ++ rest)) = none := by
      rw [newlineAt?_eq_none]
      by_contra lineBreak
      rw [Bool.not_eq_false] at lineBreak
      simp [not_isInlineBlank_of_isLineBreak lineBreak] at inline
    have found : whitespaceAt? (c :: (others ++ rest))
        = some (.ok ⟨.whitespace, (c :: others).length - 1⟩) := by
      rw [whitespaceAt?, Lexeme.ofReading?_eq_ok, Blank.readWhitespace_eq_ok]
      exact ⟨rfl, c :: others, rest, rfl, nonempty, all, stops, rfl⟩
    rw [List.cons_append, lexemeAt_blank conventional (by simp [isBlankChar, inline]), noNewline,
      found]
    rfl

/-- Blanks in front of other text begin with a blank token. -/
private theorem blank_first (point : Point) (conventional : language.Conventional) (c : Char)
    (blanks rest : Text) (all : ∀ d ∈ c :: blanks, isBlankChar d = true)
    (stops : ∀ d ∈ rest.head?, isBlankChar d = false) :
    ∃ token more, c :: blanks = token.text ++ more ∧ token.kind.isBlank = true
      ∧ language.ReadsAt point token (more ++ rest) := by
  have blank := all c List.mem_cons_self
  by_cases inline : isInlineBlank c = true
  · -- all blanks up to the next one that ends a line
    obtain ⟨more, whole, within, after⟩ := exists_append_takeWhile isInlineBlank (c :: blanks)
    have start : (c :: blanks).takeWhile isInlineBlank ≠ [] := by simp [inline]
    have ends : ∀ d ∈ (more ++ rest).head?, isInlineBlank d = false := by
      cases more with
      | cons d others => simpa using after
      | nil =>
        intro d head
        have other := stops d head
        simp only [isBlankChar, Bool.or_eq_false_iff] at other
        exact other.1
    exact ⟨⟨.whitespace, (c :: blanks).takeWhile isInlineBlank⟩, more, whole, rfl,
      (whitespace_iff conventional).mpr ⟨start, within, ends⟩⟩
  · have lineBreak : c = '\n' ∨ c = '\r' := by
      simpa [isBlankChar, inline, isLineBreak] using blank
    rcases lineBreak with rfl | rfl
    · exact ⟨⟨.newline, ['\n']⟩, blanks, rfl, rfl, (newline_iff conventional).mpr (.inr (.inl rfl))⟩
    · by_cases pair : blanks.head? = some '\n'
      · obtain ⟨more, rfl⟩ := List.head?_eq_some_iff.mp pair
        exact ⟨⟨.newline, ['\r', '\n']⟩, more, rfl, rfl, (newline_iff conventional).mpr (.inl rfl)⟩
      · have single : (blanks ++ rest).head? ≠ some '\n' := by
          cases blanks with
          | cons d others => simpa using pair
          | nil =>
            intro head
            exact absurd (stops '\n' head) (by decide)
        exact ⟨⟨.newline, ['\r']⟩, blanks, rfl, rfl,
          (newline_iff conventional).mpr (.inr (.inr ⟨rfl, single⟩))⟩

/-- Blanks in front of other text are read as blank tokens. -/
theorem blanks_read (conventional : language.Conventional) (blanks rest : Text)
    (all : ∀ c ∈ blanks, isBlankChar c = true) (stops : ∀ c ∈ rest.head?, isBlankChar c = false) :
    ∃ tokens, Token.textOf tokens = blanks ∧ (∀ token ∈ tokens, token.kind.isBlank = true)
      ∧ language.Reads point tokens rest := by
  induction size : blanks.length using Nat.strong_induction_on generalizing point blanks with
  | _ count ih =>
    cases blanks with
    | nil => exact ⟨[], rfl, by simp, trivial⟩
    | cons c others =>
      obtain ⟨token, more, whole, blank, reads⟩ :=
        blank_first point conventional c others rest all stops
      have shorter : more.length < count := by
        have positive := List.length_pos_iff.mpr reads.1
        have lengths := congrArg List.length whole
        rw [List.length_append, size] at lengths
        omega
      obtain ⟨tokens, rfl, blanks, later⟩ := ih _ shorter more
        (fun d member => all d (whole ▸ List.mem_append_right _ member)) rfl
      refine ⟨token :: tokens, whole.symm, ?_, reads, later⟩
      rintro other (_ | ⟨_, tail⟩)
      · exact blank
      · exact blanks other tail

end Blanks

end Language

end CommentStrip
