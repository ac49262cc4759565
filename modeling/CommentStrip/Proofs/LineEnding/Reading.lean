import CommentStrip.Proofs.LineEnding.Text
import CommentStrip.Proofs.Rereading

/-!
# Readings of line feeds and pairs

A construct that stands at the start of a text stands there too once every line feed is a pair, and
takes what its characters have become. Only a line break itself is longer as a token; a string
literal may hold line breaks, and the search for its closing quote passes over both characters of a
pair as it passes over a line feed.
-/
namespace CommentStrip

open Text

theorem isLineBreak_of_isExpressionQuote {c : Char} (mark : isExpressionQuote c = true) :
    isLineBreak c = false := by
  by_contra lineBreak
  have blank : isBlankChar c = true := by simp_all [isBlankChar]
  simp [not_isExpressionQuote_of_isBlankChar blank] at mark

theorem isLineBreak_of_isAlpha {c : Char} (letter : c.isAlpha = true) : isLineBreak c = false := by
  by_contra lineBreak
  have blank : isBlankChar c = true := by simp_all [isBlankChar]
  simp [not_isAlpha_of_isBlankChar blank] at letter

theorem not_mem_feed_of_unbroken {word : Text} (plain : ∀ c ∈ word, isLineBreak c = false) :
    '\n' ∉ word := by
  intro member
  exact absurd (plain '\n' member) (by decide)

/-- The quote of an embedded expression, if there is one, is no line break. -/
def BodyPart.Unbroken : BodyPart → Prop
  | .expression _ (some quote) => isLineBreak quote = false
  | _ => True

namespace BodyRule

/-- Nothing that the rule looks for holds a line break. -/
structure Unbroken (rule : BodyRule) : Prop where
  closed : rule.closer ≠ []
  closer : ∀ c ∈ rule.closer, isLineBreak c = false
  escape : ∀ c ∈ rule.escape, isLineBreak c = false
  interpolation : ∀ opener ∈ rule.interpolation, ∀ c ∈ opener, isLineBreak c = false

private theorem not_isPrefixOf_lineBreak {sought : Text} (nonempty : sought ≠ [])
    (plain : ∀ c ∈ sought, isLineBreak c = false) {c : Char} (lineBreak : isLineBreak c = true)
    (rest : Text) : sought.isPrefixOf (c :: rest) = false := by
  obtain ⟨d, others, rfl⟩ := List.exists_cons_of_ne_nil nonempty
  have other : (d == c) = false := by
    rw [beq_eq_false_iff_ne]
    rintro rfl
    rw [plain d List.mem_cons_self] at lineBreak
    exact absurd lineBreak (by decide)
  simp [List.isPrefixOf, other]

variable {rule : BodyRule} {part : BodyPart} {c : Char}

/-- A line break is passed over on its own and leaves the part as it is. -/
theorem step_lineBreak (unbroken : rule.Unbroken) (inside : part.Unbroken)
    (lineBreak : isLineBreak c = true) (rest : Text) : rule.step c rest part = some (0, part) := by
  have either : c = '\n' ∨ c = '\r' := by simpa [isLineBreak] using lineBreak
  cases part with
  | own =>
    -- the line break is no escape, opens no expression and does not begin the closing quote
    have unescaped : rule.escape ≠ some c := by
      intro escaped
      simp [unbroken.escape c escaped] at lineBreak
    have outside : rule.interpolationAt? (c :: rest) = none := by
      unfold interpolationAt?
      cases embedded : rule.interpolation with
      | none => rfl
      | some opener =>
        by_cases empty : opener = []
        · simp [empty]
        · simp [not_isPrefixOf_lineBreak empty (unbroken.interpolation opener embedded) lineBreak]
    simp [step, unescaped, outside,
      not_isPrefixOf_lineBreak unbroken.closed unbroken.closer lineBreak]
  | expression depth quote =>
    cases quote with
    | none => rcases either with rfl | rfl <;> simp [step, isExpressionQuote]
    | some quote =>
      -- a literal inside the expression goes on too, since its quote is another character
      have other : c ≠ quote := by
        rintro rfl
        rw [BodyPart.Unbroken, lineBreak] at inside
        exact absurd inside (by decide)
      rcases either with rfl | rfl <;> simp [step, other]

private theorem interpolationAt?_crlf (unbroken : rule.Unbroken) (text : Text) :
    rule.interpolationAt? (crlf text) = rule.interpolationAt? text := by
  unfold interpolationAt?
  cases embedded : rule.interpolation with
  | none => rfl
  | some opener =>
    have plain := unbroken.interpolation opener embedded
    have twice : ∀ c ∈ opener ++ opener, isLineBreak c = false :=
      List.forall_mem_append.mpr ⟨plain, plain⟩
    simp only [isPrefixOf_crlf plain, isPrefixOf_crlf twice]

/-- What opens an expression holds no line feed. -/
private theorem interpolationAt?_inside (unbroken : rule.Unbroken) {text : Text} {length : Nat}
    {next : BodyPart} (embedded : rule.interpolationAt? text = some (length, next)) :
    next.Unbroken ∧ '\n' ∉ text.take length := by
  unfold interpolationAt? at embedded
  split at embedded
  · simp at embedded
  next opener known =>
    have plain := not_mem_feed_of_unbroken (unbroken.interpolation opener known)
    split at embedded
    · simp at embedded
    next opens =>
      split at embedded
      next doubled =>
        obtain ⟨rfl, rfl⟩ : 2 * opener.length = length ∧ BodyPart.own = next := by
          simpa using embedded
        obtain ⟨more, rfl⟩ := List.isPrefixOf_iff_prefix.mp doubled
        have size : 2 * opener.length = (opener ++ opener).length := by
          rw [List.length_append, Nat.two_mul]
        refine ⟨trivial, ?_⟩
        rw [size, List.take_left, List.mem_append, or_self]
        exact plain
      · obtain ⟨rfl, rfl⟩ : opener.length = length ∧ BodyPart.expression 0 none = next := by
          simpa using embedded
        have first : opener.isPrefixOf text = true := by
          simp only [Bool.or_eq_true, Bool.not_eq_true', not_or, Bool.not_eq_false] at opens
          exact opens.2
        obtain ⟨more, rfl⟩ := List.isPrefixOf_iff_prefix.mp first
        refine ⟨trivial, ?_⟩
        rwa [List.take_left]

/-- Other characters are passed over as before. -/
theorem step_crlf (unbroken : rule.Unbroken) (other : c ≠ '\n') (rest : Text) :
    rule.step c (crlf rest) part = rule.step c rest part := by
  cases part with
  -- inside an expression a step looks at one character only
  | expression depth quote => cases quote <;> rfl
  | own =>
    simp only [step, ← crlf_cons other, interpolationAt?_crlf unbroken,
      isPrefixOf_crlf unbroken.closer]

/-- A step goes on to a part whose quote is no line break, and what it makes inert is one character
or holds no line feed. -/
theorem step_inside (unbroken : rule.Unbroken) (inside : part.Unbroken) {rest : Text} {inert : Nat}
    {next : BodyPart} (passed : rule.step c rest part = some (inert, next)) :
    next.Unbroken ∧ (inert ≤ 1 ∨ '\n' ∉ rest.take inert) := by
  -- most steps make at most one character inert
  have short {length : Nat} {after : BodyPart} (made : some (length, after) = some (inert, next))
      (onward : after.Unbroken) (one : length ≤ 1) :
      next.Unbroken ∧ (inert ≤ 1 ∨ '\n' ∉ rest.take inert) := by
    obtain ⟨rfl, rfl⟩ := Prod.mk.inj (Option.some.inj made)
    exact ⟨onward, .inl one⟩
  cases part with
  | own =>
    simp only [step] at passed
    split at passed
    · exact short passed trivial (Nat.le_refl 1)
    · split at passed
      next length after embedded =>
        -- the opener of an expression, or a doubled one, is passed over as a whole
        obtain ⟨rfl, rfl⟩ := Prod.mk.inj (Option.some.inj passed)
        obtain ⟨onward, plain⟩ := interpolationAt?_inside unbroken embedded
        refine ⟨onward, .inr ?_⟩
        cases length with
        | zero => simp
        | succ length =>
          rw [List.take_succ_cons, List.mem_cons, not_or] at plain
          exact plain.2
      · split at passed
        · simp at passed
        · exact short passed trivial (Nat.zero_le 1)
  | expression depth quote =>
    -- only a backslash makes a character inert, and only a mark becomes the quote
    cases quote with
    | none =>
      simp only [step] at passed
      split at passed
      next mark =>
        exact short passed (isLineBreak_of_isExpressionQuote mark) (Nat.zero_le 1)
      · split at passed
        · exact short passed trivial (Nat.zero_le 1)
        · split at passed
          · cases depth with
            | zero | succ outer => exact short passed trivial (Nat.zero_le 1)
          · exact short passed trivial (Nat.zero_le 1)
    | some quote =>
      simp only [step] at passed
      split at passed
      · exact short passed inside (Nat.le_refl 1)
      · split at passed
        · exact short passed trivial (Nat.zero_le 1)
        · exact short passed inside (Nat.zero_le 1)

/-- The search passes over a line break, inert or not, and stays in the same part. -/
private theorem closeFrom?_lineBreak (unbroken : rule.Unbroken) (inside : part.Unbroken)
    (lineBreak : isLineBreak c = true) {inert : Nat} (short : inert ≤ 1) (rest : Text) :
    rule.closeFrom? inert part (c :: rest) = (rule.closeFrom? 0 part rest).map (· + 1) := by
  cases inert with
  | zero =>
    rw [closeFrom?]
    simp only [step_lineBreak unbroken inside lineBreak]
  | succ inert =>
    obtain rfl : inert = 0 := by omega
    rfl

/-- The closing quote is found where its place in the body has come to be. -/
theorem closeFrom?_crlf (unbroken : rule.Unbroken) {inert : Nat} (inside : part.Unbroken)
    {text : Text} (short : inert ≤ 1 ∨ '\n' ∉ text.take inert) :
    rule.closeFrom? inert part (crlf text)
      = (rule.closeFrom? inert part text).map (crlfLength text) := by
  induction text generalizing inert part with
  | nil => cases inert <;> rfl
  | cons c rest ih =>
    by_cases feed : c = '\n'
    · subst feed
      -- both characters of the pair are passed over, whether the first of them is inert or not
      have one : inert ≤ 1 := by
        rcases short with one | plain
        · exact one
        · cases inert with
          | zero => exact Nat.zero_le 1
          | succ inert => simp at plain
      rw [crlf_feed, closeFrom?_lineBreak unbroken inside (by decide) one,
        closeFrom?_lineBreak unbroken inside (by decide) (Nat.zero_le 1),
        closeFrom?_lineBreak unbroken inside (by decide) one, ih inside (.inl (Nat.zero_le 1))]
      simp only [Option.map_map, Function.comp_def, crlfLength_feed]
    · have further (length : Nat) : crlfLength (c :: rest) (length + 1) = crlfLength rest length + 1 :=
        crlfLength_cons rest feed length
      rw [crlf_cons feed]
      cases inert with
      | succ inert =>
        have shorter : inert ≤ 1 ∨ '\n' ∉ rest.take inert := by
          rcases short with one | plain
          · exact .inl (by omega)
          · rw [List.take_succ_cons, List.mem_cons, not_or] at plain
            exact .inr plain.2
        simp only [closeFrom?, ih inside shorter, Option.map_map, Function.comp_def, further]
      | zero =>
        simp only [closeFrom?, step_crlf unbroken feed]
        cases passed : rule.step c rest part with
        | none => simp
        | some next =>
          obtain ⟨onward, shorter⟩ := step_inside unbroken inside passed
          simp only [ih onward shorter, Option.map_map, Function.comp_def, further]

end BodyRule

private theorem Quote.read_of_opened (quote : Quote) (lead : Text) (raw : Bool)
    (interpolation : Option Text) (body : Text) :
    quote.read lead raw interpolation (lead ++ (quote.opener ++ body))
      = match (quote.bodyRule raw interpolation).closeIndex? body with
        | some index => .ok (lead.length + quote.opener.length + index + quote.closer.length)
        | none => .error (.notClosed (lead.length + quote.opener.length)) := by
  have dropped : (lead ++ (quote.opener ++ body)).drop (lead.length + quote.opener.length) = body := by
    rw [← List.append_assoc, ← List.length_append, List.drop_left]
  cases found : (quote.bodyRule raw interpolation).closeIndex? body with
  | none => simp [read, dropped, found]
  | some index => simp [read, dropped, found]

private theorem crlfLength_delimited {lead opener closer : Text}
    (leadPlain : ∀ c ∈ lead, isLineBreak c = false) (openerPlain : ∀ c ∈ opener, isLineBreak c = false)
    (closerPlain : ∀ c ∈ closer, isLineBreak c = false) (inner rest : Text) :
    crlfLength (lead ++ (opener ++ (inner ++ (closer ++ rest))))
        (lead.length + opener.length + inner.length + closer.length)
      = lead.length + opener.length + (crlf inner).length + closer.length := by
  have whole : lead ++ (opener ++ (inner ++ (closer ++ rest)))
      = (lead ++ (opener ++ (inner ++ closer))) ++ rest := by simp
  have size : lead.length + opener.length + inner.length + closer.length
      = (lead ++ (opener ++ (inner ++ closer))).length := by
    simp only [List.length_append]
    omega
  rw [whole, size, crlfLength_append, crlf_append, crlf_append, crlf_append,
    crlf_of_plain (not_mem_feed_of_unbroken leadPlain),
    crlf_of_plain (not_mem_feed_of_unbroken openerPlain),
    crlf_of_plain (not_mem_feed_of_unbroken closerPlain)]
  simp only [List.length_append]
  omega

/-- A literal is read as far as its characters have come to reach. -/
theorem Quote.read_crlf {quote : Quote} {lead : Text} {raw : Bool} {interpolation : Option Text}
    (unbroken : (quote.bodyRule raw interpolation).Unbroken)
    (leadPlain : ∀ c ∈ lead, isLineBreak c = false)
    (openerPlain : ∀ c ∈ quote.opener, isLineBreak c = false) (text : Text) :
    quote.read lead raw interpolation (crlf text)
      = (quote.read lead raw interpolation text).map (crlfLength text) := by
  by_cases leads : lead.isPrefixOf text = true
  · obtain ⟨afterLead, rfl⟩ := List.isPrefixOf_iff_prefix.mp leads
    rw [crlf_append, crlf_of_plain (not_mem_feed_of_unbroken leadPlain)]
    by_cases opens : quote.opener.isPrefixOf afterLead = true
    · obtain ⟨body, rfl⟩ := List.isPrefixOf_iff_prefix.mp opens
      rw [crlf_append, crlf_of_plain (not_mem_feed_of_unbroken openerPlain), read_of_opened,
        read_of_opened]
      have closes : (quote.bodyRule raw interpolation).closeIndex? (crlf body)
          = ((quote.bodyRule raw interpolation).closeIndex? body).map (crlfLength body) := by
        have inside : BodyPart.own.Unbroken := trivial
        exact BodyRule.closeFrom?_crlf unbroken inside (.inl (Nat.zero_le 1))
      rw [closes]
      cases found : (quote.bodyRule raw interpolation).closeIndex? body with
      | none => rfl
      | some index =>
        obtain ⟨inner, rest, whole, rfl⟩ :=
          (quote.bodyRule raw interpolation).exists_append_of_closeFrom? found
        have closer : (quote.bodyRule raw interpolation).closer = quote.closer := rfl
        rw [closer] at whole
        subst whole
        -- of the parts of the literal only the body is longer than before
        have length := crlfLength_delimited leadPlain openerPlain unbroken.closer inner rest
        simp only [Option.map_some, Except.map, crlfLength_append]
        exact congrArg Except.ok length.symm
    · simp [read, isPrefixOf_crlf openerPlain, opens, Except.map]
  · simp [read, isPrefixOf_crlf leadPlain, leads, Except.map]

namespace Language

/-- Only string literals hold line breaks: there are no block comments and no regular expressions,
and nothing that is looked for holds a line break. -/
structure LineOriented (language : Language) : Prop extends language.Conventional where
  noBlocks : language.blockComments = []
  noRegex : language.regexLiterals = false
  escapes : ∀ quote ∈ language.quotes, ∀ c ∈ quote.escape, isLineBreak c = false
  embedded : ∀ interpolation ∈ language.interpolation,
    ∀ c ∈ interpolation.opener, isLineBreak c = false
  keywords : ∀ rule ∈ language.docstrings, ∀ keyword ∈ rule.keywords,
    ∀ c ∈ keyword, isLineBreak c = false

theorem lineOriented_python : python.LineOriented where
  toConventional := conventional_of_registered (by simp [registered])
  noBlocks := rfl
  noRegex := rfl
  escapes := by simp [python, Quote.tripled, Quote.escaped, isLineBreak]
  embedded := by simp [python, isLineBreak]
  keywords := by simp [python, isLineBreak]

namespace LineOriented

variable {language : Language} (lines : language.LineOriented)

include lines

theorem quote_plain {quote : Quote} (known : quote ∈ language.quotes) :
    quote.closer = quote.opener ∧ ∀ c ∈ quote.opener, isLineBreak c = false := by
  obtain ⟨mark, marked, shape, closer⟩ := lines.toConventional.quote_shape known
  have plain := isLineBreak_of_isExpressionQuote marked
  refine ⟨closer, ?_⟩
  rcases shape with shape | shape <;> simp [shape, plain]

theorem unbroken_bodyRule {quote : Quote} (known : quote ∈ language.quotes) (lead : Text)
    (raw : Bool) :
    (quote.bodyRule raw (language.interpolationOpener? lead quote.opener raw)).Unbroken := by
  obtain ⟨closer, plain⟩ := lines.quote_plain known
  constructor
  · change quote.closer ≠ []
    rw [closer]
    exact lines.toConventional.opener_ne_nil known
  · change ∀ c ∈ quote.closer, isLineBreak c = false
    rwa [closer]
  · intro c escape
    apply lines.escapes quote known c
    cases raw with
    | true => simp [Quote.bodyRule] at escape
    | false => exact escape
  · intro opener embedded
    obtain ⟨interpolation, known, opens⟩ := Option.bind_eq_some_iff.mp embedded
    dsimp only at opens
    split at opens
    · obtain rfl := Option.some.inj opens
      exact lines.embedded interpolation known
    · simp at opens

/-- The same prefixes stand at the start of the text. -/
theorem leadsAt_crlf (previous : Option Char) (text : Text) :
    language.leadsAt previous (crlf text) = language.leadsAt previous text := by
  unfold leadsAt
  split
  · rfl
  · congr 1
    apply List.filterMap_congr
    intro known listed
    have letters := (lines.prefixes known listed).2
    by_cases feed : '\n' ∈ text.take known.length
    · -- a prefix that reaches the line feed is none, nor one that reaches its carriage return
      have carriage := carriage_mem_take_crlf feed
      have before : Text.sameIgnoringCase (text.take known.length) known = false := by
        by_contra same
        have all := isAlpha_of_sameIgnoringCase (by simpa using same) letters
        exact absurd (all '\n' feed) (by decide)
      have after : Text.sameIgnoringCase ((crlf text).take known.length) known = false := by
        by_contra same
        have all := isAlpha_of_sameIgnoringCase (by simpa using same) letters
        exact absurd (all '\r' carriage) (by decide)
      simp [before, after]
    · rw [take_crlf_of_plain feed]

/-- The same openings stand at the start of the text. -/
theorem openingsAt_crlf (previous : Option Char) (text : Text) :
    language.openingsAt previous (crlf text) = language.openingsAt previous text := by
  unfold openingsAt
  rw [lines.leadsAt_crlf]
  apply List.flatMap_congr
  intro lead member
  obtain ⟨⟨rest, rfl⟩, letters, -⟩ := lines.toConventional.mem_leadsAt member
  have plain : '\n' ∉ lead :=
    not_mem_feed_of_unbroken fun c inside => isLineBreak_of_isAlpha (letters c inside)
  -- behind the prefix, which holds no line feed, the same quotes open
  rw [crlf_append, crlf_of_plain plain, List.drop_left, List.drop_left]
  congr 1
  apply List.filter_congr
  intro quote known
  exact isPrefixOf_crlf (lines.quote_plain known).2 rest

theorem readString_crlf (previous : Option Char) (text : Text) :
    language.readString previous (crlf text)
      = (language.readString previous text).map (crlfLength text) := by
  unfold readString
  rw [lines.openingsAt_crlf]
  split
  next opening longest =>
    obtain ⟨leads, known, -⟩ := mem_openingsAt_iff.mp (Opening.longest?_eq_some longest).1
    obtain ⟨-, letters, -⟩ := lines.toConventional.mem_leadsAt leads
    apply Quote.read_crlf
    · exact lines.unbroken_bodyRule known opening.lead _
    · intro c inside
      exact isLineBreak_of_isAlpha (letters c inside)
    · exact (lines.quote_plain known).2
  · rfl

end LineOriented

end Language

/-- A line comment ends at the pair as it ended at the line feed. -/
theorem readLineComment_crlf {marker : Text} (plain : ∀ c ∈ marker, isLineBreak c = false)
    (text : Text) :
    readLineComment marker (crlf text) = (readLineComment marker text).map (crlfLength text) := by
  unfold readLineComment
  rw [isPrefixOf_crlf plain]
  split
  next opens =>
    obtain ⟨others, rfl⟩ := List.isPrefixOf_iff_prefix.mp opens
    have noFeed := not_mem_feed_of_unbroken plain
    rw [crlf_append, crlf_of_plain noFeed, List.drop_left, List.drop_left,
      takeWhile_crlf others (by decide) (by decide)]
    -- the comment as a text of its own holds no line feed
    obtain ⟨rest, whole, all, -⟩ := exists_append_takeWhile (!isLineBreak ·) others
    have run : '\n' ∉ others.takeWhile (!isLineBreak ·) := by
      intro member
      exact absurd (all '\n' member) (by decide)
    have split : marker ++ others = (marker ++ others.takeWhile (!isLineBreak ·)) ++ rest := by
      rw [List.append_assoc, ← whole]
    have size := crlfLength_of_plain split (by simp [noFeed, run])
    rw [List.length_append] at size
    exact congrArg Except.ok size.symm
  · rfl

theorem readWhitespace_crlf (text : Text) :
    Blank.readWhitespace (crlf text) = (Blank.readWhitespace text).map (crlfLength text) := by
  unfold Blank.readWhitespace
  rw [takeWhile_crlf text (by decide) (by decide)]
  obtain ⟨rest, whole, all, -⟩ := exists_append_takeWhile isInlineBlank text
  have run : '\n' ∉ text.takeWhile isInlineBlank := by
    intro member
    exact absurd (all '\n' member) (by decide)
  have size := crlfLength_of_plain whole run
  split
  · rfl
  · exact congrArg Except.ok size.symm

/-- What becomes of the lexeme at the start of the text. -/
def Lexeme.crlf (text : Text) (lexeme : Lexeme) : Lexeme :=
  ⟨lexeme.kind, crlfLength text (lexeme.more + 1) - 1⟩

/-- A lexeme is as long as its characters have become, and still one if it was one. -/
theorem Lexeme.ofReading?_crlf {text : Text} (nonempty : text ≠ []) (kind : Kind)
    (mustClose : Option Construct) (reading : Reading) :
    ofReading? kind mustClose (reading.map (crlfLength text))
      = (ofReading? kind mustClose reading).map (·.map (Lexeme.crlf text)) := by
  match reading with
  | .ok 0 => simp [Except.map, ofReading?]
  | .ok (more + 1) =>
    have positive := crlfLength_pos text nonempty more
    obtain ⟨length, same⟩ := Nat.exists_eq_succ_of_ne_zero (Nat.ne_of_gt positive)
    simp [Except.map, ofReading?, Lexeme.crlf, same]
  | .error (.notOpened _) => rfl
  | .error (.notClosed _) => cases mustClose <;> rfl

namespace Language.LineOriented

variable {language : Language} (lines : language.LineOriented) {cursor target : Cursor} {text : Text}

include lines

private theorem quotedAt?_crlf (same : target.previous = cursor.previous) (nonempty : text ≠ []) :
    language.quotedAt? target (crlf text)
      = (language.quotedAt? cursor text).map (·.map (Lexeme.crlf text)) := by
  rw [quotedAt?, same, lines.readString_crlf, Lexeme.ofReading?_crlf nonempty, quotedAt?]

private theorem lineAt?_crlf (nonempty : text ≠ []) :
    language.lineAt? (crlf text) = (language.lineAt? text).map (·.map (Lexeme.crlf text)) := by
  apply findSome?_map
  intro marker known
  have plain : ∀ c ∈ marker, isLineBreak c = false := by
    rcases lines.markers marker known with rfl | rfl <;> simp [isLineBreak]
  rw [readLineComment_crlf plain, Lexeme.ofReading?_crlf nonempty]

omit lines in
private theorem whitespaceAt?_crlf (nonempty : text ≠ []) :
    whitespaceAt? (crlf text) = (whitespaceAt? text).map (·.map (Lexeme.crlf text)) := by
  rw [whitespaceAt?, readWhitespace_crlf, Lexeme.ofReading?_crlf nonempty, whitespaceAt?]

/-- At the start of the text stands what has become of the lexeme there, or the same construct is not
closed there. -/
theorem lexemeAt_crlf (same : target.previous = cursor.previous) (nonempty : text ≠ [])
    (feeds : '\r' ∉ text) :
    language.lexemeAt target (crlf text)
      = (language.lexemeAt cursor text).map (Lexeme.crlf text) := by
  obtain ⟨c, rest, rfl⟩ := List.exists_cons_of_ne_nil nonempty
  by_cases feed : c = '\n'
  · -- a line feed is a line break, and so is the pair
    subst feed
    rw [crlf_feed, lexemeAt_blank lines.toConventional (by decide),
      lexemeAt_blank lines.toConventional (by decide)]
    rfl
  · have noBreak : isLineBreak c = false := by
      simp only [List.mem_cons, not_or] at feeds
      simp [isLineBreak, feed, Ne.symm feeds.1]
    have noNewline : newlineAt? (c :: rest) = none := newlineAt?_eq_none.mpr noBreak
    have noNewlineThere : newlineAt? (crlf (c :: rest)) = none := by
      rw [crlf_cons feed]
      exact newlineAt?_eq_none.mpr noBreak
    have noRegex (cursor : Cursor) (text : Text) : language.regexAt? cursor text = none := by
      simp [regexAt?, lines.noRegex]
    have noBlock (text : Text) : language.blockAt? text = none := by
      simp [blockAt?, lines.noBlocks]
    have code : Lexeme.crlf (c :: rest) ⟨.code, 0⟩ = ⟨.code, 0⟩ := by
      simp [Lexeme.crlf, crlfLength_cons rest feed]
    rw [lexemeAt_eq, lexemeAt_eq, lines.quotedAt?_crlf same nonempty, noRegex, noRegex, noBlock,
      noBlock, lines.lineAt?_crlf nonempty, noNewline, noNewlineThere, whitespaceAt?_crlf nonempty]
    -- the first alternative that is there is the same one
    cases language.quotedAt? cursor (c :: rest) with
    | some _ => rfl
    | none =>
      cases language.lineAt? (c :: rest) with
      | some _ => rfl
      | none =>
        cases whitespaceAt? (c :: rest) with
        | some _ => rfl
        | none => exact congrArg Except.ok code.symm

end Language.LineOriented

end CommentStrip
