import CommentStrip.Proofs.Token

/-!
# Conventional languages

What the known languages have in common and what the scan of an edited text depends on: quotes are
one mark or the same mark three times and close as they open, prefixes are letters, comments open
with a hash or a slash, and an embedded expression does not open with a quotation mark. In such a
language the first characters of a text tell which constructs can stand there.
-/
namespace CommentStrip

private theorem isUpper_iff {c : Char} : c.isUpper = true ↔ 65 ≤ c.toNat ∧ c.toNat ≤ 90 := by
  change decide (c.val ≥ 'A'.val ∧ c.val ≤ 'Z'.val) = true ↔ _
  rw [decide_eq_true_iff, ge_iff_le, UInt32.le_iff_toNat_le, UInt32.le_iff_toNat_le]
  rfl

private theorem isLower_iff {c : Char} : c.isLower = true ↔ 97 ≤ c.toNat ∧ c.toNat ≤ 122 := by
  change (decide (c.val ≥ 'a'.val) && decide (c.val ≤ 'z'.val)) = true ↔ _
  rw [Bool.and_eq_true, decide_eq_true_iff, decide_eq_true_iff, ge_iff_le,
    UInt32.le_iff_toNat_le, UInt32.le_iff_toNat_le]
  rfl

private theorem isAlpha_iff {c : Char} :
    c.isAlpha = true ↔ c.isUpper = true ∨ c.isLower = true :=
  Bool.or_eq_true_iff

theorem isNameChar_of_isAlpha {c : Char} (letter : c.isAlpha = true) : isNameChar c = true := by
  have ascii : c.toNat < 0x80 := by
    rw [isAlpha_iff, isUpper_iff, isLower_iff] at letter
    omega
  simp [isNameChar, Unicode.isAlphanumeric, ascii, Char.isAlphanum, letter]

private theorem forall_isExpressionQuote {p : Char → Prop} (single : p '\x27') (double : p '\x22')
    (back : p '\x60') {c : Char} (mark : isExpressionQuote c = true) : p c := by
  simp only [isExpressionQuote, Bool.or_eq_true, beq_iff_eq] at mark
  rcases mark with (rfl | rfl) | rfl
  · exact single
  · exact double
  · exact back

theorem not_isNameChar_of_isExpressionQuote {c : Char} (mark : isExpressionQuote c = true) :
    isNameChar c = false :=
  forall_isExpressionQuote (p := fun c => isNameChar c = false) (by decide) (by decide) (by decide)
    mark

theorem not_isAlpha_of_isExpressionQuote {c : Char} (mark : isExpressionQuote c = true) :
    c.isAlpha = false :=
  forall_isExpressionQuote (p := fun c => c.isAlpha = false) (by decide) (by decide) (by decide)
    mark

/-- No white space of any script is a character of a word. -/
theorem not_isTokenWord_of_isWhiteSpace {c : Char} (space : Unicode.isWhiteSpace c = true) :
    isTokenWord c = false := by
  let codes : List Nat := [0x9, 0xa, 0xb, 0xc, 0xd, 0x20, 0x85, 0xa0, 0x1680, 0x2000, 0x2001,
    0x2002, 0x2003, 0x2004, 0x2005, 0x2006, 0x2007, 0x2008, 0x2009, 0x200a, 0x2028, 0x2029,
    0x202f, 0x205f, 0x3000]
  -- the tables of white space hold few characters, which are looked at one by one
  have listed : c.toNat ∈ codes := by
    simp only [Unicode.isWhiteSpace, Unicode.inRanges, Unicode.whiteSpaceRanges, List.any_cons,
      List.any_nil, Bool.or_eq_true, Bool.and_eq_true, decide_eq_true_eq, Bool.or_false] at space
    simp only [codes, List.mem_cons, List.not_mem_nil, or_false]
    omega
  have checked : ∀ code ∈ codes, isTokenWord (Char.ofNat code) = false := by decide +kernel
  have value := checked _ listed
  rwa [Char.ofNat_toNat] at value

/-- A blank inside a line or at its end. -/
def isBlankChar (c : Char) : Bool :=
  isInlineBlank c || isLineBreak c

theorem not_isInlineBlank_of_isLineBreak {c : Char} (lineBreak : isLineBreak c = true) :
    isInlineBlank c = false := by
  simp only [isLineBreak, Bool.or_eq_true, beq_iff_eq] at lineBreak
  rcases lineBreak with rfl | rfl <;> decide

private theorem forall_isBlankChar {p : Char → Prop} (space : p ' ') (tab : p '\t')
    (feed : p '\x0c') (newline : p '\n') (carriage : p '\r') {c : Char}
    (blank : isBlankChar c = true) : p c := by
  simp only [isBlankChar, isInlineBlank, isLineBreak, Bool.or_eq_true, beq_iff_eq] at blank
  rcases blank with ((rfl | rfl) | rfl) | rfl | rfl
  · exact space
  · exact tab
  · exact feed
  · exact newline
  · exact carriage

theorem isWhiteSpace_of_isBlankChar {c : Char} (blank : isBlankChar c = true) :
    Unicode.isWhiteSpace c = true :=
  forall_isBlankChar (p := fun c => Unicode.isWhiteSpace c = true) (by decide) (by decide)
    (by decide) (by decide) (by decide) blank

theorem not_isNameChar_of_isWhiteSpace {c : Char} (space : Unicode.isWhiteSpace c = true) :
    isNameChar c = false := by
  have word := not_isTokenWord_of_isWhiteSpace space
  simp only [isTokenWord, Bool.or_eq_false_iff] at word
  exact word.1

theorem not_isBlankChar_of_isNameChar {c : Char} (name : isNameChar c = true) :
    isBlankChar c = false := by
  by_contra blank
  rw [Bool.not_eq_false] at blank
  simp [not_isNameChar_of_isWhiteSpace (isWhiteSpace_of_isBlankChar blank)] at name

theorem not_isAlpha_of_isBlankChar {c : Char} (blank : isBlankChar c = true) :
    c.isAlpha = false := by
  have word := not_isNameChar_of_isWhiteSpace (isWhiteSpace_of_isBlankChar blank)
  cases letter : c.isAlpha with
  | false => rfl
  | true => rw [isNameChar_of_isAlpha letter] at word; exact word

theorem not_isExpressionQuote_of_isBlankChar {c : Char} (blank : isBlankChar c = true) :
    isExpressionQuote c = false :=
  forall_isBlankChar (p := fun c => isExpressionQuote c = false) (by decide) (by decide)
    (by decide) (by decide) (by decide) blank

private theorem toLower_of_not_isUpper {c : Char} (lower : ¬c.isUpper = true) : c.toLower = c := by
  apply dif_neg
  intro inside
  exact lower (decide_eq_true inside)

private theorem isAlpha_of_toLower_eq {c known : Char} (letter : known.isAlpha = true)
    (same : c.toLower = known.toLower) : c.isAlpha = true := by
  -- an upper case letter is one, and any other character is its own lower case
  by_cases upper : c.isUpper = true
  · exact isAlpha_iff.mpr (.inl upper)
  · rw [toLower_of_not_isUpper upper] at same
    subst same
    by_cases upper : known.isUpper = true
    · -- the known letter may still be upper case; there are 26 of these
      have bounds : known.toNat ∈ List.range' 65 26 := by
        rw [isUpper_iff] at upper
        rw [List.mem_range'_1]
        omega
      have checked : ∀ code ∈ List.range' 65 26, (Char.ofNat code).toLower.isAlpha = true := by
        decide
      have value := checked _ bounds
      rwa [Char.ofNat_toNat] at value
    · rwa [toLower_of_not_isUpper upper]

/-- A text that differs from letters in their case only is made of letters. -/
theorem isAlpha_of_sameIgnoringCase {written known : Text}
    (same : Text.sameIgnoringCase written known = true)
    (letters : ∀ c ∈ known, c.isAlpha = true) : ∀ c ∈ written, c.isAlpha = true := by
  intro c member
  have mapped : c.toLower ∈ known.map Char.toLower := by
    rw [← beq_iff_eq.mp same]
    exact List.mem_map_of_mem member
  obtain ⟨other, known, lower⟩ := List.mem_map.mp mapped
  exact isAlpha_of_toLower_eq (letters other known) lower.symm

theorem Lexeme.ofReading?_ok_ne_none (kind : Kind) (mustClose : Option Construct) {length : Nat}
    (positive : 0 < length) : ofReading? kind mustClose (.ok length) ≠ none := by
  cases length with
  | zero => omega
  | succ more => simp [ofReading?]

namespace Language

/-- The conventions that the known languages share. -/
structure Conventional (language : Language) : Prop where
  quotes : ∀ quote ∈ language.quotes, ∃ mark ∈ ['\x27', '\x22', '\x60'],
    (quote.opener = [mark] ∨ quote.opener = [mark, mark, mark]) ∧ quote.closer = quote.opener
  /-- A mark that opens a literal three times also opens one on its own. -/
  single : ∀ quote ∈ language.quotes, ∀ mark ∈ quote.opener,
    ∃ other ∈ language.quotes, other.opener = [mark]
  prefixes : ∀ known ∈ language.stringPrefixes, known ≠ [] ∧ ∀ c ∈ known, c.isAlpha = true
  markers : ∀ marker ∈ language.lineMarkers, marker = ['#'] ∨ marker = ['/', '/']
  blocks : ∀ block ∈ language.blockComments, block = Delimiters.slashStar
  interpolation : ∀ interpolation ∈ language.interpolation,
    ∀ c ∈ interpolation.opener, isExpressionQuote c = false

theorem conventional_of_registered {language : Language} (known : language ∈ registered) :
    language.Conventional := by
  -- four languages, each with its fields spelled out
  simp only [registered, List.mem_cons, List.not_mem_nil, or_false] at known
  rcases known with rfl | rfl | rfl | rfl
  · constructor <;> simp [python, Quote.tripled, Quote.escaped, isExpressionQuote]
  · constructor <;> simp [javaScript, Quote.withBackquote, Quote.escaped, isExpressionQuote]
  · constructor <;>
      simp [typeScript, javaScript, Quote.withBackquote, Quote.escaped, isExpressionQuote]
  · constructor <;> simp [dart, Quote.tripled, Quote.escaped, isExpressionQuote]

namespace Conventional

variable {language : Language} (conventional : language.Conventional)

include conventional

/-- A quote is one mark or the same mark three times, and closes as it opens. -/
theorem quote_shape {quote : Quote} (known : quote ∈ language.quotes) :
    ∃ mark, isExpressionQuote mark = true
      ∧ (quote.opener = [mark] ∨ quote.opener = [mark, mark, mark])
      ∧ quote.closer = quote.opener := by
  obtain ⟨mark, member, shape⟩ := conventional.quotes quote known
  refine ⟨mark, ?_, shape⟩
  simp only [List.mem_cons, List.not_mem_nil, or_false] at member
  rcases member with rfl | rfl | rfl <;> rfl

theorem opener_ne_nil {quote : Quote} (known : quote ∈ language.quotes) : quote.opener ≠ [] := by
  obtain ⟨mark, -, shape | shape, -⟩ := conventional.quote_shape known <;> simp [shape]

theorem interpolation_unquoted {lead quoteOpener opener : Text} {raw : Bool}
    (embedded : language.interpolationOpener? lead quoteOpener raw = some opener) :
    ∀ c ∈ opener, isExpressionQuote c = false := by
  obtain ⟨interpolation, known, opens⟩ := Option.bind_eq_some_iff.mp embedded
  dsimp only at opens
  split at opens
  · obtain rfl := Option.some.inj opens
    exact conventional.interpolation interpolation known
  · simp at opens

theorem mem_leadsAt {previous : Option Char} {text lead : Text}
    (member : lead ∈ language.leadsAt previous text) :
    (∃ rest, text = lead ++ rest) ∧ (∀ c ∈ lead, c.isAlpha = true)
      ∧ (lead = [] ∨ previous.any isNameChar = false) := by
  simp only [leadsAt] at member
  split at member
  · -- inside a word no prefix is looked for
    obtain rfl : lead = [] := by simpa using member
    exact ⟨⟨text, rfl⟩, by simp, .inl rfl⟩
  next free =>
    rcases List.mem_cons.mp member with rfl | prefixed
    · exact ⟨⟨text, rfl⟩, by simp, .inl rfl⟩
    · obtain ⟨known, listed, written⟩ := List.mem_filterMap.mp prefixed
      split at written
      next same =>
        obtain rfl := Option.some.inj written
        exact ⟨⟨text.drop known.length, (List.take_append_drop _ _).symm⟩,
          isAlpha_of_sameIgnoringCase same (conventional.prefixes known listed).2,
          .inr (by simpa using free)⟩
      · simp at written

/-- A string literal stands exactly where an opening does. -/
theorem quotedAt?_eq_none {cursor : Cursor} {text : Text} :
    language.quotedAt? cursor text = none ↔ language.openingsAt cursor.previous text = [] := by
  rw [← Opening.longest?_eq_none]
  unfold quotedAt? readString
  split
  next opening longest =>
    simp only [longest, reduceCtorEq, iff_false]
    obtain ⟨lead, quote⟩ := opening
    obtain ⟨leads, known, opens⟩ := mem_openingsAt_iff.mp (Opening.longest?_eq_some longest).1
    have opened := conventional.opener_ne_nil known
    obtain ⟨⟨rest, rfl⟩, -, -⟩ := conventional.mem_leadsAt leads
    -- the opening is there, so the reading is a length that is not zero, or it is not closed
    have positive := List.length_pos_iff.mpr opened
    simp only [readOpened, Quote.read, isPrefixOf_append_self, opens, Bool.not_true,
      Bool.false_eq_true, if_false]
    split
    next index found =>
      have length : 0 < lead.length + quote.opener.length + index + quote.closer.length := by
        omega
      simpa using Lexeme.ofReading?_ok_ne_none .stringLiteral (some .stringLiteral) length
    · simp [Lexeme.ofReading?]
  next none => simp [none, Lexeme.ofReading?]

/-- No string literal begins with a character that is neither a letter nor a mark. -/
theorem openingsAt_eq_nil {c : Char} (rest : Text) (letter : c.isAlpha = false)
    (mark : isExpressionQuote c = false) (previous : Option Char) :
    language.openingsAt previous (c :: rest) = [] := by
  rw [List.eq_nil_iff_forall_not_mem]
  rintro ⟨lead, quote⟩ member
  obtain ⟨leads, known, opens⟩ := mem_openingsAt_iff.mp member
  obtain ⟨⟨others, whole⟩, letters, -⟩ := conventional.mem_leadsAt leads
  -- a prefix begins with a letter, and a quote without one with a mark
  cases lead with
  | cons d more =>
    obtain ⟨rfl, -⟩ := List.cons.inj whole
    have := letters c List.mem_cons_self
    simp [letter] at this
  | nil =>
    obtain ⟨first, quotes, shape | shape, -⟩ := conventional.quote_shape known <;>
      · simp only [shape, List.length_nil, List.drop_zero, List.isPrefixOf_cons_cons,
          Bool.and_eq_true, beq_iff_eq] at opens
        rw [opens.1, mark] at quotes
        simp at quotes

theorem blockAt?_eq_none {text : Text} :
    language.blockAt? text = none
      ↔ language.blockComments = [] ∨ ['/', '*'].isPrefixOf text = false := by
  unfold blockAt?
  rw [List.findSome?_eq_none_iff]
  have opener : Delimiters.slashStar.opener = ['/', '*'] := rfl
  have closer : Delimiters.slashStar.closer = ['*', '/'] := rfl
  constructor
  · intro missing
    cases blocks : language.blockComments with
    | nil => exact .inl rfl
    | cons block others =>
      -- all block comments open alike, so the first one tells whether any stands there
      have known : block ∈ language.blockComments := blocks ▸ List.mem_cons_self
      have absent := missing block known
      rw [conventional.blocks block known] at absent
      simp only [Delimiters.readComment, opener, closer] at absent
      refine .inr ?_
      by_contra opens
      rw [if_pos (by simpa using opens)] at absent
      split at absent
      next index found =>
        have positive : 0 < ['/', '*'].length + index + ['*', '/'].length := by simp
        exact Lexeme.ofReading?_ok_ne_none _ _ positive absent
      · simp [Lexeme.ofReading?] at absent
  · rintro (none | closed) block known
    · rw [none] at known
      simp at known
    · rw [conventional.blocks block known]
      simp [Delimiters.readComment, opener, closed, Lexeme.ofReading?]

theorem lineAt?_eq_none {text : Text} :
    language.lineAt? text = none
      ↔ ∀ marker ∈ language.lineMarkers, marker.isPrefixOf text = false := by
  unfold lineAt?
  rw [List.findSome?_eq_none_iff]
  apply forall₂_congr
  intro marker known
  -- a line comment is never empty, as its marker is not
  have positive : 0 < marker.length := by
    rcases conventional.markers marker known with rfl | rfl <;> decide
  simp only [readLineComment]
  split
  next opens =>
    have length : 0 < marker.length
        + ((text.drop marker.length).takeWhile (!isLineBreak ·)).length := by omega
    simp [Lexeme.ofReading?_ok_ne_none .lineComment none length, opens]
  next closed => simp [Lexeme.ofReading?, closed]

end Conventional

theorem regexAt?_eq_none {language : Language} {cursor : Cursor} {text : Text} :
    language.regexAt? cursor text = none
      ↔ ¬(language.regexLiterals = true ∧ cursor.regexAllowed = true
        ∧ ∃ body, text = '/' :: body ∧ (Regex.closeIndex? body).isSome = true) := by
  unfold regexAt? Regex.read
  split
  next allowed =>
    simp only [Bool.and_eq_true] at allowed
    split
    next body =>
      cases found : Regex.closeIndex? body with
      | some index =>
        have positive : 0 < index + 2 + Regex.flagCount (body.drop (index + 1)) := by omega
        simp [Lexeme.ofReading?_ok_ne_none .stringLiteral none positive, allowed, found]
      | none => simp [Lexeme.ofReading?, found]
    next other =>
      simp only [Lexeme.ofReading?, true_iff]
      rintro ⟨-, -, body, rfl, -⟩
      exact other body rfl
  next forbidden =>
    simp only [Bool.and_eq_true] at forbidden
    simp only [true_iff]
    rintro ⟨known, allowed, -⟩
    exact forbidden ⟨known, allowed⟩

theorem newlineAt?_eq_none {c : Char} {rest : Text} :
    newlineAt? (c :: rest) = none ↔ isLineBreak c = false := by
  unfold newlineAt? Blank.readNewline
  split
  · simp_all [Lexeme.ofReading?, isLineBreak]
  · simp_all [Lexeme.ofReading?, isLineBreak]
  · simp_all [Lexeme.ofReading?, isLineBreak]
  next pair feed carriage =>
    -- neither of the two line breaks
    have first : c ≠ '\n' := by
      rintro rfl
      exact feed rest rfl
    have second : c ≠ '\r' := by
      rintro rfl
      exact carriage rest rfl
    simp [Lexeme.ofReading?, isLineBreak, first, second]

theorem whitespaceAt?_eq_none {c : Char} {rest : Text} :
    whitespaceAt? (c :: rest) = none ↔ isInlineBlank c = false := by
  unfold whitespaceAt? Blank.readWhitespace
  cases blank : isInlineBlank c with
  | true => simp [blank, Lexeme.ofReading?]
  | false => simp [blank, Lexeme.ofReading?]

end Language

end CommentStrip
