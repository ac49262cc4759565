import CommentStrip.Lexeme.Choice
import Mathlib.Data.List.TakeWhile

/-!
# The shape of lexemes

Each reading is taken apart into the text that it reads and the text after it, and the choice of a
lexeme into the construct that is taken and the constructs before it that do not stand there. From
this a lexeme lies inside its text, and code is always one character.
-/
namespace CommentStrip

private theorem exists_append_of_isPrefixOf {start text : Text}
    (h : start.isPrefixOf text = true) : ∃ rest, text = start ++ rest := by
  obtain ⟨rest, rfl⟩ := List.isPrefixOf_iff_prefix.mp h
  exact ⟨rest, rfl⟩

@[simp] theorem isPrefixOf_append_self (start rest : Text) :
    start.isPrefixOf (start ++ rest) = true :=
  List.isPrefixOf_iff_prefix.mpr (List.prefix_append start rest)

/-- Whether a text begins with `sought` is settled by as many characters as `sought` has. -/
theorem isPrefixOf_append_of_length_le {sought : Text} (text : Text)
    (long : sought.length ≤ text.length) (rest : Text) :
    sought.isPrefixOf (text ++ rest) = sought.isPrefixOf text := by
  apply Bool.eq_iff_iff.mpr
  simp only [List.isPrefixOf_iff_prefix]
  constructor
  · intro h
    exact List.prefix_of_prefix_length_le h (List.prefix_append text rest) long
  · intro h
    exact h.trans (List.prefix_append text rest)

/-- A run ends where a character stops it. -/
theorem takeWhile_append_of_stops {p : Char → Bool} {run rest : Text}
    (all : ∀ c ∈ run, p c = true) (stops : ∀ c ∈ rest.head?, p c = false) :
    (run ++ rest).takeWhile p = run := by
  rw [List.takeWhile_append_of_pos all]
  cases rest with
  | nil => simp
  | cons c others => simp [stops c rfl]

theorem exists_append_takeWhile (p : Char → Bool) (text : Text) :
    ∃ rest, text = text.takeWhile p ++ rest ∧ (∀ c ∈ text.takeWhile p, p c = true)
      ∧ ∀ c ∈ rest.head?, p c = false := by
  refine ⟨text.dropWhile p, List.takeWhile_append_dropWhile.symm, ?_, ?_⟩
  · intro c member
    exact List.mem_takeWhile_imp member
  · intro c head
    have stops := List.head?_dropWhile_not p text
    rw [Option.mem_def] at head
    simpa [head] using stops

namespace BodyRule

variable (rule : BodyRule)

/-- The body ends only at the closing quote, in the literal's own text. -/
theorem step_eq_none {c : Char} {rest : Text} {part : BodyPart} :
    rule.step c rest part = none ↔ part = .own ∧ rule.escape ≠ some c
      ∧ rule.interpolationAt? (c :: rest) = none ∧ rule.closer.isPrefixOf (c :: rest) = true := by
  cases part with
  | own =>
    simp only [step]
    split
    next escaped => simp [escaped]
    next unescaped =>
      cases rule.interpolationAt? (c :: rest) with
      | none => simp [unescaped]
      | some next => simp
  | expression depth quote =>
    simp only [step]
    cases quote with
    | none =>
      simp only
      split
      · simp
      · split
        · simp
        · split
          · cases depth <;> simp
          · simp
    | some mark =>
      simp only
      split
      · simp
      · split <;> simp

/-- The closing quote stands where it is found. -/
theorem exists_append_of_closeFrom? {inert : Nat} {part : BodyPart} {text : Text} {index : Nat}
    (found : rule.closeFrom? inert part text = some index) :
    ∃ body rest, text = body ++ (rule.closer ++ rest) ∧ body.length = index := by
  induction text generalizing inert part index with
  | nil => cases inert <;> simp [closeFrom?] at found
  | cons c others ih =>
    -- every step but the last puts one character in front of the body
    have further {inert : Nat} {part : BodyPart}
        (later : (rule.closeFrom? inert part others).map (· + 1) = some index) :
        ∃ body rest, c :: others = body ++ (rule.closer ++ rest) ∧ body.length = index := by
      obtain ⟨before, closes, rfl⟩ := Option.map_eq_some_iff.mp later
      obtain ⟨body, rest, rfl, rfl⟩ := ih closes
      exact ⟨c :: body, rest, rfl, rfl⟩
    cases inert with
    | succ inert => exact further found
    | zero =>
      simp only [closeFrom?] at found
      cases next : rule.step c others part with
      | none =>
        obtain ⟨-, -, -, closes⟩ := rule.step_eq_none.mp next
        obtain ⟨rest, whole⟩ := exists_append_of_isPrefixOf closes
        rw [next] at found
        exact ⟨[], rest, whole, Option.some.inj found⟩
      | some passed =>
        rw [next] at found
        exact further found

end BodyRule

/-- A literal is its prefix, its opening quote, a body that ends where the closing quote is first
found, and the closing quote. -/
theorem Quote.read_eq_ok {quote : Quote} {lead : Text} {raw : Bool} {interpolation : Option Text}
    {text : Text} {length : Nat} :
    quote.read lead raw interpolation text = .ok length
      ↔ ∃ body rest, text = lead ++ (quote.opener ++ (body ++ (quote.closer ++ rest)))
        ∧ (quote.bodyRule raw interpolation).closeIndex? (body ++ (quote.closer ++ rest))
          = some body.length
        ∧ length = lead.length + quote.opener.length + body.length + quote.closer.length := by
  simp only [Quote.read]
  constructor
  · intro h
    split at h
    · simp at h
    next leads =>
      split at h
      · simp at h
      next opens =>
        split at h
        next index found =>
          simp only [Bool.not_eq_true, Bool.not_eq_false'] at leads opens
          -- peel off the prefix and the opening quote, then look up the closing one
          obtain ⟨afterLead, rfl⟩ := exists_append_of_isPrefixOf leads
          rw [List.drop_left] at opens
          obtain ⟨afterOpener, rfl⟩ := exists_append_of_isPrefixOf opens
          rw [← List.append_assoc, ← List.length_append, List.drop_left] at found
          obtain ⟨body, rest, rfl, rfl⟩ :=
            (quote.bodyRule raw interpolation).exists_append_of_closeFrom? found
          exact ⟨body, rest, rfl, found, (Except.ok.inj h).symm⟩
        · simp at h
  · rintro ⟨body, rest, rfl, found, rfl⟩
    have dropped : (lead ++ (quote.opener ++ (body ++ (quote.closer ++ rest)))).drop
        (lead.length + quote.opener.length) = body ++ (quote.closer ++ rest) := by
      rw [← List.append_assoc, ← List.length_append, List.drop_left]
    rw [dropped, found]
    simp

namespace Text

/-- A text stands where it first occurs. -/
theorem exists_append_of_occurrence? {sought text : Text} {index : Nat}
    (found : occurrence? sought text = some index) :
    ∃ earlier rest, text = earlier ++ (sought ++ rest) ∧ earlier.length = index := by
  induction text generalizing index with
  | nil =>
    cases sought with
    | nil => exact ⟨[], [], rfl, Option.some.inj found⟩
    | cons => simp [occurrence?] at found
  | cons c others ih =>
    simp only [occurrence?] at found
    split at found
    next here =>
      obtain ⟨rest, whole⟩ := exists_append_of_isPrefixOf here
      exact ⟨[], rest, whole, Option.some.inj found⟩
    · -- otherwise it occurs one character later
      obtain ⟨before, later, rfl⟩ := Option.map_eq_some_iff.mp found
      obtain ⟨earlier, rest, rfl, rfl⟩ := ih later
      exact ⟨c :: earlier, rest, rfl, rfl⟩

end Text

/-- A block comment is its opener, a body that ends at the first closer, and the closer. -/
theorem Delimiters.readComment_eq_ok {block : Delimiters} {text : Text} {length : Nat} :
    block.readComment text = .ok length
      ↔ ∃ body rest, text = block.opener ++ (body ++ (block.closer ++ rest))
        ∧ Text.occurrence? block.closer (body ++ (block.closer ++ rest)) = some body.length
        ∧ length = block.opener.length + body.length + block.closer.length := by
  simp only [Delimiters.readComment]
  constructor
  · intro h
    split at h
    next opens =>
      obtain ⟨afterOpener, rfl⟩ := exists_append_of_isPrefixOf opens
      rw [List.drop_left] at h
      split at h
      next index found =>
        obtain ⟨body, rest, rfl, rfl⟩ := Text.exists_append_of_occurrence? found
        exact ⟨body, rest, rfl, found, (Except.ok.inj h).symm⟩
      · simp at h
    · simp at h
  · rintro ⟨body, rest, rfl, found, rfl⟩
    simp [found]

namespace Regex

/-- The closing slash stands where it is found. -/
theorem exists_append_of_closeFrom? {escaped inClass : Bool} {text : Text} {index : Nat}
    (found : closeFrom? escaped inClass text = some index) :
    ∃ body rest, text = body ++ '/' :: rest ∧ body.length = index := by
  induction text generalizing escaped inClass index with
  | nil => cases escaped <;> simp [closeFrom?] at found
  | cons c others ih =>
    have further {escaped inClass : Bool}
        (later : (closeFrom? escaped inClass others).map (· + 1) = some index) :
        ∃ body rest, c :: others = body ++ '/' :: rest ∧ body.length = index := by
      obtain ⟨before, closes, rfl⟩ := Option.map_eq_some_iff.mp later
      obtain ⟨body, rest, rfl, rfl⟩ := ih closes
      exact ⟨c :: body, rest, rfl, rfl⟩
    cases escaped with
    | true => exact further found
    | false =>
      simp only [closeFrom?] at found
      split at found
      · exact further found
      · split at found
        · simp at found
        · split at found
          · exact further found
          · split at found
            · exact further found
            · split at found
              next closes =>
                obtain ⟨rfl, -⟩ := closes
                exact ⟨[], others, rfl, Option.some.inj found⟩
              · exact further found

theorem exists_append_of_closeIndex? {text : Text} {index : Nat}
    (found : closeIndex? text = some index) :
    ∃ body rest, text = body ++ '/' :: rest ∧ body.length = index := by
  unfold closeIndex? at found
  split at found
  · simp at found
  · exact exists_append_of_closeFrom? found

private theorem drop_body (body rest : Text) :
    (body ++ '/' :: rest).drop (body.length + 1) = rest := by
  rw [List.append_cons]
  exact List.drop_left' (by simp)

/-- A regular expression is a slash, a body that ends at the closing slash, this slash, and all
flags that follow. -/
theorem read_eq_ok {text : Text} {length : Nat} :
    read text = .ok length
      ↔ ∃ body flags rest, text = '/' :: (body ++ '/' :: (flags ++ rest))
        ∧ closeIndex? (body ++ '/' :: (flags ++ rest)) = some body.length
        ∧ (∀ c ∈ flags, Unicode.isAlphanumeric c = true)
        ∧ (∀ c ∈ rest.head?, Unicode.isAlphanumeric c = false)
        ∧ length = body.length + flags.length + 2 := by
  constructor
  · intro h
    unfold read at h
    split at h
    next after =>
      split at h
      next index found =>
        obtain ⟨body, others, rfl, rfl⟩ := exists_append_of_closeIndex? found
        rw [drop_body] at h
        obtain ⟨rest, whole, all, stops⟩ := exists_append_takeWhile Unicode.isAlphanumeric others
        refine ⟨body, others.takeWhile Unicode.isAlphanumeric, rest, ?_, ?_, all, stops, ?_⟩
        · rw [← whole]
        · rw [← whole]
          exact found
        · have same := (Except.ok.inj h).symm
          simp only [flagCount] at same
          omega
      · simp at h
    · simp at h
  · rintro ⟨body, flags, rest, rfl, found, all, stops, rfl⟩
    have count : flagCount (flags ++ rest) = flags.length := by
      rw [flagCount, takeWhile_append_of_stops all stops]
    simp only [read, found, drop_body, count]
    congr 1
    omega

end Regex

/-- A line comment is its marker and everything up to the end of the line. -/
theorem readLineComment_eq_ok {marker text : Text} {length : Nat} :
    readLineComment marker text = .ok length
      ↔ ∃ body rest, text = marker ++ (body ++ rest) ∧ (∀ c ∈ body, isLineBreak c = false)
        ∧ (∀ c ∈ rest.head?, isLineBreak c = true) ∧ length = marker.length + body.length := by
  simp only [readLineComment]
  constructor
  · intro h
    split at h
    next opens =>
      obtain ⟨others, rfl⟩ := exists_append_of_isPrefixOf opens
      rw [List.drop_left] at h
      obtain ⟨rest, whole, all, stops⟩ := exists_append_takeWhile (!isLineBreak ·) others
      refine ⟨others.takeWhile (!isLineBreak ·), rest, ?_, ?_, ?_, (Except.ok.inj h).symm⟩
      · rw [← whole]
      · simpa using all
      · simpa using stops
    · simp at h
  · rintro ⟨body, rest, rfl, unbroken, stops, rfl⟩
    have run : (body ++ rest).takeWhile (!isLineBreak ·) = body := by
      exact takeWhile_append_of_stops (by simpa using unbroken) (by simpa using stops)
    simp [run]

namespace Blank

theorem readNewline_eq_ok {text : Text} {length : Nat} (read : readNewline text = .ok length) :
    ∃ lineBreak rest, text = lineBreak ++ rest ∧ lineBreak.length = length
      ∧ (lineBreak = ['\r', '\n'] ∨ lineBreak = ['\n']
        ∨ lineBreak = ['\r'] ∧ rest.head? ≠ some '\n') := by
  unfold readNewline at read
  split at read
  next rest => exact ⟨['\r', '\n'], rest, rfl, Except.ok.inj read, .inl rfl⟩
  next rest => exact ⟨['\n'], rest, rfl, Except.ok.inj read, .inr (.inl rfl)⟩
  next rest single =>
    refine ⟨['\r'], rest, rfl, Except.ok.inj read, .inr (.inr ⟨rfl, ?_⟩)⟩
    cases rest with
    | nil => simp
    | cons c others =>
      rintro head
      exact single others (by simpa using head)
  · simp at read

theorem readWhitespace_eq_ok {text : Text} {length : Nat} :
    readWhitespace text = .ok length
      ↔ ∃ blanks rest, text = blanks ++ rest ∧ blanks ≠ [] ∧ (∀ c ∈ blanks, isInlineBlank c = true)
        ∧ (∀ c ∈ rest.head?, isInlineBlank c = false) ∧ length = blanks.length := by
  constructor
  · intro read
    obtain ⟨rest, whole, all, stops⟩ := exists_append_takeWhile isInlineBlank text
    refine ⟨text.takeWhile isInlineBlank, rest, whole, ?_, all, stops, ?_⟩
    · intro none
      simp [readWhitespace, none] at read
    · unfold readWhitespace at read
      split at read
      · simp at read
      · exact (Except.ok.inj read).symm
  · rintro ⟨blanks, rest, rfl, nonempty, all, stops, rfl⟩
    have run := takeWhile_append_of_stops all stops
    have positive := List.length_pos_iff.mpr nonempty
    unfold readWhitespace
    rw [run]
    split
    · omega
    · rfl

end Blank

namespace Opening

/-- The longest of several openings is one of them, and no other has more bytes. -/
theorem longest?_eq_some {openings : List Opening} {best : Opening}
    (found : longest? openings = some best) :
    best ∈ openings ∧ ∀ opening ∈ openings, opening.byteLength ≤ best.byteLength := by
  induction openings generalizing best with
  | nil => simp [longest?] at found
  | cons opening others ih =>
    cases later : longest? others with
    | none =>
      -- a list with an opening in it has a longest one
      have empty : others = [] := by
        cases others with
        | nil => rfl
        | cons next rest =>
          simp only [longest?] at later
          cases h : longest? rest with
          | none => simp [h] at later
          | some candidate =>
            rw [h] at later
            simp only at later
            split at later <;> simp at later
      simp only [longest?, later, Option.some.injEq] at found
      simp [empty, found]
    | some candidate =>
      obtain ⟨member, longest⟩ := ih later
      simp only [longest?, later] at found
      split at found
      next shorter =>
        obtain rfl := Option.some.inj found
        refine ⟨List.mem_cons_of_mem _ member, ?_⟩
        rintro other (_ | ⟨_, tail⟩)
        · exact shorter
        · exact longest other tail
      next longer =>
        obtain rfl := Option.some.inj found
        refine ⟨List.mem_cons_self, ?_⟩
        rintro other (_ | ⟨_, tail⟩)
        · exact Nat.le_refl _
        · exact Nat.le_trans (longest other tail) (Nat.le_of_not_le longer)

theorem longest?_eq_none {openings : List Opening} : longest? openings = none ↔ openings = [] := by
  cases openings with
  | nil => simp [longest?]
  | cons opening others =>
    simp only [longest?]
    cases longest? others with
    | none => simp
    | some best =>
      simp only
      split <;> simp

end Opening

namespace Language

variable (language : Language)

/-- The string literal at the start of a text. -/
def quotedAt? (cursor : Cursor) (text : Text) : Option (Except Construct Lexeme) :=
  Lexeme.ofReading? .stringLiteral (some .stringLiteral) (language.readString cursor.previous text)

/-- The block comment at the start of a text. -/
def blockAt? (text : Text) : Option (Except Construct Lexeme) :=
  language.blockComments.findSome? fun block =>
    Lexeme.ofReading? .blockComment (some .blockComment) (block.readComment text)

/-- The line comment at the start of a text. -/
def lineAt? (text : Text) : Option (Except Construct Lexeme) :=
  language.lineMarkers.findSome? fun marker =>
    Lexeme.ofReading? .lineComment none (readLineComment marker text)

/-- The line break at the start of a text. -/
def newlineAt? (text : Text) : Option (Except Construct Lexeme) :=
  Lexeme.ofReading? .newline none (Blank.readNewline text)

/-- The run of blanks at the start of a text. -/
def whitespaceAt? (text : Text) : Option (Except Construct Lexeme) :=
  Lexeme.ofReading? .whitespace none (Blank.readWhitespace text)

/-- The constructs that stand at a place, in the order in which they are tried. -/
inductive Takes (cursor : Cursor) (text : Text) : Lexeme → Prop where
  | quoted {more : Nat} (read : language.readString cursor.previous text = .ok (more + 1)) :
    Takes cursor text ⟨.stringLiteral, more⟩
  | regex {more : Nat} (unquoted : language.quotedAt? cursor text = none)
    (allowed : language.regexLiterals = true ∧ cursor.regexAllowed = true)
    (read : Regex.read text = .ok (more + 1)) : Takes cursor text ⟨.stringLiteral, more⟩
  | block {more : Nat} (unquoted : language.quotedAt? cursor text = none)
    (noRegex : language.regexAt? cursor text = none)
    {block : Delimiters} (member : block ∈ language.blockComments)
    (read : block.readComment text = .ok (more + 1)) : Takes cursor text ⟨.blockComment, more⟩
  | line {more : Nat} (unquoted : language.quotedAt? cursor text = none)
    (noRegex : language.regexAt? cursor text = none) (noBlock : language.blockAt? text = none)
    {marker : Text} (member : marker ∈ language.lineMarkers)
    (read : readLineComment marker text = .ok (more + 1)) : Takes cursor text ⟨.lineComment, more⟩
  | newline {more : Nat} (read : Blank.readNewline text = .ok (more + 1)) :
    Takes cursor text ⟨.newline, more⟩
  | whitespace {more : Nat} (read : Blank.readWhitespace text = .ok (more + 1)) :
    Takes cursor text ⟨.whitespace, more⟩
  | code (unquoted : language.quotedAt? cursor text = none)
    (noRegex : language.regexAt? cursor text = none) (noBlock : language.blockAt? text = none)
    (noLine : language.lineAt? text = none) (noNewline : newlineAt? text = none)
    (noWhitespace : whitespaceAt? text = none) : Takes cursor text ⟨.code, 0⟩

end Language

theorem Lexeme.ofReading?_eq_ok {kind : Kind} {mustClose : Option Construct} {reading : Reading}
    {lexeme : Lexeme} :
    ofReading? kind mustClose reading = some (.ok lexeme)
      ↔ lexeme.kind = kind ∧ reading = .ok (lexeme.more + 1) := by
  match reading with
  | .ok 0 => simp [ofReading?]
  | .ok (more + 1) =>
    obtain ⟨found, rest⟩ := lexeme
    simp only [ofReading?, Option.some.injEq, Except.ok.injEq, Lexeme.mk.injEq]
    constructor
    · rintro ⟨rfl, rfl⟩
      exact ⟨rfl, rfl⟩
    · rintro ⟨rfl, same⟩
      exact ⟨rfl, by omega⟩
  | .error (.notOpened _) => simp [ofReading?]
  | .error (.notClosed _) => cases mustClose <;> simp [ofReading?]

private theorem orElse_getD {α : Type} (first later : Option α) (default result : α) :
    (first <|> later).getD default = result
      ↔ first = some result ∨ first = none ∧ later.getD default = result := by
  cases first <;> simp

namespace Language

variable {language : Language} {cursor : Cursor} {text : Text} {lexeme : Lexeme}

/-- A lexeme is a construct that stands at its place while none before it does. -/
theorem takes_of_lexemeAt (found : language.lexemeAt cursor text = .ok lexeme) :
    language.Takes cursor text lexeme := by
  obtain ⟨kind, more⟩ := lexeme
  -- the choice as a chain of alternatives, taken apart from the front
  change (language.quotedAt? cursor text <|> language.regexAt? cursor text
    <|> language.blockAt? text <|> language.lineAt? text <|> newlineAt? text
    <|> whitespaceAt? text).getD (.ok ⟨.code, 0⟩) = _ at found
  rw [orElse_getD] at found
  rcases found with quoted | ⟨unquoted, found⟩
  · obtain ⟨rfl, read⟩ := Lexeme.ofReading?_eq_ok.mp quoted
    exact .quoted read
  rw [orElse_getD] at found
  rcases found with regex | ⟨noRegex, found⟩
  · unfold regexAt? at regex
    split at regex
    next allowed =>
      obtain ⟨rfl, read⟩ := Lexeme.ofReading?_eq_ok.mp regex
      exact .regex unquoted (by simpa using allowed) read
    · simp at regex
  rw [orElse_getD] at found
  rcases found with block | ⟨noBlock, found⟩
  · obtain ⟨delimiters, member, taken⟩ := List.exists_of_findSome?_eq_some block
    obtain ⟨rfl, read⟩ := Lexeme.ofReading?_eq_ok.mp taken
    exact .block unquoted noRegex member read
  rw [orElse_getD] at found
  rcases found with line | ⟨noLine, found⟩
  · obtain ⟨marker, member, taken⟩ := List.exists_of_findSome?_eq_some line
    obtain ⟨rfl, read⟩ := Lexeme.ofReading?_eq_ok.mp taken
    exact .line unquoted noRegex noBlock member read
  rw [orElse_getD] at found
  rcases found with newline | ⟨noNewline, found⟩
  · obtain ⟨rfl, read⟩ := Lexeme.ofReading?_eq_ok.mp newline
    exact .newline read
  cases blank : whitespaceAt? text with
  | some taken =>
    rw [blank, Option.getD_some] at found
    rw [found] at blank
    obtain ⟨rfl, read⟩ := Lexeme.ofReading?_eq_ok.mp blank
    exact .whitespace read
  | none =>
    rw [blank, Option.getD_none] at found
    obtain ⟨rfl, rfl⟩ : Kind.code = kind ∧ 0 = more := by simpa using found
    exact .code unquoted noRegex noBlock noLine noNewline blank

/-- Code is scanned one character at a time. -/
theorem more_of_code (found : language.lexemeAt cursor text = .ok lexeme)
    (code : lexeme.kind = .code) : lexeme.more = 0 := by
  cases takes_of_lexemeAt found <;> simp_all

theorem readString_eq_ok {previous : Option Char} {length : Nat}
    (read : language.readString previous text = .ok length) :
    ∃ opening ∈ language.openingsAt previous text,
      Opening.longest? (language.openingsAt previous text) = some opening
        ∧ language.readOpened opening text = .ok length := by
  unfold readString at read
  split at read
  next opening longest => exact ⟨opening, (Opening.longest?_eq_some longest).1, longest, read⟩
  · simp at read

/-- A lexeme does not reach beyond its text. -/
theorem more_lt_length (found : language.lexemeAt cursor text = .ok lexeme)
    (nonempty : text ≠ []) : lexeme.more < text.length := by
  cases takes_of_lexemeAt found with
  | quoted read =>
    -- each reading names the text it takes, so its length is a sum over parts of the text
    obtain ⟨opening, -, -, read⟩ := readString_eq_ok read
    obtain ⟨body, rest, rfl, -, length⟩ := Quote.read_eq_ok.mp read
    simp only [List.length_append]
    omega
  | regex unquoted allowed read =>
    obtain ⟨body, flags, rest, rfl, -, -, -, length⟩ := Regex.read_eq_ok.mp read
    simp only [List.length_cons, List.length_append]
    omega
  | block unquoted noRegex member read =>
    obtain ⟨body, rest, rfl, -, length⟩ := Delimiters.readComment_eq_ok.mp read
    simp only [List.length_append]
    omega
  | line unquoted noRegex noBlock member read =>
    obtain ⟨body, rest, rfl, -, -, length⟩ := readLineComment_eq_ok.mp read
    simp only [List.length_append]
    omega
  | newline read =>
    obtain ⟨lineBreak, rest, rfl, length, -⟩ := Blank.readNewline_eq_ok read
    simp only [List.length_append]
    omega
  | whitespace read =>
    obtain ⟨blanks, rest, rfl, -, -, -, length⟩ := Blank.readWhitespace_eq_ok.mp read
    simp only [List.length_append]
    omega
  | code => exact List.length_pos_iff.mpr nonempty

end Language

end CommentStrip
