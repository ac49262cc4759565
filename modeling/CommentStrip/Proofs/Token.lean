import CommentStrip.Proofs.Partition

/-!
# Tokens

A token is a span without its place. Where the lexemes of a text are given as tokens, a scan of it
is a chain of readings: each token is read at the point that the tokens before it lead to, with the
text after it still there. Joining the code among tokens and cutting it into single characters
again undo each other.
-/
namespace CommentStrip

/-- What a span is and what it says, without its place. -/
structure Token where
  kind : Kind
  text : Text
  deriving DecidableEq

def Span.token (span : Span) : Token :=
  ⟨span.kind, span.text⟩

namespace Token

/-- The text that tokens make up. -/
def textOf (tokens : List Token) : Text :=
  tokens.flatMap Token.text

@[simp] theorem textOf_nil : textOf [] = [] := rfl

@[simp] theorem textOf_cons (token : Token) (tokens : List Token) :
    textOf (token :: tokens) = token.text ++ textOf tokens := rfl

@[simp] theorem textOf_append (first second : List Token) :
    textOf (first ++ second) = textOf first ++ textOf second := by
  simp [textOf]

theorem textOf_map_token (spans : List Span) :
    textOf (spans.map Span.token) = spans.flatMap Span.text := by
  simp [textOf, List.flatMap_map, Span.token]

/-- The tokens that are not blank. -/
def contents (tokens : List Token) : List Token :=
  tokens.filter (!·.kind.isBlank)

@[simp] theorem contents_nil : contents [] = [] := rfl

@[simp] theorem contents_append (first second : List Token) :
    contents (first ++ second) = contents first ++ contents second := by
  simp [contents]

theorem contents_cons (token : Token) (tokens : List Token) :
    contents (token :: tokens)
      = if token.kind.isBlank then contents tokens else token :: contents tokens := by
  simp only [contents, List.filter_cons]
  cases token.kind.isBlank <;> rfl

theorem contents_of_blank {tokens : List Token}
    (blank : ∀ token ∈ tokens, token.kind.isBlank = true) : contents tokens = [] := by
  simpa [contents, List.filter_eq_nil_iff] using blank

theorem contents_of_solid {tokens : List Token}
    (solid : ∀ token ∈ tokens, token.kind.isBlank = false) : contents tokens = tokens := by
  simpa [contents, List.filter_eq_self] using solid

/-- The lexemes that a token is scanned as: code is scanned one character at a time. -/
def lexemes (token : Token) : List Token :=
  if token.kind = .code then token.text.map fun c => ⟨.code, [c]⟩ else [token]

theorem lexemes_of_code (text : Text) :
    lexemes ⟨.code, text⟩ = text.map fun c => ⟨.code, [c]⟩ := rfl

theorem lexemes_of_ne_code {token : Token} (other : token.kind ≠ .code) :
    token.lexemes = [token] := by
  simp [lexemes, other]

theorem kind_of_mem_lexemes {token lexeme : Token} (member : lexeme ∈ token.lexemes) :
    lexeme.kind = token.kind := by
  by_cases code : token.kind = .code
  · simp only [lexemes, code, if_true, List.mem_map] at member
    obtain ⟨c, -, rfl⟩ := member
    exact code.symm
  · rw [lexemes_of_ne_code code, List.mem_singleton] at member
    rw [member]

@[simp] theorem textOf_lexemes (token : Token) : textOf token.lexemes = token.text := by
  by_cases code : token.kind = .code
  · simp [lexemes, code, textOf, List.flatMap_map]
  · simp [lexemes_of_ne_code code]

theorem textOf_flatMap_lexemes (tokens : List Token) :
    textOf (tokens.flatMap lexemes) = textOf tokens := by
  induction tokens with
  | nil => rfl
  | cons token rest ih => simp [ih]

theorem contents_lexemes (token : Token) :
    contents token.lexemes = if token.kind.isBlank then [] else token.lexemes := by
  cases blank : token.kind.isBlank with
  | true => exact contents_of_blank fun lexeme member => kind_of_mem_lexemes member ▸ blank
  | false => exact contents_of_solid fun lexeme member => kind_of_mem_lexemes member ▸ blank

theorem contents_flatMap_lexemes (tokens : List Token) :
    contents (tokens.flatMap lexemes) = (contents tokens).flatMap lexemes := by
  induction tokens with
  | nil => rfl
  | cons token rest ih =>
    rw [List.flatMap_cons, contents_append, ih, contents_lexemes, contents_cons]
    cases token.kind.isBlank <;> simp

/-- Puts a token in front of others, joining it with the first of them if both are code. -/
def attach (token : Token) : List Token → List Token
  | [] => [token]
  | next :: others =>
    if token.kind = .code ∧ next.kind = .code then ⟨.code, token.text ++ next.text⟩ :: others
    else token :: next :: others

/-- Joins tokens of code that follow each other. -/
def joinCode (tokens : List Token) : List Token :=
  tokens.foldr attach []

@[simp] theorem joinCode_cons (token : Token) (tokens : List Token) :
    joinCode (token :: tokens) = attach token (joinCode tokens) := rfl

theorem attach_of_ne_code {token : Token} (other : token.kind ≠ .code) (tokens : List Token) :
    attach token tokens = token :: tokens := by
  cases tokens <;> simp [attach, other]

theorem map_token_attach (span : Span) (spans : List Span) :
    (Span.attach span spans).map Span.token = attach span.token (spans.map Span.token) := by
  cases spans with
  | nil => rfl
  | cons next others =>
    by_cases both : span.kind = .code ∧ next.kind = .code
    · simp [Span.attach, attach, Span.token, both]
    · simp [Span.attach, attach, Span.token, both]

/-- Joining spans joins their tokens. -/
theorem map_token_coalesce (spans : List Span) :
    (Span.coalesce spans).map Span.token = joinCode (spans.map Span.token) := by
  induction spans with
  | nil => rfl
  | cons span rest ih =>
    rw [List.map_cons, joinCode_cons, ← ih]
    exact map_token_attach span (Span.coalesce rest)

theorem flatMap_lexemes_attach (token : Token) (tokens : List Token) :
    (attach token tokens).flatMap lexemes = token.lexemes ++ tokens.flatMap lexemes := by
  cases tokens with
  | nil => simp [attach]
  | cons next others =>
    by_cases both : token.kind = .code ∧ next.kind = .code
    · simp [attach, both, lexemes]
    · simp [attach, both]

theorem flatMap_lexemes_joinCode (tokens : List Token) :
    (joinCode tokens).flatMap lexemes = tokens.flatMap lexemes := by
  induction tokens with
  | nil => rfl
  | cons token rest ih => rw [joinCode_cons, flatMap_lexemes_attach, ih, List.flatMap_cons]

theorem attach_code_append (first second : Text) (tokens : List Token) :
    attach ⟨.code, first⟩ (attach ⟨.code, second⟩ tokens)
      = attach ⟨.code, first ++ second⟩ tokens := by
  cases tokens with
  | nil => simp [attach]
  | cons next others =>
    by_cases code : next.kind = .code
    · simp [attach, code]
    · simp [attach, code]

/-- Joining the lexemes of a token puts the token together again. -/
theorem joinCode_lexemes_append {token : Token} (nonempty : token.text ≠ []) (tokens : List Token) :
    joinCode (token.lexemes ++ tokens) = attach token (joinCode tokens) := by
  by_cases code : token.kind = .code
  · obtain ⟨kind, text⟩ := token
    obtain rfl : kind = .code := code
    simp only [lexemes_of_code]
    -- the first character is joined with those after it, once these are joined
    induction text with
    | nil => exact absurd rfl nonempty
    | cons c rest ih =>
      cases rest with
      | nil => rfl
      | cons d others =>
        rw [List.map_cons, List.cons_append, joinCode_cons, ih (List.cons_ne_nil d others),
          attach_code_append, List.singleton_append]
  · -- a token of another kind is its only lexeme
    rw [lexemes_of_ne_code code]
    rfl

/-- Joining only looks at the lexemes of tokens. -/
theorem joinCode_flatMap_lexemes {tokens : List Token}
    (nonempty : ∀ token ∈ tokens, token.text ≠ []) :
    joinCode (tokens.flatMap lexemes) = joinCode tokens := by
  induction tokens with
  | nil => rfl
  | cons token rest ih =>
    rw [List.flatMap_cons, joinCode_lexemes_append (nonempty token List.mem_cons_self),
      ih fun other member => nonempty other (List.mem_cons_of_mem _ member), joinCode_cons]

/-- Of two tokens that follow each other, one is not code. -/
def Separated (tokens : List Token) : Prop :=
  tokens.IsChain fun token next => ¬(token.kind = .code ∧ next.kind = .code)

theorem separated_cons {token : Token} {tokens : List Token} :
    Separated (token :: tokens)
      ↔ (token.kind = .code → ∀ next ∈ tokens.head?, next.kind ≠ .code) ∧ Separated tokens := by
  cases tokens with
  | nil => simp [Separated]
  | cons next others => simp [Separated, List.isChain_cons_cons]

/-- Blanks keep code apart. -/
theorem separated_blanks_append {blanks tokens : List Token}
    (blank : ∀ token ∈ blanks, token.kind.isBlank = true) (separated : Separated tokens) :
    Separated (blanks ++ tokens) := by
  induction blanks with
  | nil => exact separated
  | cons token rest ih =>
    refine separated_cons.mpr ⟨fun code => ?_,
      ih fun other member => blank other (List.mem_cons_of_mem _ member)⟩
    have here := blank token List.mem_cons_self
    simp [code, Kind.isBlank] at here

/-- Where no two tokens of code follow each other, there is nothing to join. -/
theorem joinCode_of_separated {tokens : List Token} (separated : Separated tokens) :
    joinCode tokens = tokens := by
  induction tokens with
  | nil => rfl
  | cons token rest ih =>
    obtain ⟨apart, later⟩ := separated_cons.mp separated
    rw [joinCode_cons, ih later]
    cases rest with
    | nil => rfl
    | cons next others =>
      have other : ¬(token.kind = .code ∧ next.kind = .code) := fun both =>
        apart both.1 next rfl both.2
      simp [attach, other]

/-- Tokens that are not empty have the same joined form exactly if they have the same lexemes. -/
theorem joinCode_eq_iff {first second : List Token}
    (firstNonempty : ∀ token ∈ first, token.text ≠ [])
    (secondNonempty : ∀ token ∈ second, token.text ≠ []) :
    joinCode first = joinCode second ↔ first.flatMap lexemes = second.flatMap lexemes := by
  constructor
  · intro same
    -- joining leaves the lexemes as they are, and only looks at them
    rw [← flatMap_lexemes_joinCode first, same, flatMap_lexemes_joinCode]
  · intro same
    rw [← joinCode_flatMap_lexemes firstNonempty, same, joinCode_flatMap_lexemes secondNonempty]

end Token

/-- What the text scanned so far means at some place, and the run of code right before it. -/
structure Point where
  cursor : Cursor
  run : Text

namespace Point

def start : Point := ⟨.start, []⟩

def past (point : Point) (token : Token) : Point :=
  ⟨point.cursor.after point.run token.kind token.text,
    codeRunAfter point.run token.kind token.text⟩

def pastAll (point : Point) (tokens : List Token) : Point :=
  tokens.foldl past point

@[simp] theorem pastAll_nil (point : Point) : point.pastAll [] = point := rfl

@[simp] theorem pastAll_cons (point : Point) (token : Token) (tokens : List Token) :
    point.pastAll (token :: tokens) = (point.past token).pastAll tokens := rfl

@[simp] theorem pastAll_append (point : Point) (first second : List Token) :
    point.pastAll (first ++ second) = (point.pastAll first).pastAll second := by
  simp [pastAll]

end Point

namespace Language

variable (language : Language)

/-- The token is the lexeme at the point, with `rest` after it. -/
def ReadsAt (point : Point) (token : Token) (rest : Text) : Prop :=
  token.text ≠ []
    ∧ language.lexemeAt point.cursor (token.text ++ rest)
      = .ok ⟨token.kind, token.text.length - 1⟩

/-- The tokens are the next lexemes from the point on, with `rest` after them. -/
def Reads : Point → List Token → (rest : Text) → Prop
  | _, [], _ => True
  | point, token :: more, rest =>
    language.ReadsAt point token (Token.textOf more ++ rest) ∧ Reads (point.past token) more rest

/-- The text is scanned without failure from the point on, and its lexemes are the tokens. -/
def Yields (point : Point) (text : Text) (tokens : List Token) : Prop :=
  (language.lex point.cursor point.run text).unclosed = none
    ∧ (language.lex point.cursor point.run text).lexemes.map Span.token = tokens

variable {language : Language} {point : Point}

theorem reads_append {first second : List Token} {rest : Text} :
    language.Reads point (first ++ second) rest
      ↔ language.Reads point first (Token.textOf second ++ rest)
        ∧ language.Reads (point.pastAll first) second rest := by
  induction first generalizing point with
  | nil => simp [Reads]
  | cons token more ih => simp [Reads, ih, and_assoc]

theorem yields_nil {tokens : List Token} : language.Yields point [] tokens ↔ tokens = [] := by
  simp [Yields, lex, eq_comm]

theorem lex_of_readsAt {token : Token} {rest : Text}
    (reads : language.ReadsAt point token rest) :
    language.lex point.cursor point.run (token.text ++ rest)
      = { language.lex (point.past token).cursor (point.past token).run rest with
          lexemes := Span.covering token.kind point.cursor.position token.text
            :: (language.lex (point.past token).cursor (point.past token).run rest).lexemes } := by
  obtain ⟨kind, text⟩ := token
  obtain ⟨nonempty, found⟩ := reads
  cases text with
  | nil => exact absurd rfl nonempty
  | cons c others =>
    simp only [List.cons_append, List.length_cons, Nat.add_sub_cancel] at found
    rw [List.cons_append, lex, found]
    simp [Point.past]

/-- A token that is read comes first among the lexemes. -/
theorem yields_of_readsAt {token : Token} {rest : Text} {tokens : List Token}
    (reads : language.ReadsAt point token rest) :
    language.Yields point (token.text ++ rest) tokens
      ↔ ∃ later, tokens = token :: later ∧ language.Yields (point.past token) rest later := by
  simp only [Yields, lex_of_readsAt reads, List.map_cons]
  constructor
  · rintro ⟨closed, rfl⟩
    exact ⟨_, rfl, closed, rfl⟩
  · rintro ⟨later, rfl, closed, rfl⟩
    exact ⟨closed, rfl⟩

/-- Tokens that are read come first among the lexemes. -/
theorem yields_of_reads {first tokens : List Token} {rest : Text}
    (reads : language.Reads point first rest) :
    language.Yields point (Token.textOf first ++ rest) tokens
      ↔ ∃ later, tokens = first ++ later ∧ language.Yields (point.pastAll first) rest later := by
  induction first generalizing point tokens with
  | nil => simp
  | cons token more ih =>
    -- the first token is the first lexeme, and the others are those after it
    obtain ⟨head, tail⟩ := reads
    rw [Token.textOf_cons, List.append_assoc, yields_of_readsAt head]
    constructor
    · rintro ⟨_, rfl, later⟩
      obtain ⟨last, rfl, final⟩ := (ih tail).mp later
      exact ⟨last, rfl, final⟩
    · rintro ⟨last, rfl, final⟩
      exact ⟨more ++ last, rfl, (ih tail).mpr ⟨last, rfl, final⟩⟩

/-- The lexeme at a place is a token that is read there, with what is left of the text after it. -/
theorem readsAt_of_lexemeAt {c : Char} {others : Text} {lexeme : Lexeme}
    (found : language.lexemeAt point.cursor (c :: others) = .ok lexeme) :
    language.ReadsAt point ⟨lexeme.kind, c :: others.take lexeme.more⟩ (others.drop lexeme.more) := by
  have inside : lexeme.more ≤ others.length := by
    have := more_lt_length found (List.cons_ne_nil c others)
    simp only [List.length_cons] at this
    omega
  -- cut the text into the lexeme and what is left
  have whole : c :: others.take lexeme.more ++ others.drop lexeme.more = c :: others := by simp
  refine ⟨List.cons_ne_nil _ _, ?_⟩
  rw [whole, found]
  simp [Nat.min_eq_left inside]

private theorem yields_of_lexemeAt {c : Char} {others : Text} {lexeme : Lexeme}
    (found : language.lexemeAt point.cursor (c :: others) = .ok lexeme) {tokens : List Token}
    (yields : language.Yields point (c :: others) tokens) :
    ∃ token rest later, token.text ++ rest = c :: others ∧ tokens = token :: later
      ∧ language.ReadsAt point token rest ∧ language.Yields (point.past token) rest later := by
  have whole : c :: others.take lexeme.more ++ others.drop lexeme.more = c :: others := by simp
  have reads := readsAt_of_lexemeAt found
  rw [← whole] at yields
  obtain ⟨later, rfl, rest⟩ := (yields_of_readsAt reads).mp yields
  exact ⟨_, _, later, whole, rfl, reads, rest⟩

/-- Lexemes are read one after the other and make up the text. -/
theorem Yields.reads {text : Text} {tokens : List Token}
    (yields : language.Yields point text tokens) :
    language.Reads point tokens [] ∧ Token.textOf tokens = text := by
  induction tokens generalizing point text with
  | nil =>
    cases text with
    | nil => exact ⟨trivial, rfl⟩
    | cons c others =>
      cases found : language.lexemeAt point.cursor (c :: others) with
      | error construct => simp [Yields, lex, found] at yields
      | ok lexeme =>
        -- a text that is not empty has a lexeme
        obtain ⟨_, _, _, -, impossible, -⟩ := yields_of_lexemeAt found yields
        exact absurd impossible.symm (List.cons_ne_nil _ _)
  | cons token more ih =>
    cases text with
    | nil => simp [yields_nil] at yields
    | cons c others =>
      cases found : language.lexemeAt point.cursor (c :: others) with
      | error construct => simp [Yields, lex, found] at yields
      | ok lexeme =>
        obtain ⟨first, rest, later, whole, same, head, tail⟩ := yields_of_lexemeAt found yields
        obtain ⟨rfl, rfl⟩ := List.cons.inj same
        obtain ⟨reads, made⟩ := ih tail
        refine ⟨⟨?_, reads⟩, ?_⟩
        · rw [List.append_nil, made]
          exact head
        · rw [Token.textOf_cons, made, whole]

/-- Tokens that are read up to the end of the text are its lexemes. -/
theorem Reads.yields {tokens : List Token} (reads : language.Reads point tokens []) :
    language.Yields point (Token.textOf tokens) tokens := by
  rw [← List.append_nil (Token.textOf tokens), yields_of_reads reads]
  exact ⟨[], by simp, yields_nil.mpr rfl⟩

theorem Reads.nonempty {tokens : List Token} {rest : Text}
    (reads : language.Reads point tokens rest) : ∀ token ∈ tokens, token.text ≠ [] := by
  induction tokens generalizing point with
  | nil => simp
  | cons token more ih =>
    rintro other (_ | ⟨_, tail⟩)
    · exact reads.1.1
    · exact ih reads.2 other tail

/-- Code is read one character at a time. -/
theorem Reads.flatMap_lexemes {tokens : List Token} {rest : Text}
    (reads : language.Reads point tokens rest) : tokens.flatMap Token.lexemes = tokens := by
  induction tokens generalizing point with
  | nil => rfl
  | cons token more ih =>
    rw [List.flatMap_cons, ih reads.2]
    obtain ⟨⟨nonempty, found⟩, -⟩ := reads
    by_cases code : token.kind = .code
    · obtain ⟨kind, text⟩ := token
      obtain rfl : kind = .code := code
      -- a lexeme of code is a single character, and so its own only lexeme
      have single := more_of_code found rfl
      match text, nonempty, single with
      | [c], _, _ => rfl
      | _ :: _ :: _, _, single => simp at single
    · rw [Token.lexemes_of_ne_code code, List.singleton_append]

/-- The tokens of the spans of a source are read from its start on, lexeme by lexeme. -/
theorem reads_of_spans {source : Text} {spans : List Span}
    (scanned : language.spans source = .ok spans) :
    language.Reads .start ((spans.map Span.token).flatMap Token.lexemes) []
      ∧ Token.textOf (spans.map Span.token) = source := by
  obtain ⟨closed, rfl⟩ := lex_of_spans scanned
  -- the spans are the joined lexemes, so cutting code again gives back the lexemes
  have yields : language.Yields .start source
      ((language.lex .start [] source).lexemes.map Span.token) := ⟨closed, rfl⟩
  obtain ⟨reads, made⟩ := yields.reads
  rw [Token.map_token_coalesce, Token.flatMap_lexemes_joinCode, reads.flatMap_lexemes]
  refine ⟨reads, ?_⟩
  rw [← Token.textOf_flatMap_lexemes, Token.flatMap_lexemes_joinCode, reads.flatMap_lexemes, made]

/-- A text that yields lexemes from the start on is scanned without failure, and its spans are the
lexemes with code joined. -/
theorem Yields.spans {text : Text} {tokens : List Token}
    (yields : language.Yields .start text tokens) :
    ∃ spans, language.spans text = .ok spans ∧ spans.map Span.token = Token.joinCode tokens := by
  obtain ⟨closed, rfl⟩ := yields
  refine ⟨Span.coalesce (language.lex .start [] text).lexemes, ?_, ?_⟩
  · change (language.lex .start [] text).unclosed = none at closed
    simp [Language.spans, scan, closed]
  · exact Token.map_token_coalesce _

end Language

end CommentStrip
