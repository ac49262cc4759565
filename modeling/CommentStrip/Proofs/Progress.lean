import CommentStrip.Language.Registry
import CommentStrip.Proofs.Lexeme
import CommentStrip.Span.Scan

/-!
# Progress of the scan

The scan takes the first construct that stands at a place, and the search for the end of a string
literal passes over its body. Both are given here as steps between states, with the lengths that
the delimiters alone decide, so that nothing in a step says that it moves on. With no empty opening
delimiter every step does; no run of steps is endless then, and the steps are those that `lexemeAt`
and `BodyRule.step` take.
-/
namespace CommentStrip

namespace Language

/-- No comment, string literal or embedded expression opens with an empty text. -/
structure WellDelimited (language : Language) : Prop where
  markers : ∀ marker ∈ language.lineMarkers, marker ≠ []
  blocks : ∀ block ∈ language.blockComments, block.opener ≠ []
  quotes : ∀ quote ∈ language.quotes, quote.opener ≠ []
  interpolation : ∀ interpolation ∈ language.interpolation, interpolation.opener ≠ []

instance (language : Language) : Decidable language.WellDelimited :=
  decidable_of_iff
    ((∀ marker ∈ language.lineMarkers, marker ≠ [])
      ∧ (∀ block ∈ language.blockComments, block.opener ≠ [])
      ∧ (∀ quote ∈ language.quotes, quote.opener ≠ [])
      ∧ ∀ interpolation ∈ language.interpolation, interpolation.opener ≠ [])
    ⟨fun ⟨markers, blocks, quotes, interpolation⟩ => ⟨markers, blocks, quotes, interpolation⟩,
      fun delimited =>
        ⟨delimited.markers, delimited.blocks, delimited.quotes, delimited.interpolation⟩⟩

theorem wellDelimited_of_registered :
    ∀ language ∈ registered, language.WellDelimited := by
  decide

end Language

namespace BodyRule

variable (rule : BodyRule)

/--
One turn of the search for a closing quote, from the part that the body is in and the text that is
left to what they become. There is none at the end of the text and where the closing quote stands.
-/
def searchStep? : BodyPart × Text → Option (BodyPart × Text)
  | (_, []) => none
  | (.own, c :: rest) =>
    if rule.escape = some c then some (.own, rest.drop 1)
    else
      match rule.interpolation.filter (·.isPrefixOf (c :: rest)) with
      | some opener =>
        if opener.isPrefixOf ((c :: rest).drop opener.length) then
          some (.own, (c :: rest).drop (2 * opener.length))
        else some (.expression 0 none, (c :: rest).drop opener.length)
      | none => if rule.closer.isPrefixOf (c :: rest) then none else some (.own, rest)
  | (.expression depth quote, c :: rest) =>
    (rule.step c rest (.expression depth quote)).map fun next => (next.2, rest.drop next.1)

private theorem append_isPrefixOf (first second text : Text) :
    (first ++ second).isPrefixOf text
      = (first.isPrefixOf text && second.isPrefixOf (text.drop first.length)) := by
  induction first generalizing text with
  | nil => simp
  | cons c rest ih =>
    cases text with
    | nil => simp
    | cons d others =>
      simp only [List.cons_append, List.isPrefixOf_cons_cons, List.length_cons, List.drop_succ_cons, ih,
        Bool.and_assoc]

/-- With an interpolation opener that is not empty, a turn of the search is a step of the body. -/
theorem searchStep?_eq (opened : rule.interpolation ≠ some []) (part : BodyPart) (c : Char)
    (rest : Text) :
    rule.searchStep? (part, c :: rest)
      = (rule.step c rest part).map fun next => (next.2, rest.drop next.1) := by
  cases part with
  | expression depth quote => rfl
  | own =>
    -- an escape passes two characters in both
    by_cases escaped : rule.escape = some c
    · simp [searchStep?, step, escaped]
    · cases interpolated : rule.interpolation with
      | none =>
        simp only [searchStep?, step, escaped, interpolationAt?, interpolated, if_false,
          Option.filter_none]
        split <;> rfl
      | some opener =>
        cases opener with
        | nil => exact absurd interpolated opened
        | cons first others =>
          -- a doubled opener passes both copies, a single one opens an expression
          by_cases opens : (first :: others).isPrefixOf (c :: rest) = true
          · simp only [searchStep?, step, escaped, interpolationAt?, interpolated, if_false,
              Option.filter, opens, if_true, append_isPrefixOf, Bool.true_and, List.isEmpty_cons,
              Bool.false_or, Bool.not_true, Bool.false_eq_true]
            split
            · simp [Nat.mul_add]
            · simp
          · simp only [searchStep?, step, escaped, interpolationAt?, interpolated, if_false,
              Option.filter, opens, List.isEmpty_cons, Bool.false_or, Bool.not_false, if_true,
              Bool.false_eq_true]
            split <;> rfl

/-- The search for a closing quote cannot go on without end. -/
theorem wellFounded_search (opened : rule.interpolation ≠ some []) :
    WellFounded fun later earlier => rule.searchStep? earlier = some later := by
  -- every turn leaves less text
  refine Subrelation.wf ?_ (measure fun state : BodyPart × Text => state.2.length).wf
  rintro later ⟨part, _ | ⟨c, rest⟩⟩ turn
  · cases part <;> simp [searchStep?] at turn
  · rw [rule.searchStep?_eq opened, Option.map_eq_some_iff] at turn
    obtain ⟨next, -, rfl⟩ := turn
    show (rest.drop next.1).length < (c :: rest).length
    simp only [List.length_drop, List.length_cons]
    omega

end BodyRule

/-- What a reading means for the construct at a place: its kind and its length, which may be zero,
or the construct that is not closed. -/
def Reading.construct? (kind : Kind) (mustClose : Option Construct) :
    Reading → Option (Except Construct (Kind × Nat))
  | .ok length => some (.ok (kind, length))
  | .error (.notOpened _) => none
  | .error (.notClosed _) => mustClose.map .error

namespace Language

variable (language : Language)

/-- The construct at the start of a nonempty text with its length in characters. -/
def constructAt (cursor : Cursor) (text : Text) : Except Construct (Kind × Nat) :=
  (Reading.construct? .stringLiteral (some .stringLiteral)
      (language.readString cursor.previous text)
    <|> (if language.regexLiterals && cursor.regexAllowed then
        Reading.construct? .stringLiteral none (Regex.read text) else none)
    <|> language.blockComments.findSome? (fun block =>
      Reading.construct? .blockComment (some .blockComment) (block.readComment text))
    <|> language.lineMarkers.findSome? (fun marker =>
      Reading.construct? .lineComment none (readLineComment marker text))
    <|> Reading.construct? .newline none (Blank.readNewline text)
    <|> Reading.construct? .whitespace none (Blank.readWhitespace text)).getD (.ok (.code, 1))

/-- A scan at some place: what was scanned means `cursor` and `run`, and `rest` is left. -/
structure ScanState where
  cursor : Cursor
  run : Text
  rest : Text

/-- The scan after the construct where it stands, unless the text ends there or the construct is
not closed. -/
def scanStep? (state : ScanState) : Option ScanState :=
  match state.rest with
  | [] => none
  | c :: rest =>
    match language.constructAt state.cursor (c :: rest) with
    | .error _ => none
    | .ok (kind, length) =>
      let text := (c :: rest).take length
      some ⟨state.cursor.after state.run kind text, codeRunAfter state.run kind text,
        (c :: rest).drop length⟩

end Language

/-- The kind of a lexeme and its length. -/
def Lexeme.extent (lexeme : Lexeme) : Kind × Nat :=
  (lexeme.kind, lexeme.more + 1)

private theorem construct?_eq (kind : Kind) (mustClose : Option Construct) (reading : Reading)
    (moves : reading ≠ .ok 0) :
    reading.construct? kind mustClose
      = (Lexeme.ofReading? kind mustClose reading).map (·.map Lexeme.extent) := by
  match reading with
  | .ok 0 => exact absurd rfl moves
  | .ok (more + 1) => rfl
  | .error (.notOpened _) => rfl
  | .error (.notClosed _) => cases mustClose <;> rfl

private theorem read_ne_zero (quote : Quote) (opened : quote.opener ≠ []) (lead : Text)
    (raw : Bool) (interpolation : Option Text) (text : Text) :
    quote.read lead raw interpolation text ≠ .ok 0 := by
  have positive := List.length_pos_iff.mpr opened
  simp only [Quote.read]
  split
  · simp
  · split
    · simp
    · split
      · simp only [ne_eq, Except.ok.injEq]
        omega
      · simp

namespace Language

variable {language : Language}

theorem mem_openingsAt_iff {previous : Option Char} {text lead : Text} {quote : Quote} :
    ⟨lead, quote⟩ ∈ language.openingsAt previous text
      ↔ lead ∈ language.leadsAt previous text ∧ quote ∈ language.quotes
        ∧ quote.opener.isPrefixOf (text.drop lead.length) = true := by
  simp only [openingsAt, List.mem_flatMap, List.mem_map, List.mem_filter]
  constructor
  · rintro ⟨lead, leads, quote, ⟨known, opens⟩, ⟨⟩⟩
    exact ⟨leads, known, opens⟩
  · rintro ⟨leads, known, opens⟩
    exact ⟨lead, leads, quote, ⟨known, opens⟩, rfl⟩

/-- An opening at some place has a quote of the language. -/
theorem quote_mem_of_mem_openingsAt {previous : Option Char} {text : Text} {opening : Opening}
    (member : opening ∈ language.openingsAt previous text) : opening.quote ∈ language.quotes :=
  (mem_openingsAt_iff.mp member).2.1

private theorem readString_ne_zero (delimited : language.WellDelimited) (previous : Option Char)
    (text : Text) : language.readString previous text ≠ .ok 0 := by
  simp only [readString]
  split
  next opening found =>
    have known := quote_mem_of_mem_openingsAt (Opening.longest?_eq_some found).1
    exact read_ne_zero _ (delimited.quotes _ known) _ _ _ _
  · simp

private theorem regex_read_ne_zero (text : Text) : Regex.read text ≠ .ok 0 := by
  unfold Regex.read
  split
  · split
    · simp only [ne_eq, Except.ok.injEq]
      omega
    · simp
  · simp

private theorem readComment_ne_zero (block : Delimiters) (opened : block.opener ≠ [])
    (text : Text) : block.readComment text ≠ .ok 0 := by
  have positive := List.length_pos_iff.mpr opened
  simp only [Delimiters.readComment]
  split
  · split
    · simp only [ne_eq, Except.ok.injEq]
      omega
    · simp
  · simp

private theorem readLineComment_ne_zero (marker : Text) (opened : marker ≠ []) (text : Text) :
    readLineComment marker text ≠ .ok 0 := by
  have positive := List.length_pos_iff.mpr opened
  simp only [readLineComment]
  split
  · simp only [ne_eq, Except.ok.injEq]
    omega
  · simp

private theorem readNewline_ne_zero (text : Text) : Blank.readNewline text ≠ .ok 0 := by
  unfold Blank.readNewline
  split <;> simp

private theorem readWhitespace_ne_zero (text : Text) : Blank.readWhitespace text ≠ .ok 0 := by
  unfold Blank.readWhitespace
  split
  · simp
  next nonzero => simpa using nonzero

theorem findSome?_map {α β γ : Type} (f : α → Option β) (g : α → Option γ) (h : β → γ)
    (items : List α) (agree : ∀ item ∈ items, g item = (f item).map h) :
    items.findSome? g = (items.findSome? f).map h := by
  induction items with
  | nil => rfl
  | cons item rest ih =>
    have first := agree item List.mem_cons_self
    have others := ih fun item member => agree item (List.mem_cons_of_mem _ member)
    cases found : f item <;> simp_all

/-- Without empty opening delimiters, the construct at a place is the lexeme there. -/
theorem constructAt_eq (delimited : language.WellDelimited) (cursor : Cursor) (text : Text) :
    language.constructAt cursor text = (language.lexemeAt cursor text).map Lexeme.extent := by
  -- alternative by alternative, no reading takes nothing
  have literal := construct?_eq .stringLiteral (some .stringLiteral) _
    (readString_ne_zero delimited cursor.previous text)
  have regex : (if language.regexLiterals && cursor.regexAllowed then
        Reading.construct? .stringLiteral none (Regex.read text) else none)
      = (language.regexAt? cursor text).map (·.map Lexeme.extent) := by
    unfold regexAt?
    split
    · exact construct?_eq _ _ _ (regex_read_ne_zero text)
    · rfl
  have blocks := findSome?_map
    (fun block => Lexeme.ofReading? .blockComment (some .blockComment) (block.readComment text))
    (fun block => Reading.construct? .blockComment (some .blockComment) (block.readComment text))
    (·.map Lexeme.extent) language.blockComments
    fun block member =>
      construct?_eq _ _ _ (readComment_ne_zero block (delimited.blocks block member) text)
  have markers := findSome?_map
    (fun marker => Lexeme.ofReading? .lineComment none (readLineComment marker text))
    (fun marker => Reading.construct? .lineComment none (readLineComment marker text))
    (·.map Lexeme.extent) language.lineMarkers
    fun marker member =>
      construct?_eq _ _ _ (readLineComment_ne_zero marker (delimited.markers marker member) text)
  have newline := construct?_eq .newline none _ (readNewline_ne_zero text)
  have whitespace := construct?_eq .whitespace none _ (readWhitespace_ne_zero text)
  simp only [constructAt, lexemeAt, literal, regex, blocks, markers, newline, whitespace]
  -- only the order of the alternatives is left, and it is the same in both
  generalize Lexeme.ofReading? .stringLiteral _ _ = literal
  generalize language.regexAt? cursor text = regex
  generalize language.blockComments.findSome? _ = block
  generalize language.lineMarkers.findSome? _ = marker
  generalize Lexeme.ofReading? .newline _ _ = newline
  generalize Lexeme.ofReading? .whitespace _ _ = whitespace
  cases literal with
  | some _ => rfl
  | none =>
    cases regex with
    | some _ => rfl
    | none =>
      cases block with
      | some _ => rfl
      | none =>
        cases marker with
        | some _ => rfl
        | none => cases newline <;> cases whitespace <;> rfl

/-- What opens an embedded expression is not empty. -/
theorem interpolationOpener?_ne_nil (delimited : language.WellDelimited) (lead quoteOpener : Text)
    (raw : Bool) : language.interpolationOpener? lead quoteOpener raw ≠ some [] := by
  simp only [interpolationOpener?]
  cases embedded : language.interpolation with
  | none => nofun
  | some interpolation =>
    simp only [Option.bind_some]
    split
    · simpa using delimited.interpolation interpolation embedded
    · nofun

/-- The lexemes of a text if there are at most `bound` of them. -/
def lexWithin (language : Language) : (bound : Nat) → Cursor → (run : Text) → Text → Lexing
  | _, cursor, _, [] => ⟨[], cursor, none⟩
  | 0, cursor, _, _ :: _ => ⟨[], cursor, none⟩
  | bound + 1, cursor, run, c :: rest =>
    match language.lexemeAt cursor (c :: rest) with
    | .error construct => ⟨[], cursor, some construct⟩
    | .ok lexeme =>
      let text := c :: rest.take lexeme.more
      let later := language.lexWithin bound (cursor.after run lexeme.kind text)
        (codeRunAfter run lexeme.kind text) (rest.drop lexeme.more)
      { later with lexemes := Span.covering lexeme.kind cursor.position text :: later.lexemes }

/-- A text has at most as many lexemes as characters. -/
theorem lexWithin_eq (language : Language) (bound : Nat) (cursor : Cursor) (run text : Text)
    (enough : text.length ≤ bound) :
    language.lexWithin bound cursor run text = language.lex cursor run text := by
  induction bound generalizing cursor run text with
  | zero =>
    obtain rfl := List.length_eq_zero_iff.mp (Nat.le_zero.mp enough)
    rw [lex, lexWithin]
  | succ bound ih =>
    cases text with
    | nil => rw [lex, lexWithin]
    | cons c rest =>
      rw [lex, lexWithin]
      cases language.lexemeAt cursor (c :: rest) with
      | error construct => rfl
      | ok lexeme =>
        -- each lexeme uses up at least the character it starts with
        have fewer : (rest.drop lexeme.more).length ≤ bound := by
          simp only [List.length_cons] at enough
          rw [List.length_drop]
          omega
        simp only [ih _ _ _ fewer]

/-- The scan of a text, found by a recursion on a number that evaluates. -/
theorem scan_eq_lexWithin (language : Language) (cursor : Cursor) (text : Text) :
    language.scan cursor text =
      let lexing := language.lexWithin text.length cursor [] text
      match lexing.unclosed with
      | some construct => (.error ⟨construct, lexing.cursor.position⟩, lexing.cursor)
      | none => (.ok (Span.coalesce lexing.lexemes), lexing.cursor) := by
  have same := lexWithin_eq language text.length cursor [] text (Nat.le_refl _)
  cases unclosed : (language.lex cursor [] text).unclosed with
  | none => simp [scan, same, unclosed]
  | some construct => simp [scan, same, unclosed]

/-- The spans of a source text, found in the same way. -/
theorem spans_eq_lexWithin (language : Language) (source : Text) :
    language.spans source =
      let lexing := language.lexWithin source.length .start [] source
      match lexing.unclosed with
      | some construct => .error ⟨construct, lexing.cursor.position⟩
      | none => .ok (Span.coalesce lexing.lexemes) := by
  simp only [Language.spans, scan_eq_lexWithin]
  cases (language.lexWithin source.length .start [] source).unclosed <;> rfl

/-- The scan cannot go on without end. -/
theorem wellFounded_scan (delimited : language.WellDelimited) :
    WellFounded fun later earlier => language.scanStep? earlier = some later := by
  -- every turn leaves less text, since a lexeme has at least one character
  refine Subrelation.wf ?_ (measure fun state : ScanState => state.rest.length).wf
  rintro later ⟨cursor, run, _ | ⟨c, rest⟩⟩ turn
  · simp [scanStep?] at turn
  · simp only [scanStep?, constructAt_eq delimited] at turn
    cases found : language.lexemeAt cursor (c :: rest) with
    | error construct => simp [found, Except.map] at turn
    | ok lexeme =>
      simp only [found, Except.map, Lexeme.extent, List.drop_succ_cons, Option.some.injEq] at turn
      subst turn
      show (rest.drop lexeme.more).length < (c :: rest).length
      simp only [List.length_drop, List.length_cons]
      omega

-- A marker that is empty stands before any line break, and the scan then stays where it is.
example : ({ python with lineMarkers := [[]] } : Language).scanStep? ⟨.start, [], ['\n']⟩
    = some ⟨.start, [], ['\n']⟩ := rfl

end Language

end CommentStrip
