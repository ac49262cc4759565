import CommentStrip.Proofs.Resumption
import Mathlib.Data.List.DropRight

/-!
# What a slash means

Whether a slash begins a regular expression is kept up to date from one construct to the next, out of
the run of code that is still open. It can be read off the spans that are there so far instead: a
literal ends an operand, and the last code before the slash decides by the whole word that it ends
with. This holds wherever a scan stands, also where it will fail or go on without end.
-/
namespace CommentStrip

/-- Whether a regular expression may begin after the code. -/
def Text.allowsRegex (code : Text) : Bool :=
  match code.getLast? with
  | none => true
  | some c =>
    if isTokenWord c then expressionKeywords.contains (code.rtakeWhile isTokenWord)
    else c != ')' && c != ']'

/-- The run of code is kept last character first. -/
theorem regexMayFollow_reverse (code : Text) : regexMayFollow code.reverse = code.allowsRegex := by
  cases code using List.reverseRecOn with
  | nil => rfl
  | append_singleton front c =>
    rw [Text.allowsRegex, List.getLast?_concat, List.rtakeWhile, List.reverse_concat]
    exact regexMayFollow_cons c front.reverse

namespace Span

/-- Whether a regular expression may begin after the spans. Blanks and comments do not matter. -/
def allowRegex (spans : List Span) : Bool :=
  match (spans.filter isSignificant).getLast? with
  | none => true
  | some span => span.kind = .code && span.text.allowsRegex

/-- The code that the spans end with, if they end with code. -/
def openCode (spans : List Span) : Text :=
  match spans.getLast? with
  | none => []
  | some span => if span.kind = .code then span.text else []

/-- Puts a span after others, joining it with the last of them if both are code. -/
def push (spans : List Span) (span : Span) : List Span :=
  match spans.getLast? with
  | none => [span]
  | some last => spans.dropLast ++ attach last [span]

variable {span : Span}

theorem allowRegex_concat_of_trivia (trivia : span.isSignificant = false) (spans : List Span) :
    allowRegex (spans ++ [span]) = allowRegex spans := by
  rw [allowRegex, List.filter_append, List.filter_singleton, trivia, cond_false, List.append_nil,
    allowRegex]

theorem allowRegex_concat (significant : span.isSignificant = true) (spans : List Span) :
    allowRegex (spans ++ [span]) = (span.kind = .code && span.text.allowsRegex) := by
  rw [allowRegex, List.filter_append, List.filter_singleton, significant, cond_true,
    List.getLast?_concat]

theorem openCode_concat (spans : List Span) (span : Span) :
    openCode (spans ++ [span]) = if span.kind = .code then span.text else [] := by
  rw [openCode, List.getLast?_concat]

theorem push_concat (spans : List Span) (last span : Span) :
    push (spans ++ [last]) span = spans ++ attach last [span] := by
  simp [push]

theorem push_of_ne_code (other : span.kind ≠ .code) (spans : List Span) :
    push spans span = spans ++ [span] := by
  cases spans using List.reverseRecOn with
  | nil => rfl
  | append_singleton earlier last => simp [push_concat, attach, other]

theorem push_of_code (code : span.kind = .code) (spans : List Span) :
    ∃ earlier joined, push spans span = earlier ++ [joined] ∧ joined.kind = .code
      ∧ joined.text = openCode spans ++ span.text := by
  cases spans using List.reverseRecOn with
  | nil => exact ⟨[], span, rfl, code, rfl⟩
  | append_singleton earlier last =>
    rw [push_concat, openCode_concat]
    by_cases both : last.kind = .code
    · refine ⟨earlier, { last with stop := span.stop, text := last.text ++ span.text }, ?_, both, ?_⟩
      · rw [attach, if_pos ⟨both, code⟩]
      · rw [if_pos both]
    · refine ⟨earlier ++ [last], span, by simp [attach, both], code, ?_⟩
      simp [both]

/-- The spans that are joined one after the other are those that are joined at the end. -/
theorem coalesce_concat (spans : List Span) (span : Span) :
    coalesce (spans ++ [span]) = push (coalesce spans) span := by
  induction spans with
  | nil => rfl
  | cons first rest ih =>
    rw [List.cons_append, coalesce_cons, ih, coalesce_cons]
    cases coalesce rest using List.reverseRecOn with
    | nil => rfl
    | append_singleton middle last =>
      rw [push_concat]
      cases middle with
      | nil =>
        -- three spans in a row, whose code is joined from either side
        by_cases one : first.kind = .code <;> by_cases two : last.kind = .code <;>
          by_cases three : span.kind = .code <;> simp [attach, push, one, two, three]
      | cons next others =>
        rw [attach_append first (List.cons_ne_nil _ _), attach_append first (List.cons_ne_nil _ _),
          push_concat]

theorem foldl_push (spans : List Span) : spans.foldl push [] = coalesce spans := by
  induction spans using List.reverseRecOn with
  | nil => rfl
  | append_singleton earlier last ih => rw [List.foldl_concat, ih, coalesce_concat]

end Span

/-- What is known at the point agrees with the spans found so far. -/
structure Point.Follows (point : Point) (spans : List Span) : Prop where
  slash : point.cursor.regexAllowed = Span.allowRegex spans
  run : point.run = (Span.openCode spans).reverse

namespace Point

theorem follows_start : start.Follows [] := ⟨rfl, rfl⟩

variable {point : Point} {spans : List Span} {span : Span}

/-- Code goes on from the code that is open, and is judged together with it. -/
private theorem Follows.past_of_code (follows : point.Follows spans) (code : span.kind = .code) :
    (point.past span.token).Follows (Span.push spans span) := by
  -- the run goes on exactly if the last span does
  obtain ⟨earlier, joined, pushed, joinedCode, whole⟩ := Span.push_of_code code spans
  have run : (point.past span.token).run = joined.text.reverse := by
    rw [whole, List.reverse_append, ← follows.run]
    simp [Point.past, Span.token, codeRunAfter, code]
  have slash : (point.past span.token).cursor.regexAllowed = joined.text.allowsRegex := by
    rw [← regexMayFollow_reverse, ← run]
    simp [Point.past, Span.token, Cursor.after, code]
  have significant : joined.isSignificant = true := by
    rw [Span.isSignificant, joinedCode]
    rfl
  rw [pushed]
  constructor
  · rw [slash, Span.allowRegex_concat significant]
    simp [joinedCode]
  · rw [run, Span.openCode_concat, if_pos joinedCode]

private theorem Follows.past_of_ne_code (follows : point.Follows spans) (other : span.kind ≠ .code) :
    (point.past span.token).Follows (Span.push spans span) := by
  rw [Span.push_of_ne_code other]
  constructor
  · cases significant : span.isSignificant with
    | true =>
      have literal : span.kind = .stringLiteral := by
        cases kind : span.kind <;>
          simp_all [Span.isSignificant, Kind.isTrivia, Kind.isBlank, Kind.isComment]
      rw [Span.allowRegex_concat significant]
      simp [Point.past, Span.token, Cursor.after, literal]
    | false =>
      rw [Span.allowRegex_concat_of_trivia significant, ← follows.slash]
      have trivia : ∀ token ∈ [span.token], token.kind.isTrivia = true := by
        simpa [Span.isSignificant, Span.token] using significant
      exact regexAllowed_pastAll trivia
  · rw [Span.openCode_concat, if_neg other]
    simp [Point.past, Span.token, codeRunAfter, other]

/-- One more construct keeps the point and the spans in agreement. -/
theorem Follows.past (follows : point.Follows spans) (span : Span) :
    (point.past span.token).Follows (Span.push spans span) := by
  by_cases code : span.kind = .code
  · exact follows.past_of_code code
  · exact follows.past_of_ne_code code

end Point

namespace Language

/-- A scan of the source stands at the state and has found the spans, in which code is in one piece. -/
inductive Scans (language : Language) (source : Text) : List Span → ScanState → Prop where
  | start : Scans language source [] ⟨.start, [], source⟩
  | step {spans : List Span} {state next : ScanState} {kind : Kind} {length : Nat}
    (before : Scans language source spans state)
    (chosen : language.constructAt state.cursor state.rest = .ok (kind, length))
    (turn : language.scanStep? state = some next) :
    Scans language source
      (Span.push spans (.covering kind state.cursor.position (state.rest.take length))) next

variable {language : Language} {source : Text} {spans : List Span} {state : ScanState}

theorem scanStep?_eq {kind : Kind} {length : Nat} (left : state.rest ≠ [])
    (chosen : language.constructAt state.cursor state.rest = .ok (kind, length)) :
    language.scanStep? state
      = some ⟨state.cursor.after state.run kind (state.rest.take length),
        codeRunAfter state.run kind (state.rest.take length), state.rest.drop length⟩ := by
  obtain ⟨cursor, run, rest⟩ := state
  obtain ⟨c, others, rfl⟩ := List.exists_cons_of_ne_nil left
  simp only at chosen
  simp only [scanStep?, chosen]

theorem rest_ne_nil_of_scanStep? {next : ScanState} (turn : language.scanStep? state = some next) :
    state.rest ≠ [] := by
  obtain ⟨cursor, run, _ | ⟨c, rest⟩⟩ := state
  · simp [scanStep?] at turn
  · exact List.cons_ne_nil c rest

theorem Scans.follows (scans : language.Scans source spans state) :
    Point.Follows ⟨state.cursor, state.run⟩ spans := by
  induction scans with
  | start => exact Point.follows_start
  | @step spans state next kind length before chosen turn ih =>
    rw [scanStep?_eq (rest_ne_nil_of_scanStep? turn) chosen] at turn
    obtain rfl := Option.some.inj turn
    exact ih.past (.covering kind state.cursor.position (state.rest.take length))

/-- The lexemes of a text lead on from a point to the end of the scan. -/
theorem follows_lex (language : Language) (cursor : Cursor) (run text : Text) :
    ∀ spans, Point.Follows ⟨cursor, run⟩ spans →
      (language.lex cursor run text).cursor.regexAllowed
        = Span.allowRegex ((language.lex cursor run text).lexemes.foldl Span.push spans) := by
  fun_induction lex language cursor run text with
  | case1 => exact fun spans follows => follows.slash
  | case2 => exact fun spans follows => follows.slash
  | case3 cursor run c rest lexeme found text later ih =>
    exact fun spans follows => ih _ (follows.past (.covering lexeme.kind cursor.position text))

private theorem exists_scans_lex (delimited : language.WellDelimited) (cursor : Cursor)
    (run text : Text) :
    ∀ spans, language.Scans source spans ⟨cursor, run, text⟩ →
      (language.lex cursor run text).unclosed = none →
      ∃ last, language.Scans source
        ((language.lex cursor run text).lexemes.foldl Span.push spans)
        ⟨(language.lex cursor run text).cursor, last, []⟩ := by
  fun_induction lex language cursor run text with
  | case1 => exact fun spans scans _ => ⟨_, scans⟩
  | case2 => exact fun spans scans closed => absurd closed (Option.some_ne_none _)
  | case3 cursor run c rest lexeme found text later ih =>
    intro spans scans closed
    -- what is chosen there is the lexeme, as no construct is empty
    have chosen : language.constructAt cursor (c :: rest) = .ok lexeme.extent := by
      rw [constructAt_eq delimited, found]
      rfl
    have next : language.scanStep? ⟨cursor, run, c :: rest⟩ = some _ :=
      scanStep?_eq (List.cons_ne_nil c rest) chosen
    exact ih _ (scans.step chosen next) closed

/-- Where no opener is empty, a scan that ends has gone through the states of `Scans`. -/
theorem exists_scans_of_spans (delimited : language.WellDelimited)
    (scanned : language.spans source = .ok spans) :
    ∃ run, language.Scans source spans ⟨(language.scan .start source).2, run, []⟩ := by
  obtain ⟨closed, rfl⟩ := lex_of_spans scanned
  rw [← Span.foldl_push, cursor_of_scan]
  exact exists_scans_lex delimited _ _ _ _ .start closed

/--
Wherever a scan of a source stands, the spans found so far say whether a slash begins a regular
expression there, and so do all of the spans where the scan ends.
-/
theorem regexAllowed_of_spans (language : Language) (source : Text) :
    (∀ spans state, language.Scans source spans state →
      state.cursor.regexAllowed = Span.allowRegex spans)
      ∧ ∀ spans, language.spans source = .ok spans →
        (language.scan .start source).2.regexAllowed = Span.allowRegex spans
          ∧ (language.WellDelimited →
            ∃ run, language.Scans source spans ⟨(language.scan .start source).2, run, []⟩) := by
  constructor
  · intro spans state scans
    exact scans.follows.slash
  · intro spans scanned
    refine ⟨?_, fun delimited => exists_scans_of_spans delimited scanned⟩
    obtain ⟨-, rfl⟩ := lex_of_spans scanned
    rw [cursor_of_scan, ← Span.foldl_push]
    exact follows_lex language _ _ _ _ Point.follows_start

/-- A slash after a keyword begins a literal, and one after that literal divides. -/
theorem regexAllowed_after_keyword :
    (∃ state, javaScript.Scans "do/x//y".toList [⟨.code, 0, 2, 1, 1, "do".toList⟩] state
      ∧ state.cursor.regexAllowed = Span.allowRegex [⟨.code, 0, 2, 1, 1, "do".toList⟩])
      ∧ ∃ spans, javaScript.spans "do/x//y".toList = .ok spans
        ∧ (javaScript.scan .start "do/x//y".toList).2.regexAllowed = Span.allowRegex spans
        ∧ ∃ run, javaScript.Scans "do/x//y".toList spans
          ⟨(javaScript.scan .start "do/x//y".toList).2, run, []⟩ := by
  have first : javaScript.constructAt .start "do/x//y".toList = .ok (.code, 1) := by
    decide +kernel
  have one := Scans.start.step first (scanStep?_eq (by decide) first)
  have second : javaScript.constructAt (Cursor.start.after [] .code "d".toList) "o/x//y".toList
      = .ok (.code, 1) := by
    decide +kernel
  have two := one.step second (scanStep?_eq (by decide) second)
  have scanned : javaScript.spans "do/x//y".toList
      = .ok [⟨.code, 0, 2, 1, 1, "do".toList⟩, ⟨.stringLiteral, 2, 5, 1, 3, "/x/".toList⟩,
        ⟨.code, 5, 7, 1, 6, "/y".toList⟩] := by
    rw [spans_eq_lexWithin]
    decide +kernel
  have delimited := wellDelimited_of_registered javaScript (by simp [registered])
  obtain ⟨during, after⟩ := regexAllowed_of_spans javaScript "do/x//y".toList
  obtain ⟨slash, through⟩ := after _ scanned
  exact ⟨⟨_, two, during _ _ two⟩, _, scanned, slash, through delimited⟩

end Language

end CommentStrip
