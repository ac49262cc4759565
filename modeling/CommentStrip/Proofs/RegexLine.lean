import CommentStrip.Proofs.Escaping
import CommentStrip.Proofs.Shape
import CommentStrip.Proofs.Slash

/-!
# Regular expressions and line ends

The search for the closing slash of a regular expression stops at a line break, unless a backslash has
made the line break inert. So a regular expression is closed on the line where it opens, or this line
ends with a backslash that escapes its line break. Where a slash has no closing slash on its line and
the line does not end so, it is a character of code, and the scan goes on right after it.
-/
namespace CommentStrip

namespace Text

/-- The characters of a text up to its first line break. -/
def restOfLine (text : Text) : Text :=
  text.takeWhile (!isLineBreak ·)

/-- Whether the first line of a text ends with a backslash that escapes its line break. -/
def isContinued (text : Text) : Bool :=
  text.any isLineBreak && text.restOfLine.endsEscaping '\\'

theorem restOfLine_append {line : Text} (unbroken : ∀ c ∈ line, isLineBreak c = false) (rest : Text) :
    restOfLine (line ++ rest) = line ++ restOfLine rest :=
  List.takeWhile_append_of_pos (by simpa using unbroken)

theorem not_isLineBreak_of_restOfLine {text : Text} :
    ∀ c ∈ text.restOfLine, isLineBreak c = false := by
  intro c member
  simpa using List.mem_takeWhile_imp member

/-- A slash in front of a text plays no part in how its line ends. -/
theorem isContinued_slash (body : Text) : isContinued ('/' :: body) = body.isContinued := by
  have line : restOfLine ('/' :: body) = '/' :: restOfLine body :=
    @restOfLine_append ['/'] (by simp [isLineBreak]) body
  rw [isContinued, line, ← foldl_escaped, List.foldl_cons]
  exact congrArg (_ && ·) (foldl_escaped '\\' _)

end Text

namespace Regex

/-- Whether the closing slash of a body is on the line on which the body begins. -/
def closesOnLine (body : Text) : Bool :=
  (closeIndex? body.restOfLine).isSome

/-- At the end of a line the search for the closing slash stops, unless the line break is escaped. -/
theorem closeFrom?_line {escaped inClass : Bool} {line rest : Text}
    (unbroken : ∀ c ∈ line, isLineBreak c = false) (stops : ∀ c ∈ rest.head?, isLineBreak c = true)
    (ends : rest = [] ∨ line.foldl (fun escaped c => !escaped && c == '\\') escaped = false) :
    closeFrom? escaped inClass (line ++ rest) = closeFrom? escaped inClass line := by
  induction line generalizing escaped inClass with
  | nil =>
    cases rest with
    | nil => rfl
    | cons c others =>
      obtain rfl : escaped = false := by simpa using ends
      have lineBreak := stops c rfl
      have plain : c ≠ '\\' := by
        rintro rfl
        exact absurd lineBreak (by decide)
      simp [closeFrom?, plain, lineBreak]
  | cons c others ih =>
    rw [List.forall_mem_cons] at unbroken
    have later {escaped inClass : Bool} (ends : rest = []
        ∨ others.foldl (fun escaped c => !escaped && c == '\\') escaped = false) :
        (closeFrom? escaped inClass (others ++ rest)).map (· + 1)
          = (closeFrom? escaped inClass others).map (· + 1) :=
      congrArg (Option.map (· + 1)) (ih unbroken.2 ends)
    rw [List.foldl_cons] at ends
    cases escaped with
    | true => exact later ends
    | false =>
      -- the branches of the search, of which a backslash is the only one that escapes
      simp only [List.cons_append, closeFrom?]
      by_cases escape : c = '\\'
      · rw [if_pos escape, if_pos escape]
        exact later (by simpa [escape] using ends)
      have plain : rest = []
          ∨ others.foldl (fun escaped c => !escaped && c == '\\') false = false := by
        simpa only [beq_eq_false_iff_ne.mpr escape, Bool.and_false] using ends
      simp only [escape, unbroken.1, if_false, later plain, Bool.false_eq_true]

/-- Unless its line break is escaped, the first line of a body settles whether and where it is
closed. -/
theorem closeIndex?_restOfLine {body : Text} (ends : body.isContinued = false) :
    closeIndex? body.restOfLine = closeIndex? body := by
  obtain ⟨rest, whole, unbroken, stops⟩ := exists_append_takeWhile (!isLineBreak ·) body
  change body = body.restOfLine ++ rest at whole
  have unbroken : ∀ c ∈ body.restOfLine, isLineBreak c = false := Text.not_isLineBreak_of_restOfLine
  have stops : ∀ c ∈ rest.head?, isLineBreak c = true := by simpa using stops
  have last : rest = [] ∨ body.restOfLine.foldl (fun escaped c => !escaped && c == '\\') false
      = false := by
    cases rest with
    | nil => exact .inl rfl
    | cons c others =>
      have broken : body.any isLineBreak = true :=
        List.any_eq_true.mpr ⟨c, by rw [whole]; simp, stops c rfl⟩
      right
      rw [Text.foldl_escaped]
      simpa [Text.isContinued, broken] using ends
  -- a line that begins with a line break opens no comment
  have first : (body.head? = some '/' ∨ body.head? = some '*')
      ↔ (body.restOfLine.head? = some '/' ∨ body.restOfLine.head? = some '*') := by
    cases line : body.restOfLine with
    | cons c others => rw [whole, line]; rfl
    | nil =>
      rw [line, List.nil_append] at whole
      subst whole
      refine iff_of_false ?_ (by simp)
      rintro (slash | star)
      · exact absurd (stops _ slash) (by decide)
      · exact absurd (stops _ star) (by decide)
  have search : closeFrom? false false (body.restOfLine ++ rest)
      = closeFrom? false false body.restOfLine := closeFrom?_line unbroken stops last
  rw [← whole] at search
  simp only [closeIndex?, first, search]

/-- A regular expression goes beyond its line exactly if its closing slash is not there. -/
theorem unbroken_iff {text : Text} {length : Nat} (read : read text = .ok length) :
    (∀ c ∈ text.take length, isLineBreak c = false) ↔ closesOnLine text.tail = true := by
  obtain ⟨body, flags, rest, rfl, closes, all, -, rfl⟩ := read_eq_ok.mp read
  have word : ('/' :: (body ++ '/' :: (flags ++ rest))).take (body.length + flags.length + 2)
      = '/' :: (body ++ '/' :: flags) := by
    have cut : '/' :: (body ++ '/' :: (flags ++ rest)) = '/' :: (body ++ '/' :: flags) ++ rest := by
      simp
    rw [cut]
    exact List.take_left' (by simp only [List.length_cons, List.length_append]; omega)
  rw [word, List.tail_cons]
  constructor
  · intro unbroken
    have inBody : ∀ c ∈ body ++ ['/'], isLineBreak c = false := fun c member =>
      unbroken c (by
        rw [List.mem_cons, List.append_cons]
        exact .inr (List.mem_append_left flags member))
    rw [closesOnLine, List.append_cons, Text.restOfLine_append inBody, ← List.append_cons,
      closeIndex?_local _ closes]
    rfl
  · intro onLine
    obtain ⟨index, found⟩ := Option.isSome_iff_exists.mp onLine
    obtain ⟨start, more, line, rfl⟩ := exists_append_of_closeIndex? found
    obtain ⟨others, whole, -⟩ :=
      exists_append_takeWhile (!isLineBreak ·) (body ++ '/' :: (flags ++ rest))
    change _ = Text.restOfLine _ ++ others at whole
    -- the first closing slash of the line is the one that closes the body
    rw [line] at whole found
    have again := closeIndex?_local (more ++ others) found
    rw [← List.cons_append, ← List.append_assoc, ← whole, closes] at again
    obtain ⟨rfl, -⟩ := List.append_inj (whole.trans (List.append_assoc ..)) (Option.some.inj again)
    have inBody : ∀ c ∈ body, isLineBreak c = false := fun c member =>
      Text.not_isLineBreak_of_restOfLine c (by rw [line]; exact List.mem_append_left _ member)
    simp only [List.forall_mem_cons, List.forall_mem_append]
    refine ⟨by decide, inBody, by decide, fun c member => ?_⟩
    have solid := not_isBlankChar_of_isNameChar (c := c) (by simp [isNameChar, all c member])
    rw [isBlankChar, Bool.or_eq_false_iff] at solid
    exact solid.2

/-- If it is not, a backslash at the end of the line takes the search beyond it. -/
theorem closesOnLine_or_isContinued {text : Text} {length : Nat} (read : read text = .ok length) :
    closesOnLine text.tail = true ∨ text.isContinued = true := by
  obtain ⟨body, flags, rest, rfl, closes, -⟩ := read_eq_ok.mp read
  rw [Text.isContinued_slash, List.tail_cons]
  cases ends : Text.isContinued (body ++ '/' :: (flags ++ rest)) with
  | true => exact .inr rfl
  | false =>
    left
    rw [closesOnLine, closeIndex?_restOfLine ends, closes]
    rfl

end Regex

namespace Language

variable {language : Language} {rest : Text}

/-- A slash that opens neither a comment nor a regular expression is code. -/
theorem constructAt_slash (known : language ∈ registered) (cursor : Cursor)
    (uncommented : ∀ opener ∈ language.commentOpeners, ¬opener <+: '/' :: rest)
    (unclosed : Regex.closeIndex? rest = none) :
    language.constructAt cursor ('/' :: rest) = .ok (.code, 1) := by
  have conventional := conventional_of_registered known
  have noQuote : language.quotedAt? cursor ('/' :: rest) = none := by
    rw [quotedAt?, readString_of_slash conventional]
    rfl
  have noRegex : language.regexAt? cursor ('/' :: rest) = none := by
    rw [regexAt?_eq_none]
    rintro ⟨-, -, body, whole, closes⟩
    obtain ⟨-, rfl⟩ := List.cons.inj whole
    simp [unclosed] at closes
  have noBlock : language.blockAt? ('/' :: rest) = none := by
    rw [blockAt?, List.findSome?_eq_none_iff]
    intro block member
    have absent : ¬block.opener.isPrefixOf ('/' :: rest) = true := by
      rw [List.isPrefixOf_iff_prefix]
      exact uncommented _ (List.mem_append_right _ (List.mem_map_of_mem member))
    simp [Delimiters.readComment, absent, Lexeme.ofReading?]
  have noLine : language.lineAt? ('/' :: rest) = none := by
    rw [lineAt?, List.findSome?_eq_none_iff]
    intro marker member
    have absent : ¬marker.isPrefixOf ('/' :: rest) = true := by
      rw [List.isPrefixOf_iff_prefix]
      exact uncommented _ (List.mem_append_left _ member)
    simp [readLineComment, absent, Lexeme.ofReading?]
  have noNewline : newlineAt? ('/' :: rest) = none := newlineAt?_eq_none.mpr (by decide)
  have noWhitespace : whitespaceAt? ('/' :: rest) = none := whitespaceAt?_eq_none.mpr (by decide)
  rw [constructAt_eq (wellDelimited_of_registered language known), lexemeAt_eq, noQuote, noRegex,
    noBlock, noLine, noNewline, noWhitespace]
  rfl

/--
A regular expression at the start of a text stays on the line where it opens, unless this line ends
with a backslash that escapes its line break; it goes beyond the line exactly if its closing slash is
not there. Without such a backslash, a slash that has no closing slash on its line and opens no
comment is a character of code wherever a scan comes to it, and the scan goes on right after it.
-/
theorem regex_closes_on_line (text : Text) :
    (∀ length, Regex.read text = .ok length →
      (text.isContinued = false → ∀ c ∈ text.take length, isLineBreak c = false)
        ∧ ((∀ c ∈ text.take length, isLineBreak c = false)
          ↔ Regex.closesOnLine text.tail = true))
      ∧ ∀ language ∈ registered, ∀ source spans state rest, language.Scans source spans state →
        state.rest = text → text = '/' :: rest →
        (∀ opener ∈ language.commentOpeners, ¬opener <+: text) →
        Regex.closesOnLine rest = false → text.isContinued = false →
        ∃ next, language.scanStep? state = some next ∧ next.rest = rest
          ∧ language.Scans source
            (Span.push spans (.covering .code state.cursor.position ['/'])) next := by
  constructor
  · intro length read
    refine ⟨fun ends => (Regex.unbroken_iff read).mpr ?_, Regex.unbroken_iff read⟩
    exact (Regex.closesOnLine_or_isContinued read).resolve_right (by simp [ends])
  · rintro language known source spans ⟨cursor, run, _⟩ rest scans rfl rfl uncommented unclosed ends
    rw [Text.isContinued_slash] at ends
    rw [Regex.closesOnLine, Regex.closeIndex?_restOfLine ends, Option.isSome_eq_false_iff,
      Option.isNone_iff_eq_none] at unclosed
    have chosen := constructAt_slash known cursor uncommented unclosed
    have turn := @scanStep?_eq _ ⟨cursor, run, '/' :: rest⟩ _ _ (List.cons_ne_nil _ _) chosen
    exact ⟨_, turn, rfl, scans.step chosen turn⟩

/-- A class of characters hides a slash, and a line break ends the search in it. -/
theorem regex_closes_on_line_in_class :
    (∀ c ∈ "/[/]\\\\/g\n".toList.take 8, isLineBreak c = false)
      ∧ ∃ next, javaScript.scanStep? ⟨.start, [], "/[/\n/".toList⟩ = some next
        ∧ next.rest = "[/\n/".toList
        ∧ javaScript.Scans "/[/\n/".toList [⟨.code, 0, 1, 1, 1, ['/']⟩] next := by
  obtain ⟨literal, -⟩ := regex_closes_on_line "/[/]\\\\/g\n".toList
  obtain ⟨-, slash⟩ := regex_closes_on_line "/[/\n/".toList
  refine ⟨(literal 8 (by decide +kernel)).1 (by decide), ?_⟩
  exact slash javaScript (by simp [registered]) _ [] _ _ .start rfl rfl (by decide) (by decide)
    (by decide)

/-- A backslash hides the line break after it, so that the slash at the start is closed by the first
one of a comment on the next line. -/
theorem regex_goes_beyond_line :
    (¬∀ text length, Regex.read text = .ok length → ∀ c ∈ text.take length, isLineBreak c = false)
      ∧ javaScript.spans "/\\\n//c".toList
        = .ok [⟨.stringLiteral, 0, 4, 1, 1, "/\\\n/".toList⟩, ⟨.code, 4, 6, 2, 2, "/c".toList⟩] := by
  constructor
  · intro unbroken
    have feed := unbroken "/\\\n/".toList 4 (by decide +kernel) '\n' (by decide)
    exact absurd feed (by decide)
  · rw [spans_eq_lexWithin]
    decide +kernel

end Language

end CommentStrip
