import CommentStrip.Proofs.Conventions

/-!
# Locality of lexemes

Where a lexeme ends, the text after it mostly plays no part: a literal or block comment that is
closed stays what it is whatever comes next. What comes next matters in a few places only, which
are stated here for each kind: a flag may follow a regular expression, a third quote may follow an
empty literal, a comment runs on to the end of its line, and code may become the prefix of a
literal, the start of a comment, or a regular expression.
-/
namespace CommentStrip

private theorem isPrefixOf_append_cons {mark : Char} {sought : Text} (absent : mark ∉ sought)
    (body rest : Text) : sought.isPrefixOf (body ++ mark :: rest) = sought.isPrefixOf body := by
  induction body generalizing sought with
  | nil =>
    cases sought with
    | nil => rfl
    | cons c others =>
      have other : (c == mark) = false := by
        rw [beq_eq_false_iff_ne]
        rintro rfl
        exact absent List.mem_cons_self
      simp [List.isPrefixOf, other]
  | cons c body ih =>
    cases sought with
    | nil => rfl
    | cons d others =>
      have later : mark ∉ others := fun member => absent (List.mem_cons_of_mem _ member)
      simp only [List.cons_append, List.isPrefixOf_cons_cons, ih later]

namespace BodyRule

variable {rule : BodyRule} {mark : Char} {others : Text}

private theorem interpolationAt?_append_cons
    (unquoted : ∀ opener ∈ rule.interpolation, mark ∉ opener) (body rest : Text) :
    rule.interpolationAt? (body ++ mark :: rest) = rule.interpolationAt? body := by
  unfold interpolationAt?
  cases embedded : rule.interpolation with
  | none => rfl
  | some opener =>
    -- the opener and its double both lack the mark, so neither reaches over it
    have absent : mark ∉ opener := unquoted opener embedded
    have absentTwice : mark ∉ opener ++ opener := by simp [absent]
    simp only [isPrefixOf_append_cons absent, isPrefixOf_append_cons absentTwice]

private theorem step_append (closer : rule.closer = mark :: others)
    (unquoted : ∀ opener ∈ rule.interpolation, mark ∉ opener) (c : Char) (body after other : Text)
    (part : BodyPart) :
    rule.step c (body ++ (rule.closer ++ after)) part
      = rule.step c (body ++ (rule.closer ++ other)) part := by
  cases part with
  | expression depth quote => cases quote <;> rfl
  | own =>
    have interpolated (rest : Text) :
        rule.interpolationAt? (c :: (body ++ (rule.closer ++ rest)))
          = rule.interpolationAt? (c :: body) := by
      rw [closer]
      exact interpolationAt?_append_cons unquoted (c :: body) (others ++ rest)
    -- what closes is decided inside the closing quote
    have closes (rest : Text) :
        rule.closer.isPrefixOf (c :: (body ++ (rule.closer ++ rest)))
          = rule.closer.isPrefixOf (c :: body ++ rule.closer) := by
      rw [← isPrefixOf_append_of_length_le (c :: body ++ rule.closer)
        (by simp only [List.length_append]; omega) rest]
      simp
    simp only [step, interpolated, closes]

/-- The closing quote of a body stays where it is, whatever follows it. -/
theorem closeFrom?_local (closer : rule.closer = mark :: others)
    (unquoted : ∀ opener ∈ rule.interpolation, mark ∉ opener) {inert : Nat} {part : BodyPart}
    {body after : Text} (other : Text)
    (found : rule.closeFrom? inert part (body ++ (rule.closer ++ after)) = some body.length) :
    rule.closeFrom? inert part (body ++ (rule.closer ++ other)) = some body.length := by
  induction body generalizing inert part with
  | nil =>
    simp only [List.nil_append, closer, List.cons_append, List.length_nil] at found ⊢
    cases inert with
    | succ inert => simp [closeFrom?] at found
    | zero =>
      simp only [closeFrom?] at found ⊢
      -- at the closing quote itself: nothing here depends on what follows
      have same := step_append closer unquoted mark [] after other part
      cases ends : rule.step mark (others ++ after) part with
      | some next => simp [ends] at found
      | none =>
        obtain ⟨own, unescaped, plain, -⟩ := rule.step_eq_none.mp ends
        have plainThere := interpolationAt?_append_cons unquoted [] (others ++ after)
        have plainHere := interpolationAt?_append_cons unquoted [] (others ++ other)
        have ends : rule.step mark (others ++ other) part = none := by
          refine rule.step_eq_none.mpr ⟨own, unescaped, ?_, ?_⟩
          · simp only [List.nil_append] at plainThere plainHere
            rw [plainHere, ← plainThere, plain]
          · rw [closer]
            exact isPrefixOf_append_self (mark :: others) other
        rw [ends]
  | cons c body ih =>
    simp only [List.cons_append, List.length_cons] at found ⊢
    cases inert with
    | succ inert =>
      simp only [closeFrom?, Option.map_eq_some_iff, Nat.add_right_cancel_iff, exists_eq_right]
        at found ⊢
      exact ih found
    | zero =>
      simp only [closeFrom?] at found ⊢
      rw [← step_append closer unquoted c body after other part]
      cases next : rule.step c (body ++ (rule.closer ++ after)) part with
      | none => simp [next] at found
      | some passed =>
        simp only [next, Option.map_eq_some_iff, Nat.add_right_cancel_iff, exists_eq_right]
          at found ⊢
        exact ih found

end BodyRule

/-- A block comment ends where it ends, whatever follows it. -/
theorem Text.occurrence?_local {sought body after : Text} (other : Text)
    (found : occurrence? sought (body ++ (sought ++ after)) = some body.length) :
    occurrence? sought (body ++ (sought ++ other)) = some body.length := by
  induction body with
  | nil =>
    cases sought with
    | nil => cases other <;> simp [occurrence?]
    | cons c others =>
      have here := isPrefixOf_append_self (c :: others) other
      simp only [List.cons_append] at here
      simp [occurrence?, here]
  | cons c body ih =>
    -- inside the body, an occurrence would end before the other text begins
    have same (rest : Text) : sought.isPrefixOf (c :: (body ++ (sought ++ rest)))
        = sought.isPrefixOf (c :: body ++ sought) := by
      rw [← isPrefixOf_append_of_length_le (c :: body ++ sought)
        (by simp only [List.length_append]; omega) rest]
      simp
    simp only [List.cons_append, List.length_cons, occurrence?, same] at found ⊢
    split at found
    · simp at found
    next absent =>
      simp only [absent, Option.map_eq_some_iff, Nat.add_right_cancel_iff, exists_eq_right] at found ⊢
      simpa using ih found

namespace Regex

private theorem closeFrom?_local {escaped inClass : Bool} {body after : Text} (other : Text)
    (found : closeFrom? escaped inClass (body ++ '/' :: after) = some body.length) :
    closeFrom? escaped inClass (body ++ '/' :: other) = some body.length := by
  induction body generalizing escaped inClass with
  | nil =>
    cases escaped with
    | true => simp [closeFrom?] at found
    | false => cases inClass <;> simp_all [closeFrom?, isLineBreak]
  | cons c body ih =>
    -- every step but the last only looks at the character it passes
    have further {escaped inClass : Bool}
        (later : (closeFrom? escaped inClass (body ++ '/' :: after)).map (· + 1)
          = some (body.length + 1)) :
        (closeFrom? escaped inClass (body ++ '/' :: other)).map (· + 1)
          = some (body.length + 1) := by
      simp only [Option.map_eq_some_iff, Nat.add_right_cancel_iff, exists_eq_right] at later ⊢
      exact ih later
    cases escaped with
    | true => exact further found
    | false =>
      simp only [List.cons_append, List.length_cons, closeFrom?] at found ⊢
      split at found
      next escape => rw [if_pos escape]; exact further found
      next plain =>
        rw [if_neg plain]
        split at found
        · simp at found
        next unbroken =>
          rw [if_neg unbroken]
          split at found
          next opens => rw [if_pos opens]; exact further found
          next unopened =>
            rw [if_neg unopened]
            split at found
            next closes => rw [if_pos closes]; exact further found
            next unclosed =>
              rw [if_neg unclosed]
              split at found
              · simp at found
              next inside => rw [if_neg inside]; exact further found

/-- The closing slash of a body stays where it is, whatever follows it. -/
theorem closeIndex?_local {body after : Text} (other : Text)
    (found : closeIndex? (body ++ '/' :: after) = some body.length) :
    closeIndex? (body ++ '/' :: other) = some body.length := by
  cases body with
  | nil => simp [closeIndex?] at found
  | cons c body =>
    -- the first character may not open a comment, and it is the same in both
    simp only [closeIndex?, List.cons_append, List.head?_cons, Option.some.injEq] at found ⊢
    split at found
    · simp at found
    next inside =>
      rw [if_neg inside]
      rw [← List.cons_append] at found ⊢
      exact closeFrom?_local other found

end Regex

namespace Language

/-- The rule for the body of a literal with this opening. -/
def ruleOf (language : Language) (opening : Opening) : BodyRule :=
  let raw := !opening.lead.isEmpty && language.isRawPrefix opening.lead
  opening.quote.bodyRule raw
    (language.interpolationOpener? opening.lead opening.quote.opener raw)

/-- A text that is read as a string literal, with another one after it. -/
structure Quoted (language : Language) (previous : Option Char) (word after : Text)
    (opening : Opening) (mark : Char) (body : Text) : Prop where
  known : opening.quote ∈ language.quotes
  marked : isExpressionQuote mark = true
  opener : opening.quote.opener = [mark] ∨ opening.quote.opener = [mark, mark, mark]
  closer : opening.quote.closer = opening.quote.opener
  letters : ∀ c ∈ opening.lead, c.isAlpha = true
  whole : word = opening.lead ++ (opening.quote.opener ++ (body ++ opening.quote.closer))
  longest : Opening.longest? (language.openingsAt previous (word ++ after)) = some opening
  closes : (language.ruleOf opening).closeIndex? (body ++ (opening.quote.closer ++ after))
    = some body.length

variable {language : Language} (conventional : language.Conventional)

include conventional

theorem quoted_of_readString {previous : Option Char} {word after : Text}
    (read : language.readString previous (word ++ after) = .ok word.length) :
    ∃ opening mark body, language.Quoted previous word after opening mark body := by
  obtain ⟨⟨lead, quote⟩, member, longest, opened⟩ := readString_eq_ok read
  obtain ⟨leads, known, -⟩ := mem_openingsAt_iff.mp member
  obtain ⟨mark, marked, opener, closer⟩ := conventional.quote_shape known
  obtain ⟨-, letters, -⟩ := conventional.mem_leadsAt leads
  obtain ⟨body, rest, whole, closes, length⟩ := Quote.read_eq_ok.mp opened
  -- the reading has the length of the word, so the word is what it took
  have split : word = lead ++ (quote.opener ++ (body ++ quote.closer)) ∧ after = rest := by
    refine List.append_inj (whole.trans (by simp)) ?_
    simp only [List.length_append] at length ⊢
    omega
  obtain ⟨rfl, rfl⟩ := split
  exact ⟨⟨lead, quote⟩, mark, body, known, marked, opener, closer, letters, rfl, longest, closes⟩

omit conventional in
private theorem exists_append_of_letters {first second rest more : Text} {mark : Char}
    (letters : ∀ c ∈ first, c.isAlpha = true) (other : mark.isAlpha = false)
    (same : first ++ rest = second ++ mark :: more) : ∃ between, second = first ++ between := by
  induction first generalizing second with
  | nil => exact ⟨second, rfl⟩
  | cons c first ih =>
    -- a mark is no letter, so the letters end before it
    cases second with
    | nil =>
      obtain ⟨rfl, -⟩ := List.cons.inj same
      simp [letters c List.mem_cons_self] at other
    | cons d second =>
      obtain ⟨rfl, tail⟩ := List.cons.inj same
      obtain ⟨between, rfl⟩ := ih (fun c member => letters c (List.mem_cons_of_mem _ member)) tail
      exact ⟨between, rfl⟩

/-- Text that is no letter settles which prefixes stand before it. -/
theorem leadsAt_local {word : Text} (bounded : ∃ c ∈ word, c.isAlpha = false)
    {previous current : Option Char}
    (same : word.head?.any isNameChar = true →
      current.any isNameChar = previous.any isNameChar) (after other : Text) :
    language.leadsAt current (word ++ other) = language.leadsAt previous (word ++ after) := by
  obtain ⟨c, member, noLetter⟩ := bounded
  have listed (known : Text) (listed : known ∈ language.stringPrefixes) :
      (let written : Text := (word ++ other).take known.length
        if written.sameIgnoringCase known then some written else none)
      = (let written : Text := (word ++ after).take known.length
        if written.sameIgnoringCase known then some written else none) := by
    by_cases long : known.length ≤ word.length
    · simp only [List.take_append_of_le_length long]
    · -- a longer prefix would contain the character that is no letter
      have mismatch (rest : Text) :
          Text.sameIgnoringCase ((word ++ rest).take known.length) known = false := by
        by_contra fits
        have letters := isAlpha_of_sameIgnoringCase (by simpa using fits)
          (conventional.prefixes known listed).2
        have inside : c ∈ (word ++ rest).take known.length := by
          have long : word.length ≤ known.length := by omega
          rw [List.take_append, List.take_of_length_le long, List.mem_append]
          exact .inl member
        simp [letters c inside] at noLetter
      simp [mismatch]
  have equal := List.filterMap_congr listed
  by_cases name : word.head?.any isNameChar = true
  · simp only [leadsAt, same name]
    split
    · rfl
    · rw [equal]
  · -- no prefix begins like the word, so it does not matter whether a name goes on
    have empty (rest : Text) : language.stringPrefixes.filterMap (fun known =>
        let written : Text := (word ++ rest).take known.length
        if written.sameIgnoringCase known then some written else none) = [] := by
      rw [List.filterMap_eq_nil_iff]
      intro known listed
      obtain ⟨nonempty, letters⟩ := conventional.prefixes known listed
      dsimp only
      split
      next fits =>
        have written := isAlpha_of_sameIgnoringCase fits letters
        cases word with
        | nil => simp at member
        | cons d others =>
          cases known with
          | nil => exact absurd rfl nonempty
          | cons k more =>
            have letter := written d (by simp)
            simp [isNameChar_of_isAlpha letter] at name
      · rfl
    simp only [leadsAt, empty]
    split <;> split <;> rfl

omit conventional

/-- Whether the mark three times is a quote of the language. -/
def triples (language : Language) (mark : Char) : Bool :=
  language.quotes.any (·.opener == [mark, mark, mark])

theorem isExpressionQuote_of_triples {language : Language} (conventional : language.Conventional)
    {mark : Char} (triples : language.triples mark = true) : isExpressionQuote mark = true := by
  obtain ⟨quote, known, opener⟩ := List.any_eq_true.mp triples
  rw [beq_iff_eq] at opener
  obtain ⟨first, marked, shape | shape, -⟩ := conventional.quote_shape known
  · simp [opener] at shape
  · obtain rfl : mark = first := by
      rw [opener] at shape
      exact (List.cons.inj shape).1
    exact marked

/-- Whether the word is an empty literal that a third mark after it would turn into the start of a
tripled one. -/
def TripledBy (language : Language) (word after : Text) : Prop :=
  ∃ lead mark, word = lead ++ [mark, mark] ∧ mark ∉ lead ∧ language.triples mark = true
    ∧ after.head? = some mark

namespace Quoted

variable {previous current : Option Char} {word after other : Text} {opening : Opening}
  {mark : Char} {body : Text}

/-- After its first mark a literal has a body and a closing quote, unless it is only two marks. -/
theorem exists_tail (quoted : language.Quoted previous word after opening mark body) :
    ∃ tail, word = opening.lead ++ mark :: tail
      ∧ (tail = [mark] ∧ opening.quote.opener = [mark] ∨ 2 ≤ tail.length) := by
  have whole := quoted.whole
  rw [quoted.closer] at whole
  -- with the mark three times there are five more of them after the first
  rcases quoted.opener with single | tripled
  · refine ⟨body ++ [mark], by rw [whole, single]; simp, ?_⟩
    cases body with
    | nil => exact .inl ⟨rfl, single⟩
    | cons c body => right; simp
  · refine ⟨[mark, mark] ++ (body ++ [mark, mark, mark]), by rw [whole, tripled]; simp, ?_⟩
    right
    simp

theorem getLast?_word (quoted : language.Quoted previous word after opening mark body) :
    word.getLast? = some mark := by
  rw [quoted.whole, quoted.closer, ← List.append_assoc, ← List.append_assoc, List.getLast?_append]
  rcases quoted.opener with shape | shape <;> simp [shape]

theorem lead_mem (quoted : language.Quoted previous word after opening mark body) :
    opening.lead ∈ language.leadsAt previous (word ++ after) :=
  (mem_openingsAt_iff.mp (Opening.longest?_eq_some quoted.longest).1).1

/-- An empty literal is not followed by a third mark if the mark also opens three times: the longer
opening would have been taken. -/
theorem not_tripledBy (quoted : language.Quoted previous word after opening mark body) :
    ¬language.TripledBy word after := by
  rintro ⟨lead, second, whole, absent, triples, next⟩
  -- the literal ends with its mark, which is the second one
  obtain rfl : second = mark := by
    have last := quoted.getLast?_word
    rw [whole, List.append_cons, List.getLast?_append] at last
    simpa using last
  -- the prefix is that of the opening, so the opening is the mark once
  have plain : opening.lead = lead ∧ opening.quote.opener = [second] := by
    obtain ⟨tail, made, shape⟩ := quoted.exists_tail
    have noLetter := not_isAlpha_of_isExpressionQuote quoted.marked
    have same : opening.lead ++ second :: tail = lead ++ second :: [second] :=
      made.symm.trans whole
    obtain ⟨between, rfl⟩ := exists_append_of_letters quoted.letters noLetter same
    rw [whole, List.append_assoc, List.append_cancel_left_eq] at made
    cases between with
    | cons c others =>
      obtain ⟨rfl, -⟩ := List.cons.inj made
      simp at absent
    | nil =>
      obtain ⟨-, rfl⟩ := List.cons.inj made
      simpa using shape
  obtain ⟨rfl, opener⟩ := plain
  obtain ⟨quote, known, tripled⟩ := List.any_eq_true.mp triples
  rw [beq_iff_eq] at tripled
  -- the tripled opening stands there too, and it is longer than the one taken
  have member : ⟨opening.lead, quote⟩ ∈ language.openingsAt previous (word ++ after) := by
    refine mem_openingsAt_iff.mpr ⟨quoted.lead_mem, known, ?_⟩
    rw [whole, List.append_assoc, List.drop_left, tripled]
    cases after with
    | nil => simp at next
    | cons c others =>
      obtain rfl : c = second := by simpa using next
      simp
  have longer := (Opening.longest?_eq_some quoted.longest).2 _ member
  have bytes := second.utf8Size_pos
  simp only [Opening.byteLength, tripled, opener, Text.byteLength_cons, Text.byteLength_nil]
    at longer
  omega

private theorem opens_local (conventional : language.Conventional)
    (quoted : language.Quoted previous word after opening mark body)
    (untripled : ¬language.TripledBy word other) {lead : Text}
    (leads : lead ∈ language.leadsAt previous (word ++ after)) {quote : Quote}
    (known : quote ∈ language.quotes) :
    quote.opener.isPrefixOf ((word ++ other).drop lead.length)
      = quote.opener.isPrefixOf (word.drop lead.length) := by
  obtain ⟨tail, made, shape⟩ := quoted.exists_tail
  have noLetter := not_isAlpha_of_isExpressionQuote quoted.marked
  obtain ⟨⟨rest, whole⟩, letters, -⟩ := conventional.mem_leadsAt leads
  -- the prefix in question is no longer than the one of the opening
  obtain ⟨between, leadIs⟩ : ∃ between, opening.lead = lead ++ between := by
    have same : lead ++ rest = opening.lead ++ mark :: (tail ++ after) := by
      rw [← whole, made]
      simp
    exact exists_append_of_letters letters noLetter same
  obtain ⟨first, marked, opener, -⟩ := conventional.quote_shape known
  rw [made, leadIs]
  simp only [List.append_assoc, List.drop_left, List.cons_append]
  cases between with
  | cons c others =>
    -- after a shorter prefix comes a letter, where no quote opens
    have letter := quoted.letters c (by rw [leadIs]; simp)
    have differs : (first == c) = false := by
      rw [beq_eq_false_iff_ne]
      rintro rfl
      rw [not_isAlpha_of_isExpressionQuote marked] at letter
      simp at letter
    rcases opener with opener | opener <;> simp [opener, List.isPrefixOf, differs]
  | nil =>
    rcases shape with ⟨rfl, -⟩ | long
    · rcases opener with opener | opener
      · simp [opener, List.isPrefixOf]
      · -- two marks are there, and the third is not what comes next
        have missing : first = mark → other.head? ≠ some mark := by
          rintro rfl next
          refine untripled ⟨opening.lead, first, made, ?_, ?_, next⟩
          · intro member
            rw [quoted.letters first member] at noLetter
            simp at noLetter
          · exact List.any_eq_true.mpr ⟨quote, known, by simp [opener]⟩
        cases other with
        | nil => simp
        | cons c others =>
          simp only [List.head?_cons, ne_eq, Option.some.injEq] at missing
          simp only [opener, List.isPrefixOf, List.nil_append, List.cons_append,
            Bool.and_true, Bool.and_false, Bool.and_eq_false_imp, beq_iff_eq,
            beq_eq_false_iff_ne, ne_eq]
          rintro rfl - rfl
          exact missing rfl rfl
    · -- there are marks enough in the word
      have size : quote.opener.length ≤ (mark :: tail).length := by
        rcases opener with opener | opener <;> simp only [opener, List.length_cons, List.length_nil] <;>
          omega
      exact isPrefixOf_append_of_length_le _ size other

theorem openingsAt_local (conventional : language.Conventional)
    (quoted : language.Quoted previous word after opening mark body)
    (same : word.head?.any isNameChar = true → current.any isNameChar = previous.any isNameChar)
    (untripled : ¬language.TripledBy word other) :
    language.openingsAt current (word ++ other) = language.openingsAt previous (word ++ after) := by
  have bounded : ∃ c ∈ word, c.isAlpha = false := by
    obtain ⟨tail, made, -⟩ := quoted.exists_tail
    exact ⟨mark, by simp [made], not_isAlpha_of_isExpressionQuote quoted.marked⟩
  unfold openingsAt
  rw [leadsAt_local conventional bounded same after other]
  refine List.flatMap_congr fun lead leads => ?_
  congr 1
  refine List.filter_congr fun quote known => ?_
  rw [quoted.opens_local conventional untripled leads known,
    quoted.opens_local conventional quoted.not_tripledBy leads known]

/-- A string literal is read again as it was, unless a third mark now follows an empty one. -/
theorem readString_iff (conventional : language.Conventional)
    (quoted : language.Quoted previous word after opening mark body)
    (same : word.head?.any isNameChar = true → current.any isNameChar = previous.any isNameChar) :
    language.readString current (word ++ other) = .ok word.length
      ↔ ¬language.TripledBy word other := by
  constructor
  · intro read
    obtain ⟨_, _, _, again⟩ := quoted_of_readString conventional read
    exact again.not_tripledBy
  · intro untripled
    -- the closing quote begins with the mark, which opens no expression
    obtain ⟨others, closer⟩ : ∃ others, (language.ruleOf opening).closer = mark :: others := by
      change ∃ others, opening.quote.closer = mark :: others
      rw [quoted.closer]
      rcases quoted.opener with opener | opener <;> exact ⟨_, opener⟩
    have unquoted : ∀ opener ∈ (language.ruleOf opening).interpolation, mark ∉ opener := by
      intro opener embedded member
      have plain := conventional.interpolation_unquoted embedded mark member
      rw [quoted.marked] at plain
      simp at plain
    have closes := BodyRule.closeFrom?_local closer unquoted other quoted.closes
    unfold readString
    rw [quoted.openingsAt_local conventional same untripled, quoted.longest]
    refine Quote.read_eq_ok.mpr ⟨body, other, ?_, closes, ?_⟩
    · rw [quoted.whole]
      simp
    · rw [quoted.whole]
      simp only [List.length_append]
      omega

end Quoted

end Language

end CommentStrip
