import CommentStrip.Proofs.Blocks

/-!
# Kept pieces in the rewritten text

Every span of the rewritten text that is not blank is a kept piece of the source. This relates the
pieces up to it with the spans up to it, one kept piece after the other, and keeps the seams between
them. Where nothing is removed from a gap, its blanks are found again one by one, since how blanks are
read depends on nothing but their text.
-/
namespace CommentStrip

namespace Language

variable {language : Language}

/-- Blanks are read as the same tokens everywhere, if no other blank comes after them. -/
private theorem reads_blanks (conventional : language.Conventional) {point other : Point}
    {tokens : List Token} {rest more : Text} (blank : ∀ token ∈ tokens, token.kind.isBlank = true)
    (reads : language.Reads point tokens rest) (stops : ∀ c ∈ more.head?, isBlankChar c = false) :
    language.Reads other tokens more := by
  induction tokens generalizing point other with
  | nil => trivial
  | cons token later ih =>
    obtain ⟨here, onward⟩ := reads
    obtain ⟨first, others⟩ := List.forall_mem_cons.mp blank
    refine ⟨?_, ih others onward⟩
    -- what comes next begins as before, or is no blank
    have next {c : Char} (head : c ∈ (Token.textOf later ++ more).head?) :
        c ∈ (Token.textOf later ++ rest).head? ∨ isBlankChar c = false := by
      cases text : Token.textOf later with
      | nil => exact .inr (stops c (by simpa [text] using head))
      | cons d _ => exact .inl (by simpa [text] using head)
    obtain ⟨kind, word⟩ := token
    simp only [Kind.isBlank, Bool.or_eq_true, beq_iff_eq] at first
    rcases first with rfl | rfl
    · obtain ⟨nonempty, inline, ends⟩ := here.whitespace_shape
      refine (whitespace_iff conventional).mpr ⟨nonempty, inline, fun c head => ?_⟩
      rcases next head with before | visible
      · exact ends c before
      · rw [isBlankChar, Bool.or_eq_false_iff] at visible
        exact visible.1
    · refine (newline_iff conventional).mpr (here.newline_shape.imp_right (Or.imp_right ?_))
      rintro ⟨carriage, single⟩
      refine ⟨carriage, fun head => ?_⟩
      rcases next head with before | visible
      · exact single before
      · exact absurd visible (by decide)

/-- The blanks in front of a span are read by themselves. -/
private theorem reads_of_blanks (known : language ∈ registered) {source : Text}
    {before blanks after : List Span} {span : Span}
    (scanned : language.spans source = .ok (before ++ blanks ++ span :: after))
    (blank : ∀ other ∈ blanks, other.kind.isBlank = true) :
    language.Reads .start (blanks.map Span.token) [] := by
  have conventional := conventional_of_registered known
  have white : ∀ token ∈ blanks.map Span.token, token.kind.isBlank = true := by
    simpa [Span.token] using blank
  have single : (blanks.map Span.token).flatMap Token.lexemes = blanks.map Span.token := by
    rw [← List.flatMap_singleton' (blanks.map Span.token), List.flatMap_assoc]
    refine List.flatMap_congr fun token member => ?_
    rw [List.flatMap_singleton]
    refine Token.lexemes_of_ne_code fun code => ?_
    simpa [code, Kind.isBlank] using white token member
  obtain ⟨reads, -⟩ := reads_of_spans scanned
  rw [List.map_append, List.map_append, List.flatMap_append, List.flatMap_append, reads_append,
    reads_append, single] at reads
  exact reads_blanks conventional white reads.1.2 (by simp)

/-- The blanks in front of two spans are the same if they say the same. -/
theorem blanks_unique (known : language ∈ registered) {source text : Text}
    {before blanks after front others back : List Span} {span other : Span}
    (scanned : language.spans source = .ok (before ++ blanks ++ span :: after))
    (again : language.spans text = .ok (front ++ others ++ other :: back))
    (blank : ∀ other ∈ blanks, other.kind.isBlank = true)
    (also : ∀ other ∈ others, other.kind.isBlank = true)
    (same : others.flatMap Span.text = blanks.flatMap Span.text) :
    others.map Span.token = blanks.map Span.token := by
  have yields := (reads_of_blanks known scanned blank).yields
  have alsoYields := (reads_of_blanks known again also).yields
  rw [Token.textOf_map_token] at yields alsoYields
  rw [same] at alsoYields
  exact alsoYields.2.symm.trans yields.2

end Language

/-- Pieces up to a kept one, and the spans of the rewritten text up to the same one. -/
inductive Found : List Piece → List Span → Prop where
  | start : Found [] []
  | next {earlier gap : List Piece} {piece : Piece} {before blanks : List Span} {span : Span}
    (found : Found earlier before) (empty : ∀ other ∈ gap, other.isContent = false)
    (content : piece.isContent = true) (blank : ∀ other ∈ blanks, other.kind.isBlank = true)
    (seam : Seam earlier.getLast? gap (some piece) (blanks.flatMap Span.text))
    (same : span.token = piece.span.token) :
    Found (earlier ++ gap ++ [piece]) (before ++ blanks ++ [span])

namespace Found

variable {pieces earlier gap trivia front : List Piece} {piece left : Piece}
  {spans before blanks : List Span} {span : Span}

theorem of_concat (found : Found (pieces ++ [piece]) (spans ++ [span])) :
    ∃ earlier gap before blanks, pieces = earlier ++ gap ∧ spans = before ++ blanks
      ∧ Found earlier before ∧ (∀ other ∈ gap, other.isContent = false) ∧ piece.isContent = true
      ∧ (∀ other ∈ blanks, other.kind.isBlank = true)
      ∧ Seam earlier.getLast? gap (some piece) (blanks.flatMap Span.text)
      ∧ span.token = piece.span.token := by
  generalize whole : pieces ++ [piece] = all at found
  generalize wholeSpans : spans ++ [span] = allSpans at found
  cases found with
  | start => simp at whole
  | next found empty content blank seam same =>
    obtain ⟨rfl, last⟩ := List.append_inj' whole rfl
    obtain ⟨rfl, lastSpan⟩ := List.append_inj' wholeSpans rfl
    obtain ⟨rfl, -⟩ := List.cons.inj last
    obtain ⟨rfl, -⟩ := List.cons.inj lastSpan
    exact ⟨_, _, _, _, rfl, rfl, found, empty, content, blank, seam, same⟩

/-- The last piece is kept and is the last span. -/
theorem last (found : Found pieces spans) :
    pieces = [] ∧ spans = [] ∨ ∃ front piece others span, pieces = front ++ [piece]
      ∧ spans = others ++ [span] ∧ piece.isContent = true ∧ span.token = piece.span.token := by
  cases found with
  | start => exact .inl ⟨rfl, rfl⟩
  | next _ _ content _ _ same => exact .inr ⟨_, _, _, _, rfl, rfl, content, same⟩

theorem content (found : Found (pieces ++ [piece]) (spans ++ [span])) : piece.isContent = true := by
  obtain ⟨_, _, _, _, -, -, -, -, content, -⟩ := found.of_concat
  exact content

theorem token_eq (found : Found (pieces ++ [piece]) (spans ++ [span])) :
    span.token = piece.span.token := by
  obtain ⟨_, _, _, _, -, -, -, -, -, -, -, same⟩ := found.of_concat
  exact same

/-- The gap in front of the last piece begins after the last kept one before it. -/
theorem of_split (found : Found (front ++ left :: gap ++ [piece]) (spans ++ [span]))
    (content : left.isContent = true) (empty : ∀ other ∈ gap, other.isContent = false) :
    ∃ others opening blanks, spans = others ++ opening :: blanks
      ∧ Found (front ++ [left]) (others ++ [opening])
      ∧ (∀ other ∈ blanks, other.kind.isBlank = true)
      ∧ Seam (some left) gap (some piece) (blanks.flatMap Span.text) := by
  obtain ⟨earlier, passed, before, blanks, whole, rfl, upTo, none, -, blank, seam, -⟩ := found.of_concat
  rw [List.append_cons] at whole
  -- the kept pieces found before end where the gap begins: neither gap has a kept piece in it
  have here : earlier = front ++ [left] ∧ passed = gap := by
    rcases List.append_eq_append_iff.mp whole with ⟨more, rfl, rest⟩ | ⟨more, ends, rest⟩
    · rcases upTo.last with ⟨nothing, -⟩ | ⟨_, last, _, _, ends, -, kept, -⟩
      · simp at nothing
      · rcases List.eq_nil_or_concat more with rfl | ⟨others, final, rfl⟩
        · exact ⟨by simp, by simpa using rest.symm⟩
        · rw [List.concat_eq_append, ← List.append_assoc] at ends
          obtain ⟨-, same⟩ := List.append_inj' ends rfl
          obtain ⟨rfl, -⟩ := List.cons.inj same
          simp [empty final (by simp [rest])] at kept
    · rcases List.eq_nil_or_concat more with rfl | ⟨others, final, rfl⟩
      · exact ⟨by simpa using ends.symm, by simpa using rest⟩
      · rw [List.concat_eq_append, ← List.append_assoc] at ends
        obtain ⟨-, same⟩ := List.append_inj' ends rfl
        obtain ⟨rfl, -⟩ := List.cons.inj same
        simp [none left (by simp [rest])] at content
  obtain ⟨rfl, rfl⟩ := here
  rcases upTo.last with ⟨nothing, -⟩ | ⟨_, _, others, opening, -, rfl, -, -⟩
  · simp at nothing
  · rw [List.getLast?_concat] at seam
    exact ⟨others, opening, blanks, by simp, upTo, blank, seam⟩

/-- Blanks and a kept piece add one token to both. -/
private theorem contents_concat
    (known : Token.contents (before.map Span.token) = Piece.contents earlier)
    (empty : ∀ other ∈ gap, other.isContent = false) (content : piece.isContent = true)
    (blank : ∀ other ∈ blanks, other.kind.isBlank = true) (same : span.token = piece.span.token) :
    Token.contents ((before ++ blanks ++ [span]).map Span.token)
      = Piece.contents (earlier ++ gap ++ [piece]) := by
  have solid : span.token.kind.isBlank = false := by
    rw [same]
    exact Piece.not_isBlank_of_isContent content
  have none : Token.contents (blanks.map Span.token) = [] :=
    Token.contents_of_blank (by simpa [Span.token] using blank)
  rw [List.map_append, List.map_append, Token.contents_append, Token.contents_append, none, known,
    List.map_singleton, Token.contents_cons, solid, Piece.contents_append, Piece.contents_append,
    Piece.contents_of_gap empty, Piece.contents_cons content, same]
  rfl

theorem contents (found : Found pieces spans) :
    Token.contents (spans.map Span.token) = Piece.contents pieces := by
  induction found with
  | start => rfl
  | next _ empty content blank _ same ih => exact contents_concat ih empty content blank same

/-- Up to a kept piece before the last one, the pieces are found as well. -/
theorem exists_split (found : Found pieces spans) (split : pieces = front ++ left :: trivia)
    (content : left.isContent = true) :
    ∃ first opening between, spans = first ++ opening :: between
      ∧ Found (front ++ [left]) (first ++ [opening]) ∧ opening.token = left.span.token
      ∧ Token.contents (between.map Span.token) = Piece.contents trivia := by
  induction found generalizing trivia with
  | start => simp at split
  | @next earlier gap piece before blanks span found empty kept blank seam same ih =>
    rcases List.eq_nil_or_concat trivia with rfl | ⟨others, last, rfl⟩
    · -- the kept piece is the last one
      obtain ⟨rfl, ends⟩ := List.append_inj' split rfl
      obtain ⟨rfl, -⟩ := List.cons.inj ends
      exact ⟨_, span, [], rfl, .next found empty kept blank seam same, same, rfl⟩
    · rw [List.concat_eq_append, ← List.cons_append, ← List.append_assoc] at split
      obtain ⟨whole, ends⟩ := List.append_inj' split rfl
      obtain ⟨rfl, -⟩ := List.cons.inj ends
      -- it does not stand in the gap, which has no kept piece
      have outside : left ∉ gap := fun member => by simp [empty left member] at content
      rcases List.append_eq_append_iff.mp whole with ⟨passed, -, rest⟩ | ⟨passed, rfl, rest⟩
      · exact absurd (by simp [rest]) outside
      cases passed with
      | nil =>
        rw [List.nil_append] at rest
        exact absurd (by simp [← rest]) outside
      | cons first more =>
        rw [List.cons_append, List.cons.injEq] at rest
        obtain ⟨rfl, rfl⟩ := rest
        obtain ⟨first, opening, between, rfl, upTo, opened, rest⟩ := ih rfl
        refine ⟨first, opening, between ++ blanks ++ [span], by simp, upTo, opened, ?_⟩
        rw [List.concat_eq_append]
        exact contents_concat rest empty kept blank same

/-- Before the last piece come the same tokens. -/
theorem contents_before (found : Found (pieces ++ [piece]) (spans ++ [span])) :
    Token.contents (spans.map Span.token) = Piece.contents pieces := by
  obtain ⟨_, _, _, _, rfl, rfl, upTo, empty, -, blank, -⟩ := found.of_concat
  rw [List.map_append, Token.contents_append, upTo.contents, Piece.contents_append,
    Piece.contents_of_gap empty, Token.contents_of_blank (by simpa [Span.token] using blank)]

/-- Likewise for what comes before the last piece. -/
theorem exists_before (found : Found (front ++ left :: trivia ++ [piece]) (before ++ [span]))
    (content : left.isContent = true) :
    ∃ first opening between, before = first ++ opening :: between
      ∧ Found (front ++ [left]) (first ++ [opening]) ∧ opening.token = left.span.token
      ∧ Token.contents (between.map Span.token) = Piece.contents trivia := by
  have split : front ++ left :: trivia ++ [piece] = front ++ left :: (trivia ++ [piece]) :=
    List.append_assoc ..
  obtain ⟨first, opening, between, whole, upTo, opened, same⟩ := found.exists_split split content
  have solid : span.token.kind.isBlank = false := by
    rw [found.token_eq]
    exact Piece.not_isBlank_of_isContent found.content
  rw [Piece.contents_append, Piece.contents_cons found.content, Piece.contents_nil] at same
  rcases List.eq_nil_or_concat between with rfl | ⟨others, last, rfl⟩
  · simp at same
  · rw [List.concat_eq_append, ← List.cons_append, ← List.append_assoc] at whole
    obtain ⟨rfl, ends⟩ := List.append_inj' whole rfl
    obtain ⟨rfl, -⟩ := List.cons.inj ends
    rw [List.concat_eq_append, List.map_append, List.map_singleton, Token.contents_append,
      Token.contents_cons, solid] at same
    exact ⟨first, opening, others, rfl, upTo, opened, (List.append_inj' same rfl).1⟩

end Found

/-- A span that is not blank, among those that are laid, is a kept piece. -/
theorem Laid.exists_found {earlier later : List Piece} {tokens : List Token}
    {before front back : List Span} {span : Span} (laid : Laid earlier later tokens)
    (found : Found earlier before) (made : (front ++ span :: back).map Span.token = tokens)
    (solid : span.kind.isBlank = false) :
    ∃ passed piece rest, later = passed ++ piece :: rest
      ∧ Found (earlier ++ passed ++ [piece]) (before ++ front ++ [span])
      ∧ Laid (earlier ++ passed ++ [piece]) rest (back.map Span.token)
      ∧ Token.contents (front.map Span.token) = Piece.contents passed := by
  -- along the kept pieces that are laid, until the span is the one laid next
  induction laid generalizing before front with
  | rest empty blank =>
    subst made
    have := blank span.token (List.mem_map_of_mem (by simp))
    simp [Span.token, solid] at this
  | @next earlier gap later next blanks tokens empty content blank seam laid ih =>
    obtain ⟨spans, others, whole, rfl, rest⟩ := List.map_eq_append_iff.mp made
    obtain ⟨first, more, rfl, same, rfl⟩ := List.map_eq_cons_iff.mp rest
    have white : ∀ other ∈ spans, other.kind.isBlank = true :=
      fun other member => blank other.token (List.mem_map_of_mem member)
    have here : Found (earlier ++ gap ++ [next]) (before ++ spans ++ [first]) := by
      rw [Token.textOf_map_token] at seam
      exact .next found empty content white seam same
    have passing : ∀ other ∈ spans, (!other.kind.isBlank) = false := by simpa using white
    have stops : (!span.kind.isBlank) = true := by simpa using solid
    rcases split_of_first passing stops whole.symm with
      ⟨rfl, rfl, rfl⟩ | ⟨passed, rfl, rfl⟩
    · exact ⟨gap, next, later, rfl, here, laid, by
        rw [Token.contents_of_blank blank, Piece.contents_of_gap empty]⟩
    · obtain ⟨between, piece, rest, rfl, upTo, onward, known⟩ := ih here rfl
      refine ⟨gap ++ next :: between, piece, rest, by simp, by simpa using upTo, by simpa using onward, ?_⟩
      have visible : first.token.kind.isBlank = false := by
        rw [same]
        exact Piece.not_isBlank_of_isContent content
      rw [List.map_append, List.map_cons, Token.contents_append, Token.contents_of_blank blank,
        Token.contents_cons, visible, known, Piece.contents_append, Piece.contents_of_gap empty,
        Piece.contents_cons content, same]
      rfl

end CommentStrip
