import CommentStrip.Proofs.Removal

/-!
# Spacing of kept texts

Whatever comments and string literals are removed, the rewritten text holds the kept texts whole and
in their order, with nothing but blanks around them and between them. The decisions need not come
from the rules here, so a literal may go that no rule would remove.
-/
namespace CommentStrip

/-- The text consists of the words, in their order, with blanks before, between and after them. -/
inductive Spaced : (words : List Text) → Text → Prop where
  | rest {blanks : Text} (blank : ∀ c ∈ blanks, isBlankChar c = true) : Spaced [] blanks
  | next {blanks word text : Text} {words : List Text} (blank : ∀ c ∈ blanks, isBlankChar c = true)
    (spaced : Spaced words text) : Spaced (word :: words) (blanks ++ (word ++ text))

/-- The texts of the spans that are neither blank nor among the `removed` ones. -/
def keptTexts (spans : List Span) (removed : List Nat) : List Text :=
  (spans.zipIdx.filter fun entry => !entry.1.kind.isBlank && !removed.contains entry.2).map
    fun entry => entry.1.text

section Pieces

variable {pieces others earlier later : List Piece} {text : Text}

/-- Which pieces are marked plays no part in their shape, as long as no blank is. -/
theorem Regular.of_map_span (regular : Regular others)
    (same : pieces.map Piece.span = others.map Piece.span)
    (solid : ∀ piece ∈ pieces, piece.removed = true → piece.span.kind.isBlank = false) :
    Regular pieces where
  each := by
    intro piece member
    have inside : piece.span ∈ others.map Piece.span := same ▸ List.mem_map_of_mem member
    obtain ⟨other, there, equal⟩ := List.mem_map.mp inside
    obtain ⟨nonempty, -, whitespace, newline, first, last⟩ := regular.each other there
    rw [equal] at nonempty whitespace newline first last
    exact ⟨nonempty, solid piece member, whitespace, newline, first, last⟩
  comments := by
    have chain := regular.comments
    -- the condition on neighbours is one on their spans
    rw [← List.isChain_map (R := fun span next : Span =>
      span.kind = .lineComment → next.kind = .newline) Piece.span, ← same] at chain
    rwa [List.isChain_map] at chain

/-- Kept texts are not empty and do not begin with a blank. -/
theorem Regular.solid_contents (regular : Regular pieces) :
    ∀ word ∈ (Piece.contents pieces).map Token.text,
      word ≠ [] ∧ ∀ c ∈ word.head?, isBlankChar c = false := by
  simp only [Piece.contents, List.map_map, List.forall_mem_map, List.mem_filter]
  rintro piece ⟨member, content⟩
  have one := regular.each piece member
  exact ⟨one.nonempty, one.first (Piece.not_isBlank_of_isContent content)⟩

theorem Regular.solid_upTo {piece : Piece} (regular : Regular (earlier ++ piece :: later))
    (content : piece.isContent = true) :
    ∀ word ∈ piece.span.text :: (Piece.contents earlier).map Token.text,
      word ≠ [] ∧ ∀ c ∈ word.head?, isBlankChar c = false := by
  intro word member
  refine regular.solid_contents word ?_
  rw [Piece.contents_append, Piece.contents_cons content, List.map_append, List.map_cons,
    List.mem_append, List.mem_cons]
  rcases List.mem_cons.mp member with rfl | before
  · exact .inr (.inl rfl)
  · exact .inl before

/-- Woven text spaces the texts of the kept pieces. -/
theorem Woven.spaced (woven : Woven earlier later text) :
    Spaced ((Piece.contents later).map Token.text) text := by
  induction woven with
  | rest empty seam =>
    rw [Piece.contents_of_gap empty]
    exact .rest seam.blank
  | next empty content seam written woven ih =>
    -- a seam, a kept piece, and the rest of the weave
    rw [Piece.contents_append, Piece.contents_of_gap empty, Piece.contents_cons content]
    exact .next seam.blank ih

end Pieces

section Words

variable {words : List Text} {text word : Text}

theorem Spaced.blanks_append (spaced : Spaced words text) {blanks : Text}
    (blank : ∀ c ∈ blanks, isBlankChar c = true) : Spaced words (blanks ++ text) := by
  cases spaced with
  | rest all => exact .rest (List.forall_mem_append.mpr ⟨blank, all⟩)
  | next all spaced =>
    rw [← List.append_assoc]
    exact .next (List.forall_mem_append.mpr ⟨blank, all⟩) spaced

/-- Tokens space the texts of those that are not blank. -/
theorem spaced_textOf {tokens : List Token}
    (blank : ∀ token ∈ tokens, token.kind.isBlank = true → ∀ c ∈ token.text, isBlankChar c = true) :
    Spaced ((Token.contents tokens).map Token.text) (Token.textOf tokens) := by
  induction tokens with
  | nil => exact .rest (by simp)
  | cons token rest ih =>
    rw [List.forall_mem_cons] at blank
    have onward := ih blank.2
    rw [Token.contents_cons, Token.textOf_cons]
    split
    next kept => exact onward.blanks_append (blank.1 kept)
    · have none : ∀ c ∈ ([] : Text), isBlankChar c = true := by simp
      exact .next none onward

/-- Where characters of a kind stand in front of text that does not begin with one, they are found in
one way only. -/
theorem append_inj_of_stops {kind : Char → Bool} {first second rest other : Text}
    (all : ∀ c ∈ first, kind c = true) (also : ∀ c ∈ second, kind c = true)
    (stops : ∀ c ∈ rest.head?, kind c = false) (alsoStops : ∀ c ∈ other.head?, kind c = false)
    (same : first ++ rest = second ++ other) : first = second ∧ rest = other := by
  have runs := congrArg (List.takeWhile kind) same
  rw [takeWhile_append_of_stops all stops, takeWhile_append_of_stops also alsoStops] at runs
  subst runs
  exact ⟨rfl, List.append_cancel_left same⟩

/-- Likewise where they stand behind text that does not end with one. -/
theorem append_inj_of_ends {kind : Char → Bool} {first second rest other : Text}
    (all : ∀ c ∈ first, kind c = true) (also : ∀ c ∈ second, kind c = true)
    (ends : ∀ c ∈ rest.getLast?, kind c = false) (alsoEnds : ∀ c ∈ other.getLast?, kind c = false)
    (same : rest ++ first = other ++ second) : rest = other ∧ first = second := by
  have reversed := congrArg List.reverse same
  rw [List.reverse_append, List.reverse_append] at reversed
  have parts := append_inj_of_stops (by simpa using all) (by simpa using also) (by simpa using ends)
    (by simpa using alsoEnds) reversed
  exact ⟨List.reverse_inj.mp parts.2, List.reverse_inj.mp parts.1⟩

/-- What stands in front of a word is determined by the words before it, as none of them begins with
a blank. -/
theorem Spaced.append_inj {first second rest other : Text}
    (solid : ∀ known ∈ word :: words, known ≠ [] ∧ ∀ c ∈ known.head?, isBlankChar c = false)
    (spaced : Spaced words first) (also : Spaced words second)
    (same : first ++ (word ++ rest) = second ++ (word ++ other)) : first = second := by
  induction spaced generalizing second with
  | rest blank =>
    obtain ⟨nonempty, starts⟩ := solid word List.mem_cons_self
    cases also with
    | rest alsoBlank =>
      refine (append_inj_of_stops blank alsoBlank ?_ ?_ same).1
      · rwa [List.head?_append_of_ne_nil _ nonempty]
      · rwa [List.head?_append_of_ne_nil _ nonempty]
  | @next blanks known text words blank spaced ih =>
    obtain ⟨nonempty, starts⟩ := solid known (by simp)
    cases also with
    | @next alsoBlanks _ alsoText _ alsoBlank alsoSpaced =>
      -- the blanks in front of the first word are the same, and so is what follows it
      simp only [List.append_assoc] at same
      obtain ⟨rfl, after⟩ := append_inj_of_stops blank alsoBlank
        (by rwa [List.head?_append_of_ne_nil _ nonempty])
        (by rwa [List.head?_append_of_ne_nil _ nonempty]) same
      have later : ∀ other ∈ word :: words, other ≠ [] ∧ ∀ c ∈ other.head?, isBlankChar c = false :=
        fun other member => solid other (by
          rcases List.mem_cons.mp member with rfl | inside
          · exact List.mem_cons_self
          · simp [inside])
      rw [ih later alsoSpaced (List.append_cancel_left after)]

end Words

section Split

variable {earlier front later : List Piece} {piece : Piece} {text : Text}

/-- Woven text can be followed up to any kept piece. -/
theorem Woven.split (woven : Woven earlier (front ++ piece :: later) text)
    (content : piece.isContent = true) :
    ∃ before after, text = before ++ (piece.span.text ++ after)
      ∧ Spaced ((Piece.contents front).map Token.text) before
      ∧ after = writtenAfter (earlier ++ front) piece later
      ∧ Woven (earlier ++ front ++ [piece]) later after := by
  generalize whole : front ++ piece :: later = pieces at woven
  induction woven generalizing front with
  | rest empty =>
    subst whole
    simp [empty piece (by simp)] at content
  | @next earlier gap rest next blanks text empty found seam written woven ih =>
    rcases split_of_first empty content whole.symm with ⟨rfl, rfl, rfl⟩ | ⟨more, rfl, rfl⟩
    · refine ⟨blanks, text, rfl, ?_, written, woven⟩
      rw [Piece.contents_of_gap empty]
      exact .rest seam.blank
    · obtain ⟨before, after, rfl, spaced, here, onward⟩ := ih rfl
      refine ⟨blanks ++ (next.span.text ++ before), after, by simp, ?_, ?_, ?_⟩
      · rw [Piece.contents_append, Piece.contents_of_gap empty, Piece.contents_cons found]
        exact .next seam.blank spaced
      · simpa using here
      · simpa using onward

end Split

theorem keptTexts_eq (spans : List Span) (removed : List Nat) :
    keptTexts spans removed = (Piece.contents (markRemoved spans removed)).map Token.text := by
  simp only [keptTexts, Piece.contents, markRemoved, List.filter_map, List.map_map]
  congr 1
  apply List.filter_congr
  rintro ⟨span, index⟩ -
  simp only [Function.comp, Piece.isContent, Bool.and_comm]

/-- Rewriting only asks which indices are decided to be removed. -/
theorem text_rewrite_remove (spans : List Span) (removed : List Nat) :
    (rewrite spans (removed.map Decision.remove)).text = writeLines (markRemoved spans removed) := by
  have indices (index : Nat) : (removedIndices (removed.map Decision.remove)).contains index
      = removed.contains index := by
    rw [Bool.eq_iff_iff, List.contains_iff_mem, List.contains_iff_mem, mem_removedIndices]
    simp [Decision.remove, Decision.isRemoval]
  simp only [rewrite, writeLines, markRemoved, indices]

variable {language : Language} {source : Text} {spans : List Span} {removed : List Nat}

/-- A source from which nothing is removed is an edit of itself. -/
theorem unmarked_edit (known : language ∈ Language.registered)
    (scanned : language.spans source = .ok spans) :
    language.Edit source (markRemoved spans []) where
  conventional := Language.conventional_of_registered known
  scanned := by rwa [map_span_markRemoved]
  removable piece member gone := by simp [kept_of_unmarked piece member] at gone

/-- The marks on comments and string literals make regular pieces, also where a literal is a regular
expression. -/
theorem regular_markRemoved (known : language ∈ Language.registered)
    (scanned : language.spans source = .ok spans)
    (removable : ∀ index ∈ removed, ∃ span, spans[index]? = some span
      ∧ (span.kind.isComment = true ∨ span.kind = .stringLiteral)) :
    Regular (markRemoved spans removed) := by
  apply (unmarked_edit known scanned).regular.of_map_span
  · rw [map_span_markRemoved, map_span_markRemoved]
  · intro piece member gone
    obtain ⟨earlier, later, split⟩ := List.append_of_mem member
    obtain ⟨found, marked⟩ := removed_of_markRemoved split
    rw [gone, eq_comm, List.contains_iff_mem] at marked
    obtain ⟨span, here, shape⟩ := removable _ marked
    obtain rfl : span = piece.span := Option.some.inj (here.symm.trans found)
    rcases shape with comment | literal
    · cases kind : piece.span.kind <;> simp_all [Kind.isComment, Kind.isBlank]
    · simp [literal, Kind.isBlank]

/--
Whichever comments and string literals of a source are removed, the rewritten text holds the texts of
the other spans that are not blank, whole and in their order, with blanks around and between them.
If none is removed it is the source.
-/
theorem rewrite_spaces_kept_texts (known : language ∈ Language.registered)
    (scanned : language.spans source = .ok spans)
    (removable : ∀ index ∈ removed, ∃ span, spans[index]? = some span
      ∧ (span.kind.isComment = true ∨ span.kind = .stringLiteral)) :
    Spaced (keptTexts spans removed) (rewrite spans (removed.map Decision.remove)).text
      ∧ (removed = [] → (rewrite spans (removed.map Decision.remove)).text = source) := by
  rw [text_rewrite_remove, keptTexts_eq]
  constructor
  · exact (woven_writeLines (regular_markRemoved known scanned removable)).spaced
  · rintro rfl
    exact writeLines_unmarked scanned

/-- A comment with a line end goes, and so do the literal right after it and a regular expression. -/
theorem spaced_without_comment_and_literals :
    ∃ spans, Language.javaScript.spans " x/*a\n*/'b'; //c\n/d/g//e".toList = .ok spans
      ∧ (∀ index ∈ [2, 3, 8], ∃ span, spans[index]? = some span
        ∧ (span.kind.isComment = true ∨ span.kind = .stringLiteral))
      ∧ Spaced ["x".toList, ";".toList, "//c".toList, "//e".toList]
        (rewrite spans ([2, 3, 8].map Decision.remove)).text
      ∧ (rewrite spans ([2, 3, 8].map Decision.remove)).text = " x\n; //c\n//e".toList := by
  have scanned : Language.javaScript.spans " x/*a\n*/'b'; //c\n/d/g//e".toList
      = .ok [⟨.whitespace, 0, 1, 1, 1, " ".toList⟩, ⟨.code, 1, 2, 1, 2, "x".toList⟩,
        ⟨.blockComment, 2, 8, 1, 3, "/*a\n*/".toList⟩, ⟨.stringLiteral, 8, 11, 2, 3, "'b'".toList⟩,
        ⟨.code, 11, 12, 2, 6, ";".toList⟩, ⟨.whitespace, 12, 13, 2, 7, " ".toList⟩,
        ⟨.lineComment, 13, 16, 2, 8, "//c".toList⟩, ⟨.newline, 16, 17, 2, 11, "\n".toList⟩,
        ⟨.stringLiteral, 17, 21, 3, 1, "/d/g".toList⟩,
        ⟨.lineComment, 21, 24, 3, 5, "//e".toList⟩] := by
    rw [Language.spans_eq_lexWithin]
    decide +kernel
  have known : Language.javaScript ∈ Language.registered := by simp [Language.registered]
  refine ⟨_, scanned, ?removable, ?_, by decide +kernel⟩
  · simp [Kind.isComment]
  · exact (rewrite_spaces_kept_texts known scanned ?removable).1

end CommentStrip
