import CommentStrip.Proofs.Simulation

/-!
# Scanning the rewritten text

If no kept piece fuses with what is written after it, the rewritten text is scanned without failure,
and its tokens are the kept pieces with blanks between them. If one does, the scan of the rewritten
text fails or finds other tokens.
-/
namespace CommentStrip

/-- The kept tokens, with the blanks that are scanned in the seams between them. -/
inductive Laid : (earlier later : List Piece) → List Token → Prop where
  | rest {earlier gap : List Piece} {blanks : List Token}
    (empty : ∀ piece ∈ gap, piece.isContent = false)
    (blank : ∀ token ∈ blanks, token.kind.isBlank = true)
    (seam : Seam earlier.getLast? gap none (Token.textOf blanks)) : Laid earlier gap blanks
  | next {earlier gap later : List Piece} {next : Piece} {blanks tokens : List Token}
    (empty : ∀ piece ∈ gap, piece.isContent = false) (content : next.isContent = true)
    (blank : ∀ token ∈ blanks, token.kind.isBlank = true)
    (seam : Seam earlier.getLast? gap (some next) (Token.textOf blanks))
    (laid : Laid (earlier ++ gap ++ [next]) later tokens) :
    Laid earlier (gap ++ next :: later) (blanks ++ next.span.token :: tokens)

/-- The tokens of the kept pieces that are not blank. -/
def Piece.contents (pieces : List Piece) : List Token :=
  (pieces.filter Piece.isContent).map (·.span.token)

namespace Piece

@[simp] theorem contents_nil : contents [] = [] := rfl

theorem contents_of_gap {gap : List Piece} (empty : ∀ piece ∈ gap, piece.isContent = false) :
    contents gap = [] := by
  rw [contents, List.map_eq_nil_iff, List.filter_eq_nil_iff]
  simpa using empty

theorem contents_append (first second : List Piece) :
    contents (first ++ second) = contents first ++ contents second := by
  simp [contents]

theorem contents_cons {piece : Piece} (content : piece.isContent = true) (pieces : List Piece) :
    contents (piece :: pieces) = piece.span.token :: contents pieces := by
  simp [contents, content]

end Piece

theorem Laid.contents {earlier later : List Piece} {tokens : List Token}
    (laid : Laid earlier later tokens) : Token.contents tokens = Piece.contents later := by
  induction laid with
  | rest empty blank => rw [Token.contents_of_blank blank, Piece.contents_of_gap empty]
  | @next _ _ _ next _ _ empty content blank _ _ ih =>
    have solid : next.span.token.kind.isBlank = false := Piece.not_isBlank_of_isContent content
    rw [Token.contents_append, Token.contents_of_blank blank, Token.contents_cons, solid, ih,
      Piece.contents_append, Piece.contents_of_gap empty, Piece.contents_cons content]
    rfl

/-- The first item with a property is found in a list in one way only. -/
theorem split_of_first {α : Type} {property : α → Bool} {gap later before after : List α}
    {next item : α} (empty : ∀ other ∈ gap, property other = false) (found : property item = true)
    (same : gap ++ next :: later = before ++ item :: after) :
    before = gap ∧ item = next ∧ after = later
      ∨ ∃ more, before = gap ++ next :: more ∧ later = more ++ item :: after := by
  rcases List.append_eq_append_iff.mp same with ⟨more, rfl, tail⟩ | ⟨more, rfl, tail⟩
  · cases more with
    | nil =>
      obtain ⟨rfl, rfl⟩ := List.cons.inj tail
      exact .inl ⟨List.append_nil _, rfl, rfl⟩
    | cons first others =>
      obtain ⟨rfl, rfl⟩ := List.cons.inj tail
      exact .inr ⟨others, rfl, rfl⟩
  · cases more with
    | nil =>
      obtain ⟨rfl, rfl⟩ := List.cons.inj tail
      exact .inl ⟨(List.append_nil _).symm, rfl, rfl⟩
    | cons first others =>
      -- the item would come before the gap ends
      obtain ⟨rfl, rfl⟩ := List.cons.inj tail
      simp [empty item (by simp)] at found

namespace Language

variable {language : Language} {source text : Text} {pieces earlier later : List Piece}
  {target : Point}

/-- No kept piece fuses with what is written after it. -/
def Sound (language : Language) (earlier later : List Piece) : Prop :=
  ∀ before piece after, later = before ++ piece :: after → piece.isContent = true →
    ¬language.Fuses (earlier ++ before) piece (writtenAfter (earlier ++ before) piece after)

/-- From one kept piece to the next: blanks are read, the piece is read unless it fuses with what is
written after it, and then the two scans have seen the same again. -/
private theorem step (edit : language.Edit source pieces) {gap : List Piece} {next : Piece}
    {blanks : Text} (split : pieces = earlier ++ (gap ++ next :: later))
    (departs : language.Departs earlier target)
    (empty : ∀ piece ∈ gap, piece.isContent = false) (content : next.isContent = true)
    (seam : Seam earlier.getLast? gap (some next) blanks)
    (woven : Woven (earlier ++ gap ++ [next]) later text) :
    ∃ tokens, Token.textOf tokens = blanks ∧ (∀ token ∈ tokens, token.kind.isBlank = true)
      ∧ language.Reads target tokens (next.span.text ++ text)
      ∧ (language.Reads (target.pastAll tokens) next.span.token.lexemes text
        ↔ ¬language.Fuses (earlier ++ gap) next text)
      ∧ language.Departs (earlier ++ gap ++ [next])
        ((target.pastAll tokens).pastAll next.span.token.lexemes) := by
  have here : pieces = (earlier ++ gap) ++ next :: later := by simp [split]
  have regular := edit.regular.each next (by simp [split])
  have stops : ∀ c ∈ (next.span.text ++ text).head?, isBlankChar c = false := by
    rw [List.head?_append_of_ne_nil _ regular.nonempty]
    exact regular.first (Piece.not_isBlank_of_isContent content)
  obtain ⟨tokens, rfl, blank, reads⟩ :=
    blanks_read edit.conventional blanks (next.span.text ++ text) seam.blank stops
  have arrives := departs.arrives edit split empty content seam blank
  have onward := onward_of_woven edit here woven
  exact ⟨tokens, rfl, blank, reads, reads_iff arrives edit here content onward,
    arrives.departs edit here⟩

/-- Where no kept piece fuses with what follows it, the kept tokens are read again. -/
theorem reads_of_sound (edit : language.Edit source pieces) (split : pieces = earlier ++ later)
    (woven : Woven earlier later text) (departs : language.Departs earlier target)
    (sound : language.Sound earlier later) :
    ∃ tokens, Laid earlier later tokens ∧ Token.textOf tokens = text
      ∧ (∀ token ∈ tokens, token.text ≠ [])
      ∧ language.Reads target (tokens.flatMap Token.lexemes) [] := by
  -- along the kept pieces, with the agreement of the two scans as the invariant
  induction woven generalizing target with
  | @rest earlier gap blanks empty seam =>
    obtain ⟨tokens, rfl, blank, reads⟩ :=
      blanks_read edit.conventional blanks [] seam.blank (by simp)
    exact ⟨tokens, .rest empty blank seam, rfl, reads.nonempty, by rwa [reads.flatMap_lexemes]⟩
  | @next earlier gap later next blanks text empty content seam written woven ih =>
    obtain ⟨ahead, rfl, blank, blanksRead, unfused, departs⟩ :=
      step edit split departs empty content seam woven
    have apart : ¬language.Fuses (earlier ++ gap) next text :=
      written ▸ sound gap next later rfl content
    have later_sound : language.Sound (earlier ++ gap ++ [next]) later := by
      intro before piece after same content
      have there := sound (gap ++ next :: before) piece after (by simp [same]) content
      simpa using there
    obtain ⟨tokens, laid, rfl, nonempty, reads⟩ := ih (by simp [split]) departs later_sound
    refine ⟨ahead ++ next.span.token :: tokens, .next empty content blank seam laid, ?_, ?_, ?_⟩
    · simp [Span.token]
    · rw [List.forall_mem_append, List.forall_mem_cons]
      exact ⟨blanksRead.nonempty, edit.text_ne_nil (by simp [split]), nonempty⟩
    · rw [List.flatMap_append, List.flatMap_cons, blanksRead.flatMap_lexemes, reads_append,
        reads_append]
      refine ⟨?_, ?_, reads⟩
      · simpa [Token.textOf_flatMap_lexemes, Span.token] using blanksRead
      · simpa [Token.textOf_flatMap_lexemes] using unfused.mpr apart

/-- A blank token begins with a blank. -/
private theorem isBlankChar_of_reads {token : Token} {rest : Text}
    (reads : language.ReadsAt target token rest) (blank : token.kind.isBlank = true) :
    ∀ c ∈ token.text.head?, isBlankChar c = true := by
  obtain ⟨kind, word⟩ := token
  intro c head
  have member := List.mem_of_head? head
  simp only [Kind.isBlank, Bool.or_eq_true, beq_iff_eq] at blank
  rcases blank with rfl | rfl
  · simp [isBlankChar, reads.whitespace c member]
  · simp [isBlankChar, reads.newline c member]

/-- If the tokens that are not blank begin with certain lexemes, and the text begins with the text
of these, then the lexemes are read there. -/
private theorem reads_of_contents {lexemes more tokens : List Token}
    (solid : ∀ lexeme ∈ lexemes, ∃ c ∈ lexeme.text.head?, isBlankChar c = false)
    (yields : language.Yields target (Token.textOf lexemes ++ text) tokens)
    (same : Token.contents tokens = lexemes ++ more) :
    language.Reads target lexemes text ∧ ∃ later, Token.contents later = more
      ∧ language.Yields (target.pastAll lexemes) text later := by
  induction lexemes generalizing target tokens with
  | nil => exact ⟨trivial, tokens, same, yields⟩
  | cons lexeme others ih =>
    obtain ⟨c, head, other⟩ := solid lexeme List.mem_cons_self
    obtain ⟨reads, made⟩ := yields.reads
    cases tokens with
    | nil => simp at same
    | cons token rest =>
      have first := reads.1
      rw [List.append_nil] at first
      -- a blank token would begin like the lexeme, which does not begin with a blank
      have kept : token.kind.isBlank = false := by
        by_contra blank
        rw [Bool.not_eq_false] at blank
        have start : token.text.head? = some c := by
          obtain ⟨d, word, whole⟩ := List.exists_cons_of_ne_nil first.1
          have heads := congrArg List.head? made
          rw [Token.textOf_cons, Token.textOf_cons, List.append_assoc,
            List.head?_append_of_ne_nil _ first.1, List.head?_append, Option.mem_def.mp head]
            at heads
          simpa using heads
        simp [isBlankChar_of_reads first blank c start] at other
      rw [Token.contents_cons, kept] at same
      obtain ⟨rfl, tail⟩ := List.cons.inj same
      have text_eq : Token.textOf rest = Token.textOf others ++ text := by
        simpa using made
      rw [text_eq] at first
      have later : language.Yields (target.past token) (Token.textOf others ++ text) rest :=
        text_eq ▸ reads.2.yields
      obtain ⟨readsOthers, after⟩ :=
        ih (fun lexeme member => solid lexeme (List.mem_cons_of_mem _ member)) later tail
      exact ⟨⟨first, readsOthers⟩, after⟩

private theorem solid_lexemes (edit : language.Edit source pieces) {piece : Piece}
    (split : pieces = earlier ++ piece :: later) (content : piece.isContent = true) :
    ∀ lexeme ∈ piece.span.token.lexemes, ∃ c ∈ lexeme.text.head?, isBlankChar c = false := by
  intro lexeme member
  by_cases code : piece.span.kind = .code
  · have token : piece.span.token = ⟨.code, piece.span.text⟩ := by rw [Span.token, code]
    rw [token, Token.lexemes_of_code, List.mem_map] at member
    obtain ⟨c, inside, rfl⟩ := member
    obtain ⟨before, after, whole⟩ := List.append_of_mem inside
    have reads := edit.readsAt_code split code whole
    exact ⟨c, rfl, reads.first edit.conventional rfl c rfl⟩
  · rw [Token.lexemes_of_ne_code code, List.mem_singleton] at member
    subst member
    have regular := edit.regular.each piece (by simp [split])
    obtain ⟨c, rest, whole⟩ := List.exists_cons_of_ne_nil regular.nonempty
    have head : piece.span.text.head? = some c := by rw [whole]; rfl
    exact ⟨c, head, regular.first (Piece.not_isBlank_of_isContent content) c head⟩

/-- If the kept tokens are read again, no kept piece fuses with what follows it. -/
theorem sound_of_yields (edit : language.Edit source pieces) (split : pieces = earlier ++ later)
    (woven : Woven earlier later text) (departs : language.Departs earlier target)
    {tokens : List Token} (yields : language.Yields target text tokens)
    (same : Token.contents tokens = (Piece.contents later).flatMap Token.lexemes) :
    language.Sound earlier later := by
  induction woven generalizing target tokens with
  | rest empty =>
    rintro before piece after rfl content
    simp [empty piece (by simp)] at content
  | @next earlier gap later next blanks text empty content seam written woven ih =>
    obtain ⟨ahead, rfl, blank, blanksRead, unfused, departs⟩ :=
      step edit split departs empty content seam woven
    obtain ⟨rest, rfl, after⟩ := (yields_of_reads blanksRead).mp yields
    rw [Token.contents_append, Token.contents_of_blank blank, List.nil_append,
      Piece.contents_append, Piece.contents_of_gap empty, Piece.contents_cons content,
      List.nil_append, List.flatMap_cons] at same
    have here : pieces = (earlier ++ gap) ++ next :: later := by simp [split]
    have made : Token.textOf next.span.token.lexemes = next.span.text := Token.textOf_lexemes _
    rw [← made] at after
    obtain ⟨reads, tail, others, onward⟩ :=
      reads_of_contents (solid_lexemes edit here content) after same
    have later_sound := ih (by simp [split]) departs onward others
    intro before piece after whole found
    rcases split_of_first empty found whole with ⟨rfl, rfl, rfl⟩ | ⟨more, rfl, rfl⟩
    · exact written ▸ unfused.mp reads
    · simpa using later_sound more piece after rfl found

theorem departs_start : language.Departs [] .start where
  previous := rfl
  slash _ := rfl
  run started := absurd rfl started

/-- Where no kept piece fuses with what follows it, the rewritten text is scanned without failure,
and its spans are the kept tokens and blanks, with code joined. -/
theorem Edit.spans_of_sound (edit : language.Edit source pieces)
    (sound : language.Sound [] pieces) :
    ∃ spans tokens, language.spans (writeLines pieces) = .ok spans ∧ Laid [] pieces tokens
      ∧ (∀ token ∈ tokens, token.text ≠ []) ∧ spans.map Span.token = Token.joinCode tokens := by
  obtain ⟨tokens, laid, made, nonempty, reads⟩ :=
    reads_of_sound edit rfl (woven_writeLines edit.regular) departs_start sound
  have yields := reads.yields
  rw [Token.textOf_flatMap_lexemes, made] at yields
  obtain ⟨spans, scanned, same⟩ := yields.spans
  refine ⟨spans, tokens, scanned, laid, nonempty, ?_⟩
  rw [same, Token.joinCode_flatMap_lexemes nonempty]

/-- In the source, no literal goes on. -/
theorem Edit.not_goes_on (edit : language.Edit source pieces) {piece : Piece}
    (split : pieces = earlier ++ piece :: later) (literal : piece.span.kind = .stringLiteral) :
    ¬FlaggedBy piece.span.text (Piece.textOf later)
      ∧ ¬language.TripledBy piece.span.text (Piece.textOf later) := by
  have here := edit.readsAt split (by simp [literal])
  have token : piece.span.token = ⟨.stringLiteral, piece.span.text⟩ := by rw [Span.token, literal]
  rw [token] at here
  exact (literal_iff edit.conventional here ⟨fun _ => rfl, fun _ => rfl⟩).mp here

/-- What is now written right after a kept piece and is no blank is the next kept piece. -/
theorem Edit.meets (edit : language.Edit source pieces) {piece : Piece} {c : Char}
    (split : pieces = earlier ++ piece :: later) (content : piece.isContent = true)
    (head : (writtenAfter earlier piece later).head? = some c) (solid : isBlankChar c = false) :
    ∃ gap next rest, later = gap ++ next :: rest ∧ (∀ piece ∈ gap, piece.isContent = false)
      ∧ next.isContent = true ∧ next.span.text.head? = some c
      ∧ Seam (some piece) gap (some next) [] := by
  have regular : Regular (piece :: later) := (split ▸ edit.regular).right
  have nonempty : ∀ piece ∈ later, piece.span.text ≠ [] := fun other member =>
    edit.text_ne_nil (by simp [split, member])
  rcases (woven_writtenAfter earlier content regular).head nonempty head with blank | found
  · simp [blank] at solid
  · simpa using found

/-- The rewritten text has the kept tokens, up to the cuts in code, exactly if no kept piece fuses
with what is written after it. -/
theorem Edit.preserves_iff (edit : language.Edit source pieces) :
    (∃ spans, language.spans (writeLines pieces) = .ok spans
        ∧ Token.joinCode (Token.contents (spans.map Span.token))
          = Token.joinCode (Piece.contents pieces))
      ↔ language.Sound [] pieces := by
  have pieces_nonempty : ∀ token ∈ Piece.contents pieces, token.text ≠ [] := by
    intro token member
    obtain ⟨piece, inside, rfl⟩ := List.mem_map.mp member
    exact edit.text_ne_nil (List.mem_of_mem_filter inside)
  have again_nonempty {spans : List Span} (scanned : language.spans (writeLines pieces) = .ok spans) :
      ∀ token ∈ Token.contents (spans.map Span.token), token.text ≠ [] := by
    intro token member
    obtain ⟨span, inside, rfl⟩ := List.mem_map.mp (List.mem_of_mem_filter member)
    exact text_ne_nil_of_spans scanned inside
  constructor
  · rintro ⟨spans, scanned, same⟩
    rw [Token.joinCode_eq_iff (again_nonempty scanned) pieces_nonempty,
      ← Token.contents_flatMap_lexemes] at same
    obtain ⟨reads, made⟩ := reads_of_spans scanned
    have yields := reads.yields
    rw [Token.textOf_flatMap_lexemes, made] at yields
    exact sound_of_yields edit rfl (woven_writeLines edit.regular) departs_start yields same
  · intro sound
    obtain ⟨spans, tokens, scanned, laid, nonempty, made⟩ := edit.spans_of_sound sound
    refine ⟨spans, scanned, ?_⟩
    rw [Token.joinCode_eq_iff (again_nonempty scanned) pieces_nonempty, made,
      ← Token.contents_flatMap_lexemes, Token.flatMap_lexemes_joinCode,
      Token.contents_flatMap_lexemes, laid.contents]

end Language

end CommentStrip
