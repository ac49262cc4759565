import CommentStrip.Proofs.Numbering
import CommentStrip.Proofs.Rescan

/-!
# Origin of rewritten tokens

A token of the rewritten text that is not blank was kept from the source. Before it come the tokens
that were kept before it, and a line ends between two of these only where one ended in the source.
-/
namespace CommentStrip

namespace Token

theorem lineEnds_pos_iff {tokens : List Token} :
    0 < lineEnds tokens ↔ ∃ c ∈ textOf tokens, isLineBreak c = true := by
  induction tokens with
  | nil => simp
  | cons token rest ih =>
    have here : 0 < Text.lineEnds token.text ↔ ∃ c ∈ token.text, isLineBreak c = true := by
      rw [Nat.pos_iff_ne_zero, ne_eq, Text.lineEnds_eq_zero]
      simp
    rw [lineEnds_cons, Nat.add_pos_iff_pos_or_pos, here, ih, textOf_cons]
    simp only [List.mem_append, or_and_right, exists_or]

private theorem textOf_joinCode (tokens : List Token) : textOf (joinCode tokens) = textOf tokens := by
  rw [← textOf_flatMap_lexemes, flatMap_lexemes_joinCode, textOf_flatMap_lexemes]

/-- A token of joined code begins with a token that it was joined from. -/
theorem joinCode_eq_append {tokens before after : List Token} {token : Token}
    (joined : joinCode tokens = before ++ token :: after) :
    ∃ earlier first later, tokens = earlier ++ first :: later ∧ first.kind = token.kind
      ∧ joinCode earlier = before ∧ joinCode (first :: later) = token :: after := by
  induction tokens generalizing before with
  | nil => simp [joinCode] at joined
  | cons start rest ih =>
    cases before with
    | nil =>
      refine ⟨[], start, rest, rfl, ?_, rfl, joined⟩
      rw [joinCode_cons] at joined
      cases same : joinCode rest with
      | nil =>
        rw [same] at joined
        obtain ⟨rfl, -⟩ := List.cons.inj joined
        rfl
      | cons next others =>
        rw [same, attach] at joined
        split at joined
        next code =>
          obtain ⟨rfl, -⟩ := List.cons.inj joined
          exact code.1
        · obtain ⟨rfl, -⟩ := List.cons.inj joined
          rfl
    | cons head more =>
      rw [joinCode_cons] at joined
      cases same : joinCode rest with
      | nil =>
        rw [same] at joined
        simp [attach] at joined
      | cons next others =>
        rw [same, attach] at joined
        split at joined
        next code =>
          obtain ⟨rfl, rfl⟩ := List.cons.inj joined
          obtain ⟨earlier, first, later, rfl, kind, left, right⟩ := @ih (next :: more) same
          refine ⟨start :: earlier, first, later, rfl, kind, ?_, right⟩
          simp [left, attach, code]
        next apart =>
          obtain ⟨rfl, whole⟩ := List.cons.inj joined
          obtain ⟨earlier, first, later, rfl, kind, left, right⟩ := ih (same.trans whole)
          refine ⟨start :: earlier, first, later, rfl, kind, ?_, right⟩
          rw [joinCode_cons, left]
          cases more with
          | nil => rfl
          | cons second others =>
            obtain ⟨rfl, -⟩ := List.cons.inj whole
            simp [attach, apart]

/-- Joining code moves no header line. -/
theorem pastHeader_of_joinCode {tokens : List Token} (past : PastHeader (joinCode tokens)) :
    PastHeader tokens := by
  obtain ⟨first, one, second, two, third, joined, solid, alsoSolid, ends, alsoEnds⟩ := past
  obtain ⟨before, left, _, rfl, kind, -, fromOne⟩ := joinCode_eq_append joined
  rw [← List.cons_append] at fromOne
  obtain ⟨between, right, after, whole, alsoKind, middle, fromTwo⟩ := joinCode_eq_append fromOne
  rw [lineEnds_pos_iff, ← middle, textOf_joinCode] at ends
  rw [lineEnds_pos_iff, ← fromTwo, textOf_joinCode] at alsoEnds
  cases between with
  | nil => simp [joinCode] at middle
  | cons same others =>
    obtain ⟨rfl, rfl⟩ := List.cons.inj whole
    exact ⟨before, left, others, right, after, rfl, kind ▸ solid, alsoKind ▸ alsoSolid,
      lineEnds_pos_iff.mpr ends, lineEnds_pos_iff.mpr alsoEnds⟩

end Token

/-- What may be left of pieces: kept ones, and between them blanks where there was something, with
the end of a line only where there was one. -/
inductive Thinned : List Piece → List Token → Prop where
  | rest {gap : List Piece} {blanks : List Token}
    (blank : ∀ token ∈ blanks, token.kind.isBlank = true) (bare : gap = [] → blanks = [])
    (ends : 0 < Token.lineEnds blanks → 0 < Token.lineEnds (gap.map (·.span.token))) :
    Thinned gap blanks
  | next {gap later : List Piece} {next : Piece} {blanks tokens : List Token}
    (blank : ∀ token ∈ blanks, token.kind.isBlank = true) (bare : gap = [] → blanks = [])
    (ends : 0 < Token.lineEnds blanks → 0 < Token.lineEnds (gap.map (·.span.token)))
    (content : next.isContent = true) (thinned : Thinned later tokens) :
    Thinned (gap ++ next :: later) (blanks ++ next.span.token :: tokens)

section Thinned

variable {pieces earlier later : List Piece} {tokens before after : List Token} {token : Token}

private theorem bare_of_seam {last next : Option Piece} {gap : List Piece} {blanks : List Token}
    (seam : Seam last gap next (Token.textOf blanks))
    (nonempty : ∀ token ∈ blanks, token.text ≠ []) (none : gap = []) : blanks = [] := by
  subst none
  have nothing : Token.textOf blanks = [] := seam.unchanged (by simp)
  cases blanks with
  | nil => rfl
  | cons token rest => simp [nonempty token List.mem_cons_self] at nothing

private theorem ends_of_seam {last next : Option Piece} {gap : List Piece} {blanks : List Token}
    (seam : Seam last gap next (Token.textOf blanks)) (ends : 0 < Token.lineEnds blanks) :
    0 < Token.lineEnds (gap.map (·.span.token)) := by
  rw [Token.lineEnds_pos_iff] at ends ⊢
  have broken := seam.broken (by simpa [Draft.breaks] using ends)
  simp only [List.any_eq_true, Span.containsLineBreak] at broken
  obtain ⟨piece, member, c, inside, lineBreak⟩ := broken
  refine ⟨c, ?_, lineBreak⟩
  simp only [Token.textOf, List.mem_flatMap, List.mem_map]
  exact ⟨piece.span.token, ⟨piece, member, rfl⟩, inside⟩

/-- A gap is thinned to the blanks of the seam that bridges it. -/
theorem thinned_of_seam {last next : Option Piece} {gap : List Piece} {blanks : List Token}
    (blank : ∀ token ∈ blanks, token.kind.isBlank = true)
    (nonempty : ∀ token ∈ blanks, token.text ≠ [])
    (seam : Seam last gap next (Token.textOf blanks)) : Thinned gap blanks :=
  .rest blank (bare_of_seam seam nonempty) (ends_of_seam seam)

theorem thinned_nil : Thinned [] [] :=
  .rest (by simp) (fun _ => rfl) id

theorem thinned_singleton {piece : Piece} (content : piece.isContent = true) :
    Thinned [piece] [piece.span.token] := by
  have single : Thinned ([] ++ [piece]) ([] ++ [piece.span.token]) :=
    .next (by simp) (fun _ => rfl) id content thinned_nil
  exact single

theorem Laid.thinned (laid : Laid earlier later tokens)
    (nonempty : ∀ token ∈ tokens, token.text ≠ []) : Thinned later tokens := by
  induction laid with
  | rest empty blank seam => exact thinned_of_seam blank nonempty seam
  | next empty content blank seam laid ih =>
    rw [List.forall_mem_append, List.forall_mem_cons] at nonempty
    obtain ⟨ahead, -, after⟩ := nonempty
    exact .next blank (bare_of_seam seam ahead) (ends_of_seam seam) content (ih after)

theorem Thinned.append {others : List Piece} {more : List Token} (thinned : Thinned pieces tokens)
    (also : Thinned others more) : Thinned (pieces ++ others) (tokens ++ more) := by
  induction thinned with
  | next blank bare ends content thinned ih =>
    simp only [List.append_assoc, List.cons_append]
    exact .next blank bare ends content ih
  | @rest gap blanks blank bare ends =>
    -- the gap runs on into the first one of the others
    have merged {gap' : List Piece} {blanks' : List Token} (bare' : gap' = [] → blanks' = [])
        (ends' : 0 < Token.lineEnds blanks' → 0 < Token.lineEnds (gap'.map (·.span.token))) :
        (gap ++ gap' = [] → blanks ++ blanks' = [])
          ∧ (0 < Token.lineEnds (blanks ++ blanks') →
            0 < Token.lineEnds ((gap ++ gap').map (·.span.token))) := by
      simp only [List.append_eq_nil_iff, List.map_append, Token.lineEnds_append]
      exact ⟨fun none => ⟨bare none.1, bare' none.2⟩, by omega⟩
    cases also with
    | rest blank' bare' ends' =>
      obtain ⟨bare, ends⟩ := merged bare' ends'
      exact .rest (List.forall_mem_append.mpr ⟨blank, blank'⟩) bare ends
    | next blank' bare' ends' content thinned =>
      obtain ⟨bare, ends⟩ := merged bare' ends'
      rw [← List.append_assoc, ← List.append_assoc]
      exact .next (List.forall_mem_append.mpr ⟨blank, blank'⟩) bare ends content thinned

/-- A token that is not blank is a kept piece, with thinned pieces around it. -/
theorem Thinned.split (thinned : Thinned pieces (before ++ token :: after))
    (solid : token.kind.isBlank = false) :
    ∃ earlier piece later, pieces = earlier ++ piece :: later ∧ piece.isContent = true
      ∧ piece.span.token = token ∧ Thinned earlier before ∧ Thinned later after := by
  generalize whole : before ++ token :: after = tokens at thinned
  induction thinned generalizing before with
  | rest blank =>
    subst whole
    have := blank token (by simp)
    simp [solid] at this
  | @next gap later next blanks tokens blank bare ends content thinned ih =>
    have empty : ∀ other ∈ blanks, (!other.kind.isBlank) = false := by simpa using blank
    rcases split_of_first empty (by simpa using solid) whole.symm with
      ⟨rfl, rfl, rfl⟩ | ⟨more, rfl, rfl⟩
    · exact ⟨gap, next, later, rfl, content, rfl, .rest blank bare ends, thinned⟩
    · obtain ⟨earlier, piece, rest, rfl, found, same, left, right⟩ := ih rfl
      refine ⟨gap ++ next :: earlier, piece, rest, by simp, found, same, ?_, right⟩
      exact .next blank bare ends content left

theorem Thinned.eq_nil (thinned : Thinned [] tokens) : tokens = [] := by
  generalize none : ([] : List Piece) = pieces at thinned
  cases thinned with
  | rest blank bare => exact bare none.symm
  | next => simp at none

theorem Thinned.lineEnds (thinned : Thinned pieces tokens) (ends : 0 < Token.lineEnds tokens) :
    0 < Token.lineEnds (pieces.map (·.span.token)) := by
  induction thinned with
  | rest blank bare inside => exact inside ends
  | next blank bare inside content thinned ih =>
    simp only [List.map_append, List.map_cons, Token.lineEnds_append, Token.lineEnds_cons] at ends ⊢
    omega

/-- Thinning moves header lines up only. -/
theorem Thinned.pastHeader (thinned : Thinned pieces tokens) (past : Token.PastHeader tokens) :
    Token.PastHeader (pieces.map (·.span.token)) := by
  obtain ⟨first, one, second, two, third, rfl, solid, alsoSolid, ends, alsoEnds⟩ := past
  obtain ⟨before, left, _, rfl, -, rfl, -, rest⟩ := thinned.split solid
  obtain ⟨between, right, after, rfl, -, rfl, middle, tail⟩ := rest.split alsoSolid
  refine ⟨before.map (·.span.token), left.span.token, between.map (·.span.token),
    right.span.token, after.map (·.span.token), by simp, solid, alsoSolid, ?_, ?_⟩
  · have := middle.lineEnds
    simp only [Token.lineEnds_cons] at ends ⊢
    omega
  · have := tail.lineEnds
    simp only [Token.lineEnds_cons] at alsoEnds ⊢
    omega

end Thinned

/-- A span of the rewritten text that is neither blank nor code is a kept piece. It is the first
span if it was the first one, and in a header line if it was in one. -/
theorem Language.Edit.origin {language : Language} {source : Text} {pieces : List Piece}
    {before after : List Span} {span : Span} (edit : language.Edit source pieces)
    (sound : language.Sound [] pieces)
    (scanned : language.spans (writeLines pieces) = .ok (before ++ span :: after))
    (solid : span.kind.isBlank = false) (other : span.kind ≠ .code) :
    ∃ earlier piece later, pieces = earlier ++ piece :: later ∧ piece.isContent = true
      ∧ piece.span.token = span.token ∧ (earlier = [] → before = [])
      ∧ (Token.PastHeader (before.map Span.token)
        → Token.PastHeader (earlier.map (·.span.token))) := by
  obtain ⟨_, tokens, again, laid, nonempty, made⟩ := edit.spans_of_sound sound
  obtain rfl := Except.ok.inj (scanned.symm.trans again)
  rw [List.map_append, List.map_cons, eq_comm] at made
  obtain ⟨ahead, first, behind, rfl, kind, left, right⟩ := Token.joinCode_eq_append made
  -- a span that is not code was joined from nothing but itself
  rw [Token.joinCode_cons, Token.attach_of_ne_code (kind ▸ other)] at right
  obtain ⟨rfl, -⟩ := List.cons.inj right
  obtain ⟨earlier, piece, later, rfl, content, same, thinned, -⟩ :=
    (laid.thinned nonempty).split solid
  refine ⟨earlier, piece, later, rfl, content, same, ?_, ?_⟩
  · rintro rfl
    have none := thinned.eq_nil
    subst none
    exact List.map_eq_nil_iff.mp left.symm
  · intro past
    rw [← left] at past
    exact thinned.pastHeader (Token.pastHeader_of_joinCode past)

section Directive

variable {language : Language} {source text : Text} {earlier later before after : List Span}
  {span found : Span}

/-- The interpreter directive is one again if nothing has come to stand before it. -/
theorem isInterpreterDirective_of_first
    (scanned : language.spans source = .ok (earlier ++ span :: later))
    (again : language.spans text = .ok (before ++ found :: after)) (same : span.token = found.token)
    (first : earlier = [] → before = [])
    (directive : DecisionContext.isInterpreterDirective span = true) :
    DecisionContext.isInterpreterDirective found = true := by
  have kind : span.kind = found.kind := congrArg Token.kind same
  have text : span.text = found.text := congrArg Token.text same
  simp only [DecisionContext.isInterpreterDirective, Bool.and_eq_true, beq_iff_eq] at directive ⊢
  obtain ⟨⟨line, start⟩, marker⟩ := directive
  refine ⟨⟨kind ▸ line, ?_⟩, text ▸ marker⟩
  have none := (Language.start_eq_zero_iff scanned).mp start
  exact (Language.start_eq_zero_iff again).mpr (first none)

/-- A declaration of an encoding is one again if no header lines have come to stand before it. -/
theorem isEncodingDirective_of_header {context other : DecisionContext}
    (scanned : language.spans source = .ok context.spans)
    (again : language.spans text = .ok other.spans)
    (split : context.spans = earlier ++ span :: later)
    (place : other.spans = before ++ found :: after)
    (same : span.token = found.token)
    (header : Token.PastHeader (before.map Span.token) → Token.PastHeader (earlier.map Span.token))
    (directive : context.isEncodingDirective span = true) :
    other.isEncodingDirective found = true := by
  have kind : span.kind = found.kind := congrArg Token.kind same
  have text : span.text = found.text := congrArg Token.text same
  simp only [DecisionContext.isEncodingDirective, Bool.and_eq_true, beq_iff_eq,
    List.contains_iff_mem] at directive ⊢
  obtain ⟨⟨line, declares⟩, inHeader⟩ := directive
  refine ⟨⟨kind ▸ line, text ▸ declares⟩, ?_⟩
  have solid : span.kind.isBlank = false := by simp [line, Kind.isBlank]
  rw [split] at scanned inHeader
  rw [place] at again ⊢
  refine (Language.mem_headerLines_iff again (kind ▸ solid)).mpr fun past => ?_
  exact (Language.mem_headerLines_iff scanned solid).mp inHeader (header past)

end Directive

end CommentStrip
