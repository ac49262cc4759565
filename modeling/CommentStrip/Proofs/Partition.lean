import CommentStrip.Proofs.Progress
import Mathlib.Data.List.Chain

/-!
# Partition of the source

The spans of a text cut it into adjacent regions that are not empty. Lexemes are found to tile the
text from where the scan stands; joining spans of code keeps a tiling, and leaves no two of them
next to each other.
-/
namespace CommentStrip

namespace Span

/-- The spans follow each other from the byte `place` on, each as long as its text, and none is
empty. -/
def Tiles : (place : Nat) → List Span → Prop
  | _, [] => True
  | place, span :: rest =>
    span.start = place ∧ span.stop = place + span.text.byteLength ∧ span.text ≠ []
      ∧ Tiles span.stop rest

/-- Of two spans that follow each other, one is not code. -/
def Separated (spans : List Span) : Prop :=
  spans.IsChain fun span next => ¬(span.kind = .code ∧ next.kind = .code)

/-- The spans cut the source into adjacent regions that are not empty, and code is in one piece. -/
structure Partition (source : Text) (spans : List Span) : Prop where
  text : spans.flatMap Span.text = source
  first : ∀ span ∈ spans.head?, span.start = 0
  adjacent : spans.IsChain fun span next => next.start = span.stop
  measured : ∀ span ∈ spans,
    span.stop - span.start = span.text.byteLength ∧ 0 < span.text.byteLength
  last : (spans.getLast?.map Span.stop).getD 0 = source.byteLength
  /-- Both ends of a span lie between characters, and its text is what stands there. -/
  bounded : ∀ span ∈ spans, ∃ earlier later, source = earlier ++ span.text ++ later
    ∧ span.start = Text.byteLength earlier
    ∧ span.stop = Text.byteLength (earlier ++ span.text)
  separated : spans.IsChain fun span next => ¬(span.kind = .code ∧ next.kind = .code)

theorem stop_covering (kind : Kind) (place : Position) (text : Text) :
    (covering kind place text).stop = place.offset + text.byteLength :=
  Position.offset_after place text

/-- Putting a span in front of a tiling gives a tiling, whether it is joined or not. -/
theorem tiles_attach {place : Nat} {span : Span} {spans : List Span}
    (start : span.start = place) (stop : span.stop = place + span.text.byteLength)
    (nonempty : span.text ≠ []) (tiles : Tiles span.stop spans) :
    Tiles place (attach span spans) := by
  cases spans with
  | nil => exact ⟨start, stop, nonempty, trivial⟩
  | cons next others =>
    obtain ⟨nextStart, nextStop, nextNonempty, rest⟩ := tiles
    simp only [attach]
    split
    · -- joined code ends where the second span ends
      refine ⟨start, ?_, ?_, rest⟩
      · show next.stop = place + Text.byteLength (span.text ++ next.text)
        rw [Text.byteLength_append]
        omega
      · simp [nonempty]
    · exact ⟨start, stop, nonempty, nextStart, nextStop, nextNonempty, rest⟩

theorem tiles_coalesce {place : Nat} {spans : List Span} (tiles : Tiles place spans) :
    Tiles place (coalesce spans) := by
  induction spans generalizing place with
  | nil => exact tiles
  | cons span rest ih =>
    obtain ⟨start, stop, nonempty, later⟩ := tiles
    exact tiles_attach start stop nonempty (ih later)

theorem separated_attach {span : Span} {spans : List Span} (separated : Separated spans) :
    Separated (attach span spans) := by
  cases spans with
  | nil => exact List.isChain_singleton _
  | cons next others =>
    simp only [attach]
    split
    next code =>
      -- the joined span is code, so what follows the second one must not be
      cases others with
      | nil => exact List.isChain_singleton _
      | cons other rest =>
        obtain ⟨apart, chain⟩ := List.isChain_cons_cons.mp separated
        exact List.isChain_cons_cons.mpr ⟨fun both => apart ⟨code.2, both.2⟩, chain⟩
    next apart => exact List.isChain_cons_cons.mpr ⟨apart, separated⟩

theorem separated_coalesce (spans : List Span) : Separated (coalesce spans) := by
  induction spans with
  | nil => exact List.isChain_nil
  | cons span rest ih => exact separated_attach ih

namespace Tiles

variable {place : Nat} {spans : List Span}

theorem adjacent (tiles : Tiles place spans) :
    spans.IsChain fun span next => next.start = span.stop := by
  induction spans generalizing place with
  | nil => exact List.isChain_nil
  | cons span rest ih =>
    obtain ⟨-, -, -, later⟩ := tiles
    cases rest with
    | nil => exact List.isChain_singleton _
    | cons next others => exact List.isChain_cons_cons.mpr ⟨later.1, ih later⟩

theorem last (tiles : Tiles place spans) :
    (spans.getLast?.map Span.stop).getD place = place + Text.byteLength (spans.flatMap Span.text) := by
  induction spans generalizing place with
  | nil => rfl
  | cons span rest ih =>
    obtain ⟨-, stop, -, later⟩ := tiles
    have tail := ih later
    rw [List.flatMap_cons, Text.byteLength_append, ← Nat.add_assoc, ← stop, ← tail]
    -- the last of the rest is the last of all, unless there is no rest
    cases rest with
    | nil => rfl
    | cons next others =>
      rw [List.getLast?_cons_cons]
      cases h : (next :: others).getLast? with
      | none => simp at h
      | some final => rfl

theorem start_eq {earlier later : List Span} {span : Span}
    (tiles : Tiles place (earlier ++ span :: later)) :
    span.start = place + Text.byteLength (earlier.flatMap Span.text) := by
  induction earlier generalizing place with
  | nil => exact tiles.1
  | cons first rest ih =>
    obtain ⟨-, stop, -, tail⟩ := tiles
    rw [ih tail, stop, List.flatMap_cons, Text.byteLength_append, Nat.add_assoc]

/-- A span of a tiling stands where the text of the spans before it ends. -/
theorem bounded (tiles : Tiles place spans) (span : Span) (member : span ∈ spans) :
    span.text ≠ [] ∧ ∃ earlier later, spans.flatMap Span.text = earlier ++ span.text ++ later
      ∧ span.start = place + Text.byteLength earlier
      ∧ span.stop = place + Text.byteLength (earlier ++ span.text) := by
  induction spans generalizing place with
  | nil => simp at member
  | cons head rest ih =>
    obtain ⟨start, stop, nonempty, later⟩ := tiles
    rcases List.mem_cons.mp member with rfl | tail
    · exact ⟨nonempty, [], rest.flatMap Span.text, rfl, start, stop⟩
    · obtain ⟨positive, before, after, text, first, final⟩ := ih later tail
      -- the text before gains that of the head
      refine ⟨positive, head.text ++ before, after, ?_, ?_, ?_⟩
      · rw [List.flatMap_cons, text]
        simp only [List.append_assoc]
      · rw [first, stop, Text.byteLength_append, Nat.add_assoc]
      · rw [final, stop]
        simp only [Text.byteLength_append]
        omega

end Tiles

/-- A tiling from the first byte on in which code is in one piece partitions its own text. -/
theorem partition_of_tiles {source : Text} {spans : List Span} (tiles : Tiles 0 spans)
    (separated : Separated spans) (text : spans.flatMap Span.text = source) :
    Partition source spans where
  text := text
  first := by
    cases spans with
    | nil => nofun
    | cons span rest =>
      intro head found
      obtain rfl := Option.mem_some.mp found
      exact tiles.1
  adjacent := tiles.adjacent
  measured := by
    intro span member
    obtain ⟨nonempty, earlier, later, -, start, stop⟩ := tiles.bounded span member
    have positive := List.length_pos_iff.mpr nonempty
    have bytes := Text.length_le_byteLength span.text
    rw [Text.byteLength_append] at stop
    omega
  last := by
    rw [tiles.last, text, Nat.zero_add]
  bounded := by
    intro span member
    obtain ⟨-, earlier, later, whole, start, stop⟩ := tiles.bounded span member
    exact ⟨earlier, later, text ▸ whole, by omega, by omega⟩
  separated := separated

end Span

namespace Language

/-- The lexemes of a text tile it from where the scan stands. -/
theorem tiles_lex (language : Language) (cursor : Cursor) (run text : Text) :
    Span.Tiles cursor.position.offset (language.lex cursor run text).lexemes := by
  fun_induction Language.lex language cursor run text with
  | case1 => trivial
  | case2 => trivial
  | case3 cursor run c rest lexeme found text later ih =>
    refine ⟨rfl, Span.stop_covering _ _ _, List.cons_ne_nil _ _, ?_⟩
    exact ih

/-- A text that is scanned without failure has lexemes in which everything is closed. -/
theorem lex_of_scan {language : Language} {cursor : Cursor} {text : Text} {spans : List Span}
    (scanned : (language.scan cursor text).1 = .ok spans) :
    (language.lex cursor [] text).unclosed = none
      ∧ spans = Span.coalesce (language.lex cursor [] text).lexemes := by
  simp only [scan] at scanned
  split at scanned
  · simp at scanned
  next closed => exact ⟨closed, (Except.ok.inj scanned).symm⟩

theorem lex_of_spans {language : Language} {source : Text} {spans : List Span}
    (scanned : language.spans source = .ok spans) :
    (language.lex .start [] source).unclosed = none
      ∧ spans = Span.coalesce (language.lex .start [] source).lexemes :=
  lex_of_scan scanned

/-- The scan ends where its lexemes end. -/
theorem cursor_of_scan (language : Language) (cursor : Cursor) (text : Text) :
    (language.scan cursor text).2 = (language.lex cursor [] text).cursor := by
  simp only [scan]
  split <;> rfl

/-- The spans of a source partition it. -/
theorem partition_of_spans {language : Language} {source : Text} {spans : List Span}
    (scanned : language.spans source = .ok spans) : Span.Partition source spans := by
  obtain ⟨closed, rfl⟩ := lex_of_spans scanned
  refine Span.partition_of_tiles (Span.tiles_coalesce (language.tiles_lex .start [] source))
    (Span.separated_coalesce _) ?_
  rw [Span.flatMap_text_coalesce]
  exact language.flatMap_text_lex .start [] source closed

/-- A source is the text of a span with what is before it and what is after it. -/
theorem text_of_spans {language : Language} {source : Text} {earlier later : List Span} {span : Span}
    (scanned : language.spans source = .ok (earlier ++ span :: later)) :
    source = earlier.flatMap Span.text ++ (span.text ++ later.flatMap Span.text) := by
  rw [← (partition_of_spans scanned).text, List.flatMap_append, List.flatMap_cons]

theorem text_ne_nil_of_spans {language : Language} {source : Text} {spans : List Span} {span : Span}
    (scanned : language.spans source = .ok spans) (member : span ∈ spans) : span.text ≠ [] := by
  have positive := ((partition_of_spans scanned).measured span member).2
  intro empty
  simp [empty] at positive

/-- Only the first span starts at the first byte. -/
theorem start_eq_zero_iff {language : Language} {source : Text} {earlier later : List Span}
    {span : Span} (scanned : language.spans source = .ok (earlier ++ span :: later)) :
    span.start = 0 ↔ earlier = [] := by
  obtain ⟨-, made⟩ := lex_of_spans scanned
  have tiles := Span.tiles_coalesce (language.tiles_lex .start [] source)
  rw [← made] at tiles
  rw [tiles.start_eq]
  cases earlier with
  | nil => exact iff_of_true rfl rfl
  | cons first rest =>
    have nonempty := text_ne_nil_of_spans scanned (show first ∈ _ by simp)
    have positive := List.length_pos_iff.mpr nonempty
    have bytes := Text.length_le_byteLength first.text
    rw [List.flatMap_cons, Text.byteLength_append]
    exact iff_of_false (by omega) (List.cons_ne_nil first rest)

/--
In a language without empty opening delimiters, neither the scan nor the search for the end of a
string literal goes on without end, the scan takes at each place the construct that stands there,
and the spans of a source partition it.
-/
theorem scan_terminates_and_partitions (language : Language) (delimited : language.WellDelimited) :
    (WellFounded fun later earlier => language.scanStep? earlier = some later)
      ∧ (∀ (quote : Quote) (lead : Text) (raw : Bool), WellFounded fun later earlier =>
        (quote.bodyRule raw (language.interpolationOpener? lead quote.opener raw)).searchStep?
          earlier = some later)
      ∧ (∀ cursor text, language.constructAt cursor text
        = (language.lexemeAt cursor text).map Lexeme.extent)
      ∧ ∀ source spans, language.spans source = .ok spans → Span.Partition source spans :=
  ⟨wellFounded_scan delimited,
    fun quote lead raw => BodyRule.wellFounded_search _
      (interpolationOpener?_ne_nil delimited lead quote.opener raw),
    constructAt_eq delimited,
    fun _ _ scanned => partition_of_spans scanned⟩

/-- A language whose delimiters and prefix all take more than one byte. -/
def guillemets : Language where
  name := "Guillemets"
  aliases := []
  extensions := []
  lineMarkers := ["※".toList]
  blockComments := [⟨"⟦".toList, "⟧".toList⟩]
  quotes := [⟨⟨"«".toList, "»".toList⟩, none⟩]
  stringPrefixes := ["é".toList]
  rawPrefixes := []
  docMarkers := []
  interpolation := some ⟨"⟨".toList, [], ["«".toList]⟩
  regexLiterals := false
  docstrings := none

theorem partition_guillemets :
    guillemets.WellDelimited ∧ Span.Partition "xy⟦z⟧é«⟨»\x7d»".toList
      [⟨.code, 0, 2, 1, 1, "xy".toList⟩, ⟨.blockComment, 2, 9, 1, 3, "⟦z⟧".toList⟩,
        ⟨.stringLiteral, 9, 21, 1, 6, "é«⟨»\x7d»".toList⟩] := by
  have delimited : guillemets.WellDelimited := by decide
  refine ⟨delimited, (scan_terminates_and_partitions guillemets delimited).2.2.2 _ _ ?_⟩
  rw [spans_eq_lexWithin]
  decide +kernel

end Language

end CommentStrip
