import CommentStrip.Proofs.Place
import CommentStrip.Proofs.Removal

/-!
# Ranges of lines

A range of lines in the options only takes removals back, those of spans that start outside of it.
The text outside of the range stays as it is. What comes before the range is kept, and where a line
of spans reaches into the range, something that is not blank reaches with it: the line is written,
and blanks are cut off after that only. What begins after the range is written line by line.
-/
namespace CommentStrip

namespace Text

/-- The first `count` lines of a text, with the line breaks that end them. -/
def firstLines : (count : Nat) → Text → Text
  | 0, _ => []
  | _ + 1, [] => []
  | count + 1, c :: rest =>
    if c = '\n' ∨ (c = '\r' ∧ rest.head? ≠ some '\n') then c :: firstLines count rest
    else c :: firstLines (count + 1) rest

theorem firstLines_prefix (count : Nat) (text : Text) : firstLines count text <+: text := by
  fun_induction firstLines count text with
  | case1 => exact List.nil_prefix
  | case2 => exact List.nil_prefix
  | case3 count c rest ends ih => exact (List.prefix_cons_inj c).mpr ih
  | case4 count c rest inside ih => exact (List.prefix_cons_inj c).mpr ih

/-- Lines that end in a text are its own, whatever follows. -/
theorem firstLines_append {count : Nat} {text rest : Text} (whole : ¬CutsLineBreak text rest)
    (enough : count ≤ lineEnds text) : firstLines count (text ++ rest) = firstLines count text := by
  induction text generalizing count with
  | nil =>
    obtain rfl : count = 0 := Nat.le_zero.mp enough
    rw [firstLines, firstLines]
  | cons c others ih =>
    cases count with
    | zero => rw [firstLines, firstLines]
    | succ count =>
      have later := not_cutsLineBreak_tail whole
      simp only [List.cons_append, firstLines, endsLine_append whole]
      rw [lineEnds] at enough
      split at enough
      next ends => rw [if_pos ends, if_pos ends, ih later (Nat.le_of_succ_le_succ enough)]
      next inside => rw [if_neg inside, if_neg inside, ih later enough]

/-- Complete lines end with a line break. -/
theorem isLineBreak_of_firstLines {count : Nat} {text : Text} (enough : count ≤ lineEnds text) :
    ∀ c ∈ (firstLines count text).getLast?, isLineBreak c = true := by
  induction text generalizing count with
  | nil =>
    obtain rfl : count = 0 := Nat.le_zero.mp enough
    simp [firstLines]
  | cons c rest ih =>
    cases count with
    | zero => simp [firstLines]
    | succ count =>
      rw [lineEnds] at enough
      rw [firstLines]
      split at enough
      next ends =>
        rw [if_pos ends, List.getLast?_cons]
        rintro _ ⟨rfl⟩
        cases last : (firstLines count rest).getLast? with
        | none =>
          rcases ends with rfl | ⟨rfl, -⟩ <;> rfl
        | some d => exact ih (Nat.le_of_succ_le_succ enough) d last
      next inside =>
        rw [if_neg inside, List.getLast?_cons]
        rintro _ ⟨rfl⟩
        cases last : (firstLines (count + 1) rest).getLast? with
        | none =>
          -- another line ends later, so there is more text
          cases rest with
          | nil => simp [lineEnds] at enough
          | cons d others =>
            rw [List.getLast?_eq_none_iff, firstLines] at last
            split at last <;> simp at last
        | some d => exact ih enough d last

end Text

section Writing

variable {pieces earlier later : List Piece} {lines : Text}

/-- No line is without pieces. -/
theorem ne_nil_of_mem_lineGroups {group : List Piece} (member : group ∈ lineGroups pieces) :
    group ≠ [] := by
  induction pieces generalizing group with
  | nil => simp [lineGroups] at member
  | cons piece rest ih =>
    cases newline : piece.isNewline with
    | true =>
      rw [lineGroups_newline newline, List.mem_cons] at member
      rcases member with rfl | inside
      · exact List.cons_ne_nil piece []
      · exact ih inside
    | false =>
      rw [lineGroups_other newline] at member
      cases groups : lineGroups rest with
      | nil =>
        obtain rfl : group = [piece] := by simpa [groups] using member
        exact List.cons_ne_nil piece []
      | cons first others =>
        rw [groups, List.mem_cons] at member
        rcases member with rfl | inside
        · exact List.cons_ne_nil piece first
        · exact ih (groups ▸ List.mem_cons_of_mem first inside)

/-- A kept piece with a line break inside that is not one itself is not blank. -/
theorem Piece.Regular.isContent_of_lineBreak {piece : Piece} (regular : piece.Regular)
    (kept : piece.removed = false) (other : piece.isNewline = false) {c : Char}
    (inside : c ∈ piece.span.text) (lineBreak : isLineBreak c = true) : piece.isContent = true := by
  have noWhitespace : piece.span.kind ≠ .whitespace := by
    intro whitespace
    have inline := regular.whitespace whitespace c inside
    simp [not_isInlineBlank_of_isLineBreak lineBreak] at inline
  have noNewline : piece.span.kind ≠ .newline := by simpa [Piece.isNewline] using other
  simp [Piece.isContent, kept, Kind.isBlank, noWhitespace, noNewline]

/-- Of a line that is kept up to some piece, all that comes before a line break there is written. -/
theorem prefix_writeGroup {line more : List Piece} {part : Text} {c : Char}
    (kept : ∀ piece ∈ line, piece.removed = false) (regular : ∀ piece ∈ line, piece.Regular)
    (unbroken : ∀ piece ∈ line, piece.isNewline = false) (inside : part <+: Piece.textOf line)
    (last : part.getLast? = some c) (lineBreak : isLineBreak c = true) :
    part <+: writeGroup (line ++ more) := by
  -- the line is written, since what its line break is inside of is not blank
  have content : line.any Piece.isContent = true := by
    obtain ⟨piece, member, here⟩ := List.mem_flatMap.mp (inside.subset (List.mem_of_getLast? last))
    refine List.any_eq_true.mpr ⟨piece, member, ?_⟩
    exact (regular piece member).isContent_of_lineBreak (kept piece member)
      (unbroken piece member) here lineBreak
  rw [writeGroup_of_content (by rw [List.any_append, content]; rfl), Draft.after_eq_through,
    Draft.through_append, Draft.through_of_kept kept rfl, ← Draft.after_eq_through]
  obtain ⟨remaining, split⟩ := inside
  -- blanks are cut off at the end of what was written, but no line breaks
  have stays : ∃ added, (Draft.after ⟨(Piece.textOf line).reverse ++ [], false⟩ more).written
      = added ++ part.reverse := by
    refine Draft.exists_append_after (fun _ d head => ?_) ⟨remaining.reverse, ?_⟩
    · rw [List.head?_reverse, last] at head
      obtain rfl := Option.mem_some.mp head
      exact not_isInlineBlank_of_isLineBreak lineBreak
    · rw [List.append_nil, ← split, List.reverse_append]
  obtain ⟨added, written⟩ := stays
  change part <+: (Draft.after ⟨_ ++ [], false⟩ more).written.reverse
  rw [written, List.reverse_append, List.reverse_reverse]
  exact List.prefix_append _ _

/-- Complete lines in front of anything that is removed are written as they are. -/
theorem prefix_writeLines (kept : ∀ piece ∈ earlier, piece.removed = false)
    (regular : ∀ piece ∈ earlier, piece.Regular) (within : lines <+: Piece.textOf earlier)
    (ends : ∀ c ∈ lines.getLast?, isLineBreak c = true) :
    lines <+: writeLines (earlier ++ later) := by
  obtain ⟨groups, line, rfl, unbroken, follows⟩ := exists_lineGroups earlier
  rw [List.forall_mem_append] at kept regular
  rw [Piece.textOf_append] at within
  rw [writeLines, follows, List.flatMap_append, flatMap_writeGroup_of_kept kept.1]
  change lines <+: _ ++ writeLines _
  -- the lines may reach beyond the whole groups, into one that goes on with pieces of `later`
  rcases List.prefix_or_prefix_of_prefix within (List.prefix_append _ _) with inside | ⟨part, rfl⟩
  · exact inside.trans (List.prefix_append _ _)
  have inside : part <+: Piece.textOf line := (List.prefix_append_right_inj _).mp within
  refine (List.prefix_append_right_inj _).mpr ?_
  cases last : part.getLast? with
  | none =>
    rw [List.getLast?_eq_none_iff] at last
    exact last ▸ List.nil_prefix
  | some c =>
    have lineBreak : isLineBreak c = true := by
      refine ends c ?_
      rw [List.getLast?_append, last]
      rfl
    obtain ⟨more, rest, first⟩ := exists_firstLine later
    rw [writeLines_of_firstLine (first.append unbroken)]
    exact (prefix_writeGroup kept.2 regular.2 unbroken inside last lineBreak).trans
      (List.prefix_append _ _)

/-- Lines behind everything that is removed are written as they are. -/
theorem suffix_writeLines {before after : List (List Piece)}
    (split : lineGroups pieces = before ++ after)
    (kept : ∀ piece ∈ after.flatten, piece.removed = false) :
    Piece.textOf after.flatten <:+ writeLines pieces := by
  rw [writeLines, split, List.flatMap_append, flatMap_writeGroup_of_kept kept]
  exact List.suffix_append _ _

end Writing

/-- The same options for all lines. -/
def Options.everywhere (options : Options) : Options :=
  { options with lineRange := none }

namespace DecisionContext

/-- The range is the last reason to keep a span. -/
theorem reasonToKeep?_eq (context : DecisionContext) (index : Nat) (span : Span) :
    context.reasonToKeep? index span
      = (({ context with options := context.options.everywhere } :
            DecisionContext).reasonToKeep? index span).or
          (if context.isOutsideRange span then some .outsideRange else none) := by
  have everywhere : ({ context with options := context.options.everywhere } :
      DecisionContext).isOutsideRange span = false := rfl
  unfold reasonToKeep?
  rw [everywhere]
  -- every other rule is the same in both
  iterate 6
    refine Eq.trans ?_ (apply_ite (Option.or · _) _ _ _).symm
    refine if_congr Iff.rfl rfl ?_
  rfl

end DecisionContext

section Removed

variable {language : Language} {options : Options} {spans : List Span} {index : Nat}

/-- The range takes back the removals of spans that start outside of it. -/
theorem mem_removedIndices_range {range : LineRange} (ranged : options.lineRange = some range) :
    index ∈ removedIndices (classify language options spans)
      ↔ index ∈ removedIndices (classify language options.everywhere spans)
        ∧ ∃ span ∈ spans[index]?, range.start ≤ span.line ∧ span.line ≤ range.stop := by
  have inside (span : Span) : DecisionContext.isOutsideRange
        ⟨language, options, spans, language.docstringIndices spans⟩ span = false
      ↔ range.start ≤ span.line ∧ span.line ≤ range.stop := by
    simp [DecisionContext.isOutsideRange, ranged, LineRange.contains]
  simp only [mem_removedIndices_classify, DecisionContext.reasonToKeep?_eq
    ⟨language, options, spans, language.docstringIndices spans⟩, Option.or_eq_none_iff, ← inside,
    ite_eq_right_iff, reduceCtorEq, imp_false, Bool.not_eq_true]
  constructor
  · rintro ⟨span, found, candidate, none, within⟩
    exact ⟨⟨span, found, candidate, none⟩, span, found, within⟩
  · rintro ⟨⟨span, found, candidate, none⟩, other, same, within⟩
    obtain rfl : other = span := Option.some.inj (same.symm.trans found)
    exact ⟨other, found, candidate, none, within⟩

end Removed

section Locality

variable {language : Language} {options : Options} {source : Text} {analysis : Analysis}
  {range : LineRange}

/-- A removed piece starts on a line of the range. -/
theorem line_of_removed (ranged : options.lineRange = some range)
    (analyzed : analyze language options source = .ok analysis) {piece : Piece}
    (member : piece ∈ analysis.pieces) (removed : piece.removed = true) :
    range.start ≤ piece.span.line ∧ piece.span.line ≤ range.stop := by
  obtain ⟨scanned, made⟩ := Analysis.eq_of_analyze analyzed
  obtain ⟨earlier, later, split⟩ := List.append_of_mem member
  obtain ⟨found, marked⟩ := removed_of_markRemoved split
  rw [removed, eq_comm, List.contains_iff_mem, made] at marked
  obtain ⟨-, span, same, within⟩ := (mem_removedIndices_range ranged).mp marked
  obtain rfl : span = piece.span := Option.some.inj (same.symm.trans found)
  exact within

/-- The lines before the range are written as they are. -/
theorem firstLines_prefix_rewritten (known : language ∈ Language.registered)
    (ranged : options.lineRange = some range)
    (analyzed : analyze language options source = .ok analysis) :
    Text.firstLines (range.start - 1) source <+: analysis.rewritten.text := by
  have edit := (Analysis.restricts_of_analyze analyzed).edit known
  have source_eq := edit.textOf_pieces
  rw [Analysis.text_rewritten]
  cases found : analysis.pieces.find? (·.removed) with
  | none =>
    have kept : ∀ piece ∈ analysis.pieces, piece.removed = false := by simpa using found
    rw [writeLines_of_kept kept, source_eq]
    exact Text.firstLines_prefix _ source
  | some piece =>
    obtain ⟨removed, earlier, later, split, kept⟩ := List.find?_eq_some_iff_append.mp found
    have kept : ∀ other ∈ earlier, other.removed = false := by simpa using kept
    -- the first piece to go starts after the lines in question
    have within := line_of_removed ranged analyzed (by simp [split]) removed
    rw [edit.line_eq split] at within
    have enough : range.start - 1 ≤ Text.lineEnds (Piece.textOf earlier) := by omega
    have whole := edit.not_cutsLineBreak split
    rw [split] at source_eq ⊢
    rw [Piece.textOf_append] at source_eq
    rw [← source_eq, Text.firstLines_append whole enough]
    refine prefix_writeLines kept (fun other member => ?_) (Text.firstLines_prefix _ _)
      (Text.isLineBreak_of_firstLines enough)
    exact edit.regular.each other (by simp [split, member])

/-- What begins after the range is written as it is, line by line. -/
theorem lines_suffix_rewritten (ranged : options.lineRange = some range)
    (analyzed : analyze language options source = .ok analysis)
    {before after : List (List Piece)} {line : List Piece}
    (split : lineGroups analysis.pieces = before ++ line :: after)
    (beyond : ∀ piece ∈ line, range.stop < piece.span.line) :
    Piece.textOf (line :: after).flatten <:+ analysis.rewritten.text := by
  refine suffix_writeLines split fun piece member => ?_
  by_contra removed
  rw [Bool.not_eq_false] at removed
  have whole : analysis.pieces = before.flatten ++ (line ++ after.flatten) := by
    rw [← flatten_lineGroups analysis.pieces, split, List.flatten_append, List.flatten_cons]
  rw [List.flatten_cons] at member
  have within := (line_of_removed ranged analyzed
    (by rw [whole]; exact List.mem_append_right _ member) removed).2
  rcases List.mem_append.mp member with here | later
  · exact Nat.not_lt.mpr within (beyond piece here)
  · -- a piece of a later line starts on no earlier line than the first piece of this one
    have nonempty : line ≠ [] := ne_nil_of_mem_lineGroups (by rw [split]; simp)
    obtain ⟨first, others, rfl⟩ := List.exists_cons_of_ne_nil nonempty
    have sorted := Language.sorted_of_spans (Analysis.restricts_of_analyze analyzed).scanned
    rw [← analysis.map_span_pieces, whole, List.map_map,
      List.pairwise_map] at sorted
    have ordered := (List.pairwise_append.mp (List.pairwise_append.mp sorted).2.1).2.2
    have above := ordered first List.mem_cons_self piece later
    exact Nat.not_lt.mpr within (Nat.lt_of_lt_of_le (beyond first List.mem_cons_self) above)

/--
A range of lines takes back the removals of the spans that start outside of it, and no others. The
rewritten text begins with the lines of the source before the range, and it ends with the text of
the source from any line of spans on that begin after the range.
-/
theorem range_locality (known : language ∈ Language.registered)
    (ranged : options.lineRange = some range)
    (analyzed : analyze language options source = .ok analysis) :
    process language.name options source = .ok analysis.rewritten
      ∧ (∃ everywhere, analyze language { options with lineRange := none } source = .ok everywhere
        ∧ everywhere.spans = analysis.spans
        ∧ ∀ index, index ∈ removedIndices analysis.decisions
          ↔ index ∈ removedIndices everywhere.decisions
            ∧ ∃ span ∈ analysis.spans[index]?, range.start ≤ span.line ∧ span.line ≤ range.stop)
      ∧ Text.firstLines (range.start - 1) source <+: analysis.rewritten.text
      ∧ ∀ before line after, lineGroups analysis.pieces = before ++ line :: after →
        (∀ piece ∈ line, range.stop < piece.span.line) →
        source = Piece.textOf before.flatten ++ Piece.textOf (line :: after).flatten
          ∧ Piece.textOf (line :: after).flatten <:+ analysis.rewritten.text := by
  obtain ⟨scanned, made⟩ := Analysis.eq_of_analyze analyzed
  have edit := (Analysis.restricts_of_analyze analyzed).edit known
  refine ⟨process_of_analyze known analyzed, ⟨_, analyze_of_spans _ scanned, rfl, fun index => ?_⟩,
    firstLines_prefix_rewritten known ranged analyzed, fun before line after split beyond => ⟨?_,
      lines_suffix_rewritten ranged analyzed split beyond⟩⟩
  · rw [made]
    exact mem_removedIndices_range ranged
  · rw [← Piece.textOf_append, ← List.flatten_append, ← split, flatten_lineGroups,
      edit.textOf_pieces]

/-- A literal reaches into the range, on whose first line it is followed by a comment. -/
theorem range_locality_across_literal :
    ∃ analysis, analyze .python ⟨true, true, some ⟨2, 3⟩⟩ "'''a\nb''' #c\nd #e\nf #g\n#h".toList
        = .ok analysis
      ∧ process "Python" ⟨true, true, some ⟨2, 3⟩⟩ "'''a\nb''' #c\nd #e\nf #g\n#h".toList
        = .ok ⟨"'''a\nb'''\nd\nf #g\n#h".toList, 2⟩
      ∧ Text.firstLines (2 - 1) "'''a\nb''' #c\nd #e\nf #g\n#h".toList = "'''a\n".toList
      ∧ "'''a\n".toList <+: analysis.rewritten.text
      ∧ ∀ before line after, lineGroups analysis.pieces = before ++ line :: after →
        (∀ piece ∈ line, 3 < piece.span.line) →
        Piece.textOf (line :: after).flatten <:+ analysis.rewritten.text := by
  have scanned : Language.python.spans "'''a\nb''' #c\nd #e\nf #g\n#h".toList
      = .ok [⟨.stringLiteral, 0, 9, 1, 1, "'''a\nb'''".toList⟩,
        ⟨.whitespace, 9, 10, 2, 5, " ".toList⟩, ⟨.lineComment, 10, 12, 2, 6, "#c".toList⟩,
        ⟨.newline, 12, 13, 2, 8, "\n".toList⟩, ⟨.code, 13, 14, 3, 1, "d".toList⟩,
        ⟨.whitespace, 14, 15, 3, 2, " ".toList⟩, ⟨.lineComment, 15, 17, 3, 3, "#e".toList⟩,
        ⟨.newline, 17, 18, 3, 5, "\n".toList⟩, ⟨.code, 18, 19, 4, 1, "f".toList⟩,
        ⟨.whitespace, 19, 20, 4, 2, " ".toList⟩, ⟨.lineComment, 20, 22, 4, 3, "#g".toList⟩,
        ⟨.newline, 22, 23, 4, 5, "\n".toList⟩, ⟨.lineComment, 23, 25, 5, 1, "#h".toList⟩] := by
    rw [Language.spans_eq_lexWithin]
    decide +kernel
  have analyzed := analyze_of_spans ⟨true, true, some ⟨2, 3⟩⟩ scanned
  have lines : Text.firstLines (2 - 1) "'''a\nb''' #c\nd #e\nf #g\n#h".toList = "'''a\n".toList := by
    decide
  obtain ⟨processed, -, start, stop⟩ :=
    range_locality (by simp [Language.registered]) rfl analyzed
  refine ⟨_, analyzed, processed.trans (by decide +kernel), lines, lines ▸ start, ?_⟩
  exact fun before line after split beyond => (stop before line after split beyond).2

end Locality

end CommentStrip
