import CommentStrip.Proofs.Removal

/-!
# Sizes of rewritten texts

Rewriting writes separators that were not in the source, and still never makes a text longer. A
separator takes one byte. It is only written where more of the line is kept after the removed piece,
so never for a line comment, and every other piece that may be removed takes at least two bytes.
Each removal therefore saves a byte, and a text can be changed at most as often as it has bytes.
-/
namespace CommentStrip

namespace Text

theorem byteLength_reverse (text : Text) : byteLength text.reverse = byteLength text := by
  induction text with
  | nil => rfl
  | cons c rest ih =>
    rw [List.reverse_cons, byteLength_append, ih, byteLength_cons, byteLength_cons, byteLength_nil]
    omega

theorem byteLength_dropWhile_le (blank : Char → Bool) (text : Text) :
    byteLength (text.dropWhile blank) ≤ byteLength text := by
  have whole := congrArg byteLength (List.takeWhile_append_dropWhile (p := blank) (l := text))
  rw [byteLength_append] at whole
  omega

end Text

/-- The bytes that may be written in place of a removed piece, given what follows it on its line. -/
def separatorBytes (rest : List Piece) : Nat :=
  if rest.any Piece.isContent then 1 else 0

/-- Every removed piece of a line takes more bytes than what may be written in its place. -/
def Worthwhile : List Piece → Prop
  | [] => True
  | piece :: rest =>
    (piece.removed = true → separatorBytes rest < piece.span.text.byteLength) ∧ Worthwhile rest

section Lines

variable {line pieces : List Piece}

/-- In place of a removed piece at most a separator is written. -/
private theorem byteLength_afterRemoved_le (draft : Draft) (span : Span) (rest : List Piece) :
    (draft.afterRemoved span rest).written.byteLength
      ≤ draft.written.byteLength + separatorBytes rest := by
  have trimmed : draft.trimmed.byteLength ≤ draft.written.byteLength :=
    Text.byteLength_dropWhile_le isInlineBlank draft.written
  have lineFeed : ('\n' : Char).utf8Size = 1 := by decide
  have space : (' ' : Char).utf8Size = 1 := by decide
  by_cases content : rest.any Piece.isContent = true
  · -- the five ways to go on, of which two write a character
    simp only [Draft.afterRemoved, separatorBytes, content, Bool.not_true, Bool.false_eq_true,
      if_false, if_true]
    split
    · exact Nat.le_succ _
    split
    · rw [Text.byteLength_cons, lineFeed]
      omega
    split
    · exact Nat.le_succ _
    split
    · rw [Text.byteLength_cons, space]
      omega
    · exact Nat.le_succ _
  · simpa [Draft.afterRemoved, separatorBytes, content] using trimmed

/-- A line in the making gains at most the bytes of its pieces, less one for each removed piece. -/
theorem byteLength_after_le (worthwhile : Worthwhile line) (draft : Draft) :
    (draft.after line).written.byteLength + line.countP Piece.removed
      ≤ draft.written.byteLength + (Piece.textOf line).byteLength := by
  induction line generalizing draft with
  | nil => simp [Draft.after]
  | cons piece rest ih =>
    obtain ⟨pays, later⟩ := worthwhile
    rw [Draft.after, Piece.textOf_cons, Text.byteLength_append]
    split
    next skipped =>
      have bound := ih later draft
      -- a blank that is left out adds nothing, and would pay for its removal if it had one
      by_cases removed : piece.removed = true
      · have saved := pays removed
        rw [List.countP_cons_of_pos removed]
        omega
      · rw [List.countP_cons_of_neg removed]
        omega
    · split
      next removed =>
        have bound := ih later (draft.afterRemoved piece.span rest)
        have written := byteLength_afterRemoved_le draft piece.span rest
        have saved := pays removed
        rw [List.countP_cons_of_pos removed]
        omega
      next kept =>
        have bound := ih later ⟨piece.span.text.reverse ++ draft.written, false⟩
        rw [Text.byteLength_append, Text.byteLength_reverse] at bound
        rw [List.countP_cons_of_neg kept]
        omega

/-- A line is written with at least one byte less for each piece that is removed from it. -/
theorem byteLength_writeGroup_le (worthwhile : Worthwhile line) :
    (writeGroup line).byteLength + line.countP Piece.removed ≤ (Piece.textOf line).byteLength := by
  have drafted := byteLength_after_le worthwhile Draft.empty
  rw [Draft.empty, Text.byteLength_nil, Nat.zero_add] at drafted
  unfold writeGroup
  split
  next kept =>
    have none : line.countP Piece.removed = 0 := by simpa [List.countP_eq_zero] using kept
    exact (congrArg (Text.byteLength _ + ·) none).le
  split
  · rwa [Text.byteLength_reverse]
  · -- the line disappears, which costs nothing
    rw [Text.byteLength_nil]
    omega

theorem byteLength_writeLines_le (worthwhile : ∀ line ∈ lineGroups pieces, Worthwhile line) :
    (writeLines pieces).byteLength + pieces.countP Piece.removed
      ≤ (Piece.textOf pieces).byteLength := by
  have grouped (groups : List (List Piece)) (each : ∀ line ∈ groups, Worthwhile line) :
      Text.byteLength (groups.flatMap writeGroup) + groups.flatten.countP Piece.removed
        ≤ (Piece.textOf groups.flatten).byteLength := by
    induction groups with
    | nil => simp
    | cons line others ih =>
      have first := byteLength_writeGroup_le (each line List.mem_cons_self)
      have later := ih fun other member => each other (List.mem_cons_of_mem _ member)
      rw [List.flatMap_cons, List.flatten_cons, Text.byteLength_append, List.countP_append,
        Piece.textOf_append, Text.byteLength_append]
      omega
  have whole := grouped (lineGroups pieces) worthwhile
  rwa [flatten_lineGroups] at whole

/-- After a line comment nothing more of its line is kept. -/
private theorem not_isContent_after_comment {piece : Piece} {rest : List Piece}
    (regular : Regular (piece :: rest)) (comment : piece.span.kind = .lineComment)
    (unbroken : ∀ other ∈ rest.dropLast, other.isNewline = false) :
    rest.any Piece.isContent = false := by
  cases rest with
  | nil => rfl
  | cons next more =>
    have newline : next.isNewline = true := by
      simpa [Piece.isNewline] using (List.isChain_cons_cons.mp regular.comments).1 comment
    cases more with
    | nil =>
      have blank : next.isContent = false := by
        by_contra content
        rw [Bool.not_eq_false] at content
        simp [Piece.not_isNewline_of_isContent content] at newline
      simpa using blank
    | cons other others =>
      -- the line break would not be the last of its line
      simp [unbroken next (by simp)] at newline

/-- The removed pieces of a line are worthwhile if only its comment up to the end takes a single
byte. -/
private theorem worthwhile_of_wide (regular : Regular line)
    (unbroken : ∀ piece ∈ line.dropLast, piece.isNewline = false)
    (wide : ∀ piece ∈ line, piece.removed = true → piece.span.kind = .lineComment
      ∨ 2 ≤ piece.span.text.byteLength) : Worthwhile line := by
  induction line with
  | nil => trivial
  | cons piece rest ih =>
    have onward : ∀ other ∈ rest.dropLast, other.isNewline = false := by
      intro other inside
      cases rest with
      | nil => simp at inside
      | cons next more => exact unbroken other (List.mem_cons_of_mem _ inside)
    have regularRest : Regular rest := Regular.right (show Regular ([piece] ++ rest) from regular)
    refine ⟨fun removed => ?_, ih regularRest onward fun other inside =>
      wide other (List.mem_cons_of_mem _ inside)⟩
    have characters := List.length_pos_iff.mpr (regular.each piece List.mem_cons_self).nonempty
    have bytes := Text.length_le_byteLength piece.span.text
    rcases wide piece List.mem_cons_self removed with comment | two
    · have bare := not_isContent_after_comment regular comment onward
      rw [separatorBytes, bare, if_neg Bool.false_ne_true]
      omega
    · have atMost : separatorBytes rest ≤ 1 := by
        unfold separatorBytes
        split
        · exact Nat.le_refl _
        · exact Nat.zero_le _
      omega

theorem worthwhile_lineGroups (regular : Regular pieces)
    (wide : ∀ piece ∈ pieces, piece.removed = true → piece.span.kind = .lineComment
      ∨ 2 ≤ piece.span.text.byteLength) :
    ∀ line ∈ lineGroups pieces, Worthwhile line := by
  intro line member
  obtain ⟨earlier, later, rfl, unbroken⟩ := exists_split_of_mem_lineGroups member
  exact worthwhile_of_wide regular.right.left unbroken fun piece inside =>
    wide piece (List.mem_append_right _ (List.mem_append_left _ inside))

end Lines

namespace Language

variable {language : Language} {source : Text} {pieces : List Piece}

/-- Literals and block comments take two characters at least, one to open and one to close them. -/
theorem ReadsAt.two_le_length {point : Point} {kind : Kind} {word rest : Text}
    (conventional : language.Conventional) (reads : language.ReadsAt point ⟨kind, word⟩ rest)
    (closed : kind = .stringLiteral ∨ kind = .blockComment) : 2 ≤ word.length := by
  rcases closed with rfl | rfl
  · rcases reads.literal conventional with ⟨opening, mark, body, quoted⟩ | ⟨-, body, flags, regex⟩
    · obtain ⟨tail, whole, closes⟩ := quoted.exists_tail
      rw [whole, List.length_append, List.length_cons]
      rcases closes with ⟨rfl, -⟩ | longer
      · simp
      · omega
    · rw [regex.whole, List.length_cons, List.length_append, List.length_cons]
      omega
  · obtain ⟨-, body, whole, -⟩ := reads.block conventional
    rw [whole]
    simp

/-- Each removal from a source saves at least one byte. -/
theorem Edit.byteLength_le (edit : language.Edit source pieces) :
    (writeLines pieces).byteLength + pieces.countP Piece.removed ≤ source.byteLength := by
  have wide : ∀ piece ∈ pieces, piece.removed = true → piece.span.kind = .lineComment
      ∨ 2 ≤ piece.span.text.byteLength := by
    intro piece member removed
    obtain ⟨earlier, later, split⟩ := List.append_of_mem member
    have closed : piece.span.kind = .lineComment
        ∨ piece.span.kind = .stringLiteral ∨ piece.span.kind = .blockComment := by
      rcases edit.removable piece member removed with comment | ⟨literal, -⟩
      · cases kind : piece.span.kind <;> simp_all [Kind.isComment]
      · exact .inr (.inl literal)
    refine closed.imp_right fun closed => ?_
    have noCode : piece.span.kind ≠ .code := by rcases closed with kind | kind <;> simp [kind]
    have characters := (edit.readsAt split noCode).two_le_length edit.conventional closed
    exact characters.trans (Text.length_le_byteLength piece.span.text)
  have bound := byteLength_writeLines_le (worthwhile_lineGroups edit.regular wide)
  rwa [edit.textOf_pieces] at bound

end Language

namespace Analysis

variable {language : Language} {options : Options} {source text : Text} {analysis : Analysis}

/-- A count other than zero stands for a piece that is removed. -/
theorem Restricts.countP_removed_pos (restricts : analysis.Restricts language options source)
    (some : analysis.rewritten.removedCount ≠ 0) :
    0 < analysis.pieces.countP Piece.removed := by
  obtain ⟨index, member⟩ := List.exists_mem_of_ne_nil _
    (List.length_pos_iff.mp (Nat.pos_of_ne_zero some) : removedIndices analysis.decisions ≠ [])
  obtain ⟨decision, inside, removal, rfl⟩ := mem_removedIndices.mp member
  obtain ⟨same, classified, -, there⟩ := restricts.removals decision inside removal
  obtain ⟨span, found, -⟩ := candidate_of_mem_classify classified
  rw [there] at found
  rw [List.countP_pos_iff]
  refine ⟨⟨span, (removedIndices analysis.decisions).contains decision.span⟩, ?_,
    List.contains_iff_mem.mpr member⟩
  exact List.mem_map.mpr ⟨(span, decision.span), List.mem_zipIdx_iff_getElem?.mpr found, rfl⟩

/-- What removes something from a source makes it shorter. -/
theorem Restricts.byteLength_lt (restricts : analysis.Restricts language options source)
    (known : language ∈ Language.registered) (some : analysis.rewritten.removedCount ≠ 0) :
    analysis.rewritten.text.byteLength < source.byteLength := by
  have saved := (restricts.edit known).byteLength_le
  have removed := restricts.countP_removed_pos some
  rw [text_rewritten]
  omega

/-- What removes nothing from a source leaves it as it is, and only that does. -/
theorem Restricts.text_eq_iff (restricts : analysis.Restricts language options source)
    (known : language ∈ Language.registered) :
    analysis.rewritten.text = source ↔ analysis.rewritten.removedCount = 0 := by
  constructor
  · intro same
    by_contra some
    have shorter := restricts.byteLength_lt known some
    rw [same] at shorter
    exact Nat.lt_irrefl _ shorter
  · intro none
    have kept := removedIndices_eq_nil_iff.mp (List.length_eq_zero_iff.mp none)
    rw [rewritten_of_kept restricts.scanned kept]

end Analysis

/-- One pass over a source: it is analyzed in a known language, the user asks for some spans, and
`text` is what is then written. -/
def Rewrites (source text : Text) : Prop :=
  ∃ language ∈ Language.registered, ∃ options analysis, ∃ offsets : List Nat,
    analyze language options source = .ok analysis
      ∧ (offsets.foldl Analysis.retain analysis).rewritten.text = text

theorem Rewrites.eq_or_lt {source text : Text} (pass : Rewrites source text) :
    text = source ∨ text.byteLength < source.byteLength := by
  obtain ⟨language, known, options, analysis, offsets, analyzed, rfl⟩ := pass
  have restricts := (Analysis.restricts_of_analyze analyzed).foldl_retain offsets
  by_cases none : (offsets.foldl Analysis.retain analysis).rewritten.removedCount = 0
  · exact .inl ((restricts.text_eq_iff known).mpr none)
  · exact .inr (restricts.byteLength_lt known none)

/-- Along a chain of passes, the bytes of the text pay for each change. -/
theorem changes_add_byteLength_le {texts : Nat → Text} {count : Nat}
    (passes : ∀ pass < count, Rewrites (texts pass) (texts (pass + 1))) :
    ((List.range count).countP fun pass => texts (pass + 1) ≠ texts pass)
      + (texts count).byteLength ≤ (texts 0).byteLength := by
  induction count with
  | zero => simp
  | succ count ih =>
    have sofar := ih fun pass before => passes pass (Nat.lt_succ_of_lt before)
    rw [List.range_succ, List.countP_append, List.countP_singleton]
    rcases (passes count (Nat.lt_succ_self count)).eq_or_lt with same | shorter
    · simpa [same] using sofar
    · split <;> omega

/--
Whatever the options and whatever is retained, the rewritten text is the source exactly if nothing is
removed, and is shorter otherwise. So a chain of passes over a source, each with its own language,
options and requests, changes the text at most as often as the source has bytes.
-/
theorem rewritten_shrinks_or_stays {language : Language} {options : Options} {source : Text}
    {analysis : Analysis} (known : language ∈ Language.registered)
    (analyzed : analyze language options source = .ok analysis) (offsets : List Nat) :
    ((offsets.foldl Analysis.retain analysis).rewritten.text = source
        ↔ (offsets.foldl Analysis.retain analysis).rewritten.removedCount = 0)
      ∧ ((offsets.foldl Analysis.retain analysis).rewritten.removedCount ≠ 0 →
        (offsets.foldl Analysis.retain analysis).rewritten.text.byteLength < source.byteLength)
      ∧ ∀ (texts : Nat → Text) (count : Nat), texts 0 = source →
        (∀ pass < count, Rewrites (texts pass) (texts (pass + 1))) →
        ((List.range count).countP fun pass => texts (pass + 1) ≠ texts pass)
          ≤ source.byteLength := by
  have restricts := (Analysis.restricts_of_analyze analyzed).foldl_retain offsets
  refine ⟨restricts.text_eq_iff known, restricts.byteLength_lt known, ?_⟩
  rintro texts count rfl passes
  exact (Nat.le_add_right _ _).trans (changes_add_byteLength_le passes)

/-- A comment that becomes a line break, one that goes with nothing in its place, and one that is
retained. -/
theorem shrinks_to_line_break :
    ∃ analysis, analyze .javaScript .standard "x/*\n*/y//z\n/**/w".toList = .ok analysis
      ∧ ([11].foldl Analysis.retain analysis).rewritten = ⟨"x\ny\n/**/w".toList, 2⟩
      ∧ Text.byteLength "x\ny\n/**/w".toList < Text.byteLength "x/*\n*/y//z\n/**/w".toList
      ∧ ∃ texts : Nat → Text, texts 0 = "x/*\n*/y//z\n/**/w".toList
        ∧ texts 1 = "x\ny\n/**/w".toList
        ∧ ((List.range 1).countP fun pass => texts (pass + 1) ≠ texts pass)
          ≤ Text.byteLength "x/*\n*/y//z\n/**/w".toList := by
  have scanned : Language.javaScript.spans "x/*\n*/y//z\n/**/w".toList
      = .ok [⟨.code, 0, 1, 1, 1, "x".toList⟩, ⟨.blockComment, 1, 6, 1, 2, "/*\n*/".toList⟩,
        ⟨.code, 6, 7, 2, 3, "y".toList⟩, ⟨.lineComment, 7, 10, 2, 4, "//z".toList⟩,
        ⟨.newline, 10, 11, 2, 7, "\n".toList⟩, ⟨.blockComment, 11, 15, 3, 1, "/**/".toList⟩,
        ⟨.code, 15, 16, 3, 5, "w".toList⟩] := by
    rw [Language.spans_eq_lexWithin]
    decide +kernel
  have known : Language.javaScript ∈ Language.registered := by simp [Language.registered]
  obtain ⟨analysis, analyzed, written⟩ : ∃ analysis,
      analyze .javaScript .standard "x/*\n*/y//z\n/**/w".toList = .ok analysis
        ∧ ([11].foldl Analysis.retain analysis).rewritten = ⟨"x\ny\n/**/w".toList, 2⟩ :=
    ⟨_, analyze_of_spans .standard scanned, by decide +kernel⟩
  obtain ⟨-, shorter, changes⟩ := rewritten_shrinks_or_stays known analyzed [11]
  rw [written] at shorter
  refine ⟨analysis, analyzed, written, shorter (by decide), ?_⟩
  let texts (pass : Nat) : Text :=
    if pass = 0 then "x/*\n*/y//z\n/**/w".toList else "x\ny\n/**/w".toList
  refine ⟨texts, rfl, rfl, changes texts 1 rfl fun pass before => ?_⟩
  obtain rfl : pass = 0 := by omega
  exact ⟨_, known, _, analysis, [11], analyzed, congrArg Rewritten.text written⟩

end CommentStrip
