import CommentStrip.Proofs.Origin
import CommentStrip.Proofs.Placeholder

/-!
# Rewriting again

Under the standard options a comment is kept as a directive or as a documentation comment, and a
string literal on its own as a docstring or as the one that holds its block open. In the rewritten
text all comments are kept again for the reason that kept them, unless kept tokens have collided.
The literals are kept again if no backslash at the end of a line goes outside brackets, and if each
block that a literal holds open ends after it.
-/
namespace CommentStrip

section Unchanged

variable {language : Language} {options : Options} {text : Text} {spans : List Span}

/-- A text is not changed exactly if it is scanned without failure and nothing is decided to be
removed. -/
theorem process_unchanged_iff (known : language ∈ Language.registered) :
    process language.name options text = .ok ⟨text, 0⟩
      ↔ ∃ spans, language.spans text = .ok spans
        ∧ ∀ decision ∈ classify language options spans, decision.isRemoval = false := by
  cases scanned : language.spans text with
  | error cause =>
    have failed : process language.name options text = .error (.unterminated cause) := by
      rw [process_eq_map known, analyze, scanned]
      rfl
    simp [failed]
  | ok spans =>
    have analyzed := analyze_of_spans options scanned
    rw [process_of_analyze known analyzed]
    simp only [Except.ok.injEq, exists_eq_left']
    constructor
    · intro same
      exact removedIndices_eq_nil_iff.mp
        (List.length_eq_zero_iff.mp (congrArg Rewritten.removedCount same))
    · exact Analysis.rewritten_of_kept (Analysis.eq_of_analyze analyzed).1

end Unchanged

section Reasons

variable (language : Language) (spans : List Span)

/-- What decisions under the standard options depend on. -/
def standardContext : DecisionContext :=
  ⟨language, .standard, spans, language.docstringIndices spans⟩

/-- Every comment is kept, as a directive or as a documentation comment. -/
def CommentsKept : Prop :=
  ∀ span ∈ spans, span.kind.isComment = true →
    DecisionContext.isInterpreterDirective span = true
      ∨ (standardContext language spans).isEncodingDirective span = true
      ∨ language.isDocComment span.text = true

/-- Every string literal that is a statement is kept, as a docstring or because its block cannot do
without it. -/
def LiteralsKept : Prop :=
  ∀ index, Layout.isStatementLiteral spans index = true →
    index ∈ language.docstringIndices spans
      ∨ (standardContext language spans).holdsBlockOpen index = true

variable {language spans} {index : Nat} {span : Span}

theorem reasonToKeep?_of_comment (found : spans[index]? = some span)
    (comment : span.kind.isComment = true) :
    ((standardContext language spans).reasonToKeep? index span).isSome = true
      ↔ DecisionContext.isInterpreterDirective span = true
        ∨ (standardContext language spans).isEncodingDirective span = true
        ∨ language.isDocComment span.text = true := by
  have noDocstring : (standardContext language spans).docstrings.contains index = false := by
    by_contra docstring
    rw [Bool.not_eq_false, List.contains_iff_mem] at docstring
    have literal :=
      ((Layout.isStatementLiteral_iff found).mp (isStatementLiteral_of_docstring docstring).2).1
    simp [literal, Kind.isComment] at comment
  have noLiteral : (span.kind == .stringLiteral) = false := by
    rw [beq_eq_false_iff_ne]
    intro literal
    simp [literal, Kind.isComment] at comment
  have inRange : (standardContext language spans).isOutsideRange span = false := rfl
  have documented : (standardContext language spans).options.keepDocComments = true := rfl
  have same : (standardContext language spans).language = language := rfl
  unfold DecisionContext.reasonToKeep?
  rw [noDocstring, noLiteral, inRange, documented, comment, same]
  by_cases interpreter : DecisionContext.isInterpreterDirective span = true
  · simp [interpreter]
  by_cases encoding : (standardContext language spans).isEncodingDirective span = true
  · simp [interpreter, encoding]
  by_cases document : language.isDocComment span.text = true
  · simp [document, interpreter, encoding]
  · simp [document, interpreter, encoding]

theorem reasonToKeep?_eq_of_literal (literal : span.kind = .stringLiteral) :
    (standardContext language spans).reasonToKeep? index span
      = if index ∈ language.docstringIndices spans then some .docstring
        else if (standardContext language spans).holdsBlockOpen index = true then
          some .blockPlaceholder
        else none := by
  have noInterpreter : DecisionContext.isInterpreterDirective span = false := by
    simp [DecisionContext.isInterpreterDirective, literal]
  have noEncoding : (standardContext language spans).isEncodingDirective span = false := by
    simp [DecisionContext.isEncodingDirective, literal]
  have inRange : (standardContext language spans).isOutsideRange span = false := rfl
  have floating : (standardContext language spans).options.removeFloatingStrings = true := rfl
  have docstrings : (standardContext language spans).docstrings = language.docstringIndices spans :=
    rfl
  unfold DecisionContext.reasonToKeep?
  rw [noInterpreter, noEncoding, inRange, floating, literal, docstrings]
  simp [Kind.isComment]

theorem reasonToKeep?_of_literal (literal : span.kind = .stringLiteral) :
    ((standardContext language spans).reasonToKeep? index span).isSome = true
      ↔ index ∈ language.docstringIndices spans
        ∨ (standardContext language spans).holdsBlockOpen index = true := by
  rw [reasonToKeep?_eq_of_literal literal]
  split_ifs with docstring holds
  · simp [docstring]
  · simp [holds]
  · simp [docstring, holds]

/-- Under the standard options nothing is removed exactly if all comments and all literals on their
own are kept. -/
theorem no_removal_iff :
    (∀ decision ∈ classify language .standard spans, decision.isRemoval = false)
      ↔ CommentsKept language spans
        ∧ (language.hasDocstrings = true → LiteralsKept language spans) := by
  constructor
  · intro kept
    have reason {index : Nat} {span : Span} (found : spans[index]? = some span)
        (candidate : span.kind.isComment = true ∨ language.hasDocstrings = true
          ∧ Layout.isStatementLiteral spans index = true) :
        ((standardContext language spans).reasonToKeep? index span).isSome = true :=
      (DecisionContext.isRemoval_decisionFor _ index span).mp
        (kept _ (mem_classify.mpr ⟨index, span, found, (isCandidate_iff found).mpr candidate, rfl⟩))
    constructor
    · intro span member comment
      obtain ⟨index, found⟩ := List.mem_iff_getElem?.mp member
      exact (reasonToKeep?_of_comment found comment).mp (reason found (.inl comment))
    · intro known index statement
      cases found : spans[index]? with
      | none => simp [Layout.isStatementLiteral, found] at statement
      | some span =>
        exact (reasonToKeep?_of_literal ((Layout.isStatementLiteral_iff found).mp statement).1).mp
          (reason found (.inr ⟨known, statement⟩))
  · rintro ⟨comments, literals⟩ decision member
    obtain ⟨index, span, found, candidate, rfl⟩ := mem_classify.mp member
    rw [DecisionContext.isRemoval_decisionFor]
    rcases (isCandidate_iff found).mp candidate with comment | ⟨known, statement⟩
    · exact (reasonToKeep?_of_comment found comment).mpr
        (comments span (List.mem_of_getElem? found) comment)
    · exact (reasonToKeep?_of_literal ((Layout.isStatementLiteral_iff found).mp statement).1).mpr
        (literals known index statement)

end Reasons

section Again

variable {language : Language} {source : Text} {analysis : Analysis} {spans : List Span}

/-- What could have been removed and was not has a reason to be kept. -/
private theorem reason_of_kept (analyzed : analyze language .standard source = .ok analysis)
    {earlier later : List Piece} {piece : Piece}
    (split : analysis.pieces = earlier ++ piece :: later) (content : piece.isContent = true)
    (candidate : piece.span.kind.isComment = true
      ∨ language.hasDocstrings = true
        ∧ Layout.isStatementLiteral analysis.spans earlier.length = true) :
    ((standardContext language analysis.spans).reasonToKeep? earlier.length piece.span).isSome
      = true := by
  obtain ⟨-, made⟩ := Analysis.eq_of_analyze analyzed
  obtain ⟨found, marked⟩ := removed_of_markRemoved split
  by_contra none
  rw [Bool.not_eq_true, Option.isSome_eq_false_iff, Option.isNone_iff_eq_none] at none
  have removed : earlier.length ∈ removedIndices analysis.decisions := by
    rw [made]
    exact mem_removedIndices_classify.mpr ⟨piece.span, found, candidate, none⟩
  rw [List.contains_iff_mem.mpr removed] at marked
  simp [Piece.isContent, marked] at content

/-- Unless kept tokens collide, a comment of the rewritten text is kept again. -/
theorem commentsKept_of_sound (known : language ∈ Language.registered)
    (analyzed : analyze language .standard source = .ok analysis)
    (sound : language.Sound [] analysis.pieces)
    (scanned : language.spans analysis.rewritten.text = .ok spans) :
    CommentsKept language spans := by
  have restricts := Analysis.restricts_of_analyze analyzed
  intro span member comment
  obtain ⟨before, after, rfl⟩ := List.append_of_mem member
  have solid : span.kind.isBlank = false := by
    cases kind : span.kind <;> simp_all [Kind.isComment, Kind.isBlank]
  have other : span.kind ≠ .code := by
    intro code
    simp [code, Kind.isComment] at comment
  obtain ⟨earlier, piece, later, split, content, same, first, header⟩ :=
    (restricts.edit known).origin sound scanned solid other
  have text : piece.span.text = span.text := congrArg Token.text same
  have kind : piece.span.kind = span.kind := congrArg Token.kind same
  obtain ⟨found, marked⟩ := removed_of_markRemoved split
  have whole : analysis.spans
      = earlier.map Piece.span ++ piece.span :: later.map Piece.span := by
    rw [← analysis.map_span_pieces, split]
    simp
  have source := restricts.scanned
  rcases (reasonToKeep?_of_comment found (kind ▸ comment)).mp
      (reason_of_kept analyzed split content (.inl (kind ▸ comment))) with interpreter | encoding | document
  · rw [whole] at source
    refine .inl (isInterpreterDirective_of_first source scanned same ?_ interpreter)
    exact fun none => first (List.map_eq_nil_iff.mp none)
  · refine .inr (.inl ?_)
    refine isEncodingDirective_of_header source scanned whole rfl same (fun past => ?_) encoding
    rw [List.map_map]
    exact header past
  · exact .inr (.inr (text ▸ document))

/-- A literal that is kept has a reason to be kept in the rewritten text. -/
private theorem keeps_literal (analyzed : analyze .python .standard source = .ok analysis)
    (stays : BackslashesStay analysis.pieces) (ends : PlaceholdersEndBlocks analysis)
    {before after : List Span} {span : Span} {earlier later : List Piece} {piece : Piece}
    (scanned : Language.python.spans analysis.rewritten.text = .ok (before ++ span :: after))
    (split : analysis.pieces = earlier ++ piece :: later)
    (found : Found (earlier ++ [piece]) (before ++ [span]))
    (laid : Laid (earlier ++ [piece]) later (after.map Span.token))
    (statement : Layout.isStatementLiteral (before ++ span :: after) before.length = true) :
    before.length ∈ Language.python.docstringIndices (before ++ span :: after)
      ∨ (standardContext .python (before ++ span :: after)).holdsBlockOpen before.length = true := by
  have restricts := Analysis.restricts_of_analyze analyzed
  have original := isStatementLiteral_of_found restricts scanned split found laid statement
  have here := (removed_of_markRemoved split).1
  have literal := ((Layout.isStatementLiteral_iff here).mp original).1
  have candidate : piece.span.kind.isComment = true ∨ Language.python.hasDocstrings = true
      ∧ Layout.isStatementLiteral analysis.spans earlier.length = true := .inr ⟨rfl, original⟩
  have reason := reason_of_kept analyzed split found.content candidate
  by_cases docstring : earlier.length ∈ Language.python.docstringIndices analysis.spans
  · obtain ⟨rule, known, documents⟩ := Language.exists_rule_of_docstring docstring
    exact .inl ((mem_docstringIndices known).mpr
      (isDocstring_of_found known restricts stays scanned split found statement documents))
  · -- it is kept as a placeholder, after which its block ends
    have holds := ((reasonToKeep?_of_literal literal).mp reason).resolve_left docstring
    have placeholder : (standardContext .python analysis.spans).reasonToKeep? earlier.length piece.span
        = some .blockPlaceholder := by
      rw [reasonToKeep?_eq_of_literal literal, if_neg docstring, if_pos holds]
    refine .inr (holdsBlockOpen_of_found restricts scanned split found laid statement ?_ holds)
    obtain ⟨-, made⟩ := Analysis.eq_of_analyze analyzed
    have member : (standardContext .python analysis.spans).decisionFor earlier.length piece.span
        ∈ analysis.decisions := by
      rw [made]
      exact mem_classify.mpr ⟨_, _, here, (isCandidate_iff here).mpr candidate, rfl⟩
    rw [DecisionContext.decisionFor, placeholder] at member
    exact ends _ member rfl

/-- If no backslash at the end of a line goes outside brackets, and each block that a literal holds open
ends after it, then the literals of the rewritten text are kept again. -/
theorem literalsKept_of_stays (analyzed : analyze .python .standard source = .ok analysis)
    (stays : BackslashesStay analysis.pieces) (ends : PlaceholdersEndBlocks analysis) :
    ∃ spans, Language.python.spans analysis.rewritten.text = .ok spans
      ∧ LiteralsKept .python spans := by
  have restricts := Analysis.restricts_of_analyze analyzed
  obtain ⟨spans, scanned, laid, -⟩ := exists_laid_of_python restricts
  refine ⟨spans, scanned, fun index statement => ?_⟩
  cases found : spans[index]? with
  | none => simp [Layout.isStatementLiteral, found] at statement
  | some span =>
    have literal := ((Layout.isStatementLiteral_iff found).mp statement).1
    obtain ⟨before, after, rfl, rfl⟩ := exists_split_of_getElem? found
    obtain ⟨earlier, piece, later, split, upTo, onward, -⟩ :=
      laid.exists_found .start rfl (by simp [literal, Kind.isBlank])
    exact keeps_literal analyzed stays ends scanned split upTo onward statement

/-- Only Python has docstrings. -/
private theorem eq_python_of_docstrings (known : language ∈ Language.registered)
    (docstrings : language.hasDocstrings = true) : language = .python := by
  simp only [Language.registered, List.mem_cons, List.not_mem_nil, or_false] at known
  rcases known with rfl | rfl | rfl | rfl
  · rfl
  all_goals exact absurd docstrings (by decide)

/-- The rewritten text is not changed if it is scanned without failure and what would be removed from it
is kept: the literals on their own, and the comments after a collision. -/
theorem process_rewritten_iff (known : language ∈ Language.registered)
    (analyzed : analyze language .standard source = .ok analysis) :
    process language.name .standard analysis.rewritten.text = .ok ⟨analysis.rewritten.text, 0⟩
      ↔ (language.hasDocstrings = true →
          ∃ spans, language.spans analysis.rewritten.text = .ok spans
            ∧ LiteralsKept language spans)
        ∧ (language.hasDocstrings = false → Collision language analysis.pieces →
          ∃ spans, language.spans analysis.rewritten.text = .ok spans
            ∧ CommentsKept language spans) := by
  have edit := (Analysis.restricts_of_analyze analyzed).edit known
  simp only [process_unchanged_iff known, no_removal_iff]
  constructor
  · rintro ⟨spans, scanned, comments, literals⟩
    exact ⟨fun docstrings => ⟨spans, scanned, literals docstrings⟩,
      fun _ _ => ⟨spans, scanned, comments⟩⟩
  · rintro ⟨literals, comments⟩
    cases docstrings : language.hasDocstrings with
    | true =>
      obtain ⟨spans, scanned, kept⟩ := literals docstrings
      obtain rfl := eq_python_of_docstrings known docstrings
      have sound := sound_of_python (Analysis.restricts_of_analyze analyzed)
      exact ⟨spans, scanned, commentsKept_of_sound known analyzed sound scanned, fun _ => kept⟩
    | false =>
      by_cases collision : Collision language analysis.pieces
      · obtain ⟨spans, scanned, kept⟩ := comments docstrings collision
        exact ⟨spans, scanned, kept, nofun⟩
      · -- without a collision the rewritten text is scanned, and its comments were kept before
        have sound := (Language.sound_iff edit).mpr collision
        obtain ⟨spans, _, scanned, -⟩ := edit.spans_of_sound sound
        exact ⟨spans, scanned, commentsKept_of_sound known analyzed sound scanned, nofun⟩

/--
Rewriting the rewritten text of a source changes nothing, under the standard options, exactly if the
following holds. In the language with docstrings, every literal that is a statement of the rewritten
text is a docstring there or holds its block open. In the others, if kept tokens have collided, the
rewritten text is still scanned without failure, and all comments that are found in it are kept.

Whether the literals are kept again is told from the source: they are, if outside brackets nothing goes
that ends with a backslash, nor what comes next after it, and if the block ends after each literal that
holds it open, once what is removed is gone.
-/
theorem rewritten_unchanged_iff (known : language ∈ Language.registered)
    (analyzed : analyze language .standard source = .ok analysis) :
    process language.name .standard source = .ok analysis.rewritten
      ∧ (process language.name .standard analysis.rewritten.text = .ok ⟨analysis.rewritten.text, 0⟩
        ↔ (language.hasDocstrings = true →
            ∃ spans, language.spans analysis.rewritten.text = .ok spans
              ∧ LiteralsKept language spans)
          ∧ (language.hasDocstrings = false → Collision language analysis.pieces →
            ∃ spans, language.spans analysis.rewritten.text = .ok spans
              ∧ CommentsKept language spans))
      ∧ (language.hasDocstrings = true →
        BackslashesStay analysis.pieces → PlaceholdersEndBlocks analysis →
        process language.name .standard analysis.rewritten.text
          = .ok ⟨analysis.rewritten.text, 0⟩) := by
  refine ⟨process_of_analyze known analyzed, process_rewritten_iff known analyzed, ?_⟩
  intro docstrings stays ends
  obtain rfl := eq_python_of_docstrings known docstrings
  exact (process_rewritten_iff known analyzed).mpr
    ⟨fun _ => literalsKept_of_stays analyzed stays ends, fun without => by simp [docstrings] at without⟩

/-- A literal that holds its block open still does once the one after it is gone. -/
theorem rewritten_unchanged_placeholder :
    ∃ analysis, analyze .python .standard "if x:\n 'a'\n 'b'#c\ny".toList = .ok analysis
      ∧ BackslashesStay analysis.pieces ∧ PlaceholdersEndBlocks analysis
      ∧ analysis.rewritten.text = "if x:\n 'a'\ny".toList
      ∧ process "Python" .standard analysis.rewritten.text = .ok ⟨analysis.rewritten.text, 0⟩ := by
  have scanned : Language.python.spans "if x:\n 'a'\n 'b'#c\ny".toList
      = .ok [⟨.code, 0, 2, 1, 1, "if".toList⟩, ⟨.whitespace, 2, 3, 1, 3, " ".toList⟩,
        ⟨.code, 3, 5, 1, 4, "x:".toList⟩, ⟨.newline, 5, 6, 1, 6, "\n".toList⟩,
        ⟨.whitespace, 6, 7, 2, 1, " ".toList⟩, ⟨.stringLiteral, 7, 10, 2, 2, "'a'".toList⟩,
        ⟨.newline, 10, 11, 2, 5, "\n".toList⟩, ⟨.whitespace, 11, 12, 3, 1, " ".toList⟩,
        ⟨.stringLiteral, 12, 15, 3, 2, "'b'".toList⟩, ⟨.lineComment, 15, 17, 3, 5, "#c".toList⟩,
        ⟨.newline, 17, 18, 3, 7, "\n".toList⟩, ⟨.code, 18, 19, 4, 1, "y".toList⟩] := by
    rw [Language.spans_eq_lexWithin]
    decide +kernel
  have analyzed := analyze_of_spans .standard scanned
  refine ⟨_, analyzed, ?stays, ?ends, by decide +kernel, ?_⟩
  · exact .of_unmarked (by decide +kernel)
  · decide +kernel
  · exact (rewritten_unchanged_iff (by simp [Language.registered]) analyzed).2.2 rfl ?stays ?ends

/-- A comment that ends with a backslash makes the line after it part of the header before it, so a
literal passes for a docstring until the comment is gone. -/
theorem python_rewritten_changes :
    process "Python" .standard
        "def f():  # C:\\\n    if x:\n        'text'\n        y = 1\n".toList
      = .ok ⟨"def f():\n    if x:\n        'text'\n        y = 1\n".toList, 1⟩
    ∧ process "Python" .standard
        "def f():\n    if x:\n        'text'\n        y = 1\n".toList
      = .ok ⟨"def f():\n    if x:\n        y = 1\n".toList, 1⟩ := by
  have known : Language.python ∈ Language.registered := by simp [Language.registered]
  constructor
  · refine (process_eq_map known .standard _).trans ?_
    rw [analyze, Language.spans_eq_lexWithin]
    decide +kernel
  · refine (process_eq_map known .standard _).trans ?_
    rw [analyze, Language.spans_eq_lexWithin]
    decide +kernel

end Again

end CommentStrip
