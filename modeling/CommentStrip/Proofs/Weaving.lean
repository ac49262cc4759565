import CommentStrip.Proofs.Edit

/-!
# The rewritten text as a weave

The rewritten text alternates between seams and kept pieces. Inductions over it go from one kept
piece to the next.
-/
namespace CommentStrip

/-- The rewritten text of the pieces `later`, which come after those before them: a seam, a kept
piece, a seam, and so on up to the end. -/
inductive Woven : (earlier later : List Piece) → Text → Prop where
  | rest {earlier gap : List Piece} {blanks : Text}
    (empty : ∀ piece ∈ gap, piece.isContent = false)
    (seam : Seam earlier.getLast? gap none blanks) : Woven earlier gap blanks
  | next {earlier gap later : List Piece} {next : Piece} {blanks text : Text}
    (empty : ∀ piece ∈ gap, piece.isContent = false) (content : next.isContent = true)
    (seam : Seam earlier.getLast? gap (some next) blanks)
    (written : text = writtenAfter (earlier ++ gap) next later)
    (woven : Woven (earlier ++ gap ++ [next]) later text) :
    Woven earlier (gap ++ next :: later) (blanks ++ (next.span.text ++ text))

theorem exists_gap (pieces : List Piece) :
    (∀ piece ∈ pieces, piece.isContent = false)
      ∨ ∃ gap next later, pieces = gap ++ next :: later
        ∧ (∀ piece ∈ gap, piece.isContent = false) ∧ next.isContent = true := by
  induction pieces with
  | nil => exact .inl (by simp)
  | cons piece rest ih =>
    cases content : piece.isContent with
    | true => exact .inr ⟨[], piece, rest, rfl, by simp, content⟩
    | false =>
      rcases ih with none | ⟨gap, next, later, rfl, empty, found⟩
      · exact .inl (by simpa [content] using none)
      · exact .inr ⟨piece :: gap, next, later, rfl, by simpa [content] using empty, found⟩

/-- What is written after a kept piece is woven. -/
theorem woven_writtenAfter {piece : Piece} {later : List Piece} (earlier : List Piece)
    (content : piece.isContent = true) (regular : Regular (piece :: later)) :
    Woven (earlier ++ [piece]) later (writtenAfter earlier piece later) := by
  induction size : later.length using Nat.strong_induction_on
    generalizing earlier piece later with
  | _ count ih =>
    rcases exists_gap later with empty | ⟨gap, next, rest, rfl, empty, found⟩
    · exact .rest empty (by simpa using seam_last earlier content regular empty)
    · obtain ⟨blanks, seam, written⟩ := seam_between earlier content found regular empty
      have shorter : rest.length < count := by
        rw [List.length_append, List.length_cons] at size
        omega
      have after : Regular (next :: rest) := by
        rw [← List.cons_append] at regular
        exact regular.right
      have same : earlier ++ piece :: gap = earlier ++ [piece] ++ gap := by simp
      rw [written, same]
      exact .next empty found (by simpa using seam) rfl (ih _ shorter _ found after rfl)

/-- The rewritten text is woven from its start on. -/
theorem woven_writeLines {pieces : List Piece} (regular : Regular pieces) :
    Woven [] pieces (writeLines pieces) := by
  rcases exists_gap pieces with empty | ⟨gap, next, later, rfl, empty, content⟩
  · exact .rest empty (seam_of_gap regular.each empty)
  · obtain ⟨blanks, seam, written⟩ := seam_first content regular empty
    rw [written]
    exact .next empty content seam rfl (woven_writtenAfter gap content regular.right)

/-- What is written next is a blank or, where the seam is empty, the next kept piece. -/
theorem Woven.head {earlier later : List Piece} {text : Text} {c : Char} (woven : Woven earlier later text)
    (nonempty : ∀ piece ∈ later, piece.span.text ≠ []) (head : text.head? = some c) :
    isBlankChar c = true ∨ ∃ gap next rest, later = gap ++ next :: rest
      ∧ (∀ piece ∈ gap, piece.isContent = false) ∧ next.isContent = true
      ∧ next.span.text.head? = some c ∧ Seam earlier.getLast? gap (some next) [] := by
  cases woven with
  | rest empty seam => exact .inl (seam.blank c (List.mem_of_head? head))
  | @next _ gap rest next blanks more empty content seam =>
    cases blanks with
    | cons d others =>
      obtain rfl : d = c := by simpa using head
      exact .inl (seam.blank d List.mem_cons_self)
    | nil =>
      obtain ⟨d, others, whole⟩ := List.exists_cons_of_ne_nil (nonempty next (by simp))
      refine .inr ⟨gap, next, rest, rfl, empty, content, ?_, seam⟩
      simpa [whole] using head

/-- After a kept piece, the end of the text and a line break that come next stay. -/
theorem Woven.ends {earlier later : List Piece} {text : Text} (woven : Woven earlier later text)
    (inside : earlier ≠ []) : (later = [] → text = [])
      ∧ ∀ piece ∈ later.head?, piece.isNewline = true → ∃ more, text = piece.span.text ++ more := by
  have isSome : earlier.getLast?.isSome = true := by simpa using inside
  cases woven with
  | rest empty seam =>
    refine ⟨?_, fun piece head newline => seam.newline piece head newline isSome⟩
    rintro rfl
    exact seam.unchanged (by simp)
  | @next _ gap rest next blanks more empty content seam =>
    refine ⟨by simp, fun piece head newline => ?_⟩
    cases gap with
    | nil =>
      obtain rfl : next = piece := by simpa using head
      simp [Piece.not_isNewline_of_isContent content] at newline
    | cons first others =>
      obtain ⟨written, rfl⟩ := seam.newline piece head newline isSome
      exact ⟨_, List.append_assoc _ _ _⟩

end CommentStrip
