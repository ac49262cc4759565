import CommentStrip.Text
import Mathlib.Data.List.Induction

/-!
# Line feeds and pairs

A line may end with a line feed or with a carriage return and a line feed, a pair. Turning line feeds
into pairs changes no character of a text but the ends of its lines, so that questions about other
characters have the same answers before and after.
-/
namespace CommentStrip.Text

/-- The text with a carriage return put in front of every line feed. -/
def crlf (text : Text) : Text :=
  text.flatMap fun c => if c = '\n' then ['\r', '\n'] else [c]

@[simp] theorem crlf_nil : crlf [] = [] := rfl

@[simp] theorem crlf_feed (rest : Text) : crlf ('\n' :: rest) = '\r' :: '\n' :: crlf rest := rfl

theorem crlf_cons {c : Char} (other : c ≠ '\n') (rest : Text) : crlf (c :: rest) = c :: crlf rest := by
  simp [crlf, other]

@[simp] theorem crlf_append (first second : Text) :
    crlf (first ++ second) = crlf first ++ crlf second := by
  simp [crlf]

/-- A text without line feeds stays as it is. -/
theorem crlf_of_plain {text : Text} (plain : '\n' ∉ text) : crlf text = text := by
  induction text with
  | nil => rfl
  | cons c rest ih =>
    obtain ⟨other, later⟩ : '\n' ≠ c ∧ '\n' ∉ rest := by simpa using plain
    rw [crlf_cons other.symm, ih later]

@[simp] theorem crlf_eq_nil {text : Text} : crlf text = [] ↔ text = [] := by
  cases text with
  | nil => simp
  | cons c rest =>
    by_cases feed : c = '\n'
    · simp [feed]
    · simp [crlf_cons feed]

/-- The last character is the same, since a pair ends as a line feed does. -/
theorem getLast?_crlf (text : Text) : (crlf text).getLast? = text.getLast? := by
  cases text using List.reverseRecOn with
  | nil => rfl
  | append_singleton earlier last =>
    -- the text is split off its last character, where the pair ends as the line feed does
    rw [crlf_append, List.getLast?_concat]
    by_cases feed : last = '\n'
    · simp [feed]
    · simp [crlf_cons feed]

/-- Whether a text begins with something that holds no line break stays the same. -/
theorem isPrefixOf_crlf {sought : Text} (plain : ∀ c ∈ sought, isLineBreak c = false) (text : Text) :
    sought.isPrefixOf (crlf text) = sought.isPrefixOf text := by
  induction text generalizing sought with
  | nil => rfl
  | cons d rest ih =>
    cases sought with
    | nil => simp
    | cons c others =>
      rw [List.forall_mem_cons] at plain
      by_cases feed : d = '\n'
      · -- neither a carriage return nor a line feed is sought
        subst feed
        have noFeed : (c == '\n') = false := by
          rw [beq_eq_false_iff_ne]
          rintro rfl
          exact absurd plain.1 (by decide)
        have noReturn : (c == '\r') = false := by
          rw [beq_eq_false_iff_ne]
          rintro rfl
          exact absurd plain.1 (by decide)
        simp [List.isPrefixOf, noFeed, noReturn]
      · rw [crlf_cons feed, List.isPrefixOf_cons_cons, List.isPrefixOf_cons_cons, ih plain.2]

section Predicates

variable {p : Char → Bool} (text : Text)

theorem any_crlf (same : p '\r' = p '\n') : (crlf text).any p = text.any p := by
  induction text with
  | nil => rfl
  | cons c rest ih =>
    by_cases feed : c = '\n'
    · -- the carriage return adds the answer of the line feed once more
      subst feed
      rw [crlf_feed, List.any_cons, List.any_cons, List.any_cons, ih, same, ← Bool.or_assoc,
        Bool.or_self]
    · rw [crlf_cons feed, List.any_cons, List.any_cons, ih]

theorem takeWhile_crlf (feed : p '\n' = false) (carriage : p '\r' = false) :
    (crlf text).takeWhile p = text.takeWhile p := by
  induction text with
  | nil => rfl
  | cons c rest ih =>
    by_cases lineFeed : c = '\n'
    · -- the run ends here, before the carriage return or the line feed
      subst lineFeed
      simp [feed, carriage]
    · rw [crlf_cons lineFeed, List.takeWhile_cons, List.takeWhile_cons, ih]

theorem dropWhile_crlf (feed : p '\n' = true) (carriage : p '\r' = true) :
    (crlf text).dropWhile p = crlf (text.dropWhile p) := by
  induction text with
  | nil => rfl
  | cons c rest ih =>
    by_cases lineFeed : c = '\n'
    · subst lineFeed
      simp [feed, carriage, ih]
    · rw [crlf_cons lineFeed, List.dropWhile_cons, List.dropWhile_cons, ih]
      split
      · rfl
      · rw [crlf_cons lineFeed]

end Predicates

section Cuts

/-- How many characters the first `length` characters of a text become. -/
def crlfLength (text : Text) (length : Nat) : Nat :=
  (crlf (text.take length)).length

variable (text : Text) {length : Nat}

@[simp] theorem crlfLength_zero : crlfLength text 0 = 0 := by
  simp [crlfLength]

@[simp] theorem crlfLength_feed (length : Nat) :
    crlfLength ('\n' :: text) (length + 1) = crlfLength text length + 2 := by
  simp [crlfLength]

theorem crlfLength_cons {c : Char} (other : c ≠ '\n') (length : Nat) :
    crlfLength (c :: text) (length + 1) = crlfLength text length + 1 := by
  simp [crlfLength, crlf_cons other]

theorem crlfLength_pos (nonempty : text ≠ []) (length : Nat) :
    0 < crlfLength text (length + 1) := by
  obtain ⟨c, rest, rfl⟩ := List.exists_cons_of_ne_nil nonempty
  rw [crlfLength, List.length_pos_iff, ne_eq, crlf_eq_nil]
  exact List.cons_ne_nil _ _

theorem crlfLength_append (word rest : Text) :
    crlfLength (word ++ rest) word.length = (crlf word).length := by
  rw [crlfLength, List.take_left]

variable {text}

/-- What holds no line feed is as long as before. -/
theorem crlfLength_of_plain {word rest : Text} (whole : text = word ++ rest) (plain : '\n' ∉ word) :
    crlfLength text word.length = word.length := by
  rw [whole, crlfLength_append, crlf_of_plain plain]

theorem take_crlf_of_plain (plain : '\n' ∉ text.take length) :
    (crlf text).take length = text.take length := by
  induction length generalizing text with
  | zero => simp
  | succ length ih =>
    cases text with
    | nil => rfl
    | cons c rest =>
      obtain ⟨other, later⟩ : '\n' ≠ c ∧ '\n' ∉ rest.take length := by simpa using plain
      rw [crlf_cons other.symm, List.take_succ_cons, List.take_succ_cons, ih later]

theorem carriage_mem_take_crlf (feed : '\n' ∈ text.take length) :
    '\r' ∈ (crlf text).take length := by
  induction length generalizing text with
  | zero => simp at feed
  | succ length ih =>
    cases text with
    | nil => simp at feed
    | cons c rest =>
      by_cases first : c = '\n'
      · simp [first]
      · -- the line feed comes later, and so does its carriage return
        have later : '\n' ∈ rest.take length := by
          simpa [Ne.symm first] using feed
        rw [crlf_cons first, List.take_succ_cons]
        exact List.mem_cons_of_mem _ (ih later)

end Cuts

end CommentStrip.Text
