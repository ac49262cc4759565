/-!
# Readings

The outcome of looking for a construct at the start of a text: its length in characters, or the
reason why it does not stand there.
-/
namespace CommentStrip

/-- Why a construct does not stand at the start of a text. -/
inductive Miss where
  /-- The characters from `index` on are not those that open the construct. -/
  | notOpened (index : Nat)
  /-- The construct opens, but its body, which begins at `index`, is never closed. -/
  | notClosed (index : Nat)
  deriving DecidableEq

/-- The length of a construct at the start of a text, if it stands there. -/
abbrev Reading := Except Miss Nat

end CommentStrip
