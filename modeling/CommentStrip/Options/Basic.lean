/-!
# Options

The choices a user has about what counts as disposable.
-/
namespace CommentStrip

/-- The lines from `start` to `stop`, both included; lines are counted from one. -/
structure LineRange where
  start : Nat
  stop : Nat
  deriving DecidableEq

def LineRange.contains (range : LineRange) (line : Nat) : Bool :=
  range.start ≤ line && line ≤ range.stop

structure Options where
  /-- Whether string literals that are statements, but no docstrings, are commentary. -/
  removeFloatingStrings : Bool
  /-- Whether documentation comments are kept. -/
  keepDocComments : Bool
  /-- If given, only spans that start on these lines are removed. -/
  lineRange : Option LineRange
  deriving DecidableEq

/-- Documentation comments are kept, string literals on their own go, and no line is exempt. -/
def Options.standard : Options :=
  ⟨true, true, none⟩

end CommentStrip
