import CommentStrip.Span.Basic

/-!
# Decisions

What happens to a comment or to a string literal on its own, and why. Only removal is ever for the
reason `commentary`; every other reason keeps.
-/
namespace CommentStrip

inductive Verdict where
  | keep
  | remove
  deriving DecidableEq

namespace Verdict

def all : List Verdict :=
  [keep, remove]

/-- The written name of a verdict. -/
def name : Verdict → String
  | keep => "keep"
  | remove => "remove"

/-- The verdict with a given name. -/
def ofName? (text : String) : Option Verdict :=
  all.find? fun verdict => verdict.name == text

theorem ofName?_name (verdict : Verdict) : ofName? verdict.name = some verdict := by
  cases verdict <;> decide

end Verdict

/-- Why a span is kept or removed. -/
inductive Reason where
  | interpreterDirective
  | encodingDirective
  | docstring
  | docComment
  | floatingStringRetained
  | blockPlaceholder
  | outsideRange
  | userRetained
  | commentary
  deriving DecidableEq

namespace Reason

def all : List Reason :=
  [interpreterDirective, encodingDirective, docstring, docComment, floatingStringRetained,
    blockPlaceholder, outsideRange, userRetained, commentary]

/-- The written name of a reason. -/
def name : Reason → String
  | interpreterDirective => "interpreter_directive"
  | encodingDirective => "encoding_directive"
  | docstring => "docstring"
  | docComment => "doc_comment"
  | floatingStringRetained => "floating_string_retained"
  | blockPlaceholder => "block_placeholder"
  | outsideRange => "outside_range"
  | userRetained => "user_retained"
  | commentary => "commentary"

/-- The reason with a given name. -/
def ofName? (text : String) : Option Reason :=
  all.find? fun reason => reason.name == text

theorem ofName?_name (reason : Reason) : ofName? reason.name = some reason := by
  cases reason <;> decide

end Reason

/-- What is decided about the span at an index. -/
structure Decision where
  span : Nat
  verdict : Verdict
  reason : Reason
  deriving DecidableEq

namespace Decision

def keep (span : Nat) (reason : Reason) : Decision :=
  ⟨span, .keep, reason⟩

def remove (span : Nat) : Decision :=
  ⟨span, .remove, .commentary⟩

def isRemoval (decision : Decision) : Bool :=
  decision.verdict == .remove

/-- The decision after a user has asked for the span: a removal is undone, and what is kept anyway
keeps its reason. -/
def retained (decision : Decision) : Decision :=
  if decision.isRemoval then keep decision.span .userRetained else decision

/-- The decisions after a user has asked for the first one that is meant, if there is one. -/
def retainFirst (meant : Decision → Bool) : List Decision → Option (List Decision)
  | [] => none
  | decision :: rest =>
    if meant decision then some (decision.retained :: rest)
    else (retainFirst meant rest).map (decision :: ·)

end Decision

end CommentStrip
