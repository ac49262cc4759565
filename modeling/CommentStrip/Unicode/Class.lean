import CommentStrip.Unicode.Added
import CommentStrip.Unicode.Alphabetic
import CommentStrip.Unicode.Mark
import CommentStrip.Unicode.Number

/-!
# Character classes

Membership in the Unicode classes that reading source text needs. ASCII is answered directly,
since nearly all source text is ASCII and the tables agree with the direct answer there. What is
alphanumeric follows version 17 of Unicode; what is a word character follows version 16.
-/
namespace CommentStrip.Unicode

/-- Code points with the property White_Space. -/
def whiteSpaceRanges : List (Nat × Nat) :=
  [(0x9, 0xd), (0x20, 0x20), (0x85, 0x85), (0xa0, 0xa0), (0x1680, 0x1680), (0x2000, 0x200a),
   (0x2028, 0x2029), (0x202f, 0x202f), (0x205f, 0x205f), (0x3000, 0x3000)]

/-- Code points of the general category Pc, the connector punctuation. -/
def connectorRanges : List (Nat × Nat) :=
  [(0x5f, 0x5f), (0x203f, 0x2040), (0x2054, 0x2054), (0xfe33, 0xfe34), (0xfe4d, 0xfe4f),
   (0xff3f, 0xff3f)]

/-- Code points with the property Join_Control. -/
def joinControlRanges : List (Nat × Nat) :=
  [(0x200c, 0x200d)]

/-- Whether the code point of `c` lies in one of `ranges`. -/
def inRanges (ranges : List (Nat × Nat)) (c : Char) : Bool :=
  ranges.any fun range => range.1 ≤ c.toNat && c.toNat ≤ range.2

/-- White_Space: every blank of every script, line separators included. -/
def isWhiteSpace (c : Char) : Bool :=
  inRanges whiteSpaceRanges c

/-- Alphabetic, or a number of any kind (Nd, Nl or No), as of version 17. -/
def isAlphanumeric (c : Char) : Bool :=
  if c.toNat < 0x80 then c.isAlphanum
  else inRanges alphabeticRanges c || inRanges addedAlphabeticRanges c
    || inRanges decimalRanges c || inRanges addedDecimalRanges c || inRanges otherNumberRanges c

/-- A word character: Alphabetic, Mark, Nd, Pc or Join_Control, as of version 16. -/
def isWord (c : Char) : Bool :=
  if c.toNat < 0x80 then c.isAlphanum || c == '_'
  else inRanges alphabeticRanges c || inRanges markRanges c || inRanges decimalRanges c
    || inRanges connectorRanges c || inRanges joinControlRanges c

end CommentStrip.Unicode
