import CommentStrip.Json.Basic

/-!
# JSON tokens

The pieces of a JSON text: brackets, separators, strings and the other scalars. The form of each is
strict: no leading zeros, no bare control characters in strings, no other escapes than those of the
format.
-/
namespace CommentStrip.Json

inductive Token where
  | beginArray
  | endArray
  | beginObject
  | endObject
  | nameSeparator
  | valueSeparator
  | string (text : Option Text)
  /-- A number, a truth value or null. -/
  | scalar (value : Json)

/-- The value of a hexadecimal digit. -/
def hexDigit? (c : Char) : Option Nat :=
  if c.isDigit then some (c.toNat - '0'.toNat)
  else if 'a' ≤ c ∧ c ≤ 'f' then some (c.toNat - 'a'.toNat + 10)
  else if 'A' ≤ c ∧ c ≤ 'F' then some (c.toNat - 'A'.toNat + 10)
  else none

/-- The number that hexadecimal digits write. -/
def hexNumber? (digits : Text) : Option Nat :=
  digits.foldlM (fun value c => (hexDigit? c).map (16 * value + ·)) 0

/-- The code point of a single character after a backslash. -/
def escapedCode? : Char → Option Nat
  | '\x22' => some 0x22
  | '\\' => some 0x5c
  | '/' => some 0x2f
  | 'b' => some 0x8
  | 'f' => some 0xc
  | 'n' => some 0xa
  | 'r' => some 0xd
  | 't' => some 0x9
  | _ => none

/-- Reads a string from after its opening quote: the code points and surrogates it writes, and the
number of characters up to and with its closing quote. -/
def readString? : Text → Option (List Nat × Nat)
  | [] => none
  | '\x22' :: _ => some ([], 1)
  | '\\' :: 'u' :: a :: b :: c :: d :: rest => do
    let code ← hexNumber? [a, b, c, d]
    let (codes, length) ← readString? rest
    return (code :: codes, length + 6)
  | '\\' :: c :: rest => do
    let code ← escapedCode? c
    let (codes, length) ← readString? rest
    return (code :: codes, length + 2)
  | c :: rest =>
    if c = '\\' ∨ c.toNat < 0x20 then none
    else do
      let (codes, length) ← readString? rest
      return (c.toNat :: codes, length + 1)

def isHighSurrogate (code : Nat) : Bool :=
  0xd800 ≤ code && code < 0xdc00

def isLowSurrogate (code : Nat) : Bool :=
  0xdc00 ≤ code && code < 0xe000

/-- The text that code points and surrogates stand for, if every surrogate has its other half. -/
def textOfCodes? : List Nat → Option Text
  | [] => some []
  | [code] =>
    if isHighSurrogate code || isLowSurrogate code then none else some [Char.ofNat code]
  | code :: next :: rest =>
    if isHighSurrogate code then
      if isLowSurrogate next then
        (textOfCodes? rest).map
          (Char.ofNat (0x10000 + 0x400 * (code - 0xd800) + (next - 0xdc00)) :: ·)
      else none
    else if isLowSurrogate code then none
    else (textOfCodes? (next :: rest)).map (Char.ofNat code :: ·)

/-- The decimal digits at the start of a text. -/
def leadingDigits (text : Text) : Text :=
  text.takeWhile Char.isDigit

/-- The number that decimal digits write. -/
def decimalValue (digits : Text) : Nat :=
  digits.foldl (fun value c => 10 * value + (c.toNat - '0'.toNat)) 0

/-- The length of the whole part of a number. A zero stands alone. -/
def wholeLength? (text : Text) : Option Nat :=
  match leadingDigits text with
  | [] => none
  | '0' :: _ :: _ => none
  | digits => some digits.length

/-- The length of a fraction, which is none where there is no point. -/
def fractionLength? : Text → Option Nat
  | '.' :: rest =>
    match (leadingDigits rest).length with
    | 0 => none
    | length => some (length + 1)
  | _ => some 0

/-- The length of an exponent, which is none where no letter begins one. -/
def exponentLength? : Text → Option Nat
  | [] => some 0
  | c :: rest =>
    if c = 'e' ∨ c = 'E' then
      let signLength := if rest.head? = some '+' ∨ rest.head? = some '-' then 1 else 0
      match (leadingDigits (rest.drop signLength)).length with
      | 0 => none
      | length => some (1 + signLength + length)
    else some 0

/-- Reads a number: the value and its length. -/
def readNumber? (text : Text) : Option (Json × Nat) := do
  let sign := if text.head? = some '-' then 1 else 0
  let whole ← wholeLength? (text.drop sign)
  let fraction ← fractionLength? (text.drop (sign + whole))
  let exponent ← exponentLength? (text.drop (sign + whole + fraction))
  let natural :=
    if sign + fraction + exponent = 0 then some (decimalValue (text.take whole)) else none
  return (.number natural, sign + whole + fraction + exponent)

/-- Reads the token that begins with `c`, which is no blank: the token, and how many characters of
it come after `c`. -/
def Token.read? (c : Char) (rest : Text) : Option (Token × Nat) :=
  let word (letters : String) (value : Json) : Option (Token × Nat) :=
    if letters.toList.isPrefixOf rest then some (.scalar value, letters.length) else none
  match c with
  | '[' => some (.beginArray, 0)
  | ']' => some (.endArray, 0)
  | '\x7b' => some (.beginObject, 0)
  | '\x7d' => some (.endObject, 0)
  | ':' => some (.nameSeparator, 0)
  | ',' => some (.valueSeparator, 0)
  | '\x22' => (readString? rest).map fun (codes, length) => (.string (textOfCodes? codes), length)
  | 'n' => word "ull" .null
  | 't' => word "rue" (.bool true)
  | 'f' => word "alse" (.bool false)
  | _ => (readNumber? (c :: rest)).map fun (value, length) => (.scalar value, length - 1)

/-- The tokens of a text, if it consists of tokens and blanks. -/
def tokens? : Text → Option (List Token)
  | [] => some []
  | c :: rest =>
    if isBlank c then tokens? rest
    else
      match Token.read? c rest with
      | none => none
      | some (token, more) => (tokens? (rest.drop more)).map (token :: ·)
termination_by text => text.length
decreasing_by
  all_goals
    simp only [List.length_drop, List.length_cons]
    omega

end CommentStrip.Json
