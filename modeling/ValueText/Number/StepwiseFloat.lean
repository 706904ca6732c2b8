import ValueText.Number.Stepwise

/-!
# Reading floating-point numbers in machine steps

`readFloat` takes a text apart into the parts of a number as it goes.  Here the same reading is
spelled out in two passes.  The first one only finds where the number ends, by positions in the
text and with slices that trap where their bounds are not in it.  What it has found is decoded as
a string, and the second pass converts that string as a whole, which may refuse it.  Whether the
number was out of range is judged afterwards, from the datum that came out and a second look at
the bytes of the number.

* `Binary.ofString?`       the second pass: the datum of a whole string
* `Stepwise.scanFloat`     the first pass: the position where the number ends
* `Stepwise.readFloat64`   the reader
-/

namespace ValueText

/-! ## Converting a whole string -/

/-- The datum nearest to a number as it is written, or to its negative. -/
def Binary.ofFloatText (f : FloatType) (negative : Bool) : Scan.FloatText → Binary f
  | .infinity => .infinity f negative
  | .nan => .nan f negative
  | .decimal digits exponent => .ofDecimal f negative (Numeral.value digits) digits.length exponent

namespace WholeText

/-- The number of a text that is digits and nothing else. -/
def natural? (text : Bytes) : Option Nat :=
  if text.isEmpty || !text.all Char8.isDigit then none else some (Numeral.value text)

/-- The power of ten of an exponent with its mark, or zero of an empty text. -/
def power? : Bytes → Option Int
  | [] => some 0
  | _ :: signed =>
    let (negative, digits) := Scan.sign signed
    (natural? digits).map fun n => if negative then -(n : Int) else n

def isMark (c : Char8) : Bool := c == 101 || c == 69

/-- The decimal that a text without a sign is.  It is cut at the first mark of an exponent, and
    what stands before the mark is cut at the first point. -/
def decimal? (text : Bytes) : Option Scan.FloatText :=
  let significand := text.takeWhile (!isMark ·)
  let whole := significand.takeWhile (· != 46)
  let fraction := (significand.dropWhile (· != 46)).drop 1
  if (whole ++ fraction).isEmpty || !(whole ++ fraction).all Char8.isDigit then none
  else (power? (text.dropWhile (!isMark ·))).map fun power =>
    .decimal (whole ++ fraction) (power - fraction.length)

/-- The special value of a text that is one of the words, in upper or lower case. -/
def special? (text : Bytes) : Option Scan.FloatText :=
  Scan.specialWords.lookup (text.map Char8.toLower)

end WholeText

/-- The datum nearest to the number that a string is, if it is nothing else. -/
def Binary.ofString? (f : FloatType) (s : String) : Option (Binary f) :=
  let (negative, unsigned) := Scan.sign (Bytes.ofString s)
  ((WholeText.special? unsigned).or (WholeText.decimal? unsigned)).map (ofFloatText f negative)

namespace Stepwise

/-! ## Finding the end of the number -/

/-- The number of digits from a position on. -/
def digitsAt (bytes : Bytes) (pos : Nat) : Stepwise Nat := do
  return countLeading Char8.isDigit (← slice bytes pos bytes.length)

/-- Whether a word stands at a position, in upper or lower case. -/
def wordAt (bytes : Bytes) (pos : Nat) (lowercase : Bytes) : Stepwise Bool := do
  let rest ← slice bytes pos bytes.length
  if lowercase.length ≤ rest.length then
    return (← slice rest 0 lowercase.length).map Char8.toLower == lowercase
  else return false

/-- The end of the first of some words that stands at a position. -/
def wordEnd (bytes : Bytes) (pos : Nat) : List Bytes → Stepwise (Option Nat)
  | [] => return none
  | word :: words => do
    if ← wordAt bytes pos word then return some (pos + word.length)
    else wordEnd bytes pos words

/-- The end of digits with at most one point; nothing if there are no digits. -/
def significandEnd (bytes : Bytes) (pos : Nat) : Stepwise (Option Nat) := do
  let whole ← digitsAt bytes pos
  if bytes[pos + whole]? = some 46 then
    let fraction ← digitsAt bytes (pos + whole + 1)
    if whole = 0 ∧ fraction = 0 then return none
    else return some (pos + whole + 1 + fraction)
  else if whole = 0 then return none
  else return some (pos + whole)

/-- The end of an exponent, which is where it begins if it has no digits. -/
def exponentEnd (bytes : Bytes) (pos : Nat) : Stepwise Nat := do
  if (bytes[pos]?).any WholeText.isMark then
    let first := (signAt bytes (pos + 1)).2
    let digits ← digitsAt bytes first
    if digits = 0 then return pos else return first + digits
  else return pos

/-- The end of the floating-point number at the beginning of a text. -/
def scanFloat (bytes : Bytes) : Stepwise (Option Nat) := do
  let pos := (signAt bytes 0).2
  match ← wordEnd bytes pos (Scan.specialWords.map (·.1)) with
  | some last => return some last
  | none =>
    match ← significandEnd bytes pos with
    | none => return none
    | some last => return some (← exponentEnd bytes last)

/-! ## Judging what came out -/

/-- Whether a number is one of the words behind its sign. -/
def isSpecial (number : Bytes) : Stepwise Bool := do
  let unsigned ← slice number (signAt number 0).2 number.length
  return Scan.specialWords.any fun (word, _) => unsigned.map Char8.toLower == word

/-- The bytes of a number before the mark of its exponent. -/
def mantissa (number : Bytes) : Stepwise Bytes :=
  slice number 0 (number.findIdx WholeText.isMark)

/-- Whether a datum is out of the range of its type, by the bytes that it was read from: it is
    infinite without being a word, or zero with a digit other than zero. -/
def isOutOfRange (x : Binary .f64) (number : Bytes) : Stepwise Bool := do
  if x.isInfinite then return !(← isSpecial number)
  else if x.isZero then return (← mantissa number).any fun c => 49 ≤ c && c ≤ 57
  else return false

def readFloat64 (text : Bytes) : Stepwise (Except NumberError (Binary .f64)) := do
  let fail (fault : NumberFault) := .error ⟨fault, .float .f64, Utf8.decodeReplacing text⟩
  let start := countLeading Char8.isBlank text
  let some count ← scanFloat (← slice text start text.length) | return fail .noNumber
  let number ← slice text start (start + count)
  let some literal := Utf8.decode? number | return fail .noNumber
  let some x := Binary.ofString? .f64 literal | return fail .noNumber
  if ← isOutOfRange x number then return fail .outOfRange
  else return .ok x

end Stepwise

end ValueText
