import ValueText.Number.Numeral

/-!
# Scanning numbers

The beginning of a text is read as a number, as far as it goes; what follows the number is
handed back.  A scanner yields the parts of the number, not its value, so that no number is
too large for it.

* `integer?`   an optional sign and at least one digit
* `float?`     an optional sign, then either a word for infinity or for what is not a
  number, or digits with at most one point and at most one exponent

A point needs a digit on one of its sides, an exponent mark needs a digit behind it; where
that digit is missing, the number ends before the point or the mark.
-/

namespace ValueText.Scan

/-- The text behind the blanks at its beginning. -/
def skipBlanks (text : Bytes) : Bytes := text.dropWhile Char8.isBlank

/-- Whether the text begins with a minus sign, and the text behind a sign. -/
def sign : Bytes → Bool × Bytes
  | 45 :: rest => (true, rest)
  | 43 :: rest => (false, rest)
  | text => (false, text)

def splitDigits (text : Bytes) : Bytes × Bytes :=
  (text.takeWhile Char8.isDigit, text.dropWhile Char8.isDigit)

/-- Splitting off digits loses nothing. -/
theorem splitDigits_append (text : Bytes) :
    (splitDigits text).1 ++ (splitDigits text).2 = text :=
  List.takeWhile_append_dropWhile

/-- What is split off are digits. -/
theorem isDigit_of_mem_splitDigits {text : Bytes} {c : Char8} (h : c ∈ (splitDigits text).1) :
    Char8.isDigit c = true := by
  have := List.all_takeWhile (p := Char8.isDigit) (l := text)
  exact List.all_eq_true.1 this c h

/-- An integer as it is written. -/
structure IntegerText where
  negative : Bool
  /-- The digits, with any leading zeros. -/
  digits : Bytes
  deriving DecidableEq, Repr

/-- The integer at the beginning of the text, and the text behind it. -/
def integer? (text : Bytes) : Option (IntegerText × Bytes) :=
  let (negative, unsigned) := sign text
  let (digits, rest) := splitDigits unsigned
  if digits.isEmpty then none else some (⟨negative, digits⟩, rest)

/-- A floating-point number as it is written, without its sign. -/
inductive FloatText where
  | infinity
  | nan
  /-- Digits times ten to the power of `exponent`: the digits on both sides of the point, with
      the exponent reduced by the number of those behind it. -/
  | decimal (digits : Bytes) (exponent : Int)
  deriving DecidableEq, Repr

/-- The text behind a word at its beginning, in upper or lower case. -/
def word? (lowercase text : Bytes) : Option Bytes :=
  if (text.take lowercase.length).map Char8.toLower = lowercase then
    some (text.drop lowercase.length)
  else none

/-- The words for special values.  The longer word for infinity comes first. -/
def specialWords : List (Bytes × FloatText) :=
  [(Bytes.ofString "infinity", .infinity), (Bytes.ofString "inf", .infinity),
   (Bytes.ofString "nan", .nan)]

/-- The special value that the text begins with, and the text behind its word. -/
def special? (text : Bytes) : Option (FloatText × Bytes) :=
  specialWords.findSome? fun (lowercase, value) => (word? lowercase text).map (value, ·)

/-- The digits before and behind the point, and the text behind them. -/
def significand? (text : Bytes) : Option (Bytes × Bytes × Bytes) :=
  let (whole, rest) := splitDigits text
  match rest with
  | 46 :: behind =>
    let (fraction, rest') := splitDigits behind
    if whole.isEmpty && fraction.isEmpty then none else some (whole, fraction, rest')
  | _ => if whole.isEmpty then none else some (whole, [], rest)

/-- The exponent that the text begins with, or zero if it begins with none, and the text
    behind it. -/
def exponent (text : Bytes) : Int × Bytes :=
  match text with
  | [] => (0, text)
  | mark :: signed =>
    if mark = 101 ∨ mark = 69 then
      match integer? signed with
      | some (written, rest) =>
        let magnitude : Int := Numeral.value written.digits
        (if written.negative then -magnitude else magnitude, rest)
      | none => (0, text)
    else (0, text)

/-- The floating-point number at the beginning of the text, with its sign, and the text
    behind it. -/
def float? (text : Bytes) : Option (Bool × FloatText × Bytes) :=
  let (negative, unsigned) := sign text
  match special? unsigned with
  | some (value, rest) => some (negative, value, rest)
  | none =>
    match significand? unsigned with
    | some (whole, fraction, behind) =>
      let (power, rest) := exponent behind
      some (negative, .decimal (whole ++ fraction) (power - fraction.length), rest)
    | none => none

end ValueText.Scan
