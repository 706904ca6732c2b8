import ValueText.Float.Shortest
import ValueText.Number.Numeral

/-!
# The text of a floating-point datum

A layout decides how the shortest decimal of a datum is written.  There are two of them:
`FloatLayout.plain` writes every digit and never an exponent, and `FloatLayout.exact` shows by
a point or an exponent that the datum is a floating-point one.
-/

namespace ValueText

/-- How the decimal of a datum is written. -/
structure FloatLayout where
  /-- What a decimal without a fraction ends in. -/
  wholeEnd : Bytes
  /-- The leading digits whose place is written positionally: those from ten to the first
      power up to, but not including, ten to the second.  Without bounds, all of them. -/
  positional : Option (Int × Int)

namespace FloatLayout

/-- Every decimal is written positionally, and a whole number has no point. -/
def plain : FloatLayout := ⟨[], none⟩

/-- Decimals from `0.0001` up to, but not including, `10 ^ 16` are written positionally, with
    at least one digit behind the point; all others have an exponent. -/
def exact : FloatLayout := ⟨Bytes.ofString ".0", some (-4, 16)⟩

/-- Whether a decimal whose leading digit is worth `10 ^ place` is written positionally. -/
def isPositional (layout : FloatLayout) (place : Int) : Bool :=
  match layout.positional with
  | none => true
  | some (low, high) => low ≤ place && place < high

/-- The digits of a decimal with the point at its place. -/
def positionalText (layout : FloatLayout) (digits : Bytes) (exponent : Int) : Bytes :=
  if 0 ≤ exponent then
    digits ++ List.replicate exponent.toNat 48 ++ layout.wholeEnd
  else
    let places := (-exponent).toNat
    if places < digits.length then
      digits.take (digits.length - places) ++ 46 :: digits.drop (digits.length - places)
    else 48 :: 46 :: (List.replicate (places - digits.length) 48 ++ digits)

/-- The digits of a decimal with the point behind the first of them, and an exponent. -/
def exponentText (digits : Bytes) (place : Int) : Bytes :=
  let fraction := digits.drop 1
  digits.take 1 ++ (if fraction.isEmpty then [] else 46 :: fraction) ++
    101 :: Numeral.ofInt place

def decimalText (layout : FloatLayout) (d : Decimal) : Bytes :=
  let digits := Numeral.digits d.digits
  let place := d.exponent + digits.length - 1
  if layout.isPositional place then layout.positionalText digits d.exponent
  else exponentText digits place

end FloatLayout

/-- The text of a datum.  What is not a number has no sign. -/
def Binary.text {f : FloatType} (layout : FloatLayout) (x : Binary f) : Bytes :=
  if x.isNaN then Bytes.ofString "NaN"
  else
    let magnitude :=
      if x.isInfinite then Bytes.ofString "inf"
      else if x.isZero then 48 :: layout.wholeEnd
      else layout.decimalText (f.shortest x.code)
    if x.negative then 45 :: magnitude else magnitude

end ValueText
