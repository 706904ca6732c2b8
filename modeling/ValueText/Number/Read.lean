import ValueText.Number.Error
import ValueText.Number.Scan
import ValueText.Float.Rounding

/-!
# Reading numbers

Blanks at the beginning of a text are skipped, the number that follows is converted, and
whatever stands behind it is ignored.

* `readInteger`   an integer, exact or refused
* `readFloat`     the nearest floating-point datum, refused if a number overflows to infinity
  or if one that is not zero underflows to zero
-/

namespace ValueText

namespace Scan

/-- Appends a digit to a magnitude of 64 bits; nothing if the result would need more. -/
def appendDigit? (sum : UInt64) (d : Char8) : Option UInt64 :=
  let next := sum.toNat * 10 + Char8.digitValue d
  if h : next < UInt64.size then some (UInt64.ofNatLT next h) else none

/-- The magnitude of a run of digits; nothing as soon as it needs more than 64 bits. -/
def magnitude? (digits : Bytes) : Option UInt64 := digits.foldlM appendDigit? 0

end Scan

def readInteger (k : IntType) (text : Bytes) : Except NumberError (Integer k) :=
  let fail (fault : NumberFault) := .error ⟨fault, .integer k, Utf8.decodeReplacing text⟩
  match Scan.integer? (Scan.skipBlanks text) with
  | none => fail .noNumber
  | some (written, _) =>
    match Scan.magnitude? written.digits with
    | none => fail .outOfRange
    | some m =>
      let value : Int := if written.negative then -(m.toNat : Int) else m.toNat
      match Integer.ofInt? k value with
      | some v => .ok v
      | none => fail .outOfRange

def readFloat (f : FloatType) (text : Bytes) : Except NumberError (Binary f) :=
  let fail (fault : NumberFault) := .error ⟨fault, .float f, Utf8.decodeReplacing text⟩
  match Scan.float? (Scan.skipBlanks text) with
  | none => fail .noNumber
  | some (negative, .infinity, _) => .ok (.infinity f negative)
  | some (negative, .nan, _) => .ok (.nan f negative)
  | some (negative, .decimal digits exponent, _) =>
    let x := Binary.ofDecimal f negative (Numeral.value digits) digits.length exponent
    if x.isInfinite then fail .outOfRange
    else if x.isZero && digits.any (· != 48) then fail .outOfRange
    else .ok x

end ValueText
