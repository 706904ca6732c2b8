import ValueText.Number.Read

/-!
# Reading integers in machine steps

`readInteger` takes a text apart by what is left of it and computes with unbounded numbers.
Here the same reading is spelled out over positions in the text and 64-bit words.  Two of its
steps need not have a result, and trap where they have none: a slice whose bounds are not in
the text, and a difference of bytes that is not a byte.  Sums and products of words are
checked, so a number that outgrows its word is noticed at the digit where that happens.

* `Stepwise.scanInteger`   the sign and the digits at the beginning of a text
* `Stepwise.accumulate`    the magnitude of a run of digits
* `Stepwise.readInt64`, `Stepwise.readUInt64`   the two readers, which differ in how they
  treat a sign
-/

namespace ValueText

/-- Why a step has no result. -/
inductive Trap where
  /-- The range `[first, last)` is reversed or ends beyond the bytes. -/
  | slice (first last length : Nat)
  /-- The result is not in the range of its word. -/
  | overflow
  deriving DecidableEq, Repr

/-- A computation whose steps may trap. -/
abbrev Stepwise := Except Trap

namespace Stepwise

/-- The bytes in the range `[first, last)`. -/
def slice (bytes : Bytes) (first last : Nat) : Stepwise Bytes :=
  if first ≤ last ∧ last ≤ bytes.length then .ok ((bytes.drop first).take (last - first))
  else .error (.slice first last bytes.length)

/-- The difference of two bytes. -/
def subtract (a b : UInt8) : Stepwise UInt8 :=
  if b ≤ a then .ok (a - b) else .error .overflow

/-- The number of bytes of a class at the beginning of a text. -/
def countLeading (p : Char8 → Bool) (bytes : Bytes) : Nat := (bytes.takeWhile p).length

/-- Whether there is a minus sign at a position, and the position behind a sign. -/
def signAt (bytes : Bytes) (pos : Nat) : Bool × Nat :=
  match bytes[pos]? with
  | some 45 => (true, pos + 1)
  | some 43 => (false, pos + 1)
  | _ => (false, pos)

/-- Whether an integer has a minus sign, and its digits; nothing if it has no digits. -/
def scanInteger (bytes : Bytes) : Stepwise (Option (Bool × Bytes)) := do
  let (negative, pos) := signAt bytes (countLeading Char8.isBlank bytes)
  let unsigned ← slice bytes pos bytes.length
  let count := countLeading Char8.isDigit unsigned
  if count = 0 then return none
  let digits ← slice bytes pos (pos + count)
  return some (negative, digits)

def product? (a b : UInt64) : Option UInt64 :=
  if a.toNat * b.toNat < UInt64.size then some (a * b) else none

def sum? (a b : UInt64) : Option UInt64 :=
  if a.toNat + b.toNat < UInt64.size then some (a + b) else none

/-- The magnitude of a run of digits behind those that make up `sum`; nothing as soon as it
    is not a word. -/
def accumulate (sum : UInt64) : Bytes → Stepwise (Option UInt64)
  | [] => return some sum
  | d :: ds => do
    let some tens := product? sum 10 | return none
    let digit ← subtract d 48
    let some next := sum? tens digit.toUInt64 | return none
    accumulate next ds

end Stepwise

/-- A 64-bit word with a sign as a number. -/
def Integer.ofInt64 (v : Int64) : Integer .i64 :=
  ⟨v.toInt, v.le_toInt, Int.le_sub_one_of_lt v.toInt_lt⟩

def Integer.ofUInt64 (v : UInt64) : Integer .u64 :=
  ⟨v.toNat, Int.natCast_nonneg _, Int.le_sub_one_of_lt (Int.ofNat_lt.2 v.toNat_lt)⟩

/-- A signed word is the integer that it stands for, in two's complement. -/
@[simp] theorem Integer.toInt_ofInt64 (v : Int64) : (ofInt64 v).toInt = v.toInt := rfl

/-- An unsigned word is the integer that it stands for. -/
@[simp] theorem Integer.toInt_ofUInt64 (v : UInt64) : (ofUInt64 v).toInt = v.toNat := rfl

namespace Stepwise

/-- The signed word of a magnitude, if there is one.  The magnitude of the least one is beyond
    the greatest one, and as a word it is its own negation. -/
def signedWord? (negative : Bool) (magnitude : UInt64) : Option (Integer .i64) :=
  if negative then
    if Int64.maxValue.toUInt64 + 1 < magnitude then none
    else some (.ofInt64 (-magnitude.toInt64))
  else if Int64.maxValue.toUInt64 < magnitude then none
  else some (.ofInt64 magnitude.toInt64)

/-- The unsigned word of a magnitude.  Behind a minus sign there can only be zero. -/
def unsignedWord? (negative : Bool) (magnitude : UInt64) : Option (Integer .u64) :=
  if negative && magnitude != 0 then none else some (.ofUInt64 magnitude)

/-- Reads an integer of a type, whose words `word?` finds. -/
def readWord (k : IntType) (word? : Bool → UInt64 → Option (Integer k)) (text : Bytes) :
    Stepwise (Except NumberError (Integer k)) := do
  let fail (fault : NumberFault) := .error ⟨fault, .integer k, Utf8.decodeReplacing text⟩
  let some (negative, digits) ← scanInteger text | return fail .noNumber
  let some magnitude ← accumulate 0 digits | return fail .outOfRange
  match word? negative magnitude with
  | some v => return .ok v
  | none => return fail .outOfRange

def readInt64 (text : Bytes) : Stepwise (Except NumberError (Integer .i64)) :=
  readWord .i64 signedWord? text

def readUInt64 (text : Bytes) : Stepwise (Except NumberError (Integer .u64)) :=
  readWord .u64 unsignedWord? text

end Stepwise

end ValueText
