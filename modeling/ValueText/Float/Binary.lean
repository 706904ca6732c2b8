/-!
# Binary floating-point data

A datum of a binary interchange format is a sign and a *code*, the bits behind the sign bit
read as a number.  Codes are ordered like the magnitudes that they stand for: the finite
codes come first, then the code of infinity, then those of the data that are not numbers.

Every finite magnitude is a whole number of *units*, the least positive magnitude of the
format, so that exact arithmetic on magnitudes is arithmetic of natural numbers.
-/

namespace ValueText

/-- A binary interchange format. -/
inductive FloatType where
  | f32 | f64
  deriving DecidableEq, Repr

namespace FloatType

def name : FloatType → String
  | f32 => "f32"
  | f64 => "f64"

def fractionBits : FloatType → Nat
  | f32 => 23
  | f64 => 52

def exponentBits : FloatType → Nat
  | f32 => 8
  | f64 => 11

/-- The number of codes that share an exponent field. -/
def binade (f : FloatType) : Nat := Nat.pow 2 f.fractionBits

/-- The number of codes. -/
def codeCount (f : FloatType) : Nat := Nat.pow 2 f.exponentBits * f.binade

/-- The unit, the least positive magnitude, is two to the power of minus this. -/
def unitBits (f : FloatType) : Nat := Nat.pow 2 (f.exponentBits - 1) + f.fractionBits - 2

/-- The code of infinity: an exponent field of ones and a fraction of zeros. -/
def infinityCode (f : FloatType) : Nat := (Nat.pow 2 f.exponentBits - 1) * f.binade

/-- No binade is empty, so that codes can be divided by its size. -/
theorem binade_pos (f : FloatType) : 0 < f.binade := by cases f <;> decide

theorem codeCount_pos (f : FloatType) : 0 < f.codeCount := by cases f <;> decide

/-- Behind the code of infinity there is still one for what is not a number. -/
theorem infinityCode_add_one_lt (f : FloatType) : f.infinityCode + 1 < f.codeCount := by
  cases f <;> decide

/-- The scale of a code: magnitudes with this code are a multiple of two to this power, in
    units.  Subnormal numbers share the scale of the smallest normal ones. -/
def scale (f : FloatType) (code : Nat) : Nat := code / f.binade - 1

/-- The magnitude of a code in units. -/
def units (f : FloatType) (code : Nat) : Nat :=
  if code < f.binade then code
  else (f.binade + code % f.binade) * Nat.pow 2 (f.scale code)

end FloatType

/-- A datum of a binary interchange format. -/
structure Binary (f : FloatType) where
  /-- Whether the sign bit is set. -/
  negative : Bool
  /-- The bits behind the sign bit, as a number. -/
  code : Nat
  code_lt : code < f.codeCount

namespace Binary

variable {f : FloatType}

def zero (f : FloatType) (negative : Bool) : Binary f := ⟨negative, 0, f.codeCount_pos⟩

def infinity (f : FloatType) (negative : Bool) : Binary f :=
  ⟨negative, f.infinityCode, Nat.lt_of_succ_lt f.infinityCode_add_one_lt⟩

def nan (f : FloatType) (negative : Bool) : Binary f :=
  ⟨negative, f.infinityCode + 1, f.infinityCode_add_one_lt⟩

/-- The datum with given bits, the sign bit foremost. -/
def ofBits (f : FloatType) (bits : Nat) : Binary f :=
  ⟨bits / f.codeCount % 2 == 1, bits % f.codeCount, Nat.mod_lt _ f.codeCount_pos⟩

/-- The bits of a datum, the sign bit foremost. -/
def toBits (x : Binary f) : Nat := (if x.negative then f.codeCount else 0) + x.code

def isNaN (x : Binary f) : Bool := f.infinityCode < x.code

def isInfinite (x : Binary f) : Bool := x.code == f.infinityCode

def isZero (x : Binary f) : Bool := x.code == 0

/-- Numerical equality: the two zeros are equal, and what is not a number equals nothing. -/
instance : BEq (Binary f) :=
  ⟨fun x y => !x.isNaN && !y.isNaN &&
    (x.code == y.code && (x.negative == y.negative || x.code == 0))⟩

/-- A datum is determined by its bits. -/
@[simp] theorem ofBits_toBits (x : Binary f) : ofBits f x.toBits = x := by
  obtain ⟨negative, code, h⟩ := x
  have hpos := f.codeCount_pos
  cases negative
  · simp [ofBits, toBits, Nat.mod_eq_of_lt h, Nat.div_eq_of_lt h]
  -- The sign bit is above all codes, so division tells it from the code.
  · have hdiv : (f.codeCount + code) / f.codeCount = 1 := by
      rw [Nat.add_div_left _ hpos, Nat.div_eq_of_lt h]
    have hmod : (f.codeCount + code) % f.codeCount = code := by
      rw [Nat.add_mod_left, Nat.mod_eq_of_lt h]
    simp [ofBits, toBits, hdiv, hmod]

end Binary

end ValueText
