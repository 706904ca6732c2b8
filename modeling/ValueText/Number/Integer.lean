/-!
# Bounded integers

The ten integer types that elements and numbers can have, each a range of the integers.  The
pointer-sized types are 64 bits wide.
-/

namespace ValueText

/-- An integer type by width and sign. -/
inductive IntType where
  | i8 | i16 | i32 | i64 | isize
  | u8 | u16 | u32 | u64 | usize
  deriving DecidableEq, Repr

namespace IntType

def name : IntType → String
  | i8 => "i8" | i16 => "i16" | i32 => "i32" | i64 => "i64" | isize => "isize"
  | u8 => "u8" | u16 => "u16" | u32 => "u32" | u64 => "u64" | usize => "usize"

def width : IntType → Nat
  | i8 | u8 => 8
  | i16 | u16 => 16
  | i32 | u32 => 32
  | i64 | isize | u64 | usize => 64

def signed : IntType → Bool
  | i8 | i16 | i32 | i64 | isize => true
  | u8 | u16 | u32 | u64 | usize => false

/-- The number of values of the type that are not negative. -/
def bound (k : IntType) : Nat := Nat.pow 2 (if k.signed then k.width - 1 else k.width)

def least (k : IntType) : Int := if k.signed then -(k.bound : Int) else 0

def greatest (k : IntType) : Int := k.bound - 1

/-- Every integer type has zero, from below and (`zero_le_greatest`) from above. -/
theorem least_le_zero (k : IntType) : k.least ≤ 0 := by cases k <;> decide

theorem zero_le_greatest (k : IntType) : 0 ≤ k.greatest := by cases k <;> decide

end IntType

/-- A value of an integer type. -/
structure Integer (k : IntType) where
  toInt : Int
  least_le : k.least ≤ toInt
  le_greatest : toInt ≤ k.greatest
  deriving DecidableEq

namespace Integer

variable {k : IntType}

def zero : Integer k := ⟨0, k.least_le_zero, k.zero_le_greatest⟩

/-- The value of the type that is a given integer, if it is in the range of the type. -/
def ofInt? (k : IntType) (v : Int) : Option (Integer k) :=
  if h : k.least ≤ v ∧ v ≤ k.greatest then some ⟨v, h.1, h.2⟩ else none

/-- A byte as a number. -/
def ofByte (b : UInt8) : Integer .u8 :=
  ⟨b.toNat, Int.natCast_nonneg _, by
    have := b.toNat_lt
    have hg : IntType.greatest .u8 = 255 := by decide
    omega⟩

/-- A value of the type `u8` as a byte. -/
def toByte (v : Integer .u8) : UInt8 := UInt8.ofNat v.toInt.toNat

/-- An integer of a type is found again as the integer of that type. -/
theorem ofInt?_toInt (v : Integer k) : ofInt? k v.toInt = some v := by
  simp [ofInt?, v.least_le, v.le_greatest]

/-- There is no value of the type exactly outside of its range. -/
theorem ofInt?_eq_none_iff {v : Int} :
    ofInt? k v = none ↔ v < k.least ∨ k.greatest < v := by
  unfold ofInt?
  split <;> simp <;> omega

/-- A byte is kept by being made an integer of one byte and a byte again. -/
@[simp] theorem toByte_ofByte (b : UInt8) : toByte (ofByte b) = b := by
  simp [toByte, ofByte]

end Integer

end ValueText
