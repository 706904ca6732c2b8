import ValueText.Print.Dump

/-!
# Element types

The closed family of types that the elements of a block can have, as codes with an
interpretation.  Elements that are blocks themselves are blocks that can be written, or frozen
ones, depending on the access that they are reached by; the access is the same at every depth.

* `copy`     copies an element: each block in it is copied as by `Block.copyWith`
* `freeze`   copies an element for reading: each block in it becomes a frozen block that owns
  a buffer of exactly the visible elements, whatever it owned before
-/

namespace ValueText

/-- A type of elements. -/
inductive ElementType where
  | bool
  | integer (k : IntType)
  | float (f : FloatType)
  | char
  | block (item : ElementType)
  deriving DecidableEq, Repr

def ElementType.text : ElementType := .block .char

/-- What can be done to elements that are blocks. -/
inductive Access where
  | editable
  | readOnly
  deriving DecidableEq, Repr

/-- A block for an access. -/
abbrev Access.Container : Access → Type → Type
  | .editable, α => Block α
  | .readOnly, α => Frozen α

/-- The values of an element type. -/
def ElementType.Value (access : Access) : ElementType → Type
  | .bool => Bool
  | .integer k => Integer k
  | .float f => Binary f
  | .char => Char8
  | .block item => access.Container (item.Value access)

namespace ElementType

/-- What a new element starts as: false, zero, the zero byte, or a block without a buffer. -/
def initial (access : Access) : (t : ElementType) → t.Value access
  | .bool => false
  | .integer _ => Integer.zero
  | .float f => Binary.zero f false
  | .char => Char8.nul
  | .block _ =>
    match access with
    | .editable => Block.empty
    | .readOnly => Frozen.empty

@[reducible] def hasForm (access : Access) : (t : ElementType) → HasForm (t.Value access)
  | .bool => inferInstanceAs (HasForm Bool)
  | .integer k => inferInstanceAs (HasForm (Integer k))
  | .float f => inferInstanceAs (HasForm (Binary f))
  | .char => inferInstanceAs (HasForm Char8)
  | .block item =>
    have := hasForm access item
    match access with
    | .editable => inferInstanceAs (HasForm (Block (item.Value .editable)))
    | .readOnly => inferInstanceAs (HasForm (Frozen (item.Value .readOnly)))

instance {access : Access} {t : ElementType} : HasForm (t.Value access) := t.hasForm access

@[reducible] def inspect (access : Access) : (t : ElementType) → Inspect (t.Value access)
  | .bool => inferInstanceAs (Inspect Bool)
  | .integer k => inferInstanceAs (Inspect (Integer k))
  | .float f => inferInstanceAs (Inspect (Binary f))
  | .char => inferInstanceAs (Inspect Char8)
  | .block item =>
    have := inspect access item
    match access with
    | .editable => inferInstanceAs (Inspect (Block (item.Value .editable)))
    | .readOnly => inferInstanceAs (Inspect (Frozen (item.Value .readOnly)))

instance {access : Access} {t : ElementType} : Inspect (t.Value access) := t.inspect access

/-- The equality of elements: blocks by their visible elements, floating-point data as
    numbers. -/
@[reducible] def beq (access : Access) : (t : ElementType) → BEq (t.Value access)
  | .bool => inferInstanceAs (BEq Bool)
  | .integer k => inferInstanceAs (BEq (Integer k))
  | .float f => inferInstanceAs (BEq (Binary f))
  | .char => inferInstanceAs (BEq Char8)
  | .block item =>
    have := beq access item
    match access with
    | .editable => inferInstanceAs (BEq (Block (item.Value .editable)))
    | .readOnly => inferInstanceAs (BEq (Frozen (item.Value .readOnly)))

instance {access : Access} {t : ElementType} : BEq (t.Value access) := t.beq access

/-- A copy of an element that shares nothing with it. -/
def copy (access : Access) : (t : ElementType) → t.Value access → t.Value access
  | .bool, x | .integer _, x | .float _, x | .char, x => x
  | .block item, x =>
    match access, x with
    | .editable, b => Block.copyWith (item.copy .editable) b
    | .readOnly, f => Frozen.copyWith (item.copy .readOnly) f

/-- A copy of an element that can only be read. -/
def freeze (access : Access) : (t : ElementType) → t.Value access → t.Value .readOnly
  | .bool, x | .integer _, x | .float _, x | .char, x => x
  | .block item, x =>
    match access, x with
    | .editable, b => Frozen.ofList (b.toList.map (item.freeze .editable))
    | .readOnly, f => Frozen.ofList (f.toList.map (item.freeze .readOnly))

/-- An element that can be written, as an element for some access. -/
def adapt (t : ElementType) (access : Access) (x : t.Value .editable) : t.Value access :=
  match access with
  | .editable => x
  | .readOnly => t.freeze .editable x

end ElementType

end ValueText
