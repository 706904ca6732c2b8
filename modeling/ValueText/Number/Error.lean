import ValueText.Number.Integer
import ValueText.Float.Binary
import ValueText.Utf8

/-!
# Errors of reading numbers

Text that does not begin with a number is told apart from a number that its type cannot hold.
Either error carries the type that was asked for and the whole text.
-/

namespace ValueText

/-- A type that numbers are read as. -/
inductive NumberType where
  | integer (k : IntType)
  | float (f : FloatType)
  deriving DecidableEq, Repr

def NumberType.name : NumberType → String
  | .integer k => k.name
  | .float f => f.name

/-- What keeps a text from being read as a number. -/
inductive NumberFault where
  /-- The text does not begin with a number of the type. -/
  | noNumber
  /-- The number does not fit into the type. -/
  | outOfRange
  deriving DecidableEq, Repr

def NumberFault.message : NumberFault → String
  | .noNumber => "invalid argument"
  | .outOfRange => "out of range"

/-- A text that could not be read as a number. -/
structure NumberError where
  fault : NumberFault
  target : NumberType
  /-- The whole text, with malformed UTF-8 replaced. -/
  text : String
  deriving DecidableEq, Repr

/-- The wording of an error of reading a number.  The text is shown as it is. -/
def NumberError.message (e : NumberError) : String :=
  "cannot parse \"" ++ e.text ++ "\" as " ++ e.target.name ++ ": " ++ e.fault.message

/-- What would have been read. -/
def NumberError.help (e : NumberError) : String :=
  "Expected a base-10 " ++ e.target.name ++ " value"

end ValueText
