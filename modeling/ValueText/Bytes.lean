/-!
# Bytes and one-byte characters

A character of this library is one byte, and a text is a run of such bytes, with no promise
that they are valid UTF-8.  This module fixes both names and the ASCII classes that reading
numbers and settings needs:

* `Char8.isDigit`   the ten digits
* `Char8.isBlank`   the five bytes that may stand before a number
* `Char8.toLower`   the lower-case letter of an upper-case one, all else unchanged
-/

namespace ValueText

/-- A character is one byte. -/
abbrev Char8 := UInt8

/-- A run of characters, equally the bytes of an encoded text. -/
abbrev Bytes := List Char8

namespace Bytes

/-- The UTF-8 bytes of a string. -/
def ofString (s : String) : Bytes := s.toByteArray.data.toList

end Bytes

namespace Char8

/-- The character that a new element starts as. -/
def nul : Char8 := 0

def lineFeed : Char8 := 10

/-- The carriage return, which may stand before a line feed. -/
def carriageReturn : Char8 := 13

def isDigit (c : Char8) : Bool := 48 ≤ c && c ≤ 57

/-- The number that a digit stands for. -/
def digitValue (c : Char8) : Nat := c.toNat - 48

def ofDigit (d : Nat) : Char8 := UInt8.ofNat (48 + d)

/-- A byte that may stand before a number: tab, line feed, form feed, carriage return or
    space.  The vertical tab is not among them. -/
def isBlank (c : Char8) : Bool := c == 9 || c == 10 || c == 12 || c == 13 || c == 32

/-- The lower-case letter of an upper-case ASCII letter; every other byte is kept. -/
def toLower (c : Char8) : Char8 := if 65 ≤ c && c ≤ 90 then c + 32 else c

/-- The Unicode character whose code point is the byte. -/
def toChar (c : Char8) : Char := Char.ofNat c.toNat

end Char8

end ValueText
