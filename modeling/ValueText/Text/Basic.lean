import ValueText.Print.Render
import ValueText.Utf8

/-!
# Texts

An owned text is a block of characters.  Other things can be read as a run of characters as
well, among them byte arrays of other hosts that mark their end by a zero byte.

* `HasChars`            everything that can be read as a run of characters
* `Text.toZeroEnded`    a text as bytes with a zero byte behind them
* `View.ofZeroEnded`    a view of the bytes before the first zero byte
-/

namespace ValueText

/-- An owned text. -/
abbrev Text := Block Char8

/-- Values that can be read as a run of characters. -/
class HasChars (α : Type) where
  chars : α → List Char8

export HasChars (chars)

instance : HasChars (List Char8) := ⟨id⟩
instance : HasChars (List (Integer .u8)) := ⟨fun bytes => bytes.map Integer.toByte⟩
instance : HasChars String := ⟨Bytes.ofString⟩
instance : HasChars (Block Char8) := ⟨Block.toList⟩
instance : HasChars (Frozen Char8) := ⟨Frozen.toList⟩
instance : HasChars (View Char8) := ⟨View.toList⟩
instance {n : Nat} : HasChars (Fixed Char8 n) := ⟨Fixed.toList⟩
instance {α : Type} [HasChars α] : HasChars (Ref α) := ⟨fun r => chars r.target⟩

/-- The number of characters that a value is read as. -/
def len {α : Type} [HasChars α] (x : α) : Nat := (chars x).length

/-- Whether a value reads as the same bytes as a string. -/
def sameText {α : Type} [HasChars α] (x : α) (s : String) : Bool := chars x == Bytes.ofString s

namespace Text

def ofBytes (bytes : Bytes) : Text := Block.ofList bytes

def ofString (s : String) : Text := ofBytes (Bytes.ofString s)

/-- The text of a value, owned. -/
def ofValue {α : Type} [HasForm α] (x : α) : Text := format [form x]

/-- The bytes of a text with a zero byte behind them. -/
def toZeroEnded (t : Text) : Bytes := t.toList ++ [0]

/-- The string of a text, with malformed UTF-8 replaced. -/
def toStringReplacing (t : Text) : String := Utf8.decodeReplacing t.toList

/-- The texts of the arguments of a process. -/
def ofArguments (args : List Bytes) : Block Text := Block.ofList (args.map ofBytes)

/-- The text of some bytes shows these bytes. -/
@[simp] theorem toList_ofBytes (bytes : Bytes) : (ofBytes bytes).toList = bytes :=
  Block.toList_ofList bytes

end Text

/-- The view of the bytes before the first zero byte, or of all of them if there is none. -/
def View.ofZeroEnded (bytes : Bytes) : View Char8 := View.ofList (bytes.takeWhile (· != 0))

/-- What is read is what stands before the first zero byte. -/
@[simp] theorem View.toList_ofZeroEnded (bytes : Bytes) :
    (ofZeroEnded bytes).toList = bytes.takeWhile (· != 0) :=
  View.toList_ofList _

end ValueText
