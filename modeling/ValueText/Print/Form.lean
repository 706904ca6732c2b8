import ValueText.Number.Integer
import ValueText.Float.Layout

/-!
# Forms and their text

A form is what printing can see of a value: a number, truth value or single character, a run
of characters, or a list of forms.

* A truth value is `true` or `false`, a number its plain decimal numeral, a character its byte.
* A run of characters is those characters; inside a list it stands in double quotes.
* A list is its elements in brackets with `, ` between them, and `[empty]` without elements.

`Form.text` gives the text of a form by recursion on it.  How the text is put out is said in
`Print/Render`.
-/

namespace ValueText

/-- A value without parts. -/
inductive Atom where
  | bool (b : Bool)
  | integer (v : Int)
  | float {f : FloatType} (x : Binary f)
  | char (c : Char8)

def Atom.text : Atom → Bytes
  | .bool true => Bytes.ofString "true"
  | .bool false => Bytes.ofString "false"
  | .integer v => Numeral.ofInt v
  | .float x => x.text .plain
  | .char c => [c]

/-- The fragments that the numeral of a number is handed over in: a minus sign, and the
    magnitude. -/
def Atom.fragments (numeral : Bytes) : List Bytes :=
  match numeral with
  | 45 :: magnitude => [[45], magnitude]
  | magnitude => [magnitude]

/-- The fragments make up the numeral. -/
@[simp] theorem Atom.flatten_fragments (numeral : Bytes) :
    (fragments numeral).flatten = numeral := by
  unfold fragments
  split <;> simp

/-- What printing can see of a value. -/
inductive Form where
  | atom (a : Atom)
  | chars (cs : List Char8)
  | list (items : List Form)

namespace Form

/-- The text of a list without elements. -/
def emptyMark : Bytes := Bytes.ofString "[empty]"

def separator : Bytes := Bytes.ofString ", "

def opening : Bytes := Bytes.ofString "["

def closing : Bytes := Bytes.ofString "]"

/-- What stands on both sides of a run of characters inside a list. -/
def quote : Bytes := Bytes.ofString "\""

mutual

/-- The text of a form as it stands by itself, or as it stands inside a list. -/
def textAt (inList : Bool) : Form → Bytes
  | .atom a => a.text
  | .chars cs => if inList then quote ++ cs ++ quote else cs
  | .list [] => emptyMark
  | .list (item :: items) => opening ++ item.textAt true ++ textOfRest items

/-- The text of the elements of a list from the second on, to the end of the list. -/
def textOfRest : List Form → Bytes
  | [] => closing
  | item :: items => separator ++ item.textAt true ++ textOfRest items

end

def text (form : Form) : Bytes := form.textAt false

end Form

end ValueText
