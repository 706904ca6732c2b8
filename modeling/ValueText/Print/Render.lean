import ValueText.Print.HasForm

/-!
# Rendering

The text of a form is put out piece by piece, to whatever takes bytes.  Where a piece is not
taken, what follows it is not put out either, so that a destination which fills up keeps the
beginning of the text.

* `render`, `renderAll`   put out one form, or several with nothing between them
* `format`                puts out to a buffer in memory, which never fills up
-/

namespace ValueText

/-- An action that takes bytes. -/
class Out (m : Type → Type) where
  put : Bytes → m Unit
  /-- Takes a piece that comes in fragments.  They are gathered first, unless there is a more
      direct way. -/
  putFragments : List Bytes → m Unit := fun fragments => put fragments.flatten

section

variable {m : Type → Type} [Monad m] [Out m]

def renderAtom : Atom → m Unit
  | .bool true => Out.put (Bytes.ofString "true")
  | .bool false => Out.put (Bytes.ofString "false")
  | .integer v => Out.putFragments (Atom.fragments (Numeral.ofInt v))
  | .float x => Out.putFragments (Atom.fragments (x.text .plain))
  | .char c => Out.put [c]

/-- Puts out an element of a list: a run of characters in quotes, any other form as `plain`
    does. -/
def renderElement (plain : m Unit) : Form → m Unit
  | .chars cs => do
    Out.put Form.quote
    Out.put cs
    Out.put Form.quote
  | _ => plain

mutual

def render : Form → m Unit
  | .atom a => renderAtom a
  | .chars cs => Out.put cs
  | .list items => do
    if items.isEmpty then Out.put Form.emptyMark
    else
      Out.put Form.opening
      renderFrom 0 items
      Out.put Form.closing

/-- Puts out the elements of a list from the one with the index `i` on. -/
def renderFrom (i : Nat) : List Form → m Unit
  | [] => pure ()
  | item :: items => do
    if 0 < i then Out.put Form.separator
    renderElement (render item) item
    renderFrom (i + 1) items

end

/-- Puts out several forms with nothing between them. -/
def renderAll : List Form → m Unit
  | [] => pure ()
  | arg :: args => do
    render arg
    renderAll args

end

abbrev TextBuffer := StateM (Array Char8)

instance : Out TextBuffer where
  put piece buffer := ((), buffer ++ piece)

/-- The text of several forms, one after another with nothing between them, as a fresh
    block of characters. -/
def format (args : List Form) : Block Char8 :=
  Block.ofArray ((renderAll args : TextBuffer Unit).run #[]).2

end ValueText
