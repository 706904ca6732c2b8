import ValueText.Print.HasForm

/-!
# Dumps

A dump shows how a value is built, for the eyes of a programmer.  It is written on one line or
spread out, with one part per line, four more spaces of indentation for each level and a comma
behind every part.  Floating-point data are told apart from integers, characters are shown by
their number.
-/

namespace ValueText

/-- The structure of a value as a dump shows it. -/
inductive Dump where
  | leaf (text : Bytes)
  | list (items : List Dump)
  /-- A constructor with one unnamed field. -/
  | wrapped (name : Bytes) (field : Dump)
  /-- A constructor with one named field. -/
  | record (name label : Bytes) (field : Dump)

namespace Dump

mutual

/-- The dump on one line. -/
def compact : Dump → Bytes
  | .leaf text => text
  | .list [] => Bytes.ofString "[]"
  | .list (item :: items) => Bytes.ofString "[" ++ item.compact ++ compactRest items
  | .wrapped name field => name ++ Bytes.ofString "(" ++ field.compact ++ Bytes.ofString ")"
  | .record name label field =>
    name ++ Bytes.ofString " \x7b " ++ label ++ Bytes.ofString ": " ++ field.compact ++
      Bytes.ofString " \x7d"

/-- The items of a list from the second on, to the end of the list, on one line. -/
def compactRest : List Dump → Bytes
  | [] => Bytes.ofString "]"
  | item :: items => Bytes.ofString ", " ++ item.compact ++ compactRest items

end

def indent (level : Nat) : Bytes := List.replicate (4 * level) 32

/-- The end of a part, behind its comma. -/
def partEnd : Bytes := Bytes.ofString ",\n"

mutual

/-- The dump spread out, its first line being continued from `level`. -/
def spread (level : Nat) : Dump → Bytes
  | .leaf text => text
  | .list [] => Bytes.ofString "[]"
  | .list (item :: items) =>
    Bytes.ofString "[\n" ++ indent (level + 1) ++ item.spread (level + 1) ++ partEnd ++
      spreadRest level items
  | .wrapped name field =>
    name ++ Bytes.ofString "(\n" ++ indent (level + 1) ++ field.spread (level + 1) ++ partEnd ++
      indent level ++ Bytes.ofString ")"
  | .record name label field =>
    name ++ Bytes.ofString " \x7b\n" ++ indent (level + 1) ++ label ++ Bytes.ofString ": " ++
      field.spread (level + 1) ++ partEnd ++ indent level ++ Bytes.ofString "\x7d"

/-- The items of a list from the second on, to the end of the list, one per line. -/
def spreadRest (level : Nat) : List Dump → Bytes
  | [] => indent level ++ Bytes.ofString "]"
  | item :: items =>
    indent (level + 1) ++ item.spread (level + 1) ++ partEnd ++ spreadRest level items

end

/-- The text of a dump, spread out or on one line. -/
def text (pretty : Bool) (d : Dump) : Bytes := if pretty then d.spread 0 else d.compact

end Dump

/-- Values that can be dumped. -/
class Inspect (α : Type) where
  dump : α → Dump

export Inspect (dump)

instance : Inspect Bool := ⟨fun b => .leaf (Atom.bool b).text⟩
instance {k : IntType} : Inspect (Integer k) := ⟨fun v => .leaf (Numeral.ofInt v.toInt)⟩
instance {f : FloatType} : Inspect (Binary f) := ⟨fun x => .leaf (x.text .exact)⟩

instance : Inspect Char8 :=
  ⟨fun c => .wrapped (Bytes.ofString "Char") (.leaf (Numeral.digits c.toNat))⟩

section Containers

variable {α : Type} [Inspect α]

instance : Inspect (Block α) := ⟨fun b => .list (b.toList.map dump)⟩
instance : Inspect (Frozen α) := ⟨fun f => .list (f.toList.map dump)⟩
instance : Inspect (View α) := ⟨fun s => .list (s.toList.map dump)⟩

instance {n : Nat} : Inspect (Fixed α n) :=
  ⟨fun l => .record (Bytes.ofString "LiteralArray") (Bytes.ofString "values")
    (.list (l.toList.map dump))⟩

end Containers

end ValueText
