import ValueText.Print.Form
import ValueText.Storage.Frozen
import ValueText.Storage.Fixed

/-!
# The form of values

`HasForm` says what printing sees of a value.  What the elements are decides whether a
container is text or a list: a container of characters is a run of characters, any other
container is a list of the forms of its elements.  Which container it is makes no difference,
nor does anything that the container hides.

A reference has the form of its target, but a container of references is always a list.
-/

namespace ValueText

/-- Values with a form. -/
class HasForm (α : Type) where
  form : α → Form
  /-- The form of a container with these elements. -/
  sequence : List α → Form := fun items => .list (items.map form)

export HasForm (form)

/-- A reference to a value. -/
structure Ref (α : Type) where
  target : α

instance : HasForm Bool where
  form b := .atom (.bool b)

instance {k : IntType} : HasForm (Integer k) where
  form v := .atom (.integer v.toInt)

instance {f : FloatType} : HasForm (Binary f) where
  form x := .atom (.float x)

instance : HasForm Char8 where
  form c := .atom (.char c)
  sequence := .chars

/-- A form is its own form, so that values of several types can be held by one container. -/
instance : HasForm Form where
  form := id

instance : HasForm String where
  form s := .chars (Bytes.ofString s)

section Containers

variable {α : Type} [HasForm α]

instance : HasForm (List α) where
  form items := HasForm.sequence items

instance : HasForm (Block α) where
  form b := HasForm.sequence b.toList

instance : HasForm (Frozen α) where
  form f := HasForm.sequence f.toList

instance : HasForm (View α) where
  form s := HasForm.sequence s.toList

instance {n : Nat} : HasForm (Fixed α n) where
  form l := HasForm.sequence l.toList

instance : HasForm (Ref α) where
  form r := form r.target

end Containers

end ValueText
