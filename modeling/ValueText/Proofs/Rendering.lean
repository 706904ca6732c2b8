import ValueText.Proofs.RenderedText

/-!
# Rendering computes the text of every value

What printing sees of a value is decided by its type (`HasForm`).  Here the text of a value is
said once more, by recursion on the type of the value and without forms: a text is its bytes,
any other container its elements in brackets, with quotes around those elements that are texts.

The types are codes, so that the statement ranges over all of them: every nesting of containers
and references over numbers, truth values, characters and strings.  The elements of a container
may also be values of different types (`PrintType.dynamic`): a dynamic value carries its type,
and may itself have dynamic values as parts (`Dynamic`).

## Key results

- `form_agrees`: the form of a value has the text that the value has
- `render_eq_spelling`: rendering puts out that text, for every value and every type
-/

namespace ValueText

/-! ## Types of values -/

/-- A type of values that can be printed. -/
inductive PrintType where
  | bool
  | integer (k : IntType)
  | float (f : FloatType)
  | char
  | string
  | block (item : PrintType)
  | frozen (item : PrintType)
  | view (item : PrintType)
  | fixed (item : PrintType) (n : Nat)
  | slice (item : PrintType)
  | ref (target : PrintType)
  /-- A value that carries its type. -/
  | dynamic

namespace PrintType

/-- The values of a type, given the dynamic ones. -/
def Value (D : Type) : PrintType → Type
  | .bool => Bool
  | .integer k => Integer k
  | .float f => Binary f
  | .char => Char8
  | .string => String
  | .block item => Block (item.Value D)
  | .frozen item => Frozen (item.Value D)
  | .view item => View (item.Value D)
  | .fixed item n => Fixed (item.Value D) n
  | .slice item => List (item.Value D)
  | .ref target => Ref (target.Value D)
  | .dynamic => D

/-- The form of the values of a type. -/
@[reducible] def hasForm {D : Type} [HasForm D] : (t : PrintType) → HasForm (t.Value D)
  | .bool => inferInstanceAs (HasForm Bool)
  | .integer k => inferInstanceAs (HasForm (Integer k))
  | .float f => inferInstanceAs (HasForm (Binary f))
  | .char => inferInstanceAs (HasForm Char8)
  | .string => inferInstanceAs (HasForm String)
  | .block item => have := hasForm (D := D) item; inferInstanceAs (HasForm (Block (item.Value D)))
  | .frozen item => have := hasForm (D := D) item; inferInstanceAs (HasForm (Frozen (item.Value D)))
  | .view item => have := hasForm (D := D) item; inferInstanceAs (HasForm (View (item.Value D)))
  | .fixed item n =>
    have := hasForm (D := D) item; inferInstanceAs (HasForm (Fixed (item.Value D) n))
  | .slice item => have := hasForm (D := D) item; inferInstanceAs (HasForm (List (item.Value D)))
  | .ref target => have := hasForm (D := D) target; inferInstanceAs (HasForm (Ref (target.Value D)))
  | .dynamic => inferInstanceAs (HasForm D)

instance {D : Type} [HasForm D] {t : PrintType} : HasForm (t.Value D) := t.hasForm

end PrintType

/-- The dynamic values with at most `n` dynamic values one inside another. -/
def Dynamic : Nat → Type
  | 0 => Empty
  | n + 1 => Σ t : PrintType, t.Value (Dynamic n)

/-- A dynamic value has the form of what it carries. -/
@[reducible] def Dynamic.hasForm : (n : Nat) → HasForm (Dynamic n)
  | 0 => { form := Empty.elim }
  | n + 1 =>
    have := hasForm n
    { form := fun d : (Σ t : PrintType, t.Value (Dynamic n)) => form d.2 }

instance {n : Nat} : HasForm (Dynamic n) := Dynamic.hasForm n

/-! ## The text of a value -/

/-- Dynamic values with their text, and which of them are texts. -/
class Spelled (D : Type) where
  spelling : D → Bytes
  isText : D → Bool

/-- The text of an element of a list: in quotes if the element is itself a text. -/
def elementText (isText : Bool) (text : Bytes) : Bytes :=
  if isText then Form.quote ++ text ++ Form.quote else text

namespace PrintType

variable {D : Type}

/-- Whether containers with elements of a type are texts. -/
def isChar : PrintType → Bool
  | .char => true
  | _ => false

/-- Whether a value of a type is a text. -/
def isText [Spelled D] : (t : PrintType) → t.Value D → Bool
  | .bool, _ | .integer _, _ | .float _, _ | .char, _ => false
  | .string, _ => true
  | .block item, _ | .frozen item, _ | .view item, _ | .fixed item _, _ | .slice item, _ =>
    item.isChar
  | .ref target, r => target.isText (Ref.target r)
  | .dynamic, d => Spelled.isText (show D from d)

/-- The text of a container with elements of a type, given the text of an element. -/
def containerText : (item : PrintType) → (item.Value D → Bytes) → List (item.Value D) → Bytes
  | .char, _, cs => cs
  | _, _, [] => Form.emptyMark
  | _, element, x :: xs =>
    Form.opening ++ Form.separator.intercalate ((x :: xs).map element) ++ Form.closing

/-- The text of a value of a type. -/
def spelling [Spelled D] : (t : PrintType) → t.Value D → Bytes
  | .bool, true => Bytes.ofString "true"
  | .bool, false => Bytes.ofString "false"
  | .integer _, v => Numeral.ofInt (Integer.toInt v)
  | .float _, x => Binary.text .plain x
  | .char, c => [c]
  | .string, s => Bytes.ofString s
  | .block item, b =>
    item.containerText (fun x => elementText (item.isText x) (item.spelling x)) (Block.toList b)
  | .frozen item, f =>
    item.containerText (fun x => elementText (item.isText x) (item.spelling x)) (Frozen.toList f)
  | .view item, s =>
    item.containerText (fun x => elementText (item.isText x) (item.spelling x)) (View.toList s)
  | .fixed item _, l =>
    item.containerText (fun x => elementText (item.isText x) (item.spelling x)) (Fixed.toList l)
  | .slice item, xs =>
    item.containerText (fun x => elementText (item.isText x) (item.spelling x)) xs
  | .ref target, r => target.spelling (Ref.target r)
  | .dynamic, d => Spelled.spelling (show D from d)

end PrintType

/-- A dynamic value has the text of what it carries. -/
@[reducible] def Dynamic.spelled : (n : Nat) → Spelled (Dynamic n)
  | 0 => { spelling := Empty.elim, isText := Empty.elim }
  | n + 1 =>
    have := spelled n
    { spelling := fun d : (Σ t : PrintType, t.Value (Dynamic n)) => d.1.spelling d.2
      isText := fun d : (Σ t : PrintType, t.Value (Dynamic n)) => d.1.isText d.2 }

instance {n : Nat} : Spelled (Dynamic n) := Dynamic.spelled n

/-! ## Agreement -/

/-- A form has a text, by itself and as an element of a list. -/
structure Form.Agrees (form : Form) (isText : Bool) (text : Bytes) : Prop where
  text_eq : form.text = text
  element_eq : form.textAt true = elementText isText text

/-- In a list with separators, each element but the first stands behind one. -/
theorem intercalate_cons_eq_append (sep first : Bytes) (rest : List Bytes) :
    sep.intercalate (first :: rest) = first ++ rest.flatMap (sep ++ ·) := by
  -- By the other elements; the next one takes the place of the first.
  induction rest generalizing first with
  | nil => simp [List.intercalate]
  | cons second rest ih =>
    have hcons : sep.intercalate (first :: second :: rest) =
        first ++ (sep ++ sep.intercalate (second :: rest)) := by
      simp [List.intercalate]
    rw [hcons, ih, List.flatMap_cons, List.append_assoc]

namespace Form

/-- The text of a list is the same by itself and inside a list. -/
theorem textAt_list_cons (inList : Bool) (item : Form) (items : List Form) :
    (list (item :: items)).textAt inList =
      opening ++ separator.intercalate ((item :: items).map (textAt true)) ++ closing := by
  rw [textAt, textOfRest_eq, followers, List.map_cons, intercalate_cons_eq_append,
    List.flatMap_map, ← List.append_assoc, ← List.append_assoc]

end Form

/-- Dynamic values have their text, and a container of them is a list. -/
structure DynamicAgrees (D : Type) [HasForm D] [Spelled D] : Prop where
  agrees : ∀ d : D, (form d).Agrees (Spelled.isText d) (Spelled.spelling d)
  sequence_eq : ∀ ds : List D, HasForm.sequence ds = .list (ds.map form)

namespace PrintType

variable {D : Type} [HasForm D] [Spelled D]

/-- Whether a container is a list or a text is decided by the type of its elements. -/
theorem sequence_eq_list (hD : DynamicAgrees D) {item : PrintType} (hitem : item.isChar = false)
    (xs : List (item.Value D)) : HasForm.sequence xs = .list (xs.map form) := by
  cases item with
  | char => exact nomatch hitem
  | dynamic => exact hD.sequence_eq xs
  | _ => rfl

omit [HasForm D] [Spelled D] in
/-- An empty container has its mark, unless it is one of characters. -/
theorem containerText_nil {item : PrintType} (hitem : item.isChar = false)
    (element : item.Value D → Bytes) : item.containerText element [] = Form.emptyMark := by
  cases item with
  | char => exact nomatch hitem
  | _ => rfl

omit [HasForm D] [Spelled D] in
/-- A container has brackets around its elements and separators between them, unless it is one of
    characters. -/
theorem containerText_cons {item : PrintType} (hitem : item.isChar = false)
    (element : item.Value D → Bytes) (x : item.Value D) (xs : List (item.Value D)) :
    item.containerText element (x :: xs) =
      Form.opening ++ Form.separator.intercalate ((x :: xs).map element) ++ Form.closing := by
  cases item with
  | char => exact nomatch hitem
  | _ => rfl

/-- A list has the text that its elements give it. -/
theorem list_agrees {item : PrintType} (hitem : item.isChar = false)
    (h : ∀ x : item.Value D, (form x).Agrees (item.isText x) (item.spelling x))
    (xs : List (item.Value D)) :
    (Form.list (xs.map form)).Agrees false
      (item.containerText (fun x => elementText (item.isText x) (item.spelling x)) xs) := by
  -- Inside a list every element has the text that `elementText` says, quotes included.
  have helement : Form.textAt true ∘ form =
      fun x : item.Value D => elementText (item.isText x) (item.spelling x) :=
    funext fun x => (h x).element_eq
  have htext (inList : Bool) : (Form.list (xs.map form)).textAt inList =
      item.containerText (fun x => elementText (item.isText x) (item.spelling x)) xs := by
    cases xs with
    | nil =>
      rw [containerText_nil hitem]
      rfl
    | cons x xs =>
      rw [List.map_cons, Form.textAt_list_cons, ← List.map_cons, List.map_map, helement,
        containerText_cons hitem]
  exact ⟨htext false, htext true⟩

/-- A container has the text that its elements give it. -/
theorem container_agrees (hD : DynamicAgrees D) {item : PrintType}
    (h : ∀ x : item.Value D, (form x).Agrees (item.isText x) (item.spelling x))
    (xs : List (item.Value D)) :
    (HasForm.sequence xs).Agrees item.isChar
      (item.containerText (fun x => elementText (item.isText x) (item.spelling x)) xs) := by
  -- The same question decides on both sides: whether the elements are characters.
  cases hitem : item.isChar with
  | false =>
    rw [sequence_eq_list hD hitem]
    exact list_agrees hitem h xs
  | true =>
    cases item with
    | char => exact ⟨rfl, rfl⟩
    | _ => exact nomatch hitem

/-- The form of a value has the text of the value. -/
theorem form_agrees (hD : DynamicAgrees D) (t : PrintType) (x : t.Value D) :
    (form x).Agrees (t.isText x) (t.spelling x) := by
  -- By the type, as the spelling is; a container agrees if its elements do.
  induction t with
  | bool => cases x <;> exact ⟨rfl, rfl⟩
  | integer | float | char | string => exact ⟨rfl, rfl⟩
  | block item ih => exact container_agrees hD ih (Block.toList x)
  | frozen item ih => exact container_agrees hD ih (Frozen.toList x)
  | view item ih => exact container_agrees hD ih (View.toList x)
  | fixed item n ih => exact container_agrees hD ih (Fixed.toList x)
  | slice item ih => exact container_agrees hD ih x
  | ref target ih => exact ih (Ref.target x)
  | dynamic => exact hD.agrees x

end PrintType

/-- Dynamic values agree at every depth. -/
theorem Dynamic.dynamicAgrees (n : Nat) : DynamicAgrees (Dynamic n) := by
  -- A value of depth `n + 1` is a value over the dynamic values of depth `n`.
  induction n with
  | zero => exact ⟨fun d => Empty.elim d, fun ds => rfl⟩
  | succ n ih => exact ⟨fun d => d.1.form_agrees ih d.2, fun ds => rfl⟩

/-! ## The engine -/

/-- Rendering puts out the text of every value of every type, and formatting the texts of its
    arguments one after another.  A text without characters is put out as nothing by itself,
    and as two quotes inside a container. -/
theorem render_eq_spelling (n : Nat) :
    (∀ (t : PrintType) (x : t.Value (Dynamic n)) (buffer : Array Char8),
      (render (form x) : TextBuffer Unit) buffer = ((), buffer ++ t.spelling x)) ∧
    (∀ args : List (Dynamic n), (format (args.map form)).toList = args.flatMap Spelled.spelling) ∧
    (∀ (t : PrintType) (x : t.Value (Dynamic n)) (buffer : Array Char8), t.isText x = true →
      t.spelling x = [] →
        (render (form x) : TextBuffer Unit) buffer = ((), buffer) ∧
        (renderElement (render (form x)) (form x) : TextBuffer Unit) buffer =
          ((), buffer ++ Form.quote ++ Form.quote)) := by
  -- The form of a value has the text that is spelled, and rendering puts out just that.
  have hrender (t : PrintType) (x : t.Value (Dynamic n)) (buffer : Array Char8) :
      (render (form x) : TextBuffer Unit) buffer = ((), buffer ++ t.spelling x) := by
    rw [render_buffer, (t.form_agrees (Dynamic.dynamicAgrees n) x).text_eq]
  refine ⟨hrender, fun args => ?_, fun t x buffer htext hempty => ⟨?_, ?_⟩⟩
  · have hargs : Form.text ∘ form = (Spelled.spelling : Dynamic n → Bytes) :=
      funext fun d => ((Dynamic.dynamicAgrees n).agrees d).text_eq
    rw [toList_format, List.flatMap_map]
    exact congrArg args.flatMap hargs
  · rw [hrender, hempty, Array.appendList_nil]
  · -- As an element, what is put out is the text of the form inside a list.
    have helement := carries_renderElement TextBuffer.carries
      (fun buffer => render_buffer (form x) buffer) buffer
    rw [helement, (t.form_agrees (Dynamic.dynamicAgrees n) x).element_eq, htext, hempty]
    exact Prod.ext rfl (Array.ext' (by simp [elementText]))

end ValueText
