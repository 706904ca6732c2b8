import ValueText.Element

/-!
# Elements by what they show

An element that is a block shows its visible elements and nothing else: not its buffer, not
where in the buffer it begins, and not whether it owns one.  The plain value of an element keeps
just that, a list for every block in it, for both accesses alike.

## Key results

- `form_plain`, `dump_plain`, `beq_plain`: an element is printed, dumped and compared as its
  plain value
- `plain_copy`, `plain_freeze`, `plain_adapt`: copying and freezing keep the plain value
-/

namespace ValueText

namespace ElementType

/-- The plain values of an element type. -/
def Plain : ElementType → Type
  | .bool => Bool
  | .integer k => Integer k
  | .float f => Binary f
  | .char => Char8
  | .block item => List item.Plain

@[reducible] def plainForm : (t : ElementType) → HasForm t.Plain
  | .bool => inferInstanceAs (HasForm Bool)
  | .integer k => inferInstanceAs (HasForm (Integer k))
  | .float f => inferInstanceAs (HasForm (Binary f))
  | .char => inferInstanceAs (HasForm Char8)
  | .block item => have := plainForm item; inferInstanceAs (HasForm (List item.Plain))

instance {t : ElementType} : HasForm t.Plain := t.plainForm

@[reducible] def plainInspect : (t : ElementType) → Inspect t.Plain
  | .bool => inferInstanceAs (Inspect Bool)
  | .integer k => inferInstanceAs (Inspect (Integer k))
  | .float f => inferInstanceAs (Inspect (Binary f))
  | .char => inferInstanceAs (Inspect Char8)
  | .block item => have := plainInspect item; ⟨fun xs : List item.Plain => .list (xs.map dump)⟩

instance {t : ElementType} : Inspect t.Plain := t.plainInspect

/-- The equality of plain values: element by element, floating-point data as numbers. -/
@[reducible] def plainBeq : (t : ElementType) → BEq t.Plain
  | .bool => inferInstanceAs (BEq Bool)
  | .integer k => inferInstanceAs (BEq (Integer k))
  | .float f => inferInstanceAs (BEq (Binary f))
  | .char => inferInstanceAs (BEq Char8)
  | .block item => have := plainBeq item; inferInstanceAs (BEq (List item.Plain))

instance {t : ElementType} : BEq t.Plain := t.plainBeq

/-- What a new element shows. -/
def plainInitial : (t : ElementType) → t.Plain
  | .bool => false
  | .integer _ => Integer.zero
  | .float f => Binary.zero f false
  | .char => Char8.nul
  | .block item => ([] : List item.Plain)

/-- What an element shows. -/
def plain (access : Access) : (t : ElementType) → t.Value access → t.Plain
  | .bool, x | .integer _, x | .float _, x | .char, x => x
  | .block item, x =>
    match access, x with
    | .editable, b => (Block.toList b).map (item.plain .editable)
    | .readOnly, f => (Frozen.toList f).map (item.plain .readOnly)

variable {access : Access}

/-- Elements changed twice are changed once, if that is so for each of them. -/
theorem map_map_eq {α β γ : Type} {f : α → β} {g : β → γ} {h : α → γ}
    (hfg : ∀ x, g (f x) = h x) (xs : List α) : (xs.map f).map g = xs.map h := by
  rw [List.map_map]
  congr 1
  exact funext hfg

/-! ## What is seen of an element -/

/-- The form of a container, if the forms of its elements are those of their plain values. -/
theorem sequence_map_plain {t : ElementType}
    (h : ∀ x : t.Value access, form (t.plain access x) = form x) (xs : List (t.Value access)) :
    HasForm.sequence (xs.map (t.plain access)) = HasForm.sequence xs := by
  have hlist : Form.list ((xs.map (t.plain access)).map form) = Form.list (xs.map form) :=
    congrArg Form.list (map_map_eq h xs)
  -- Only characters make a text of their container, and they are their own plain values.
  cases t with
  | char => exact congrArg Form.chars (List.map_id xs)
  | bool | integer | float => exact hlist
  | block item => cases access <;> exact hlist

/-- An element is printed as its plain value. -/
theorem form_plain (t : ElementType) (x : t.Value access) : form (t.plain access x) = form x := by
  induction t with
  | bool | integer | float | char => rfl
  | block item ih => cases access <;> exact sequence_map_plain ih _

/-- A container is printed as the list of the plain values of its elements. -/
theorem sequence_plain (t : ElementType) (xs : List (t.Value access)) :
    HasForm.sequence (xs.map (t.plain access)) = HasForm.sequence xs :=
  sequence_map_plain t.form_plain xs

/-- An element is dumped as its plain value. -/
theorem dump_plain (t : ElementType) (x : t.Value access) : dump (t.plain access x) = dump x := by
  induction t with
  | bool | integer | float | char => rfl
  | block item ih => cases access <;> exact congrArg Dump.list (map_map_eq ih _)

/-- Lists are equal if their images under a function that keeps the equality are. -/
theorem beq_map {α β : Type} [BEq α] [BEq β] {f : α → β} (h : ∀ x y, (f x == f y) = (x == y))
    (xs ys : List α) : (xs.map f == ys.map f) = (xs == ys) := by
  -- Element by element, and lists of different lengths are different in both ways.
  induction xs generalizing ys with
  | nil => cases ys <;> rfl
  | cons x xs ih =>
    cases ys with
    | nil => rfl
    | cons y ys =>
      show (f x == f y && xs.map f == ys.map f) = (x == y && xs == ys)
      rw [h, ih]

/-- Elements are compared as their plain values. -/
theorem beq_plain (t : ElementType) (x y : t.Value access) :
    (t.plain access x == t.plain access y) = (x == y) := by
  induction t with
  | bool | integer | float | char => rfl
  | block item ih => cases access <;> exact beq_map ih _ _

/-! ## What copies show -/

/-- An initial element shows the initial plain value, with or without write access. -/
theorem plain_initial (t : ElementType) : t.plain access (t.initial access) = t.plainInitial := by
  cases t with
  | block item => cases access <;> rfl
  | _ => rfl

/-- A copy of an element shows what the element shows. -/
theorem plain_copy (t : ElementType) (x : t.Value access) :
    t.plain access (t.copy access x) = t.plain access x := by
  induction t with
  | bool | integer | float | char => rfl
  | block item ih =>
    cases access with
    | editable => exact (congrArg _ (Block.toList_copyWith _ _)).trans (map_map_eq ih _)
    | readOnly => exact (congrArg _ (Frozen.toList_copyWith _ _)).trans (map_map_eq ih _)

/-- A frozen copy of an element shows what the element shows. -/
theorem plain_freeze (t : ElementType) (x : t.Value access) :
    t.plain .readOnly (t.freeze access x) = t.plain access x := by
  induction t with
  | bool | integer | float | char => rfl
  | block item ih =>
    cases access with
    | editable => exact (congrArg _ (Frozen.toList_ofList _)).trans (map_map_eq ih _)
    | readOnly => exact (congrArg _ (Frozen.toList_ofList _)).trans (map_map_eq ih _)

/-- An element that is written where only reading is possible shows the same there. -/
theorem plain_adapt (t : ElementType) (x : t.Value .editable) :
    t.plain access (t.adapt access x) = t.plain .editable x := by
  cases access with
  | editable => rfl
  | readOnly => exact t.plain_freeze x

end ElementType

end ValueText
