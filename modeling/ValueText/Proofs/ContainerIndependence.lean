import ValueText.Console.LineWriter
import ValueText.Proofs.PlainValues
import ValueText.Proofs.Rendering

/-!
# Rendering does not depend on the container

Two values are the same up to their containers if they show the same elements at every depth: one
may be a block where the other is a view, a frozen block or a reference to either, and neither what
a container hides nor whether it owns a buffer counts (`Alike`).  The one thing that the elements do
not say by themselves is whether a container of them is a text, so that has to agree as well.

Copies, frozen and thawed blocks, restricted blocks and the slices that they correspond to, and
blocks of references are all the same up to containers as what they come from.

## Key results

- `Alike.form_eq`: values that are the same up to containers have the same form
- `Alike.copy`, `Alike.freeze`, `Alike.thaw`, `Alike.restrict`, `Alike.refs`: what is the same up to
  containers
- `interchangeable_containers`: such values are printed alike, wherever they stand
-/

namespace ValueText

open PrintType

/-! ## Values up to their containers -/

/-- A container of some kind and its visible elements. -/
inductive Shows {D : Type} : (t item : PrintType) → t.Value D → List (item.Value D) → Prop
  | string {s : String} {cs : List Char8} (h : Bytes.ofString s = cs) : Shows .string .char s cs
  | block {item : PrintType} {b : Block (item.Value D)} {xs : List (item.Value D)}
    (h : b.toList = xs) : Shows (.block item) item b xs
  | frozen {item : PrintType} {f : Frozen (item.Value D)} {xs : List (item.Value D)}
    (h : f.toList = xs) : Shows (.frozen item) item f xs
  | view {item : PrintType} {s : View (item.Value D)} {xs : List (item.Value D)}
    (h : s.toList = xs) : Shows (.view item) item s xs
  | fixed {item : PrintType} {n : Nat} {l : Fixed (item.Value D) n} {xs : List (item.Value D)}
    (h : l.toList = xs) : Shows (.fixed item n) item l xs
  | slice {item : PrintType} (xs : List (item.Value D)) : Shows (.slice item) item xs xs

/-- Two values are the same up to the containers in them: at every depth they show the same
    elements, behind any number of references, and their containers agree on being texts. -/
inductive Alike : {m n : Nat} → (s t : PrintType) → s.Value (Dynamic m) → t.Value (Dynamic n) → Prop
  | bool {m n : Nat} (b : Bool) : @Alike m n .bool .bool b b
  | integer {m n : Nat} {k : IntType} (v : Integer k) : @Alike m n (.integer k) (.integer k) v v
  | float {m n : Nat} {f : FloatType} (x : Binary f) : @Alike m n (.float f) (.float f) x x
  | char {m n : Nat} (c : Char8) : @Alike m n .char .char c c
  | container {m n : Nat} {s t item other : PrintType} {x : s.Value (Dynamic m)}
    {y : t.Value (Dynamic n)} {xs : List (item.Value (Dynamic m))}
    {ys : List (other.Value (Dynamic n))} (hx : Shows s item x xs) (hy : Shows t other y ys)
    (hchar : item.isChar = other.isChar) (hlength : xs.length = ys.length)
    (h : ∀ (i : Nat) (hi : i < xs.length) (hj : i < ys.length), Alike item other xs[i] ys[i]) :
    Alike s t x y
  | refLeft {m n : Nat} {s t : PrintType} {x : s.Value (Dynamic m)} {y : t.Value (Dynamic n)}
    (h : Alike s t x y) : Alike (.ref s) t (Ref.mk x) y
  | refRight {m n : Nat} {s t : PrintType} {x : s.Value (Dynamic m)} {y : t.Value (Dynamic n)}
    (h : Alike s t x y) : Alike s (.ref t) x (Ref.mk y)
  | dynamicLeft {m n : Nat} {s t : PrintType} {x : s.Value (Dynamic m)} {y : t.Value (Dynamic n)}
    (h : Alike s t x y) : @Alike (m + 1) n .dynamic t (Sigma.mk s x) y
  | dynamicRight {m n : Nat} {s t : PrintType} {x : s.Value (Dynamic m)}
    {y : t.Value (Dynamic n)} (h : Alike s t x y) : @Alike m (n + 1) s .dynamic x (Sigma.mk t y)

/-! ## Copies of every kind -/

namespace PrintType

variable {D : Type}

/-- A copy of a value.  Views, slices and references are copied without what they refer to. -/
def copy : (t : PrintType) → t.Value D → t.Value D
  | .block item, b => Block.copyWith item.copy b
  | .frozen item, f => Frozen.copyWith item.copy f
  | .fixed item _, l => ⟨(Fixed.values l).map item.copy⟩
  -- What a value does not own is not copied with it.
  | .bool, x | .integer _, x | .float _, x | .char, x | .string, x | .view _, x | .slice _, x
  | .ref _, x | .dynamic, x => x

/-- The type of the values of a type when they can only be read. -/
def constant : PrintType → PrintType
  | .block item | .frozen item | .view item | .fixed item _ => .frozen item.constant
  | t => t

/-- A copy of a value that can only be read: each container in it becomes a frozen block that owns
    a buffer.  What is no container of this library is kept. -/
def freeze : (t : PrintType) → t.Value D → t.constant.Value D
  | .block item, b => Frozen.ofList ((Block.toList b).map item.freeze)
  | .frozen item, f => Frozen.ofList ((Frozen.toList f).map item.freeze)
  | .view item, s => Frozen.ofList ((View.toList s).map item.freeze)
  | .fixed item _, l => Frozen.ofList ((Fixed.toList l).map item.freeze)
  | .bool, x | .integer _, x | .float _, x | .char, x | .string, x | .slice _, x
  | .ref _, x | .dynamic, x => x

/-- A type has characters exactly if its values have them when they can only be read. -/
theorem isChar_constant (t : PrintType) : t.constant.isChar = t.isChar := by
  cases t <;> rfl

end PrintType

/-! ## What is the same up to containers -/

namespace Alike

variable {m n : Nat} {s t item other : PrintType}

/-- Elements that are changed one by one into the same stay the same in any container. -/
theorem of_map {x : s.Value (Dynamic n)} {y : t.Value (Dynamic n)}
    {xs : List (item.Value (Dynamic n))} {f : item.Value (Dynamic n) → other.Value (Dynamic n)}
    (hy : Shows t other y (xs.map f)) (hx : Shows s item x xs)
    (hchar : other.isChar = item.isChar) (h : ∀ e, Alike other item (f e) e) : Alike t s y x := by
  refine .container hy hx hchar (List.length_map _) fun i hi hj => ?_
  rw [List.getElem_map]
  exact h xs[i]

/-- Two containers with the same elements are alike, whatever containers they are. -/
theorem of_shows {x : s.Value (Dynamic n)} {y : t.Value (Dynamic n)}
    {xs : List (item.Value (Dynamic n))} (hx : Shows s item x xs) (hy : Shows t item y xs)
    (h : ∀ e : item.Value (Dynamic n), Alike item item e e) : Alike s t x y :=
  .container hx hy rfl rfl fun _ _ _ => h _

/-- Every value is alike itself if the dynamic ones are. -/
theorem refl_of_dynamic (h : ∀ d : Dynamic n, @Alike n n .dynamic .dynamic d d) (t : PrintType)
    (x : t.Value (Dynamic n)) : Alike t t x x := by
  -- A container is alike itself if its elements are, so everything comes down to the atoms.
  induction t with
  | bool => exact .bool x
  | integer => exact .integer x
  | float => exact .float x
  | char => exact .char x
  | string => exact .of_shows (.string rfl) (.string rfl) .char
  | block item ih => exact .of_shows (.block rfl) (.block rfl) ih
  | frozen item ih => exact .of_shows (.frozen rfl) (.frozen rfl) ih
  | view item ih => exact .of_shows (.view rfl) (.view rfl) ih
  | fixed item size ih => exact .of_shows (.fixed rfl) (.fixed rfl) ih
  | slice item ih => exact .of_shows (.slice x) (.slice x) ih
  | ref target ih => exact .refLeft (.refRight (ih _))
  | dynamic => exact h x

/-- Every value is alike itself. -/
theorem refl (t : PrintType) (x : t.Value (Dynamic n)) : Alike t t x x := by
  -- A dynamic value is a value over the dynamic values of one level less.
  induction n generalizing t with
  | zero => exact refl_of_dynamic (fun d : Dynamic 0 => Empty.elim d) t x
  | succ n ih => exact refl_of_dynamic (fun d => .dynamicLeft (.dynamicRight (ih d.1 d.2))) t x

/-- A copy is alike what it was made from. -/
theorem copy (t : PrintType) (x : t.Value (Dynamic n)) : Alike t t (t.copy x) x := by
  induction t with
  | block item ih => exact .of_map (.block (Block.toList_copyWith _ x)) (.block rfl) rfl ih
  | frozen item ih => exact .of_map (.frozen (Frozen.toList_copyWith _ x)) (.frozen rfl) rfl ih
  | fixed item size ih => exact .of_map (.fixed (Vector.toList_map ..)) (.fixed rfl) rfl ih
  | bool | integer | float | char | string | view | slice | ref | dynamic => exact .refl _ x

/-- A frozen copy is alike what it was made from, whatever kind of container that is. -/
theorem freeze (t : PrintType) (x : t.Value (Dynamic n)) : Alike t.constant t (t.freeze x) x := by
  -- Each container shows the frozen elements, which are alike the original ones.
  induction t with
  | block item ih =>
    exact .of_map (.frozen (Frozen.toList_ofList _)) (.block rfl) item.isChar_constant ih
  | frozen item ih =>
    exact .of_map (.frozen (Frozen.toList_ofList _)) (.frozen rfl) item.isChar_constant ih
  | view item ih =>
    exact .of_map (.frozen (Frozen.toList_ofList _)) (.view rfl) item.isChar_constant ih
  | fixed item size ih =>
    exact .of_map (.frozen (Frozen.toList_ofList _)) (.fixed rfl) item.isChar_constant ih
  | bool | integer | float | char | string | slice | ref | dynamic => exact .refl _ x

/-- A thawed block is alike the frozen one. -/
theorem thaw (f : Frozen (item.Value (Dynamic n))) :
    Alike (.block item) (.frozen item) (f.thawWith item.copy) f :=
  .of_map (.block (Frozen.toList_thawWith _ f)) (.frozen rfl) rfl (.copy item)

/-- A block made of a view is alike the view. -/
theorem ofView (v : View (item.Value (Dynamic n))) :
    Alike (.block item) (.view item) (Block.ofViewWith item.copy v) v :=
  .of_map (.block (Block.toList_ofViewWith _ v)) (.view rfl) rfl (.copy item)

/-- A restricted block is alike the slice of the same range. -/
theorem restrict {b c : Block (item.Value (Dynamic n))} {v : View (item.Value (Dynamic n))}
    {first last : Nat} (hc : b.restrict first last = .ok c) (hv : b.slice first last = .ok v) :
    Alike (.block item) (.view item) c v :=
  .of_shows (.block (Block.toList_restrict hc)) (.view (View.toList_slice hv)) (.refl item)

/-- A block of references to what a block shows is alike that block, unless it shows characters. -/
theorem refs {b : Block (item.Value (Dynamic n))} {r : Block (Ref (item.Value (Dynamic n)))}
    (hitem : item.isChar = false) (hr : r.toList = b.toList.map Ref.mk) :
    Alike (.block (.ref item)) (.block item) r b :=
  .of_map (.block hr) (.block rfl) hitem.symm fun e => .refLeft (.refl item e)

end Alike

/-! ## Values that are alike have the same form -/

/-- A container has the form that its elements give it. -/
theorem Shows.form_eq {D : Type} [HasForm D] {t item : PrintType} {x : t.Value D}
    {xs : List (item.Value D)} (h : Shows t item x xs) : form x = HasForm.sequence xs := by
  cases h with
  | string h => exact congrArg Form.chars h
  | block h => exact congrArg HasForm.sequence h
  | frozen h => exact congrArg HasForm.sequence h
  | view h => exact congrArg HasForm.sequence h
  | fixed h => exact congrArg HasForm.sequence h
  | slice => rfl

/-- Containers of elements with the same forms have the same form, if both are texts or none is. -/
theorem sequence_eq_of_forms {m n : Nat} {item other : PrintType}
    {xs : List (item.Value (Dynamic m))} {ys : List (other.Value (Dynamic n))}
    (hchar : item.isChar = other.isChar) (h : xs.map form = ys.map form) :
    HasForm.sequence xs = HasForm.sequence ys := by
  cases hitem : item.isChar with
  | false =>
    rw [sequence_eq_list (Dynamic.dynamicAgrees m) hitem,
      sequence_eq_list (Dynamic.dynamicAgrees n) (hchar ▸ hitem), h]
  | true =>
    -- Both show characters, and a character is known from its form.
    cases item with
    | char =>
      cases other with
      | char =>
        have hatom (c d : Char8) (hcd : Form.atom (.char c) = .atom (.char d)) : c = d :=
          Atom.char.inj (Form.atom.inj hcd)
        exact congrArg Form.chars ((List.map_inj_right hatom).1 h)
      | _ => exact nomatch hchar
    | _ => exact nomatch hitem

/-- Values that are alike have the same form. -/
theorem Alike.form_eq {m n : Nat} {s t : PrintType} {x : s.Value (Dynamic m)}
    {y : t.Value (Dynamic n)} (h : Alike s t x y) : form x = form y := by
  induction h with
  | bool | integer | float | char => rfl
  | container hx hy hchar hlength _ ih =>
    -- The elements have the same forms by induction, so the containers have as well.
    rw [hx.form_eq, hy.form_eq]
    apply sequence_eq_of_forms hchar
    apply List.ext_getElem
    · rw [List.length_map, List.length_map, hlength]
    · intro i hi hj
      rw [List.getElem_map, List.getElem_map]
      exact ih i _ _
  | refLeft _ ih => exact ih
  | refRight _ ih => exact ih
  | dynamicLeft _ ih => exact ih
  | dynamicRight _ ih => exact ih

/-! ## Values that can stand for each other -/

/-- Whether two values can stand for each other among any arguments: neither the text in memory nor
    what arrives at a sink, be it one that fails, tells them apart. -/
def Interchangeable {α β : Type} [HasForm α] [HasForm β] (x : α) (y : β) : Prop :=
  ∀ before after : List Form,
    format (before ++ form x :: after) = format (before ++ form y :: after) ∧
    ∀ sink : Sink, LineWriter.print (before ++ form x :: after) sink =
      LineWriter.print (before ++ form y :: after) sink

/-- What has the same form can stand for each other, since printing sees nothing but forms. -/
theorem interchangeable_of_form_eq {α β : Type} [HasForm α] [HasForm β] {x : α} {y : β}
    (h : form x = form y) : Interchangeable x y := by
  intro before after
  rw [h]
  exact ⟨rfl, fun _ => rfl⟩

/-- What is alike can stand for each other. -/
theorem Alike.interchangeable {m n : Nat} {s t : PrintType} {x : s.Value (Dynamic m)}
    {y : t.Value (Dynamic n)} (h : Alike s t x y) : Interchangeable x y :=
  interchangeable_of_form_eq h.form_eq

/-- What can stand for each other can do so by way of a third value. -/
theorem Interchangeable.trans {α β γ : Type} [HasForm α] [HasForm β] [HasForm γ] {x : α} {y : β}
    {z : γ} (hxy : Interchangeable x y) (hyz : Interchangeable y z) : Interchangeable x z := by
  intro before after
  obtain ⟨hformat, hprint⟩ := hxy before after
  obtain ⟨hformat', hprint'⟩ := hyz before after
  exact ⟨hformat.trans hformat', fun sink => (hprint sink).trans (hprint' sink)⟩

/-- A range that a block has can be restricted to and sliced, with the same elements. -/
theorem Block.exists_restrict_slice {α : Type} (b : Block α) {first last : Nat}
    (hle : first ≤ last) (hlast : last ≤ b.size) :
    ∃ c v, b.restrict first last = .ok c ∧ b.slice first last = .ok v :=
  ⟨_, _, dif_pos ⟨hle, hlast⟩, View.slice_eq_ok b.toView ⟨hle, hlast⟩⟩

/-- References to characters make a list, and no text. -/
theorem toList_text_charRefs (r : Block (Ref Char8)) :
    (Text.ofValue r).toList =
      if r.toList = [] then Form.emptyMark
      else Form.opening ++ Form.separator.intercalate (r.toList.map fun c => [c.target]) ++
        Form.closing := by
  have hform : form r = .list (r.toList.map form) := rfl
  -- A list of references is printed as a list, also if they are to characters.
  rw [Text.toList_ofValue, hform]
  cases r.toList with
  | nil => rfl
  | cons c cs =>
    rw [if_neg (List.cons_ne_nil c cs), List.map_cons, Form.text, Form.textAt_list_cons,
      ← List.map_cons, List.map_map]
    rfl

/-! ## The elements of a store -/

namespace ElementType

variable {access : Access}

theorem form_copy (t : ElementType) (x : t.Value access) : form (t.copy access x) = form x := by
  rw [← t.form_plain, t.plain_copy, t.form_plain]

theorem form_freeze (t : ElementType) (x : t.Value access) :
    form (t.freeze access x) = form x := by
  rw [← t.form_plain, t.plain_freeze, t.form_plain]

/-- A thawed block is printed as the frozen one. -/
theorem form_thaw (item : ElementType) (f : Frozen (item.Value .readOnly)) :
    form (f.thawWith (item.copy .readOnly)) = form f := by
  show HasForm.sequence (f.thawWith (item.copy .readOnly)).toList = HasForm.sequence f.toList
  -- Copies have the plain values of the originals, and a sequence is printed by those.
  rw [Frozen.toList_thawWith, ← item.sequence_plain, map_map_eq item.plain_copy,
    item.sequence_plain]

end ElementType

/-- What is printed depends on the visible elements alone.  Values that are alike up to their
    containers can stand for each other; so can a value, its copies and its frozen copies, a frozen
    block and what is thawed from it, a restricted block, the slice of the same range and the block
    made of that slice, and a block and a block of references to what it shows.  Only references to
    characters make a list where the characters make a text. -/
theorem interchangeable_containers :
    (∀ (m n : Nat) (s t : PrintType) (x : s.Value (Dynamic m)) (y : t.Value (Dynamic n)),
      Alike s t x y → Interchangeable x y) ∧
    (∀ (n : Nat) (t : PrintType) (x : t.Value (Dynamic n)),
      Interchangeable (t.copy x) x ∧ Interchangeable (t.freeze x) x) ∧
    (∀ (n : Nat) (item : PrintType) (f : Frozen (item.Value (Dynamic n))),
      Interchangeable (f.thawWith item.copy) f) ∧
    (∀ (n : Nat) (item : PrintType) (b : Block (item.Value (Dynamic n))),
      Interchangeable (Frozen.thawWith item.constant.copy ((PrintType.block item).freeze b)) b ∧
      (∀ first last, first ≤ last → last ≤ b.size →
        ∃ c v, b.restrict first last = .ok c ∧ b.slice first last = .ok v ∧
          Interchangeable c v ∧ Interchangeable (Block.ofViewWith item.copy v) v) ∧
      (item.isChar = false → ∀ r : Block (Ref (item.Value (Dynamic n))),
        r.toList = b.toList.map Ref.mk → Interchangeable r b)) ∧
    (∀ (r : Block (Ref Char8)) (t : Text), r.toList = t.toList.map Ref.mk →
      (Text.ofValue t).toList = t.toList ∧
      (Text.ofValue r).toList =
        if t.toList = [] then Form.emptyMark
        else Form.opening ++ Form.separator.intercalate (t.toList.map fun c => [c]) ++
          Form.closing) ∧
    (∀ (access : Access) (t : ElementType) (x : t.Value access),
      Interchangeable (t.copy access x) x ∧ Interchangeable (t.freeze access x) x) ∧
    ∀ (access : Access) (item : ElementType) (x : (ElementType.block item).Value access),
      Interchangeable
        (Frozen.thawWith (item.copy .readOnly) ((ElementType.block item).freeze access x)) x := by
  refine ⟨fun m n s t x y h => h.interchangeable,
    fun n t x => ⟨(Alike.copy t x).interchangeable, (Alike.freeze t x).interchangeable⟩,
    fun n item f => (Alike.thaw f).interchangeable,
    fun n item b => ⟨?_, fun first last hle hlast => ?_, fun hitem r hr => ?_⟩,
    fun r t hr => ⟨Text.toList_ofValue t, ?_⟩,
    fun access t x => ⟨interchangeable_of_form_eq (t.form_copy x),
      interchangeable_of_form_eq (t.form_freeze x)⟩, fun access item x => ?_⟩
  · -- What is thawed is alike the frozen copy, and that is alike the block.
    have hthaw := (Alike.thaw ((PrintType.block item).freeze b)).interchangeable
    exact hthaw.trans (Alike.freeze (.block item) b).interchangeable
  · obtain ⟨c, v, hc, hv⟩ := b.exists_restrict_slice hle hlast
    exact ⟨c, v, hc, hv, (Alike.restrict hc hv).interchangeable,
      (Alike.ofView v).interchangeable⟩
  · exact (Alike.refs hitem hr).interchangeable
  · rw [toList_text_charRefs, hr]
    simp only [List.map_map, List.map_eq_nil_iff]
    rfl
  · have hthaw := interchangeable_of_form_eq
      (item.form_thaw ((ElementType.block item).freeze access x))
    exact hthaw.trans (interchangeable_of_form_eq ((ElementType.block item).form_freeze x))

/-- A block that shows the second of two elements, a block without a buffer, and a fixed sequence
    of a reference to a frozen block that owns one without elements. -/
theorem interchangeable_narrowed_fixed :
    let x : (PrintType.block (.block .bool)).Value (Dynamic 0) :=
      (⟨some #[Block.ofList [true], Block.empty], 1, 1, by decide⟩ : Block (Block Bool))
    let y : (PrintType.fixed (.ref (.frozen .bool)) 1).Value (Dynamic 0) :=
      (Fixed.ofList [Ref.mk (Frozen.ofList [])] : Fixed (Ref (Frozen Bool)) 1)
    Alike (.block (.block .bool)) (.fixed (.ref (.frozen .bool)) 1) x y ∧ Interchangeable x y := by
  intro x y
  -- Both show no element, so that nothing has to be said about any.
  have hinner : @Alike 0 0 (.block .bool) (.ref (.frozen .bool))
      (Block.empty : Block Bool) (Ref.mk (Frozen.ofList [] : Frozen Bool)) :=
    .refRight (.container (.block rfl) (.frozen rfl) rfl rfl nofun)
  have halike : Alike (.block (.block .bool)) (.fixed (.ref (.frozen .bool)) 1) x y := by
    refine .container (.block rfl) (.fixed rfl) rfl rfl fun i hi hj => ?_
    obtain rfl : i = 0 := Nat.lt_one_iff.1 hi
    exact hinner
  exact ⟨halike, interchangeable_containers.1 0 0 _ _ x y halike⟩

end ValueText
