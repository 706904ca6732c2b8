import ValueText.Number.Read
import ValueText.Proofs.ContainerIndependence
import ValueText.Proofs.SlicePaths
import ValueText.Proofs.Utf8RoundTrip

/-!
# Forms of a text

The same bytes can be had in many forms: as an owned or a frozen block, a view, a fixed sequence, a
slice, a string if they are UTF-8, or a reference to any of these, fresh or cut out of a longer
text.  Every form is read as its bytes and nothing else: it has the same length, the same numbers
are read from it, it equals the same strings, and it is printed alike.

## Key results

- `FormOf.chars_eq`: a form is read as the bytes that it is made of, and of no hidden ones
- `Text.ofValue_eq`: the text of a value owns the bytes that are printed for the value
- `text_forms_interchangeable`: what is the same for all forms of the same bytes
-/

namespace ValueText

/-! ## Forms -/

/-- Something that is read as a text. -/
inductive TextForm where
  | owned (t : Text)
  | frozen (f : Frozen Char8)
  | view (v : View Char8)
  | fixed {n : Nat} (l : Fixed Char8 n)
  | slice (cs : List Char8)
  | string (s : String)
  | ref (target : TextForm)

namespace TextForm

/-- The characters of a form, each kind as its own type has it. -/
protected def chars : TextForm → List Char8
  | owned t => HasChars.chars t
  | frozen f => HasChars.chars f
  | view v => HasChars.chars v
  | fixed l => HasChars.chars l
  | slice cs => HasChars.chars cs
  | string s => HasChars.chars s
  | ref target => target.chars

/-- What is printed of a form, each kind as its own type has it. -/
protected def form : TextForm → Form
  | owned t => HasForm.form t
  | frozen f => HasForm.form f
  | view v => HasForm.form v
  | fixed l => HasForm.form l
  | slice cs => HasForm.form cs
  | string s => HasForm.form s
  | ref target => target.form

instance : HasChars TextForm := ⟨TextForm.chars⟩

instance : HasForm TextForm where
  form := TextForm.form

/-- The forms that have storage to cut from. -/
def ofSliceable : Sliceable Char8 → TextForm
  | .block b => owned b
  | .frozen f => frozen f
  | .fixed l => fixed l
  | .foreign v => view v

/-- Whatever the kind, the characters are what is printed. -/
theorem form_eq (x : TextForm) : form x = .chars (chars x) := by
  induction x with
  | ref target ih => exact ih
  | _ => rfl

theorem chars_ofSliceable (s : Sliceable Char8) : chars (ofSliceable s) = s.toList := by
  cases s <;> rfl

end TextForm

/-- The forms of the same bytes: what is made of them, what is copied, frozen or borrowed from
    another form of them, and what is cut out of a form of a longer text. -/
inductive FormOf : Bytes → TextForm → Prop
  | ofBytes (b : Bytes) : FormOf b (.owned (Text.ofBytes b))
  | ofString (s : String) : FormOf (Bytes.ofString s) (.owned (Text.ofString s))
  | string (s : String) : FormOf (Bytes.ofString s) (.string s)
  | slice (b : Bytes) : FormOf b (.slice b)
  | fixed (b : Bytes) : FormOf b (.fixed (Fixed.ofList b))
  | foreign (b : Bytes) : FormOf b (.view (View.ofList b))
  | zeroEnded (bytes : Bytes) :
    FormOf (bytes.takeWhile (· != 0)) (.view (View.ofZeroEnded bytes))
  | ref {b : Bytes} {x : TextForm} (h : FormOf b x) : FormOf b (.ref x)
  | ofValue {b : Bytes} {x : TextForm} (h : FormOf b x) : FormOf b (.owned (Text.ofValue x))
  | copied {b : Bytes} {t : Text} (h : FormOf b (.owned t)) : FormOf b (.owned (t.copyWith id))
  | thawed {b : Bytes} {f : Frozen Char8} (h : FormOf b (.frozen f)) :
    FormOf b (.owned (f.thawWith id))
  | ofView {b : Bytes} {v : View Char8} (h : FormOf b (.view v)) :
    FormOf b (.owned (Block.ofViewWith id v))
  | froze {b : Bytes} {s : Sliceable Char8} (h : FormOf b (.ofSliceable s)) :
    FormOf b (.frozen (Frozen.ofList s.toList))
  | viewed {b : Bytes} {s : Sliceable Char8} (h : FormOf b (.ofSliceable s)) :
    FormOf b (.view s.toView)
  | sliced {whole : Bytes} {s : Sliceable Char8} {v : View Char8} {first last : Nat}
    (h : FormOf whole (.ofSliceable s)) (hv : s.slice first last = .ok v) :
    FormOf ((whole.drop first).take (last - first)) (.view v)
  | narrowed {whole : Bytes} {t u : Text} {first last : Nat} (h : FormOf whole (.owned t))
    (hu : t.restrict first last = .ok u) :
    FormOf ((whole.drop first).take (last - first)) (.owned u)

/-- The text of a value owns the bytes that are printed for the value, and nothing else. -/
theorem Text.ofValue_eq {α : Type} [HasForm α] (x : α) :
    Text.ofValue x = Text.ofBytes (form x).text := by
  have hwritten (written : Array Char8) : Block.ofArray written =
      Block.ofList (Block.ofArray written).toList := by
    rw [Block.toList_ofArray, Block.ofList, Array.toArray_toList]
  rw [← Text.toList_ofValue x]
  exact hwritten _

/-- A form is read as the bytes that it is a form of. -/
theorem FormOf.chars_eq {b : Bytes} {x : TextForm} (h : FormOf b x) : chars x = b := by
  -- By the ways to a form: each of them keeps the characters or cuts them.
  induction h with
  | ofBytes b => exact Text.toList_ofBytes b
  | ofString s => exact Text.toList_ofBytes _
  | string s => rfl
  | slice b => rfl
  | fixed b => exact Fixed.toList_ofList b
  | foreign b => exact View.toList_ofList b
  | zeroEnded bytes => exact View.toList_ofZeroEnded bytes
  | ref h ih => exact ih
  | @ofValue b x h ih =>
    -- A form is printed as its characters, so its text has them again.
    show (Text.ofValue x).toList = b
    rw [Text.toList_ofValue, x.form_eq]
    exact ih
  | @copied b t h ih =>
    show (t.copyWith id).toList = b
    rw [Block.toList_copyWith, List.map_id]
    exact ih
  | @thawed b f h ih =>
    show (f.thawWith id).toList = b
    rw [Frozen.toList_thawWith, List.map_id]
    exact ih
  | @ofView b v h ih =>
    show (Block.ofViewWith id v).toList = b
    rw [Block.toList_ofViewWith, List.map_id]
    exact ih
  | @froze b s h ih =>
    show (Frozen.ofList s.toList).toList = b
    rw [Frozen.toList_ofList, ← TextForm.chars_ofSliceable, ih]
  | @viewed b s h ih =>
    show s.toView.toList = b
    rw [s.toList_toView, ← TextForm.chars_ofSliceable, ih]
  | @sliced whole s v first last h hv ih =>
    -- Only what the longer text shows is cut, from where it begins to be visible.
    show v.toList = _
    rw [s.slice_eq] at hv
    rw [View.toList_slice hv, s.toList_toView, ← TextForm.chars_ofSliceable, ih]
  -- A block that is restricted in place shows the same part of the text.
  | @narrowed whole t u first last h hu ih =>
    show u.toList = _
    have hwhole : t.toList = whole := ih
    rw [Block.toList_restrict hu, hwhole]

/-! ## What is the same for all forms -/

/-- What a text comes to wherever it is used. -/
structure ReadsAs (x : TextForm) (b : Bytes) : Prop where
  len_eq : len x = b.length
  /-- The same integer is read, or the same error found. -/
  integer : ∀ k, readInteger k (chars x) = readInteger k b
  float : ∀ f, readFloat f (chars x) = readFloat f b
  same_iff : ∀ s, sameText x s = true ↔ Bytes.ofString s = b
  /-- By itself it is printed as its bytes. -/
  printed : (format [form x]).toList = b
  /-- Among the elements of a list it is printed in quotes. -/
  listed : ∀ before after : List Form,
    (format [.list (before ++ form x :: after)]).toList =
      Form.opening ++ Form.separator.intercalate (before.map (Form.textAt true) ++
        (Form.quote ++ b ++ Form.quote) :: after.map (Form.textAt true)) ++ Form.closing
  /-- Its text owns its bytes. -/
  owned : Text.ofValue x = Text.ofBytes b
  /-- It can stand for the owned text among any arguments, on any sink. -/
  interchangeable : Interchangeable x (Text.ofBytes b)

/-- A value has the text of a string exactly if it has its bytes. -/
theorem sameText_iff {α : Type} [HasChars α] (x : α) (s : String) :
    sameText x s = true ↔ Bytes.ofString s = chars x := by
  rw [sameText, beq_iff_eq, eq_comm]

/-- The text of a list with at least one element. -/
theorem text_list_of_ne_nil {items : List Form} (h : items ≠ []) :
    (Form.list items).text =
      Form.opening ++ Form.separator.intercalate (items.map (Form.textAt true)) ++
        Form.closing := by
  cases items with
  | nil => contradiction
  | cons item items => exact Form.textAt_list_cons false item items

/-- A form of some bytes is read, compared and printed as these bytes. -/
theorem FormOf.readsAs {b : Bytes} {x : TextForm} (h : FormOf b x) : ReadsAs x b := by
  -- Everything that is asked of a form goes through its characters or through its printed form.
  have hchars := h.chars_eq
  have hform : form x = .chars b := by rw [x.form_eq, hchars]
  refine ⟨?_, ?_, ?_, ?_, ?_, ?_, ?_, ?_⟩
  · rw [len, hchars]
  · intro k
    rw [hchars]
  · intro f
    rw [hchars]
  · intro s
    rw [sameText_iff, hchars]
  · rw [hform]
    simp [Form.text, Form.textAt]
  · intro before after
    rw [hform, toList_format]
    simp [text_list_of_ne_nil, Form.textAt]
  · rw [Text.ofValue_eq, hform]
    rfl
  · apply interchangeable_of_form_eq
    rw [hform]
    exact congrArg Form.chars (Text.toList_ofBytes b).symm

/-- A form that stands in a longer text can be cut out of any form of that text which has
    storage; cut out of an owned text, it leaves what surrounds it in the buffer. -/
theorem FormOf.cut {before b after : Bytes} {s : Sliceable Char8}
    (h : FormOf (before ++ b ++ after) (.ofSliceable s)) :
    (∃ v, s.slice before.length (before.length + b.length) = .ok v ∧ FormOf b (.view v)) ∧
    ∀ t : Text, s = .block t →
      ∃ u, t.restrict before.length (before.length + b.length) = .ok u ∧
        FormOf b (.owned u) ∧ u.buffer = t.buffer := by
  have hwhole : s.toList = before ++ b ++ after := by rw [← TextForm.chars_ofSliceable, h.chars_eq]
  have hcut : ((before ++ b ++ after).drop before.length).take
      (before.length + b.length - before.length) = b := by
    rw [List.append_assoc, List.drop_left, Nat.add_sub_cancel_left, List.take_left]
  -- The range is in bounds, since what surrounds the bytes is as long as it is.
  have hrange : before.length ≤ before.length + b.length ∧
      before.length + b.length ≤ s.toView.size := by
    have hlength := congrArg List.length hwhole
    rw [← s.toList_toView, View.length_toList, List.length_append, List.length_append] at hlength
    omega
  constructor
  · obtain ⟨v, hv⟩ : ∃ v, s.slice before.length (before.length + b.length) = .ok v :=
      ⟨_, (s.slice_eq _ _).trans (View.slice_eq_ok _ hrange)⟩
    have hform := FormOf.sliced h hv
    rw [hcut] at hform
    exact ⟨v, hv, hform⟩
  · rintro t rfl
    obtain ⟨u, -, hu, -⟩ := t.exists_restrict_slice hrange.1 hrange.2
    have hform := FormOf.narrowed h hu
    rw [hcut] at hform
    exact ⟨u, hu, hform, Block.buffer_restrict hu⟩

/-! ## Numbers of one byte -/

/-- The bytes as numbers, which are read like the text but are a list when printed. -/
structure ReadsAsNumbers (numbers : List (Integer .u8)) (b : Bytes) : Prop where
  len_eq : len numbers = b.length
  integer : ∀ k, readInteger k (chars numbers) = readInteger k b
  float : ∀ f, readFloat f (chars numbers) = readFloat f b
  printed : (format [form numbers]).toList =
    if b = [] then Form.emptyMark
    else Form.opening ++ Form.separator.intercalate (b.map fun c => Numeral.ofInt c.toNat) ++
      Form.closing

/-- As numbers, the bytes are read as characters, but printed as a list. -/
theorem readsAsNumbers (b : Bytes) : ReadsAsNumbers (b.map Integer.ofByte) b := by
  have hchars : chars (b.map Integer.ofByte) = b := by
    show (b.map Integer.ofByte).map Integer.toByte = b
    have hback : Integer.toByte ∘ Integer.ofByte = id := funext Integer.toByte_ofByte
    rw [List.map_map, hback, List.map_id]
  refine ⟨?_, ?_, ?_, ?_⟩
  · rw [len, hchars]
  · intro k
    rw [hchars]
  · intro f
    rw [hchars]
  · -- As numbers the bytes are a list of integers, although they are read as characters.
    have hform : form (b.map Integer.ofByte) =
        .list (b.map fun c => .atom (.integer c.toNat)) := by
      show Form.list ((b.map Integer.ofByte).map form) = _
      rw [List.map_map]
      rfl
    rw [hform, toList_format, List.flatMap_cons, List.flatMap_nil, List.append_nil]
    cases b with
    | nil => rfl
    | cons c b =>
      rw [if_neg (List.cons_ne_nil c b), text_list_of_ne_nil (by simp), List.map_map]
      rfl

/-! ## Interchangeable forms -/

/-- All forms of the same bytes are interchangeable, however they came about.  Each has as many
    characters as there are bytes, the same numbers are read from it, or the same errors found, it
    equals just the strings with these bytes, and it is printed as these bytes, in quotes inside a
    list.  The bytes have forms as strings just if they are UTF-8, and forms cut out of longer texts
    always.  The text of a value is an owned form of what is printed for it, so it is its own text.
    The same bytes as numbers have the same length and are read alike, but they print as a list. -/
theorem text_forms_interchangeable :
    (∀ b x, FormOf b x → ReadsAs x b) ∧
    (∀ b, (∃ s, FormOf b (.string s)) ↔ ∃ s, Utf8.decode? b = some s) ∧
    (∀ b s, Utf8.decode? b = some s →
      FormOf b (.string s) ∧ FormOf b (.owned (Text.ofString s))) ∧
    (∀ (before b after : Bytes) (s : Sliceable Char8),
      FormOf (before ++ b ++ after) (.ofSliceable s) →
      (∃ v, s.slice before.length (before.length + b.length) = .ok v ∧ FormOf b (.view v)) ∧
      ∀ t : Text, s = .block t →
        ∃ u, t.restrict before.length (before.length + b.length) = .ok u ∧
          FormOf b (.owned u) ∧ u.buffer = t.buffer) ∧
    (∀ (α : Type) [HasForm α] (v : α), Text.ofValue (Text.ofValue v) = Text.ofValue v) ∧
    ∀ b : Bytes, ReadsAsNumbers (b.map Integer.ofByte) b := by
  refine ⟨fun b x h => h.readsAs, fun b => ⟨?_, ?_⟩, fun b s hs => ?_,
    fun before b after s h => h.cut, fun α _ v => ?_, readsAsNumbers⟩
  -- Bytes have a form as a string exactly if they decode to one.
  · rintro ⟨s, hs⟩
    exact ⟨s, Utf8.decode?_eq_some_iff.2 hs.chars_eq⟩
  · rintro ⟨s, hs⟩
    rw [← Utf8.decode?_eq_some_iff.1 hs]
    exact ⟨s, .string s⟩
  · rw [← Utf8.decode?_eq_some_iff.1 hs]
    exact ⟨.string s, .ofString s⟩
  · -- The text is a form of the bytes that it owns.
    rw [Text.ofValue_eq v]
    exact (FormOf.ofBytes _).readsAs.owned

/-- A digit, a zero byte and a byte that is no UTF-8, cut out from between two digits; and a digit
    as a string. -/
theorem text_forms_interchangeable_cut :
    ∃ u : Text, (Text.ofBytes [0x39, 0x31, 0x00, 0xFF, 0x30]).restrict 1 4 = .ok u ∧
      ReadsAs (.owned u) [0x31, 0x00, 0xFF] ∧
      Text.ofValue (Text.ofValue u) = Text.ofValue u ∧
      Utf8.decode? (Bytes.ofString "1") = some "1" ∧
      FormOf (Bytes.ofString "1") (.string "1") := by
  obtain ⟨hreads, -, hstring, hcut, hvalue, -⟩ := text_forms_interchangeable
  -- The visible bytes are taken from the middle of an owned text.
  obtain ⟨u, hu, hform, -⟩ :=
    (hcut [0x39] [0x31, 0x00, 0xFF] [0x30]
      (.block (Text.ofBytes [0x39, 0x31, 0x00, 0xFF, 0x30])) (.ofBytes _)).2 _ rfl
  have hone : Utf8.decode? (Bytes.ofString "1") = some "1" := Utf8.decode?_eq_some_iff.2 rfl
  exact ⟨u, hu, hreads _ _ hform, hvalue Text u, hone, (hstring _ _ hone).1⟩

end ValueText
