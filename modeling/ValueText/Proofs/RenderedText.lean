import ValueText.Text.Basic

/-!
# What rendering puts out

`render` puts a form out piece by piece, `Form.text` gives the text of the form by recursion on
it.  The two agree on every destination: a relation between actions and texts that is kept by
putting out pieces one after another (`Carries`) holds between rendering a form and its text.

## Key results

- `carries_render`, `carries_renderAll`: rendering carries the text, whatever the destination
- `renderAll_buffer`: a buffer in memory takes all of the text
- `toList_format`: formatting puts the texts of its arguments one after another
-/

namespace ValueText

open Form

/-- A relation between actions and the texts that they put out, kept by putting out pieces one
    after another. -/
structure Carries {m : Type → Type} [Monad m] [Out m] (P : m Unit → Bytes → Prop) : Prop where
  pure : P (pure ()) []
  bind : ∀ {a b : m Unit} {s t : Bytes}, P a s → P b t → P (a >>= fun _ => b) (s ++ t)
  put : ∀ piece, P (Out.put piece) piece
  putFragments : ∀ fragments : List Bytes, P (Out.putFragments fragments) fragments.flatten

namespace Form

/-- The elements of a list from the second on, each behind a separator. -/
def followers (items : List Form) : Bytes := items.flatMap fun item => separator ++ item.textAt true

/-- Behind the first element stand the others, each behind a separator, and the closing bracket. -/
theorem textOfRest_eq (items : List Form) : textOfRest items = followers items ++ closing := by
  induction items with
  | nil => rfl
  | cons item items ih =>
    rw [textOfRest, ih, followers, followers, List.flatMap_cons, List.append_assoc,
      List.append_assoc, List.append_assoc]

end Form

section

variable {m : Type → Type} [Monad m] [Out m] {P : m Unit → Bytes → Prop} (h : Carries P)

include h

/-- The fragments of an atom make up its text. -/
theorem carries_renderAtom (a : Atom) : P (renderAtom a) a.text := by
  -- Numerals are put out in fragments, all other atoms in one piece.
  have hnumeral (numeral : Bytes) : P (Out.putFragments (Atom.fragments numeral)) numeral := by
    have hflatten := h.putFragments (Atom.fragments numeral)
    rwa [Atom.flatten_fragments] at hflatten
  match a with
  | .bool true => exact h.put _
  | .bool false => exact h.put _
  | .integer v => exact hnumeral _
  | .float x => exact hnumeral _
  | .char c => exact h.put _

/-- Inside a list, a run of characters is put out between quotes. -/
theorem carries_renderElement {item : Form} (hitem : P (render item) item.text) :
    P (renderElement (render item) item) (item.textAt true) := by
  match item with
  | .atom a => exact hitem
  | .chars cs =>
    -- The one form whose text inside a list differs from its text by itself.
    have hquoted := h.bind (h.put quote) (h.bind (h.put cs) (h.put quote))
    rwa [← List.append_assoc] at hquoted
  | .list [] => exact hitem
  | .list (_ :: _) => exact hitem

mutual

/-- What is put out for a form makes up its text. -/
theorem carries_render (form : Form) : P (render form) form.text := by
  match form with
  | .atom a => exact carries_renderAtom h a
  | .chars cs => exact h.put cs
  | .list [] => exact h.put emptyMark
  | .list (item :: items) =>
    -- The first element has no separator, all others are put out by `renderFrom` at `i + 1`.
    have hitem := carries_renderElement h (carries_render item)
    have hitems := carries_renderFrom 0 items
    have hlist := h.bind (h.put opening) (h.bind (h.bind hitem hitems) (h.put closing))
    have htext : (Form.list (item :: items)).text =
        opening ++ (item.textAt true ++ followers items ++ closing) := by
      rw [text, textAt, textOfRest_eq, List.append_assoc, List.append_assoc]
    rw [htext]
    exact hlist

/-- From the second element on, each element is put out behind a separator. -/
theorem carries_renderFrom (i : Nat) (items : List Form) :
    P (renderFrom (i + 1) items) (followers items) := by
  -- Together with `carries_render`, by the size of the form.
  match items with
  | [] => exact h.pure
  | item :: items =>
    have hitem := carries_renderElement h (carries_render item)
    have hitems := carries_renderFrom (i + 1) items
    have hseparated := h.bind (h.put separator) (h.bind hitem hitems)
    rw [followers, List.flatMap_cons, List.append_assoc]
    exact hseparated

end

/-- What is put out for some arguments makes up their texts, one after the other. -/
theorem carries_renderAll (args : List Form) : P (renderAll args) (args.flatMap Form.text) := by
  -- In any output that carries texts, by the number of arguments.
  induction args with
  | nil => exact h.pure
  | cons arg args ih => exact h.bind (carries_render h arg) ih

end

/-! ## The buffer in memory -/

/-- A buffer takes everything. -/
theorem TextBuffer.carries : Carries (m := TextBuffer) fun action text =>
    ∀ buffer, action buffer = ((), buffer ++ text) where
  pure buffer := by
    rw [Array.appendList_nil]
    rfl
  -- A second action goes on from the buffer that the first one leaves.
  bind {a b s t} ha hb buffer := by
    show b (a buffer).2 = _
    rw [ha, hb]
    exact Prod.ext rfl (Array.ext' (by simp))
  put piece buffer := rfl
  putFragments fragments buffer := rfl

/-- In memory, the text of a form is added to what is there. -/
theorem render_buffer (form : Form) (buffer : Array Char8) :
    (render form : TextBuffer Unit) buffer = ((), buffer ++ form.text) :=
  carries_render TextBuffer.carries form buffer

theorem renderAll_buffer (args : List Form) (buffer : Array Char8) :
    (renderAll args : TextBuffer Unit) buffer = ((), buffer ++ args.flatMap Form.text) :=
  carries_renderAll TextBuffer.carries args buffer

/-- Formatting puts the texts of its arguments one after another. -/
@[simp] theorem toList_format (args : List Form) :
    (format args).toList = args.flatMap Form.text := by
  rw [format, Block.toList_ofArray]
  show ((renderAll args : TextBuffer Unit) #[]).2.toList = _
  rw [renderAll_buffer]
  simp

/-- The text of a value is that of its form. -/
@[simp] theorem Text.toList_ofValue {α : Type} [HasForm α] (x : α) :
    (ofValue x).toList = (form x).text := by
  rw [ofValue, toList_format, List.flatMap_cons, List.flatMap_nil, List.append_nil]

end ValueText
