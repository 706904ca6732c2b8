import ValueText.Proofs.CanonicalNumeral
import ValueText.Proofs.PlainValues
import ValueText.Proofs.RenderedText

/-!
# The text of nested blocks is unambiguous

Blocks of integers, truth values or texts, nested to any depth, are told apart by their text as long
as their texts have no double quote in them.  Inside a list, the text of an element says where it
ends, if what follows is a separator or the end of the list: a numeral goes on as far as there are
digits, a text up to its second quote, and a list has as many elements as there are separators.  The
mark of a list without elements is no list of one element, since no element begins with its second
byte.

## Key results

- `ElementType.determined`: an element of a list is found again at the beginning of what is left
- `ElementType.format_eq_iff`: elements with the same text show the same
-/

namespace ValueText

namespace ElementType

/-- The types of blocks, nested to any depth, over integers, truth values and texts. -/
inductive IsNested : ElementType → Prop
  | bool : IsNested .bool
  | integer (k : IntType) : IsNested (.integer k)
  | text : IsNested .text
  | block {item : ElementType} (h : IsNested item) : IsNested (.block item)

/-- Whether there is no double quote in the texts of an element. -/
def quoteFree : (t : ElementType) → t.Plain → Bool
  | .bool, _ | .integer _, _ | .float _, _ => true
  | .char, c => (show Char8 from c) != 34
  | .block item, xs => List.all xs item.quoteFree

/-- What stands behind an element of a list begins with a comma or the closing bracket. -/
def FollowsElement (rest : Bytes) : Prop := ∃ c tail, rest = c :: tail ∧ (c = 44 ∨ c = 93)

/-- Elements are found again from their text at the beginning of what is left of a list. -/
def Determined {α : Type} [HasForm α] (p : α → Bool) : Prop :=
  ∀ ⦃x y : α⦄, p x = true → p y = true → ∀ ⦃r s : Bytes⦄, FollowsElement r → FollowsElement s →
    (form x).textAt true ++ r = (form y).textAt true ++ s → x = y ∧ r = s

/-! ## The bytes of the notation -/

theorem opening_eq : Form.opening = [91] := by decide +kernel

theorem closing_eq : Form.closing = [93] := by decide +kernel

theorem separator_eq : Form.separator = [44, 32] := by decide +kernel

theorem quote_eq : Form.quote = [34] := by decide +kernel

/-- The mark of an empty list begins like a list, but goes on with a letter. -/
theorem emptyMark_eq : Form.emptyMark = 91 :: 101 :: Bytes.ofString "mpty]" := by decide +kernel

/-- Behind an element of a list stands a separator or the closing bracket. -/
theorem followsElement_textOfRest (items : List Form) (rest : Bytes) :
    FollowsElement (Form.textOfRest items ++ rest) := by
  -- By whether there is a further element.
  cases items with
  | nil =>
    rw [Form.textOfRest, closing_eq]
    exact ⟨93, rest, rfl, .inr rfl⟩
  | cons item items =>
    rw [Form.textOfRest, separator_eq]
    exact ⟨44, _, rfl, .inl rfl⟩

/-! ## Elements without parts -/

/-- The first letter tells the two truth values apart. -/
theorem exists_text_bool (b : Bool) :
    ∃ tail, (Atom.bool b).text = (if b then 116 else 102) :: tail := by
  cases b with
  | false => exact ⟨Bytes.ofString "alse", by decide +kernel⟩
  | true => exact ⟨Bytes.ofString "rue", by decide +kernel⟩

/-- The two truth values differ in their first byte. -/
theorem text_bool_append_inj {b c : Bool} {r s : Bytes}
    (h : (Atom.bool b).text ++ r = (Atom.bool c).text ++ s) : b = c ∧ r = s := by
  obtain ⟨bs, hb⟩ := exists_text_bool b
  obtain ⟨cs, hc⟩ := exists_text_bool c
  -- The first letters differ if the truth values do.
  have hbc : b = c := by
    rw [hb, hc] at h
    have hhead := (List.cons.inj h).1
    revert hhead
    cases b <;> cases c <;> decide
  subst hbc
  exact ⟨rfl, List.append_cancel_left h⟩

theorem determined_bool : Determined ElementType.bool.quoteFree :=
  fun _ _ _ _ _ _ _ _ h => text_bool_append_inj h

/-- A numeral ends where something else than a digit follows. -/
theorem longestRun_numeral (v : Int) {rest : Bytes} (h : FollowsElement rest) :
    LongestRun (fun c => c.isDigit || c == 45) (Numeral.ofInt v) rest where
  all c hc := by simpa using Numeral.isDigit_of_mem_ofInt hc
  stops c hc := by
    obtain ⟨d, tail, rfl, hd⟩ := h
    obtain rfl : d = c := Option.some.inj hc
    rcases hd with rfl | rfl <;> decide

/-- An integer is determined by what begins with it, since no digit follows. -/
theorem determined_integer (k : IntType) : Determined (ElementType.integer k).quoteFree := by
  intro x y _ _ r s hr hs h
  -- Both numerals are the longest run of the same bytes.
  obtain ⟨hnumeral, hrest⟩ := (longestRun_numeral (Integer.toInt x) hr).unique
    (longestRun_numeral (Integer.toInt y) hs) h
  refine ⟨?_, hrest⟩
  cases x
  cases y
  congr
  exact Numeral.ofInt_injective hnumeral

theorem textAt_chars (cs : List Char8) : (Form.chars cs).textAt true = 34 :: (cs ++ [34]) := by
  show Form.quote ++ cs ++ Form.quote = _
  rw [quote_eq]
  rfl

/-- A text ends at the first quote behind the one that it begins with. -/
theorem longestRun_text {cs : List Char8} (h : ElementType.text.quoteFree cs = true)
    (rest : Bytes) : LongestRun (· != 34) cs (34 :: rest) where
  all := List.all_eq_true.1 h
  stops c hc := by
    obtain rfl : 34 = c := Option.some.inj hc
    rfl

/-- A text without quotation marks ends at the next one. -/
theorem textAt_chars_append_inj {cs ds : List Char8}
    (hcs : ElementType.text.quoteFree cs = true) (hds : ElementType.text.quoteFree ds = true)
    {r s : Bytes} (h : (Form.chars cs).textAt true ++ r = (Form.chars ds).textAt true ++ s) :
    cs = ds ∧ r = s := by
  simp only [textAt_chars, List.cons_append, List.append_assoc, List.nil_append] at h
  obtain ⟨htext, hrest⟩ := (longestRun_text hcs r).unique (longestRun_text hds s)
    (List.cons.inj h).2
  exact ⟨htext, (List.cons.inj hrest).2⟩

/-- A text without quotation marks is determined by what begins with it. -/
theorem determined_text : Determined ElementType.text.quoteFree :=
  fun _ _ hx hy _ _ _ _ h => textAt_chars_append_inj hx hy h

/-! ## Lists -/

/-- A list that has ended is told apart from one that goes on. -/
theorem textOfRest_nil_append_ne (item : Form) (items : List Form) (r s : Bytes) :
    Form.textOfRest [] ++ r ≠ Form.textOfRest (item :: items) ++ s := by
  intro heq
  rw [Form.textOfRest, Form.textOfRest, closing_eq, separator_eq] at heq
  exact absurd (List.cons.inj heq).1 (by decide)

/-- The elements of a list from the second on are found again, and where the list ends. -/
theorem textOfRest_append_inj {α : Type} [HasForm α] {p : α → Bool} (h : Determined p)
    {xs ys : List α} (hxs : xs.all p = true) (hys : ys.all p = true) {r s : Bytes}
    (heq : Form.textOfRest (xs.map form) ++ r = Form.textOfRest (ys.map form) ++ s) :
    xs = ys ∧ r = s := by
  -- By one of the lists; the closing bracket tells where each of them ends.
  induction xs generalizing ys with
  | nil =>
    cases ys with
    | nil => exact ⟨rfl, List.append_cancel_left heq⟩
    | cons y ys => exact absurd heq (textOfRest_nil_append_ne _ _ r s)
  | cons x xs ih =>
    cases ys with
    | nil => exact absurd heq.symm (textOfRest_nil_append_ne _ _ s r)
    | cons y ys =>
      rw [List.all_cons, Bool.and_eq_true] at hxs hys
      simp only [List.map_cons, Form.textOfRest, List.append_assoc] at heq
      -- The element is found as the rest of the list follows it, and the rest by induction.
      obtain ⟨rfl, hrest⟩ := h hxs.1 hys.1 (followsElement_textOfRest _ r)
        (followsElement_textOfRest _ s) (List.append_cancel_left heq)
      obtain ⟨rfl, hrs⟩ := ih hxs.2 hys.2 hrest
      exact ⟨rfl, hrs⟩

/-- Only characters make a text of their container. -/
theorem IsNested.form_eq_list {item : ElementType} (h : item.IsNested)
    (xs : (ElementType.block item).Plain) :
    form xs = .list (List.map (form (α := item.Plain)) xs) := by
  cases h <;> rfl

/-- No element begins with the second byte of the mark of a list without elements. -/
theorem IsNested.head_ne {t : ElementType} (h : t.IsNested) (x : t.Plain) :
    ∃ c tail, (form x).textAt true = c :: tail ∧ c ≠ 101 := by
  -- No value begins with the letter that follows the bracket in the mark of an empty list.
  cases h with
  | bool =>
    obtain ⟨tail, htail⟩ := exists_text_bool x
    exact ⟨_, tail, htail, by cases x <;> decide⟩
  | integer k =>
    obtain ⟨c, tail, hc⟩ : ∃ c tail, Numeral.ofInt (Integer.toInt x) = c :: tail := by
      unfold Numeral.ofInt
      split
      · exact ⟨_, _, rfl⟩
      · exact List.exists_cons_of_ne_nil (Numeral.digits_ne_nil _)
    refine ⟨c, tail, hc, ?_⟩
    -- In a numeral there are digits and a minus sign only.
    rintro rfl
    exact absurd (Numeral.isDigit_of_mem_ofInt (hc ▸ List.mem_cons_self)) (by decide)
  | text =>
    exact ⟨34, _, textAt_chars x, by decide⟩
  | block hitem =>
    rw [hitem.form_eq_list]
    cases x with
    | nil =>
      rw [List.map_nil, Form.textAt, emptyMark_eq]
      exact ⟨91, _, rfl, by decide⟩
    | cons x xs =>
      rw [List.map_cons, Form.textAt, opening_eq]
      exact ⟨91, _, rfl, by decide⟩

/-- The mark of a list without elements is not the beginning of a list that has some. -/
theorem IsNested.emptyMark_ne {item : ElementType} (h : item.IsNested) (x : item.Plain)
    (xs : List item.Plain) (r s : Bytes) :
    Form.emptyMark ++ r ≠ (Form.list ((x :: xs).map form)).textAt true ++ s := by
  intro heq
  obtain ⟨c, tail, hc, hne⟩ := h.head_ne x
  rw [List.map_cons, Form.textAt, hc, emptyMark_eq, opening_eq] at heq
  exact hne (List.cons.inj (List.cons.inj heq).2).1.symm

/-- A list is determined by what begins with it, if its elements are. -/
theorem determined_block {item : ElementType} (hitem : item.IsNested)
    (h : Determined item.quoteFree) : Determined (ElementType.block item).quoteFree := by
  intro x y hx hy r s hr hs heq
  rw [hitem.form_eq_list, hitem.form_eq_list] at heq
  -- Only one of the lists being empty is excluded by the mark of an empty list.
  cases x with
  | nil =>
    cases y with
    | nil => exact ⟨rfl, List.append_cancel_left heq⟩
    | cons y ys => exact absurd heq (hitem.emptyMark_ne y ys r s)
  | cons x xs =>
    cases y with
    | nil => exact absurd heq.symm (hitem.emptyMark_ne x xs s r)
    | cons y ys =>
      have hx := Bool.and_eq_true_iff.1 (List.all_cons.symm.trans hx)
      have hy := Bool.and_eq_true_iff.1 (List.all_cons.symm.trans hy)
      simp only [List.map_cons, Form.textAt, List.append_assoc] at heq
      -- Behind the opening brackets stand the first elements, and the others behind these.
      obtain ⟨rfl, hrest⟩ := h hx.1 hy.1 (followsElement_textOfRest _ r)
        (followsElement_textOfRest _ s) (List.append_cancel_left heq)
      obtain ⟨rfl, hrs⟩ := textOfRest_append_inj h hx.2 hy.2 hrest
      exact ⟨rfl, hrs⟩

/-- An element is found again from its text, however deep it is nested. -/
theorem determined {t : ElementType} (ht : t.IsNested) : Determined t.quoteFree := by
  induction ht with
  | bool => exact determined_bool
  | integer k => exact determined_integer k
  | text => exact determined_text
  | block hitem ih => exact determined_block hitem ih

/-! ## Values by themselves -/

/-- By itself a value has the text that it has in a list, unless it is a text. -/
theorem textAt_list (inList : Bool) (items : List Form) :
    (Form.list items).textAt inList = (Form.list items).textAt true := by
  cases items <;> simp only [Form.textAt]

/-- A value is determined by its text alone. -/
theorem text_inj {t : ElementType} (ht : t.IsNested) {x y : t.Plain}
    (hx : t.quoteFree x = true) (hy : t.quoteFree y = true)
    (h : (form x).text = (form y).text) : x = y := by
  -- Outside of a list nothing follows, so an end of a list is put there.
  have hfollows : FollowsElement [93] := ⟨93, [], rfl, .inr rfl⟩
  have hend (hin : (form x).textAt true = (form y).textAt true) : x = y :=
    (determined ht hx hy hfollows hfollows (congrArg (· ++ [93]) hin)).1
  -- By the type; only texts are printed in another way outside of a list.
  cases ht with
  | bool => exact hend h
  | integer k => exact hend h
  | text => exact h
  | block hitem =>
    apply hend
    rw [hitem.form_eq_list, hitem.form_eq_list] at h ⊢
    rwa [Form.text, Form.text, textAt_list, textAt_list false] at h

/-- Nested blocks over integers, truth values and texts without double quotes have the same text
    exactly if they show the same elements, at every depth. -/
theorem format_eq_iff {t : ElementType} (ht : t.IsNested) {a b : Access} (x : t.Value a)
    (y : t.Value b) (hx : t.quoteFree (t.plain a x) = true)
    (hy : t.quoteFree (t.plain b y) = true) :
    (format [form x]).toList = (format [form y]).toList ↔ t.plain a x = t.plain b y := by
  simp only [toList_format, List.flatMap_cons, List.flatMap_nil, List.append_nil]
  rw [← t.form_plain x, ← t.form_plain y]
  exact ⟨text_inj ht hx hy, fun h => by rw [h]⟩

/-- The notation inside of a text is not taken for that of the list: one text `], [` in a list in
    a list does not have the text of two lists of an empty text each. -/
theorem format_ne_of_notation :
    let t := ElementType.block (.block .text)
    let x : t.Value .editable := Block.ofList [Block.ofList [Text.ofString "], ["]]
    let y : t.Value .editable :=
      Block.ofList [Block.ofList [Text.ofString ""], Block.ofList [Text.ofString ""]]
    t.IsNested ∧ t.quoteFree (t.plain .editable x) = true ∧
      t.quoteFree (t.plain .editable y) = true ∧
      (format [form x]).toList ≠ (format [form y]).toList := by
  intro t x y
  have ht : t.IsNested := .block (.block .text)
  have hx : t.quoteFree (t.plain .editable x) = true := by decide +kernel
  have hy : t.quoteFree (t.plain .editable y) = true := by decide +kernel
  refine ⟨ht, hx, hy, fun h => ?_⟩
  have hplain := (format_eq_iff ht x y hx hy).1 h
  -- One has one element, the other has two.
  exact absurd (congrArg List.length hplain) (by decide +kernel)

end ElementType

end ValueText
