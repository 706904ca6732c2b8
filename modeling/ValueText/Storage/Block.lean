import ValueText.Storage.View

/-!
# Blocks

A block owns a buffer and shows a range of it.  Restricting a block shortens the range and
keeps the whole buffer; copying a block keeps the range and leaves the rest behind.  A block may
also own nothing at all, and then it shows nothing.

Whatever is read from a block is read through `Block.toView`, so a hidden element can never be
seen, and an index is measured against the visible range even when the buffer is longer.
The proof-facing model is again the list of the visible elements, `Block.toList`.

* `length_toList`   there are as many visible elements as the block's size
* `toList_ofArray`, `toList_restrict`, `toList_copyWith`   what the constructors show
* `of_restrict_eq_ok`, `set_eq_ok_iff`   when restricting and writing succeed, and what is left then
* `toList_set`, `toList_fill`   what writing changes: the visible elements, nothing hidden
-/

namespace ValueText

/-- An owned buffer, or none, with the range of it that is visible. -/
structure Block (α : Type) where
  /-- The buffer, if the block owns one. -/
  buffer : Option (Array α)
  start : Nat
  size : Nat
  fits : start + size ≤ (buffer.getD #[]).size

namespace Block

variable {α β : Type}

/-- The block that owns no buffer. -/
def empty : Block α := ⟨none, 0, 0, by simp⟩

/-- The block that owns a buffer and shows all of it. -/
def ofArray (values : Array α) : Block α :=
  ⟨some values, 0, values.size, Nat.le_of_eq (Nat.zero_add _)⟩

/-- The block that owns a buffer of exactly these values, also when there are none. -/
def ofList (values : List α) : Block α := ofArray values.toArray

def replicate (size : Nat) (value : α) : Block α := ofArray (Array.replicate size value)

/-- The view of the visible range, over the buffer. -/
def toView (b : Block α) : View α := ⟨b.buffer.getD #[], b.start, b.size, b.fits⟩

/-- The visible elements in order. -/
def toList (b : Block α) : List α := b.toView.toList

/-- The distance of the visible range from the beginning of the buffer. -/
def offset (b : Block α) : Nat := b.start

/-- Whether the block owns a buffer, be it an empty one. -/
def hasBuffer (b : Block α) : Bool := b.buffer.isSome

def get (b : Block α) (index : Nat) : Except BoundsError α := b.toView.get index

def slice (b : Block α) (first last : Nat) : Except BoundsError (View α) :=
  b.toView.slice first last

/-- The block that shows only the range `[first, last)` of what `b` shows.  It owns the whole
    buffer of `b`. -/
def restrict (b : Block α) (first last : Nat) : Except BoundsError (Block α) :=
  if h : first ≤ last ∧ last ≤ b.size then
    .ok ⟨b.buffer, b.start + first, last - first, by have := b.fits; omega⟩
  else .error (.range first last b.size)

/-- Changes buffer elements at their places; the visible range stays where it is. -/
def mapBuffer (b : Block α) (f : Nat → α → α) : Block α :=
  ⟨b.buffer.map (·.mapIdx f), b.start, b.size, by
    have := b.fits
    cases h : b.buffer <;> simp_all⟩

def set (b : Block α) (index : Nat) (value : α) : Except BoundsError (Block α) :=
  if index < b.size then
    .ok (b.mapBuffer fun i x => if i = b.start + index then value else x)
  else .error (.index index b.size)

def fill (b : Block α) (value : α) : Block α :=
  b.mapBuffer fun i x => if b.start ≤ i ∧ i < b.start + b.size then value else x

/-- Exchanges two visible elements.  The first index is checked first. -/
def swap (b : Block α) (index other : Nat) : Except BoundsError (Block α) := do
  let x ← b.get index
  let y ← b.get other
  let c ← b.set index y
  c.set other x

/-- A fresh block of the visible elements, each copied by `copy`.  A block without a buffer
    is copied to one without a buffer. -/
def copyWith (copy : α → β) (b : Block α) : Block β :=
  if b.hasBuffer then ofList (b.toList.map copy) else empty

/-- A fresh block of the elements that a view shows, each copied by `copy`.  It owns a buffer
    also if there are none. -/
def ofViewWith (copy : α → β) (v : View α) : Block β := ofList (v.toList.map copy)

instance [BEq α] : BEq (Block α) := ⟨fun a b => a.toList == b.toList⟩

/-! ## Bridge lemmas relating a block to its visible elements -/

/-- There are as many visible elements as the size of a block says. -/
@[simp] theorem length_toList (b : Block α) : b.toList.length = b.size := b.toView.length_toList

/-- A block shows what the view of it shows. -/
@[simp] theorem toList_toView (b : Block α) : b.toView.toList = b.toList := rfl

@[simp] theorem toList_empty : (empty : Block α).toList = [] := rfl

/-- A block made of an array shows all of it. -/
@[simp] theorem toList_ofArray (values : Array α) : (ofArray values).toList = values.toList :=
  View.toList_ofArray values

@[simp] theorem toList_ofList (values : List α) : (ofList values).toList = values := by
  simp [ofList]

/-- A block of new elements shows one value as often as its size says. -/
@[simp] theorem toList_replicate (size : Nat) (value : α) :
    (replicate size value).toList = List.replicate size value := by
  simp [replicate]

/-- A block without a buffer begins at zero and shows nothing. -/
theorem start_size_of_buffer_eq_none {b : Block α} (h : b.buffer = none) :
    b.start = 0 ∧ b.size = 0 := by
  have := b.fits
  simp only [h, Option.getD_none, List.size_toArray, List.length_nil] at this
  omega

/-- A block without a buffer shows nothing. -/
theorem toList_of_not_hasBuffer {b : Block α} (h : b.hasBuffer = false) : b.toList = [] := by
  have hb : b.buffer = none := by simpa [hasBuffer] using h
  have := (start_size_of_buffer_eq_none hb).2
  exact List.eq_nil_of_length_eq_zero (by simp [this])

/-- A copy shows the copied elements. -/
@[simp] theorem toList_copyWith (copy : α → β) (b : Block α) :
    (b.copyWith copy).toList = b.toList.map copy := by
  unfold copyWith
  split
  · simp
  next h => simp [toList_of_not_hasBuffer (by simpa using h)]

/-- A block made of a view shows a copy of each element that the view shows. -/
@[simp] theorem toList_ofViewWith (copy : α → β) (v : View α) :
    (ofViewWith copy v).toList = v.toList.map copy :=
  toList_ofList _

/-- A block is restricted where its view is sliced, and keeps the whole buffer. -/
theorem of_restrict_eq_ok {b c : Block α} {first last : Nat} (h : b.restrict first last = .ok c) :
    b.toView.slice first last = .ok c.toView ∧ c.buffer = b.buffer := by
  unfold restrict at h
  split at h
  next hrange =>
    obtain rfl := Except.ok.inj h
    exact ⟨View.slice_eq_ok b.toView hrange, rfl⟩
  next => exact nomatch h

/-- A restricted block shows the visible elements from `first` up to, but not including,
    `last`. -/
theorem toList_restrict {b c : Block α} {first last : Nat} (h : b.restrict first last = .ok c) :
    c.toList = (b.toList.drop first).take (last - first) :=
  View.toList_slice (of_restrict_eq_ok h).1

/-- A change of the buffer changes the visible elements one by one. -/
theorem toList_mapBuffer (b : Block α) (f : Nat → α → α) :
    (b.mapBuffer f).toList = b.toList.mapIdx fun i x => f (b.start + i) x := by
  apply List.ext_getElem?
  intro i
  cases h : b.buffer with
  -- A block without a buffer shows nothing before and after the change.
  | none =>
    have := (start_size_of_buffer_eq_none h).2
    simp [toList, toView, View.toList, mapBuffer, h]
  | some buf =>
    simp only [toList, toView, View.toList, mapBuffer, h, Option.map_some, Option.getD_some,
      Array.toList_mapIdx, List.getElem?_take, List.getElem?_drop, List.getElem?_mapIdx]
    by_cases hi : i < b.size <;> simp [hi]

/-- Writing succeeds at a visible index, and changes the buffer there. -/
theorem set_eq_ok_iff {b c : Block α} {index : Nat} {value : α} :
    b.set index value = .ok c ↔
      index < b.size ∧ c = b.mapBuffer fun i x => if i = b.start + index then value else x := by
  unfold set
  split
  next h => simp [h, eq_comm]
  next h => simp [h]

/-- Writing changes the visible element at that index alone. -/
theorem toList_set {b c : Block α} {index : Nat} {value : α} (h : b.set index value = .ok c) :
    c.toList = b.toList.set index value := by
  obtain ⟨hindex, rfl⟩ := set_eq_ok_iff.1 h
  -- The buffer is changed at `start + index`, which shows at `index`.
  rw [toList_mapBuffer]
  apply List.ext_getElem?
  intro i
  by_cases hi : i = index
  · subst hi
    simp [hindex]
  · have hne : index ≠ i := fun h => hi h.symm
    cases hx : b.toList[i]? <;> simp [hi, hne, hx]

/-- Filling writes every visible element. -/
@[simp] theorem toList_fill (b : Block α) (value : α) :
    (b.fill value).toList = List.replicate b.size value := by
  unfold fill
  rw [toList_mapBuffer]
  apply List.ext_getElem?
  intro i
  by_cases hi : i < b.size
  · simp [hi]
  · simp [hi]

end Block

end ValueText
