import ValueText.Bounds

/-!
# Views

A view shows a range of some storage without owning it.  It keeps the whole storage, so that
the distance of the range from its beginning can be told, but whatever is read from a view
comes from its visible elements alone.

The proof-facing model is the list of the visible elements, `View.toList`.  The bridge lemmas
are

* `length_toList`                 there are as many visible elements as the view's size
* `toList_ofArray`                a view over storage shows all of it
* `get_eq`                        reading by index reads the model
* `slice_eq_ok`, `of_slice_eq_ok`   when a slice exists, and which range it is
* `toList_slice`                  what it shows
-/

namespace ValueText

/-- A visible range of some storage.  The range lies inside the storage. -/
structure View (α : Type) where
  /-- All of the storage, visible or not. -/
  base : Array α
  start : Nat
  size : Nat
  fits : start + size ≤ base.size

namespace View

variable {α : Type}

/-- The view over storage that nothing in this library owns. -/
def ofArray (base : Array α) : View α := ⟨base, 0, base.size, by omega⟩

def ofList (values : List α) : View α := ofArray values.toArray

def empty : View α := ofArray #[]

/-- The distance of the visible range from the beginning of the storage. -/
def offset (v : View α) : Nat := v.start

/-- The visible elements in order. -/
def toList (v : View α) : List α := (v.base.toList.drop v.start).take v.size

def get (v : View α) (index : Nat) : Except BoundsError α :=
  if h : index < v.size then
    have : v.start + index < v.base.size := by have := v.fits; omega
    .ok v.base[v.start + index]
  else .error (.index index v.size)

/-- The range `[first, last)` of the visible elements, over the same storage. -/
def slice (v : View α) (first last : Nat) : Except BoundsError (View α) :=
  if h : first ≤ last ∧ last ≤ v.size then
    .ok ⟨v.base, v.start + first, last - first, by have := v.fits; omega⟩
  else .error (.range first last v.size)

/-- Slices along a path: each range is relative to what the ranges before it left. -/
def follow (v : View α) (path : List (Nat × Nat)) : Except BoundsError (View α) :=
  path.foldlM (fun w range => w.slice range.1 range.2) v

instance [BEq α] : BEq (View α) := ⟨fun a b => a.toList == b.toList⟩

/-! ## Bridge lemmas relating a view to its visible elements -/

/-- There are as many visible elements as the size of a view says. -/
@[simp] theorem length_toList (v : View α) : v.toList.length = v.size := by
  have := v.fits
  simp only [toList, List.length_take, List.length_drop, Array.length_toList]
  omega

/-- A view made of an array shows all of it. -/
@[simp] theorem toList_ofArray (base : Array α) : (ofArray base).toList = base.toList := by
  simp [toList, ofArray, ← Array.length_toList]

/-- A view made of a list shows that list. -/
@[simp] theorem toList_ofList (values : List α) : (ofList values).toList = values := by
  simp [ofList]

@[simp] theorem toList_empty : (empty : View α).toList = [] := rfl

/-- Reading at an index reads the visible elements there, or misses them. -/
theorem get_eq (v : View α) (index : Nat) :
    v.get index = match v.toList[index]? with
      | some x => .ok x
      | none => .error (.index index v.size) := by
  have hlen := v.length_toList
  unfold get
  split
  next h =>
    -- The place behind the beginning of the range lies in the storage.
    have hb : v.start + index < v.base.size := by have := v.fits; omega
    have : v.toList[index]? = some v.base[v.start + index] := by
      simp [toList, h, hb]
    rw [this]
  next h =>
    have : v.toList[index]? = none := by
      rw [List.getElem?_eq_none_iff]; omega
    rw [this]

/-- A range that is in order and ends among the visible elements is cut out of the same storage. -/
theorem slice_eq_ok (v : View α) {first last : Nat} (h : first ≤ last ∧ last ≤ v.size) :
    v.slice first last =
      .ok ⟨v.base, v.start + first, last - first, by have := v.fits; omega⟩ := by
  simp only [slice, h, and_self, dite_true]

/-- Any other range is refused, with the number of visible elements. -/
theorem slice_eq_error (v : View α) {first last : Nat} (h : ¬(first ≤ last ∧ last ≤ v.size)) :
    v.slice first last = .error (.range first last v.size) := by
  simp only [slice, h, dite_false]

/-- A slice that is found is a range of the same storage, and was asked for within its bounds. -/
theorem of_slice_eq_ok {v w : View α} {first last : Nat} (h : v.slice first last = .ok w) :
    (first ≤ last ∧ last ≤ v.size) ∧ w.base = v.base ∧ w.start = v.start + first ∧
      w.size = last - first := by
  by_cases hrange : first ≤ last ∧ last ≤ v.size
  · rw [slice_eq_ok v hrange] at h
    obtain rfl := Except.ok.inj h
    exact ⟨hrange, rfl, rfl, rfl⟩
  · rw [slice_eq_error v hrange] at h
    exact nomatch h

/-- A slice shows the visible elements from `first` up to, but not including, `last`. -/
theorem toList_slice {v w : View α} {first last : Nat} (h : v.slice first last = .ok w) :
    w.toList = (v.toList.drop first).take (last - first) := by
  obtain ⟨hrange, hbase, hstart, hsize⟩ := of_slice_eq_ok h
  simp only [toList, hbase, hstart, hsize, List.drop_take, List.drop_drop, List.take_take]
  -- The range ends before the view does, so the shorter of the two cuts is its own.
  congr 1
  omega

/-- A slice begins `first` elements after the view that it was cut from. -/
theorem offset_slice {v w : View α} {first last : Nat} (h : v.slice first last = .ok w) :
    w.offset = v.offset + first :=
  (of_slice_eq_ok h).2.2.1

/-- A slice is over the same storage. -/
theorem base_slice {v w : View α} {first last : Nat} (h : v.slice first last = .ok w) :
    w.base = v.base :=
  (of_slice_eq_ok h).2.1

/-- Following a path is slicing once and following the rest from there. -/
theorem follow_cons (v : View α) (first last : Nat) (path : List (Nat × Nat)) :
    v.follow ((first, last) :: path) = v.slice first last >>= fun w => w.follow path := by
  rw [follow, List.foldlM_cons]
  rfl

end View

end ValueText
