import ValueText.Storage.Block

/-!
# Fixed sequences

The length of a fixed sequence is part of its type, and its values are never written.  A block
made from it has a length of its own: the values are cut off, or a filler stands behind them.
-/

namespace ValueText

structure Fixed (α : Type) (n : Nat) where
  values : Vector α n

namespace Fixed

variable {α β : Type} {n : Nat}

/-- The fixed sequence of the values of a list. -/
def ofList (values : List α) : Fixed α values.length := ⟨⟨values.toArray, by simp⟩⟩

def toList (l : Fixed α n) : List α := l.values.toList

def toView (l : Fixed α n) : View α := View.ofArray l.values.toArray

def get (l : Fixed α n) (index : Nat) : Except BoundsError α := l.toView.get index

/-- A block of `size` elements that start as `filler`; the fixed values, each copied by
    `copy`, are then written over them from the front as far as both reach. -/
def toBlockWith (copy : α → β) (l : Fixed α n) (size : Nat) (filler : β) : Block β :=
  (Block.replicate size filler).mapBuffer fun i x => (l.values[i]?.map copy).getD x

/-- Fixed sequences of one length are compared value by value. -/
instance [BEq α] : BEq (Fixed α n) := ⟨fun a b => a.toList == b.toList⟩

@[simp] theorem toList_ofList (values : List α) : (ofList values).toList = values := by
  simp [toList, ofList]

/-- There are as many values as the type says. -/
@[simp] theorem length_toList (l : Fixed α n) : l.toList.length = n := by simp [toList]

/-- A fixed sequence shows all of its values. -/
@[simp] theorem toList_toView (l : Fixed α n) : l.toView.toList = l.toList := by
  simp only [toView, View.toList_ofArray]
  rfl

/-- A block made from a fixed sequence has the requested length. -/
@[simp] theorem size_toBlockWith (copy : α → β) (l : Fixed α n) (size : Nat) (filler : β) :
    (l.toBlockWith copy size filler).size = size := by
  simp [toBlockWith, Block.mapBuffer, Block.replicate, Block.ofArray]

/-- A block made from a fixed sequence shows its values as far as they fit, then the
    filler. -/
theorem toList_toBlockWith (copy : α → β) (l : Fixed α n) (size : Nat) (filler : β) :
    (l.toBlockWith copy size filler).toList =
      (l.toList.take size).map copy ++ List.replicate (size - n) filler := by
  unfold toBlockWith
  rw [Block.toList_mapBuffer, Block.toList_replicate]
  have hstart : (Block.replicate size filler).start = 0 := rfl
  have hget (i : Nat) : l.values[i]? = l.toList[i]? := by simp [toList]
  have hlen := l.length_toList
  -- Index by index: the index is among the values, among the fillers, or beyond the block.
  apply List.ext_getElem?
  intro i
  simp only [hstart, Nat.zero_add, hget, List.getElem?_mapIdx, List.getElem?_replicate,
    List.getElem?_append, List.length_map, List.length_take, hlen, List.getElem?_map,
    List.getElem?_take]
  by_cases hi : i < size
  · by_cases hn : i < n
    · have : i < min size n := by omega
      have hx : l.toList[i]? = some (l.toList[i]) := List.getElem?_eq_getElem (by omega)
      simp [hi, this, hx]
    · have h1 : ¬i < min size n := by omega
      have h2 : i - min size n < size - n := by omega
      have hx : l.toList[i]? = none := by rw [List.getElem?_eq_none_iff]; omega
      simp [hi, h1, h2, hx]
  -- Beyond the block there is nothing.
  · have h1 : ¬i < min size n := by omega
    have h2 : ¬i - min size n < size - n := by omega
    simp [hi, h1, h2]

end Fixed

end ValueText
