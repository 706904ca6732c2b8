import ValueText.Storage.Block

/-!
# Frozen blocks

A frozen block is a block that can be read, sliced and copied, but not written or restricted:
the operations that would are not there.  Freezing always makes a fresh buffer, also of
nothing; thawing follows the rule of copying a block.
-/

namespace ValueText

/-- A block that is only read. -/
structure Frozen (α : Type) where
  /-- The block behind it. -/
  block : Block α

namespace Frozen

variable {α β : Type}

def empty : Frozen α := ⟨Block.empty⟩

/-- The frozen block with a buffer of exactly these values. -/
def ofList (values : List α) : Frozen α := ⟨Block.ofList values⟩

def size (f : Frozen α) : Nat := f.block.size

def offset (f : Frozen α) : Nat := f.block.offset

def toList (f : Frozen α) : List α := f.block.toList

def toView (f : Frozen α) : View α := f.block.toView

def get (f : Frozen α) (index : Nat) : Except BoundsError α := f.block.get index

def slice (f : Frozen α) (first last : Nat) : Except BoundsError (View α) :=
  f.block.slice first last

/-- A fresh frozen block of the same visible elements; without a buffer if `f` has none. -/
def copyWith (copy : α → β) (f : Frozen α) : Frozen β := ⟨f.block.copyWith copy⟩

/-- A fresh block that can be written, of the same visible elements; without a buffer if `f`
    has none. -/
def thawWith (copy : α → β) (f : Frozen α) : Block β := f.block.copyWith copy

instance [BEq α] : BEq (Frozen α) := ⟨fun a b => a.toList == b.toList⟩

@[simp] theorem toList_empty : (empty : Frozen α).toList = [] := rfl

/-- A frozen block made of a list shows that list. -/
@[simp] theorem toList_ofList (values : List α) : (ofList values).toList = values :=
  Block.toList_ofList values

/-- There are as many visible elements as the size of a frozen block says. -/
@[simp] theorem length_toList (f : Frozen α) : f.toList.length = f.size := f.block.length_toList

/-- A copy shows the copied elements. -/
@[simp] theorem toList_copyWith (copy : α → β) (f : Frozen α) :
    (f.copyWith copy).toList = f.toList.map copy := Block.toList_copyWith copy f.block

/-- A thawed block shows copies of the elements that were frozen. -/
@[simp] theorem toList_thawWith (copy : α → β) (f : Frozen α) :
    (f.thawWith copy).toList = f.toList.map copy := Block.toList_copyWith copy f.block

end Frozen

end ValueText
