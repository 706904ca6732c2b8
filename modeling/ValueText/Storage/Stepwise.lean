import ValueText.Text.Basic

/-!
# Storage in machine steps

Blocks and views carry the proof that their range lies in their storage, and they count with
unbounded numbers.  Here the same storage is spelled out without that proof and over 64-bit words.
A sum or difference of positions is checked for being a word, a range is looked up in the storage
before it is read or written, and a view is checked for ending in its storage; each of these steps
traps where it has no result.  They are told apart from the two checks that a request is meant to
fail at, those of a range and of an index against what is visible.

* `MachineView`    a view without its proof: `withBase`, `visible`, `get`, `slice`
* `MachineBlock`   a block without its proof: `visible`, `toView`, `restrict`, `modify`, and the
  copies `copyWith`, `ofView`, `ofFixed`, `writeEach`, whose elements are copied in steps as well
* `Fixed.ofBytes`    a fixed sequence of bytes, written one by one
-/

namespace ValueText

/-- Why a step on storage has no result. -/
inductive StorageFault where
  /-- A range or an index is not among the visible elements. -/
  | bounds (e : BoundsError)
  /-- The result is not a word. -/
  | overflow
  /-- The range `[first, last)` is reversed or ends beyond the storage. -/
  | outside (first last length : Nat)
  /-- A view would end beyond its storage. -/
  | assertion
  deriving DecidableEq, Repr

/-- A computation whose steps may trap. -/
abbrev Checked := Except StorageFault

namespace Checked

variable {α β : Type}

def add (a b : UInt64) : Checked UInt64 :=
  if a.toNat + b.toNat < UInt64.size then .ok (a + b) else .error .overflow

def sub (a b : UInt64) : Checked UInt64 :=
  if b ≤ a then .ok (a - b) else .error .overflow

/-- The elements of storage in the range `[first, last)`. -/
def range (storage : Array α) (first last : UInt64) : Checked (List α) :=
  if first ≤ last ∧ last.toNat ≤ storage.size then
    .ok ((storage.toList.drop first.toNat).take (last.toNat - first.toNat))
  else .error (.outside first.toNat last.toNat storage.size)

/-- The element at an index among those that are visible. -/
def element (visible : List α) (index : UInt64) : Checked α :=
  match visible[index.toNat]? with
  | some x => .ok x
  | none => .error (.bounds (.index index.toNat visible.length))

/-- Checks a range against the number of visible elements. -/
def checkRange (first last size : UInt64) : Checked Unit :=
  if first ≤ last ∧ last ≤ size then .ok ()
  else .error (.bounds (.range first.toNat last.toNat size.toNat))

end Checked

open Checked

/-- A visible range of some storage, wherever it is. -/
structure MachineView (α : Type) where
  base : Array α
  start : UInt64
  size : UInt64

namespace MachineView

variable {α : Type}

/-- The view over storage that nothing in this library owns. -/
def ofArray (base : Array α) : MachineView α := ⟨base, 0, .ofNat base.size⟩

/-- The view of a range that is taken to lie in the storage. -/
def withBase (base : Array α) (start size : UInt64) : Checked (MachineView α) := do
  let last ← add start size
  if last.toNat ≤ base.size then return ⟨base, start, size⟩ else throw .assertion

/-- The visible elements in order. -/
def visible (v : MachineView α) : Checked (List α) := do
  let last ← add v.start v.size
  range v.base v.start last

def get (v : MachineView α) (index : UInt64) : Checked α := do
  element (← v.visible) index

def slice (v : MachineView α) (first last : UInt64) : Checked (MachineView α) := do
  checkRange first last v.size
  let start ← add v.start first
  let size ← sub last first
  withBase v.base start size

/-- The view of the bytes before the first zero byte, or of all of them if there is none. -/
def ofZeroEnded (bytes : Bytes) : Checked (MachineView Char8) := do
  let last := (bytes.takeWhile (· != 0)).length
  return ofArray (← range bytes.toArray 0 (.ofNat last)).toArray

end MachineView

/-- An owned buffer, or none, with a range that is visible, wherever it is. -/
structure MachineBlock (α : Type) where
  buffer : Option (Array α)
  start : UInt64
  size : UInt64

namespace MachineBlock

variable {α β : Type}

/-- The block that owns no buffer. -/
def empty : MachineBlock α := ⟨none, 0, 0⟩

/-- The block that owns a buffer and shows all of it. -/
def adopt (values : Array α) : MachineBlock α := ⟨some values, 0, .ofNat values.size⟩

def create (size : UInt64) (value : α) : MachineBlock α :=
  adopt (Array.replicate size.toNat value)

/-- The visible elements in order. -/
def visible (b : MachineBlock α) : Checked (List α) :=
  match b.buffer with
  | some buffer => do
    let last ← add b.start b.size
    range buffer b.start last
  | none => return []

/-- The view of the visible range, over the buffer. -/
def toView (b : MachineBlock α) : Checked (MachineView α) :=
  match b.buffer with
  | some buffer => MachineView.withBase buffer b.start b.size
  | none => return MachineView.ofArray #[]

def get (b : MachineBlock α) (index : UInt64) : Checked α := do
  element (← b.visible) index

def slice (b : MachineBlock α) (first last : UInt64) : Checked (MachineView α) := do
  (← b.toView).slice first last

/-- The block that shows only the range `[first, last)` of what `b` shows.  It owns the whole
    buffer of `b`. -/
def restrict (b : MachineBlock α) (first last : UInt64) : Checked (MachineBlock α) := do
  checkRange first last b.size
  let start ← add b.start first
  let size ← sub last first
  return ⟨b.buffer, start, size⟩

/-- Changes the visible elements at their places. -/
def modify (b : MachineBlock α) (f : Nat → α → α) : Checked (MachineBlock α) :=
  match b.buffer with
  | some buffer => do
    let last ← add b.start b.size
    let _ ← range buffer b.start last
    let changed := buffer.mapIdx fun i x =>
      if b.start.toNat ≤ i ∧ i < last.toNat then f (i - b.start.toNat) x else x
    return ⟨some changed, b.start, b.size⟩
  | none => return b

/-- Writes elements over the visible ones from the front, as far as both reach. -/
def overwrite (b : MachineBlock α) (items : List α) : Checked (MachineBlock α) :=
  b.modify fun i x => items[i]?.getD x

def set (b : MachineBlock α) (index : UInt64) (value : α) : Checked (MachineBlock α) := do
  let _ ← b.get index
  b.modify fun i x => if i = index.toNat then value else x

/-- A fresh block of elements, each copied by `copy`. -/
def ofListWith (copy : α → Checked β) (items : List α) : Checked (MachineBlock β) := do
  return adopt (← items.mapM copy).toArray

/-- A fresh block of the visible elements, each copied by `copy`.  A block without a buffer
    is copied to one without a buffer. -/
def copyWith (copy : α → Checked β) (b : MachineBlock α) : Checked (MachineBlock β) := do
  if b.buffer.isNone then return empty
  ofListWith copy (← b.visible)

/-- A fresh block of the elements that a view shows, each copied by `copy`. -/
def ofView (copy : α → Checked β) (v : MachineView α) : Checked (MachineBlock β) := do
  ofListWith copy (← v.visible)

/-- The visible bytes with a zero byte behind them; the room for all of them is reckoned first. -/
def toZeroEnded (b : MachineBlock Char8) : Checked Bytes := do
  let _ ← add b.size 1
  return (← b.visible) ++ [0]

/-- A block of `size` elements that start as `filler`; the fixed values, each copied by
    `copy`, are then written over them from the front as far as both reach. -/
def ofFixed {n : Nat} (copy : α → Checked β) (l : Fixed α n) (size : UInt64) (filler : β) :
    Checked (MachineBlock β) := do
  let items ← (l.toList.take size.toNat).mapM copy
  (create size filler).overwrite items

/-- Writes copies of values over the visible elements from an index on, one after another and as
    far as both reach. -/
def writeEach (copy : α → Checked β) (b : MachineBlock β) (index : UInt64) :
    List α → Checked (MachineBlock β)
  | [] => return b
  | x :: xs =>
    if index < b.size then do
      let y ← copy x
      let c ← b.set index y
      let next ← add index 1
      writeEach copy c next xs
    else return b

end MachineBlock

/-- A fixed sequence of the values, each copied by `copy`. -/
def Fixed.mapChecked {α β : Type} {n : Nat} (copy : α → Checked β) (l : Fixed α n) :
    Checked (Fixed β n) := do
  return ⟨← l.values.mapM copy⟩

/-- A sum that is a word is the sum of the numbers. -/
theorem Checked.toNat_of_add {a b c : UInt64} (h : add a b = .ok c) :
    c.toNat = a.toNat + b.toNat := by
  unfold add at h
  split at h
  next hword =>
    obtain rfl := Except.ok.inj h
    rw [UInt64.toNat_add]
    exact Nat.mod_eq_of_lt hword
  next => exact nomatch h

/-- Writes bytes over those of a vector from an index on, one index after another. -/
def Fixed.writeBytes {n : Nat} (bytes values : Vector Char8 n) (index : UInt64) :
    Checked (Vector Char8 n) :=
  if h : index.toNat < n then
    match hnext : add index 1 with
    | .ok next => writeBytes bytes (values.set index.toNat bytes[index.toNat]) next
    | .error e => .error e
  else .ok values
termination_by n - index.toNat
decreasing_by
  have hstep : next.toNat = index.toNat + 1 := toNat_of_add hnext
  omega

/-- A fixed sequence of bytes, which begins as zero bytes. -/
def Fixed.ofBytes {n : Nat} (bytes : Vector Char8 n) : Checked (Fixed Char8 n) := do
  return ⟨← writeBytes bytes (.replicate n Char8.nul) 0⟩

end ValueText
