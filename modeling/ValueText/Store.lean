import ValueText.Element
import ValueText.Storage.Slots

/-!
# The store of named slots

A store holds blocks under names and performs steps on them: it makes, restricts, copies, freezes,
thaws and releases blocks, reads and writes their elements, and looks at views of them.  Every
step has an answer.  A step that misses a bound changes nothing, except that a block which is
being restricted is given up before its bounds are checked, and so is lost.

All slots of a store hold elements of one type.  A block whose elements can only be read is in
a slot of its own kind: it arises by thawing a frozen block, which makes a block that can be
written of elements that cannot.
-/

namespace ValueText

/-- What a slot holds. -/
inductive Slot (t : ElementType) where
  | block (access : Access) (b : Block (t.Value access))
  | frozen (f : Frozen (t.Value .readOnly))

inductive ContainerKind where
  | block
  | thawed
  | frozen
  | view
  deriving DecidableEq, Repr

/-- What is seen of a container. -/
structure Summary where
  kind : ContainerKind
  /-- The number of visible elements, as the container has it. -/
  size : Nat
  /-- The distance of the visible range from the beginning of the storage. -/
  offset : Nat
  /-- The number of visible elements, by going through them. -/
  count : Nat
  /-- Whether the container owns a buffer, for containers that tell. -/
  hasBuffer : Option Bool
  /-- The visible elements. -/
  content : Form

namespace Summary

variable {α : Type} [HasForm α]

def ofBlock (access : Access) (b : Block α) : Summary where
  kind := match access with
    | .editable => .block
    | .readOnly => .thawed
  size := b.size
  offset := b.offset
  count := b.toList.length
  hasBuffer := some b.hasBuffer
  content := form b

def ofFrozen (f : Frozen α) : Summary where
  kind := .frozen
  size := f.size
  offset := f.offset
  count := f.toList.length
  hasBuffer := none
  content := form f

def ofView (s : View α) : Summary where
  kind := .view
  size := s.size
  offset := s.offset
  count := s.toList.length
  hasBuffer := none
  content := form s

end Summary

/-- A path of ranges, each relative to what the ranges before it left. -/
abbrev Path := List (Nat × Nat)

/-- How a view is looked at. -/
inductive Look where
  | summary
  | dump (pretty : Bool)
  | element (index : Nat)
  deriving DecidableEq, Repr

/-- What a step answers. -/
inductive Answer where
  | summary (s : Summary)
  | summaryAndDump (s : Summary) (text : Bytes)
  /-- A view, and the container that was made from it. -/
  | copied (view copy : Summary)
  | element (content : Form)
  | dump (text : Bytes)
  /-- Whether two containers are equal, and whether the views of them are. -/
  | equality (containers views : Bool)
  | names (names : List String)
  | outOfBounds (e : BoundsError)
  | noSlot (name : String)
  /-- The container in the slot has no such operation. -/
  | unsupported

/-- An answer, or the bounds that were missed. -/
def Answer.ofExcept : Except BoundsError Answer → Answer
  | .ok answer => answer
  | .error e => .outOfBounds e

/-- What a look at a view shows. -/
def View.look {α : Type} [HasForm α] [Inspect α] (s : View α) : Look → Except BoundsError Answer
  | .summary => .ok (.summary (.ofView s))
  | .dump pretty => .ok (.summaryAndDump (.ofView s) ((Inspect.dump s).text pretty))
  | .element index => do
    let x ← s.get index
    return .element (form x)

namespace Slot

variable {t : ElementType}

def summary : Slot t → Summary
  | block access b => .ofBlock access b
  | frozen f => .ofFrozen f

def dump (pretty : Bool) : Slot t → Bytes
  | block _ b => (Inspect.dump b).text pretty
  | frozen f => (Inspect.dump f).text pretty

def get (index : Nat) : Slot t → Except BoundsError Form
  | block _ b => form <$> b.get index
  | frozen f => form <$> f.get index

def look (path : Path) (how : Look) : Slot t → Except BoundsError Answer
  | block _ b => do (← b.toView.follow path).look how
  | frozen f => do (← f.toView.follow path).look how

def copySlice (path : Path) : Slot t → Except BoundsError (Summary × Slot t)
  | block access b => do
    let s ← b.toView.follow path
    return (.ofView s, .block access (Block.ofViewWith (t.copy access) s))
  | frozen f => do
    let s ← f.toView.follow path
    return (.ofView s, .block .readOnly (Block.ofViewWith (t.copy .readOnly) s))

def freezeSlice (path : Path) : Slot t → Except BoundsError (Summary × Slot t)
  | block access b => do
    let s ← b.toView.follow path
    return (.ofView s, .frozen (Frozen.ofList (s.toList.map (t.freeze access))))
  | frozen f => do
    let s ← f.toView.follow path
    return (.ofView s, .frozen (Frozen.ofList (s.toList.map (t.freeze .readOnly))))

def copy : Slot t → Slot t
  | block access b => .block access (b.copyWith (t.copy access))
  | frozen f => .frozen (f.copyWith (t.copy .readOnly))

def freeze : Slot t → Slot t
  | block access b => .frozen (Frozen.ofList (b.toList.map (t.freeze access)))
  | frozen f => .frozen (Frozen.ofList (f.toList.map (t.freeze .readOnly)))

/-- Compares two containers of one kind, and the views of them. -/
def equality? : Slot t → Slot t → Option (Bool × Bool)
  | block .editable a, block .editable b => some (a == b, a.toView == b.toView)
  | block .readOnly a, block .readOnly b => some (a == b, a.toView == b.toView)
  | frozen a, frozen b => some (a == b, a.toView == b.toView)
  | _, _ => none

end Slot

/-- Slots that hold elements of one type, by name. -/
abbrev Store (t : ElementType) := Slots (Slot t)

namespace Store

variable {t : ElementType}

def empty : Store t := {}

/-- What a store can be asked to do. -/
inductive Step (t : ElementType) where
  /-- Makes a block of so many elements that start as the type's initial value. -/
  | create (target : String) (size : Nat)
  | createEmpty (target : String)
  | createFrozenEmpty (target : String)
  | ofValues (target : String) (values : List (t.Value .editable))
  /-- Looks at a view of values that no slot owns. -/
  | lookForeign (values : List (t.Value .editable)) (path : Path) (how : Look)
  /-- Copies such a view into a block. -/
  | copyForeign (values : List (t.Value .editable)) (path : Path) (target : String)
  | look (of : String) (path : Path) (how : Look)
  | copySlice (of : String) (path : Path) (target : String)
  | freezeSlice (of : String) (path : Path) (target : String)
  | restrict (of : String) (first last : Nat)
  | release (of : String)
  | copy (of target : String)
  | freeze (of target : String)
  | thaw (of target : String)
  | get (of : String) (index : Nat)
  | set (of : String) (index : Nat) (value : t.Value .editable)
  | fill (of : String) (value : t.Value .editable)
  | swap (of : String) (index other : Nat)
  | equality (of other : String)
  | summary (of : String)
  | dump (of : String) (pretty : Bool)

/-- Puts a slot under a name and answers what is seen of it. -/
def make (store : Store t) (name : String) (slot : Slot t) : Store t × Answer :=
  (store.put name slot, .summary slot.summary)

/-- Performs something on the slot of a name. -/
def withSlot (store : Store t) (name : String) (act : Slot t → Store t × Answer) :
    Store t × Answer :=
  match store.get? name with
  | some slot => act slot
  | none => (store, .noSlot name)

/-- Changes the block of a name in place.  Where a bound is missed, `missed` is what is left of
    the store. -/
def change (store : Store t) (name : String) (missed : Store t)
    (act : (access : Access) → Block (t.Value access) →
      Except BoundsError (Block (t.Value access))) : Store t × Answer :=
  store.withSlot name fun
    | .block access b =>
      match act access b with
      | .ok c => store.make name (.block access c)
      | .error e => (missed, .outOfBounds e)
    | .frozen _ => (store, .unsupported)

/-- Makes a slot of a view. -/
def makeOfView (store : Store t) (target : String) (made : Except BoundsError (Summary × Slot t)) :
    Store t × Answer :=
  match made with
  | .ok (view, slot) => (store.put target slot, .copied view slot.summary)
  | .error e => (store, .outOfBounds e)

def perform (store : Store t) : Step t → Store t × Answer
  | .create target size =>
    store.make target (.block .editable (Block.replicate size (t.initial .editable)))
  | .createEmpty target => store.make target (.block .editable Block.empty)
  | .createFrozenEmpty target => store.make target (.frozen Frozen.empty)
  | .ofValues target values => store.make target (.block .editable (Block.ofList values))
  | .lookForeign values path how =>
    (store, .ofExcept do (← (View.ofList values).follow path).look how)
  | .copyForeign values path target =>
    match (View.ofList values).follow path with
    | .ok s => store.make target (.block .editable (Block.ofViewWith (t.copy .editable) s))
    | .error e => (store, .outOfBounds e)
  | .look of path how => store.withSlot of fun slot => (store, .ofExcept (slot.look path how))
  | .copySlice of path target =>
    store.withSlot of fun slot => store.makeOfView target (slot.copySlice path)
  | .freezeSlice of path target =>
    store.withSlot of fun slot => store.makeOfView target (slot.freezeSlice path)
  | .restrict of first last =>
    store.change of (store.remove of) fun _ b => b.restrict first last
  | .release of =>
    store.withSlot of fun _ => (store.remove of, .names (store.remove of).names)
  | .copy of target => store.withSlot of fun slot => store.make target slot.copy
  | .freeze of target => store.withSlot of fun slot => store.make target slot.freeze
  | .thaw of target =>
    store.withSlot of fun
      | .block _ _ => (store, .unsupported)
      | .frozen f => store.make target (.block .readOnly (f.thawWith (t.copy .readOnly)))
  | .get of index =>
    store.withSlot of fun slot => (store, .ofExcept (.element <$> slot.get index))
  | .set of index value =>
    store.change of store fun access b => b.set index (t.adapt access value)
  | .fill of value => store.change of store fun access b => .ok (b.fill (t.adapt access value))
  | .swap of index other => store.change of store fun _ b => b.swap index other
  | .equality of other =>
    store.withSlot of fun a => store.withSlot other fun b =>
      match a.equality? b with
      | some (containers, views) => (store, .equality containers views)
      | none => (store, .unsupported)
  | .summary of => store.withSlot of fun slot => (store, .summary slot.summary)
  | .dump of pretty => store.withSlot of fun slot => (store, .dump (slot.dump pretty))

/-- Performs steps in order, missed bounds notwithstanding. -/
def run (store : Store t) : List (Step t) → Store t × List Answer
  | [] => (store, [])
  | step :: steps =>
    let (next, answer) := store.perform step
    let (last, answers) := next.run steps
    (last, answer :: answers)

end Store

end ValueText
