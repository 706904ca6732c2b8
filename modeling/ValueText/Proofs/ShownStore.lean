import ValueText.Store
import ValueText.Proofs.PlainValues

/-!
# The store, as far as it can be seen

A second machine performs the steps of a store, on much less than a store holds.  A slot is what
it shows: the plain values of its visible elements, an offset, and whether there is a buffer.
There are no buffers, so that nothing can be read from behind the visible elements, and every
range and index is measured against the list of them.

`Slot.shown` forgets what a slot hides.
-/

namespace ValueText

/-! ## Windows -/

/-- What a view shows. -/
structure Window (t : ElementType) where
  /-- The visible elements in order. -/
  items : List t.Plain
  /-- The distance of the first of them from the beginning of the storage. -/
  offset : Nat

namespace Window

variable {t : ElementType}

def summary (w : Window t) : Summary where
  kind := .view
  size := w.items.length
  offset := w.offset
  count := w.items.length
  hasBuffer := none
  content := form w.items

def dump (pretty : Bool) (w : Window t) : Bytes :=
  (Dump.list (w.items.map Inspect.dump)).text pretty

def get (w : Window t) (index : Nat) : Except BoundsError t.Plain :=
  match w.items[index]? with
  | some x => .ok x
  | none => .error (.index index w.items.length)

def slice (w : Window t) (first last : Nat) : Except BoundsError (Window t) :=
  if first ≤ last ∧ last ≤ w.items.length then
    .ok ⟨(w.items.drop first).take (last - first), w.offset + first⟩
  else .error (.range first last w.items.length)

def follow (w : Window t) : Path → Except BoundsError (Window t)
  | [] => .ok w
  | (first, last) :: path => do
    let inner ← w.slice first last
    inner.follow path

def look (w : Window t) : Look → Except BoundsError Answer
  | .summary => .ok (.summary w.summary)
  | .dump pretty => .ok (.summaryAndDump w.summary (w.dump pretty))
  | .element index => do
    let x ← w.get index
    return .element (form x)

end Window

/-! ## Slots -/

/-- The kinds of slots. -/
inductive SlotKind where
  | block (access : Access)
  | frozen
  deriving DecidableEq

/-- What a slot shows. -/
structure Shown (t : ElementType) extends Window t where
  kind : SlotKind
  hasBuffer : Bool

namespace Shown

variable {t : ElementType}

/-- A slot with a buffer of exactly these elements. -/
def fresh (kind : SlotKind) (items : List t.Plain) : Shown t := ⟨⟨items, 0⟩, kind, true⟩

def bare (kind : SlotKind) : Shown t := ⟨⟨[], 0⟩, kind, false⟩

def summary (s : Shown t) : Summary :=
  { s.toWindow.summary with
    kind := match s.kind with
      | .block .editable => .block
      | .block .readOnly => .thawed
      | .frozen => .frozen
    hasBuffer := match s.kind with
      | .block _ => some s.hasBuffer
      | .frozen => none }

/-- A copy of some kind, with a buffer if the slot has one. -/
def copyAs (kind : SlotKind) (s : Shown t) : Shown t :=
  if s.hasBuffer then fresh kind s.items else bare kind

/-- The kind of a copy of a view: one that can be written. -/
def sliceKind (s : Shown t) : SlotKind :=
  match s.kind with
  | .block access => .block access
  | .frozen => .block .readOnly

/-- A slot made of the elements that a path leads to, beside what is seen of the view. -/
def ofSlice (kind : SlotKind) (path : Path) (s : Shown t) :
    Except BoundsError (Summary × Shown t) := do
  let w ← s.toWindow.follow path
  return (w.summary, fresh kind w.items)

def restrict (first last : Nat) (s : Shown t) : Except BoundsError (Shown t) := do
  let w ← s.toWindow.slice first last
  return { s with toWindow := w }

def set (index : Nat) (x : t.Plain) (s : Shown t) : Except BoundsError (Shown t) :=
  if index < s.items.length then .ok { s with items := s.items.set index x }
  else .error (.index index s.items.length)

def fill (x : t.Plain) (s : Shown t) : Shown t :=
  { s with items := List.replicate s.items.length x }

def swap (index other : Nat) (s : Shown t) : Except BoundsError (Shown t) := do
  let x ← s.get index
  let y ← s.get other
  return { s with items := (s.items.set index y).set other x }

/-- Compares the elements of two slots of one kind. -/
def equality? (a b : Shown t) : Option (Bool × Bool) :=
  if a.kind = b.kind then some (a.items == b.items, a.items == b.items) else none

end Shown

/-- What a slot shows. -/
def Slot.shown {t : ElementType} : Slot t → Shown t
  | .block access b =>
    ⟨⟨b.toList.map (t.plain access), b.offset⟩, .block access, b.hasBuffer⟩
  | .frozen f =>
    ⟨⟨f.toList.map (t.plain .readOnly), f.offset⟩, .frozen, f.block.hasBuffer⟩

/-! ## The machine -/

abbrev ShownStore (t : ElementType) := Slots (Shown t)

namespace ShownStore

variable {t : ElementType}

def make (store : ShownStore t) (name : String) (s : Shown t) : ShownStore t × Answer :=
  (store.put name s, .summary s.summary)

def withSlot (store : ShownStore t) (name : String) (act : Shown t → ShownStore t × Answer) :
    ShownStore t × Answer :=
  match store.get? name with
  | some s => act s
  | none => (store, .noSlot name)

/-- Changes the block of a name; a missed bound leads to `missed`. -/
def change (store : ShownStore t) (name : String) (missed : ShownStore t)
    (act : Shown t → Except BoundsError (Shown t)) : ShownStore t × Answer :=
  store.withSlot name fun s =>
    match s.kind, act s with
    | .frozen, _ => (store, .unsupported)
    | .block _, .ok changed => store.make name changed
    | .block _, .error e => (missed, .outOfBounds e)

/-- Makes a slot of a view. -/
def makeOfView (store : ShownStore t) (target : String)
    (made : Except BoundsError (Summary × Shown t)) : ShownStore t × Answer :=
  match made with
  | .ok (view, s) => (store.put target s, .copied view s.summary)
  | .error e => (store, .outOfBounds e)

def perform (store : ShownStore t) : Store.Step t → ShownStore t × Answer
  | .create target size =>
    store.make target (.fresh (.block .editable) (List.replicate size t.plainInitial))
  | .createEmpty target => store.make target (.bare (.block .editable))
  | .createFrozenEmpty target => store.make target (.bare .frozen)
  | .ofValues target values =>
    store.make target (.fresh (.block .editable) (values.map (t.plain .editable)))
  | .lookForeign values path how =>
    let w : Window t := ⟨values.map (t.plain .editable), 0⟩
    (store, .ofExcept do (← w.follow path).look how)
  | .copyForeign values path target =>
    let w : Window t := ⟨values.map (t.plain .editable), 0⟩
    match w.follow path with
    | .ok inner => store.make target (.fresh (.block .editable) inner.items)
    | .error e => (store, .outOfBounds e)
  | .look of path how =>
    store.withSlot of fun s => (store, .ofExcept do (← s.toWindow.follow path).look how)
  | .copySlice of path target =>
    store.withSlot of fun s => store.makeOfView target (s.ofSlice s.sliceKind path)
  | .freezeSlice of path target =>
    store.withSlot of fun s => store.makeOfView target (s.ofSlice .frozen path)
  | .restrict of first last => store.change of (store.remove of) (Shown.restrict first last)
  | .release of =>
    store.withSlot of fun _ => (store.remove of, .names (store.remove of).names)
  | .copy of target => store.withSlot of fun s => store.make target (s.copyAs s.kind)
  | .freeze of target => store.withSlot of fun s => store.make target (.fresh .frozen s.items)
  | .thaw of target =>
    store.withSlot of fun s =>
      match s.kind with
      | .block _ => (store, .unsupported)
      | .frozen => store.make target (s.copyAs (.block .readOnly))
  | .get of index =>
    store.withSlot of fun s => (store, .ofExcept ((fun x => .element (form x)) <$> s.get index))
  | .set of index value => store.change of store (Shown.set index (t.plain .editable value))
  | .fill of value => store.change of store fun s => .ok (s.fill (t.plain .editable value))
  | .swap of index other => store.change of store (Shown.swap index other)
  | .equality of other =>
    store.withSlot of fun a => store.withSlot other fun b =>
      match a.equality? b with
      | some (containers, views) => (store, .equality containers views)
      | none => (store, .unsupported)
  | .summary of => store.withSlot of fun s => (store, .summary s.summary)
  | .dump of pretty => store.withSlot of fun s => (store, .dump (s.toWindow.dump pretty))

/-- Performs steps in order, missed bounds notwithstanding. -/
def run (store : ShownStore t) : List (Store.Step t) → ShownStore t × List Answer
  | [] => (store, [])
  | step :: steps =>
    let (next, answer) := store.perform step
    let (last, answers) := next.run steps
    (last, answer :: answers)

end ShownStore

end ValueText
