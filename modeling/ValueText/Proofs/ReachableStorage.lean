import ValueText.Proofs.ContainerIndependence
import ValueText.Proofs.StorageSteps

/-!
# Storage that can be reached is safe

Machine blocks and views can be written down with any range at all.  Those that the constructors
and operations make, one after another and with any words for sizes, indices and ranges, are the
`Reachable` ones; they are containers of containers of any depth, and their elements are copied and
frozen in machine steps as well.

Every reachable value is a value of the library in machine words (`Reachable.represented`): each
operation keeps that, since it has the result of the library's operation.  So the range of every
reachable block and view ends in its storage, and the only checks that can be missed are those of
ranges and indices against the visible elements.

## Key results

- `PrintType.copySteps_machine`, `PrintType.freezeSteps_machine`: copies at every depth
- `Reachable.represented`: what is reachable is a value of the library
- `reachable_storage_safe`: what the steps on reachable values miss, and that nothing traps
-/

namespace ValueText

/-! ## Machine values -/

/-- Elements with some property, fewer than there are words. -/
structure Addressable {α : Type} (P : α → Prop) (xs : List α) : Prop where
  length_lt : xs.length < UInt64.size
  items : ∀ x ∈ xs, P x

namespace PrintType

variable {D : Type}

/-- The values of a type whose blocks and views are in machine words. -/
def Machine (D : Type) : PrintType → Type
  | .bool => Bool
  | .integer k => Integer k
  | .float f => Binary f
  | .char => Char8
  | .string => String
  | .block item | .frozen item => MachineBlock (item.Machine D)
  | .view item => MachineView (item.Machine D)
  | .fixed item n => Fixed (item.Machine D) n
  | .slice item => List (item.Machine D)
  | .ref target => Ref (target.Machine D)
  | .dynamic => D

/-- A value in machine words. -/
def machine : (t : PrintType) → t.Value D → t.Machine D
  | .block item, b => Block.machine item.machine b
  | .frozen item, f => Block.machine item.machine (Frozen.block f)
  | .view item, v => View.machine item.machine v
  | .fixed item _, l => ⟨(Fixed.values l).map item.machine⟩
  | .slice item, xs => List.map item.machine xs
  | .ref target, r => ⟨target.machine (Ref.target r)⟩
  | .bool, x | .integer _, x | .float _, x | .char, x | .string, x | .dynamic, x => x

/-- Whether all storage in a value has fewer elements than there are words. -/
def IsAddressable : (t : PrintType) → t.Value D → Prop
  | .block item, b => Addressable item.IsAddressable (Block.toView b).base.toList
  | .frozen item, f => Addressable item.IsAddressable (Frozen.toView f).base.toList
  | .view item, v => Addressable item.IsAddressable (View.base v).toList
  | .fixed item _, l => Addressable item.IsAddressable (Fixed.toList l)
  | .slice item, xs => Addressable item.IsAddressable xs
  | .ref target, r => target.IsAddressable (Ref.target r)
  | .bool, _ | .integer _, _ | .float _, _ | .char, _ | .string, _ | .dynamic, _ => True

/-- A copy of a value, in machine steps. -/
def copySteps : (t : PrintType) → t.Machine D → Checked (t.Machine D)
  | .block item, b | .frozen item, b => MachineBlock.copyWith item.copySteps b
  | .fixed item _, l => Fixed.mapChecked item.copySteps l
  -- What a value does not own is not copied with it.
  | .bool, x | .integer _, x | .float _, x | .char, x | .string, x | .view _, x | .slice _, x
  | .ref _, x | .dynamic, x => .ok x

/-- A copy of a value that can only be read, in machine steps. -/
def freezeSteps : (t : PrintType) → t.Machine D → Checked (t.constant.Machine D)
  | .block item, b | .frozen item, b => do
    MachineBlock.ofListWith item.freezeSteps (← MachineBlock.visible b)
  | .view item, v => MachineBlock.ofView item.freezeSteps v
  | .fixed item _, l => MachineBlock.ofListWith item.freezeSteps (Fixed.toList l)
  | .bool, x | .integer _, x | .float _, x | .char, x | .string, x | .slice _, x | .ref _, x
  | .dynamic, x => .ok x

/-- Whether the values of a type have no parts that are values of this library. -/
def isAtom : PrintType → Bool
  | .bool | .integer _ | .float _ | .char | .string | .dynamic => true
  | _ => false

end PrintType

/-! ## Addressable storage -/

namespace Addressable

variable {α β : Type} {P : α → Prop} {Q : β → Prop}

theorem nil : Addressable P [] := ⟨Nat.zero_lt_succ _, nofun⟩

/-- What is made of the elements of addressable storage is addressable. -/
theorem map {xs : List α} (h : Addressable P xs) {f : α → β} (hf : ∀ x, P x → Q (f x)) :
    Addressable Q (xs.map f) := by
  refine ⟨by simpa using h.length_lt, fun y hy => ?_⟩
  obtain ⟨x, hx, rfl⟩ := List.mem_map.1 hy
  exact hf x (h.items x hx)

/-- A word never asks for more elements than there are words. -/
theorem replicate (size : UInt64) {x : α} (h : P x) :
    Addressable P (Block.replicate size.toNat x).toView.base.toList := by
  show Addressable P (Array.replicate size.toNat x).toList
  rw [Array.toList_replicate]
  refine ⟨by simpa using size.toNat_lt, fun y hy => ?_⟩
  rw [List.eq_of_mem_replicate hy]
  exact h

/-- What a view shows is part of its storage. -/
theorem visible {v : View α} (h : Addressable P v.base.toList) : Addressable P v.toList := by
  have hfits := v.fits
  have hlength := h.length_lt
  rw [Array.length_toList] at hlength
  -- There are no more visible elements than there are in the storage.
  constructor
  · rw [View.length_toList]
    omega
  · intro x hx
    exact h.items x (Array.mem_toList_iff.2 (View.mem_base_of_mem_toList hx))

theorem size_lt {base : Array α} (h : Addressable P base.toList) : base.size < UInt64.size := by
  simpa using h.length_lt

/-- A copied block is addressable: there are no more elements in it than in the buffer it was made
    of. -/
theorem copyWith {b : Block α} (h : Addressable P b.toView.base.toList) {copy : α → β}
    (hcopy : ∀ x, P x → Q (copy x)) : Addressable Q (b.copyWith copy).toView.base.toList := by
  unfold Block.copyWith
  split
  · exact h.visible.map hcopy
  · exact nil

/-- Changing elements at their places leaves as many. -/
theorem mapBuffer {b : Block α} (h : Addressable P b.toView.base.toList) {f : Nat → α → α}
    (hf : ∀ i x, P x → P (f i x)) : Addressable P (b.mapBuffer f).toView.base.toList := by
  -- By whether there is a buffer; changing all of its elements keeps its size.
  obtain ⟨_ | buffer, start, size, fits⟩ := b
  · exact nil
  · refine ⟨by simpa [Block.mapBuffer, Block.toView] using h.length_lt, fun y hy => ?_⟩
    obtain ⟨i, hi, rfl⟩ := List.mem_iff_getElem.1 hy
    simp only [Block.mapBuffer, Block.toView, Option.map_some, Option.getD_some,
      Array.getElem_toList, Array.getElem_mapIdx]
    exact hf i _ (h.items _ (Array.getElem_mem_toList ..))

/-- Changing the visible elements leaves a buffer addressable. -/
theorem mapVisible {b : Block α} (h : Addressable P b.toView.base.toList) {f : Nat → α → α}
    (hf : ∀ i x, P x → P (f i x)) : Addressable P (b.mapVisible f).toView.base.toList := by
  refine h.mapBuffer fun i x hx => ?_
  split
  · exact hf _ x hx
  · exact hx

/-- A block made of a fixed sequence is addressable, since its size is a word. -/
theorem toBlockWith {n : Nat} {l : Fixed α n} (h : Addressable P l.toList) {copy : α → β}
    (hcopy : ∀ x, P x → Q (copy x)) (size : UInt64) {filler : β} (hfiller : Q filler) :
    Addressable Q (l.toBlockWith copy size.toNat filler).toView.base.toList := by
  -- Each element is a filler or, where the fixed sequence has a value, its copy.
  refine (replicate size hfiller).mapBuffer fun i x hx => ?_
  cases hi : l.values[i]? with
  | none => exact hx
  | some y =>
    have hmem : y ∈ l.toList := Vector.mem_toList_iff.2 (Vector.mem_of_getElem? hi)
    exact hcopy y (h.items y hmem)

end Addressable

namespace PrintType

variable {D : Type}

/-- Copies are no larger than what they were made from. -/
theorem isAddressable_copy (t : PrintType) (y : t.Value D) (h : t.IsAddressable y) :
    t.IsAddressable (t.copy y) := by
  -- Copying goes down into the elements of everything that owns them, and so does the induction.
  induction t with
  | block item ih => exact Addressable.copyWith h ih
  | frozen item ih => exact Addressable.copyWith h ih
  | fixed item n ih =>
    show Addressable item.IsAddressable (Fixed.toList ⟨(Fixed.values y).map item.copy⟩)
    exact Fixed.toList_map item.copy y ▸ Addressable.map h ih
  | bool | integer | float | char | string | view | slice | ref | dynamic => exact h

/-- What is frozen is addressable. -/
theorem isAddressable_freeze (t : PrintType) (y : t.Value D) (h : t.IsAddressable y) :
    t.constant.IsAddressable (t.freeze y) := by
  -- By the type; a container shows only what is in its storage, at every depth.
  induction t with
  | block item ih => exact (Addressable.visible h).map ih
  | frozen item ih => exact (Addressable.visible h).map ih
  | view item ih => exact (Addressable.visible h).map ih
  | fixed item n ih => exact Addressable.map h ih
  | bool | integer | float | char | string | slice | ref | dynamic => exact h

/-! ## Copies in machine steps -/

/-- A copy in machine steps is the library's copy. -/
theorem copySteps_machine (t : PrintType) (y : t.Value D) (h : t.IsAddressable y) :
    t.copySteps (t.machine y) = .ok (t.machine (t.copy y)) := by
  -- By the type, as `copySteps` is; the elements are addressable since their storage is.
  induction t with
  | block item ih =>
    exact Block.copyWith_machine h.size_lt fun x hx => ih x (h.visible.items x hx)
  | frozen item ih =>
    exact Block.copyWith_machine h.size_lt fun x hx => ih x (h.visible.items x hx)
  | fixed item n ih => exact Fixed.mapChecked_map fun x hx => ih x (h.items x hx)
  | bool | integer | float | char | string | view | slice | ref | dynamic => rfl

/-- What is frozen in machine steps is what the library freezes. -/
theorem freezeSteps_machine (t : PrintType) (y : t.Value D) (h : t.IsAddressable y) :
    t.freezeSteps (t.machine y) = .ok (t.constant.machine (t.freeze y)) := by
  -- By the type, as for copies; a view is frozen as well, although it is not copied.
  induction t with
  | block item ih =>
    exact Block.ofVisible_machine h.size_lt fun x hx => ih x (h.visible.items x hx)
  | frozen item ih =>
    exact Block.ofVisible_machine h.size_lt fun x hx => ih x (h.visible.items x hx)
  | view item ih => exact Block.ofView_machine h.size_lt fun x hx => ih x (h.visible.items x hx)
  | fixed item n ih => exact Block.ofFixedValues_machine fun x hx => ih x (h.items x hx)
  | bool | integer | float | char | string | slice | ref | dynamic => rfl

/-- A block made of a view in machine steps is the one that the library makes. -/
theorem ofView_copySteps (item : PrintType) {v : View (item.Value D)}
    (h : Addressable item.IsAddressable v.base.toList) :
    MachineBlock.ofView item.copySteps (v.machine item.machine) =
      .ok ((Block.ofViewWith item.copy v).machine item.machine) :=
  Block.ofView_machine h.size_lt fun x hx => item.copySteps_machine x (h.visible.items x hx)

/-- So is one made of a fixed sequence. -/
theorem ofFixed_copySteps (item : PrintType) {n : Nat} {l : Fixed (item.Value D) n}
    (h : Addressable item.IsAddressable l.toList) (size : UInt64) (filler : item.Value D) :
    MachineBlock.ofFixed item.copySteps ⟨l.values.map item.machine⟩ size (item.machine filler) =
      .ok ((l.toBlockWith item.copy size.toNat filler).machine item.machine) :=
  Block.ofFixed_machine size filler fun x hx => item.copySteps_machine x (h.items x hx)

end PrintType

/-! ## Reachable values -/

/-- The values that can be made: by a constructor from values that can be made, or by an operation
    on one of them, whatever the words that it is given.  A vector has fewer elements than there are
    words. -/
inductive Reachable {D : Type} : (t : PrintType) → t.Machine D → Prop
  | atom {t : PrintType} (h : t.isAtom = true) (x : t.Machine D) : Reachable t x
  | ref {t : PrintType} {x : t.Machine D} (h : Reachable t x) : Reachable (.ref t) (Ref.mk x)
  | target {t : PrintType} {r : Ref (t.Machine D)} (h : Reachable (.ref t) r) :
    Reachable t r.target
  /-- Elements in a row, in foreign storage or about to be owned. -/
  | slice {item : PrintType} {xs : List (item.Machine D)} (hlength : xs.length < UInt64.size)
    (h : ∀ x ∈ xs, Reachable item x) : Reachable (.slice item) xs
  | element {item : PrintType} {xs : List (item.Machine D)} {x : item.Machine D}
    (h : Reachable (.slice item) xs) (hx : x ∈ xs) : Reachable item x
  | fixed {item : PrintType} {n : Nat} {l : Fixed (item.Machine D) n}
    (h : Reachable (.slice item) l.toList) : Reachable (.fixed item n) l
  | fixedValues {item : PrintType} {n : Nat} {l : Fixed (item.Machine D) n}
    (h : Reachable (.fixed item n) l) : Reachable (.slice item) l.toList
  | empty {item : PrintType} : Reachable (.block item) MachineBlock.empty
  | create {item : PrintType} (size : UInt64) {value : item.Machine D} (h : Reachable item value) :
    Reachable (.block item) (MachineBlock.create size value)
  /-- From any vector, be it collected from an iterator or made of the bytes of a string. -/
  | adopt {item : PrintType} {values : Array (item.Machine D)}
    (h : Reachable (.slice item) values.toList) :
    Reachable (.block item) (MachineBlock.adopt values)
  | ofFixed {item : PrintType} {n : Nat} {l : Fixed (item.Machine D) n} {size : UInt64}
    {filler : item.Machine D} {b : MachineBlock (item.Machine D)} (h : Reachable (.fixed item n) l)
    (hfiller : Reachable item filler)
    (hb : MachineBlock.ofFixed item.copySteps l size filler = .ok b) :
    Reachable (.block item) b
  | restrict {item : PrintType} {b c : MachineBlock (item.Machine D)} {first last : UInt64}
    (h : Reachable (.block item) b) (hc : b.restrict first last = .ok c) :
    Reachable (.block item) c
  | set {item : PrintType} {b c : MachineBlock (item.Machine D)} {index : UInt64}
    {value : item.Machine D} (h : Reachable (.block item) b) (hvalue : Reachable item value)
    (hc : b.set index value = .ok c) : Reachable (.block item) c
  /-- Through all visible elements at once. -/
  | overwrite {item : PrintType} {b c : MachineBlock (item.Machine D)}
    {items : List (item.Machine D)} (h : Reachable (.block item) b)
    (hitems : ∀ x ∈ items, Reachable item x) (hc : b.overwrite items = .ok c) :
    Reachable (.block item) c
  | blockVisible {item : PrintType} {b : MachineBlock (item.Machine D)}
    {xs : List (item.Machine D)} (h : Reachable (.block item) b) (hxs : b.visible = .ok xs) :
    Reachable (.slice item) xs
  | blockView {item : PrintType} {b : MachineBlock (item.Machine D)}
    {v : MachineView (item.Machine D)} (h : Reachable (.block item) b) (hv : b.toView = .ok v) :
    Reachable (.view item) v
  | frozenEmpty {item : PrintType} : Reachable (.frozen item) MachineBlock.empty
  | frozenVisible {item : PrintType} {f : MachineBlock (item.Machine D)}
    {xs : List (item.Machine D)} (h : Reachable (.frozen item) f) (hxs : f.visible = .ok xs) :
    Reachable (.slice item) xs
  | frozenView {item : PrintType} {f : MachineBlock (item.Machine D)}
    {v : MachineView (item.Machine D)} (h : Reachable (.frozen item) f) (hv : f.toView = .ok v) :
    Reachable (.view item) v
  | thaw {item : PrintType} {f b : MachineBlock (item.Machine D)} (h : Reachable (.frozen item) f)
    (hb : f.copyWith item.copySteps = .ok b) : Reachable (.block item) b
  | copy {t : PrintType} {x y : t.Machine D} (h : Reachable t x) (hy : t.copySteps x = .ok y) :
    Reachable t y
  | freeze {t : PrintType} {x : t.Machine D} {y : t.constant.Machine D} (h : Reachable t x)
    (hy : t.freezeSteps x = .ok y) : Reachable t.constant y
  /-- Over storage that nothing in this library owns. -/
  | view {item : PrintType} {xs : List (item.Machine D)} (h : Reachable (.slice item) xs) :
    Reachable (.view item) (MachineView.ofArray xs.toArray)
  | ofZeroEnded {bytes : Bytes} {v : MachineView Char8} (hlength : bytes.length < UInt64.size)
    (hv : MachineView.ofZeroEnded bytes = .ok v) : Reachable (.view .char) v
  | viewVisible {item : PrintType} {v : MachineView (item.Machine D)}
    {xs : List (item.Machine D)} (h : Reachable (.view item) v) (hxs : v.visible = .ok xs) :
    Reachable (.slice item) xs
  | viewSlice {item : PrintType} {v w : MachineView (item.Machine D)} {first last : UInt64}
    (h : Reachable (.view item) v) (hw : v.slice first last = .ok w) : Reachable (.view item) w
  | ofView {item : PrintType} {v : MachineView (item.Machine D)}
    {b : MachineBlock (item.Machine D)} (h : Reachable (.view item) v)
    (hb : MachineBlock.ofView item.copySteps v = .ok b) : Reachable (.block item) b

/-! ## One step -/

/-- A step that has the result of the library has a value of it. -/
theorem Checked.exists_of_ofBounds_eq_ok {α β : Type} {f : α → β} {r : Except BoundsError α}
    {x : β} (h : Checked.ofBounds f r = .ok x) : ∃ y, r = .ok y ∧ f y = x := by
  cases r with
  | error e => exact nomatch h
  | ok y => exact ⟨y, rfl, Except.ok.inj h⟩

section Steps

variable {α β : Type} {P : α → Prop} {f : α → β}

/-- Elements that stand for addressable ones. -/
def RepresentedList (P : α → Prop) (f : α → β) (xs : List β) : Prop :=
  ∃ ys, Addressable P ys ∧ ys.map f = xs

/-- A machine block that stands for a block of the library. -/
def MachineBlock.Represented (P : α → Prop) (f : α → β) (b : MachineBlock β) : Prop :=
  ∃ c : Block α, Addressable P c.toView.base.toList ∧ c.machine f = b

/-- A machine view that stands for a view of the library. -/
def MachineView.Represented (P : α → Prop) (f : α → β) (v : MachineView β) : Prop :=
  ∃ w : View α, Addressable P w.base.toList ∧ w.machine f = v

namespace RepresentedList

/-- If every element represents a value then the list represents a list of values. -/
theorem exists_map_eq {xs : List β} (h : ∀ x ∈ xs, ∃ y, P y ∧ f y = x) :
    ∃ ys : List α, (∀ y ∈ ys, P y) ∧ ys.map f = xs := by
  induction xs with
  | nil => exact ⟨[], nofun, rfl⟩
  | cons x xs ih =>
    obtain ⟨y, hy, rfl⟩ := h x (List.mem_cons_self ..)
    obtain ⟨ys, hys, rfl⟩ := ih fun z hz => h z (List.mem_cons_of_mem _ hz)
    exact ⟨y :: ys, List.forall_mem_cons.2 ⟨hy, hys⟩, rfl⟩

/-- A list that fits a word represents storage if its elements represent values. -/
theorem of_forall {xs : List β} (hlength : xs.length < UInt64.size)
    (h : ∀ x ∈ xs, ∃ y, P y ∧ f y = x) : RepresentedList P f xs := by
  obtain ⟨ys, hys, rfl⟩ := exists_map_eq h
  exact ⟨ys, ⟨by simpa using hlength, hys⟩, rfl⟩

/-- The elements of a list represent values if the list does. -/
theorem element {xs : List β} {x : β} (h : RepresentedList P f xs) (hx : x ∈ xs) :
    ∃ y, P y ∧ f y = x := by
  obtain ⟨ys, haddressable, rfl⟩ := h
  obtain ⟨y, hy, rfl⟩ := List.mem_map.1 hx
  exact ⟨y, haddressable.items y hy, rfl⟩

/-- A block that adopts such a list represents a block. -/
theorem adopt {values : Array β} (h : RepresentedList P f values.toList) :
    (MachineBlock.adopt values).Represented P f := by
  obtain ⟨ys, haddressable, hys⟩ := h
  refine ⟨Block.ofList ys, haddressable, ?_⟩
  rw [Block.ofList, Block.machine_ofArray, List.map_toArray, hys, Array.toArray_toList]

/-- A view of such a list represents a view. -/
theorem view {xs : List β} (h : RepresentedList P f xs) :
    (MachineView.ofArray xs.toArray).Represented P f := by
  obtain ⟨ys, haddressable, rfl⟩ := h
  refine ⟨View.ofList ys, haddressable, ?_⟩
  rw [View.ofList, View.machine_ofArray, List.map_toArray]

/-- A fixed sequence of such elements represents one. -/
theorem fixed {n : Nat} {l : Fixed β n} (h : RepresentedList P f l.toList) :
    ∃ k : Fixed α n, Addressable P k.toList ∧ (⟨k.values.map f⟩ : Fixed β n) = l := by
  obtain ⟨ys, haddressable, hys⟩ := h
  -- The values are as many as their machine values, so that they have the size of the sequence.
  have hlength : ys.toArray.size = n := by
    rw [List.size_toArray, ← l.length_toList, ← hys, List.length_map]
  refine ⟨⟨⟨ys.toArray, hlength⟩⟩, haddressable, ?_⟩
  apply congrArg Fixed.mk
  rw [← Vector.toList_inj, Vector.toList_map]
  exact hys

end RepresentedList

namespace MachineBlock.Represented

variable {b c : MachineBlock β}

theorem empty : (MachineBlock.empty : MachineBlock β).Represented P f :=
  ⟨Block.empty, .nil, rfl⟩

/-- A block of equal elements represents one, since its size is a word. -/
theorem create (size : UInt64) {x : α} (h : P x) :
    (MachineBlock.create size (f x)).Represented P f :=
  ⟨Block.replicate size.toNat x, .replicate size h, Block.machine_replicate f size x⟩

/-- What a block shows represents storage. -/
theorem visible (h : b.Represented P f) {xs : List β} (hxs : b.visible = .ok xs) :
    RepresentedList P f xs := by
  obtain ⟨y, haddressable, rfl⟩ := h
  have hvisible := (Block.stepsAgree f haddressable.size_lt).visible
  rw [hvisible] at hxs
  exact ⟨y.toList, haddressable.visible, Except.ok.inj hxs⟩

theorem toView (h : b.Represented P f) {v : MachineView β} (hv : b.toView = .ok v) :
    v.Represented P f := by
  obtain ⟨y, haddressable, rfl⟩ := h
  have htoView := (Block.stepsAgree f haddressable.size_lt).toView
  rw [htoView] at hv
  exact ⟨y.toView, haddressable, Except.ok.inj hv⟩

/-- A restricted block represents the restricted block: the buffer is the same. -/
theorem restrict (h : b.Represented P f) {first last : UInt64}
    (hc : b.restrict first last = .ok c) : c.Represented P f := by
  obtain ⟨y, haddressable, rfl⟩ := h
  rw [(Block.stepsAgree f haddressable.size_lt).restrict] at hc
  obtain ⟨z, hz, rfl⟩ := Checked.exists_of_ofBounds_eq_ok hc
  exact ⟨z, Block.base_restrict hz ▸ haddressable, rfl⟩

/-- Writing an element leaves a block that represents one. -/
theorem set (h : b.Represented P f) {index : UInt64} {x : α} (hx : P x)
    (hc : b.set index (f x) = .ok c) : c.Represented P f := by
  obtain ⟨y, haddressable, rfl⟩ := h
  rw [(Block.stepsAgree f haddressable.size_lt).set] at hc
  obtain ⟨z, hz, rfl⟩ := Checked.exists_of_ofBounds_eq_ok hc
  -- Where the step succeeds, only the one element is another.
  obtain ⟨-, rfl⟩ := Block.set_eq_ok_iff.1 hz
  refine ⟨_, haddressable.mapBuffer fun i w hw => ?_, rfl⟩
  split
  · exact hx
  · exact hw

/-- Writing over the visible elements leaves a block that represents one. -/
theorem overwrite (h : b.Represented P f) {items : List β}
    (hitems : ∀ x ∈ items, ∃ y, P y ∧ f y = x) (hc : b.overwrite items = .ok c) :
    c.Represented P f := by
  obtain ⟨y, haddressable, rfl⟩ := h
  obtain ⟨ys, hys, rfl⟩ := RepresentedList.exists_map_eq hitems
  -- Behind the end of the items, the elements stay as they are, on both sides.
  have hwrite (i : Nat) (x : α) : (ys.map f)[i]?.getD (f x) = f (ys[i]?.getD x) := by
    rw [List.getElem?_map, Option.getD_map]
  have hmodify := (Block.stepsAgree f haddressable.size_lt).modify _ _ hwrite
  obtain rfl := Except.ok.inj (hmodify.symm.trans hc)
  refine ⟨_, haddressable.mapVisible fun i x hx => ?_, rfl⟩
  cases hi : ys[i]? with
  | none => exact hx
  | some z => exact hys z (List.mem_of_getElem? hi)

end MachineBlock.Represented

namespace MachineView.Represented

variable {v w : MachineView β}

/-- What a view shows represents storage. -/
theorem visible (h : v.Represented P f) {xs : List β} (hxs : v.visible = .ok xs) :
    RepresentedList P f xs := by
  obtain ⟨y, haddressable, rfl⟩ := h
  rw [(View.stepsAgree f haddressable.size_lt).visible] at hxs
  exact ⟨y.toList, haddressable.visible, Except.ok.inj hxs⟩

/-- A slice represents the slice of the view: the storage is the same. -/
theorem slice (h : v.Represented P f) {first last : UInt64} (hw : v.slice first last = .ok w) :
    w.Represented P f := by
  obtain ⟨y, haddressable, rfl⟩ := h
  rw [(View.stepsAgree f haddressable.size_lt).slice] at hw
  obtain ⟨z, hz, rfl⟩ := Checked.exists_of_ofBounds_eq_ok hw
  exact ⟨z, View.base_slice hz ▸ haddressable, rfl⟩

end MachineView.Represented

end Steps

/-- The bytes before a zero byte are found without trapping. -/
theorem MachineView.ofZeroEnded_eq {bytes : Bytes} (h : bytes.length < UInt64.size) :
    ofZeroEnded bytes = .ok ((View.ofZeroEnded bytes).machine id) := by
  have hprefix : bytes.takeWhile (· != 0) <+: bytes := List.takeWhile_prefix _
  have hrange := Checked.range_take hprefix.length_le h
  rw [← List.prefix_iff_eq_take.1 hprefix] at hrange
  rw [ofZeroEnded, hrange, View.ofZeroEnded, View.ofList, View.machine_ofArray, Array.map_id]
  rfl

namespace PrintType

variable {D : Type}

/-- Whether a value in machine words is one of the library's. -/
def Represented (t : PrintType) (x : t.Machine D) : Prop :=
  ∃ y : t.Value D, t.IsAddressable y ∧ t.machine y = x

namespace Represented

variable {item t : PrintType}

/-- A frozen block is written like the block in it. -/
theorem block_of_frozen {b : MachineBlock (item.Machine D)}
    (h : Represented (.frozen item) b) : Represented (.block item) b := by
  obtain ⟨y, haddressable, hy⟩ := h
  exact ⟨Frozen.block y, haddressable, hy⟩

/-- A copy made in steps represents the copy of the value. -/
theorem copy {x y : t.Machine D} (h : t.Represented x) (hy : t.copySteps x = .ok y) :
    t.Represented y := by
  obtain ⟨z, haddressable, rfl⟩ := h
  rw [t.copySteps_machine z haddressable] at hy
  exact ⟨t.copy z, t.isAddressable_copy z haddressable, Except.ok.inj hy⟩

/-- What is frozen in steps represents the frozen value. -/
theorem freeze {x : t.Machine D} {y : t.constant.Machine D} (h : t.Represented x)
    (hy : t.freezeSteps x = .ok y) : t.constant.Represented y := by
  obtain ⟨z, haddressable, rfl⟩ := h
  rw [t.freezeSteps_machine z haddressable] at hy
  exact ⟨t.freeze z, t.isAddressable_freeze z haddressable, Except.ok.inj hy⟩

/-- A block made of a view in steps represents the block made of the view. -/
theorem ofView {v : MachineView (item.Machine D)} {b : MachineBlock (item.Machine D)}
    (h : Represented (.view item) v) (hb : MachineBlock.ofView item.copySteps v = .ok b) :
    Represented (.block item) b := by
  obtain ⟨w, haddressable, rfl⟩ := h
  have hmade := item.ofView_copySteps haddressable
  exact ⟨Block.ofViewWith item.copy w, haddressable.visible.map item.isAddressable_copy,
    Except.ok.inj (hmade.symm.trans hb)⟩

/-- A block made of a fixed sequence in steps represents the block made of it. -/
theorem ofFixed {n : Nat} {l : Fixed (item.Machine D) n} {size : UInt64}
    {filler : item.Machine D} {b : MachineBlock (item.Machine D)}
    (h : Represented (.fixed item n) l) (hfiller : item.Represented filler)
    (hb : MachineBlock.ofFixed item.copySteps l size filler = .ok b) :
    Represented (.block item) b := by
  obtain ⟨k, haddressable, rfl⟩ := h
  obtain ⟨y, hy, rfl⟩ := hfiller
  have hmade := item.ofFixed_copySteps haddressable size y
  exact ⟨Fixed.toBlockWith item.copy k size.toNat y,
    .toBlockWith haddressable item.isAddressable_copy size hy,
    Except.ok.inj (hmade.symm.trans hb)⟩

end Represented

end PrintType

/-! ## Every run -/

namespace Reachable

variable {D : Type} {t : PrintType} {x : t.Machine D}

/-- What is reachable is a value of the library in machine words. -/
theorem represented (h : Reachable t x) : t.Represented x := by
  -- Each operation has the result of the library's operation on what stands for its arguments.
  induction h with
  | @atom t h x =>
    cases t with
    | bool | integer | float | char | string | dynamic => exact ⟨x, trivial, rfl⟩
    | _ => exact nomatch h
  -- Elements, alone and in a row.
  | ref _ ih =>
    obtain ⟨y, haddressable, rfl⟩ := ih
    exact ⟨Ref.mk y, haddressable, rfl⟩
  | target _ ih =>
    obtain ⟨y, haddressable, rfl⟩ := ih
    exact ⟨Ref.target y, haddressable, rfl⟩
  | slice hlength _ ih => exact RepresentedList.of_forall hlength ih
  | element _ hx ih => exact RepresentedList.element ih hx
  | fixed _ ih => exact RepresentedList.fixed ih
  | fixedValues _ ih =>
    obtain ⟨y, haddressable, rfl⟩ := ih
    exact ⟨Fixed.toList y, haddressable, (Fixed.toList_map _ y).symm⟩
  -- Blocks: how they are made, and what is done to them.
  | empty => exact MachineBlock.Represented.empty
  | create size _ ih =>
    obtain ⟨y, hy, rfl⟩ := ih
    exact MachineBlock.Represented.create size hy
  | adopt _ ih => exact RepresentedList.adopt ih
  | ofFixed _ _ hb ih ihfiller => exact ih.ofFixed ihfiller hb
  | restrict _ hc ih => exact MachineBlock.Represented.restrict ih hc
  | set _ _ hc ih ihvalue =>
    obtain ⟨y, hy, rfl⟩ := ihvalue
    exact MachineBlock.Represented.set ih hy hc
  | overwrite _ _ hc ih ihitems => exact MachineBlock.Represented.overwrite ih ihitems hc
  | blockVisible _ hxs ih => exact MachineBlock.Represented.visible ih hxs
  | blockView _ hv ih => exact MachineBlock.Represented.toView ih hv
  -- A frozen block is read like the block in it.
  | frozenEmpty => exact ⟨Frozen.empty, .nil, rfl⟩
  | frozenVisible _ hxs ih => exact MachineBlock.Represented.visible ih.block_of_frozen hxs
  | frozenView _ hv ih => exact MachineBlock.Represented.toView ih.block_of_frozen hv
  | thaw _ hb ih => exact ih.block_of_frozen.copy hb
  -- Copies of values of any type.
  | copy _ hy ih => exact ih.copy hy
  | freeze _ hy ih => exact ih.freeze hy
  -- Views, and what is made of them.
  | view _ ih => exact RepresentedList.view ih
  | @ofZeroEnded bytes v hlength hv =>
    have hshort : (bytes.takeWhile (· != 0)).length ≤ bytes.length :=
      (List.takeWhile_prefix _).length_le
    refine ⟨View.ofZeroEnded bytes, ⟨Nat.lt_of_le_of_lt hshort hlength, fun _ _ => trivial⟩, ?_⟩
    exact Except.ok.inj ((MachineView.ofZeroEnded_eq hlength).symm.trans hv)
  | viewVisible _ hxs ih => exact MachineView.Represented.visible ih hxs
  | viewSlice _ hw ih => exact MachineView.Represented.slice ih hw
  | ofView _ hb ih => exact ih.ofView hb

end Reachable

namespace PrintType.Represented

variable {D : Type} {item : PrintType}

/-- A block that represents one is safe, since the steps agree with the operations. -/
theorem safe_block {b : MachineBlock (item.Machine D)} (h : Represented (.block item) b) :
    b.Safe := by
  obtain ⟨y, haddressable, rfl⟩ := h
  exact Block.safe_machine item.machine haddressable.size_lt

theorem safe_view {v : MachineView (item.Machine D)} (h : Represented (.view item) v) :
    v.Safe := by
  obtain ⟨y, haddressable, rfl⟩ := h
  exact View.safe_machine item.machine haddressable.size_lt

end PrintType.Represented

/-- Storage that can be reached is safe.  The range of every block, frozen or not, and of every view
    ends in its storage, and a block without a buffer begins at zero and shows nothing.  Reading all
    of it, viewing it and writing all of it succeed; a range or an index is answered by the missed
    bounds exactly if it is not among the visible elements, and nothing else goes wrong.  Copies of
    every kind succeed, and so does looking for the zero byte that ends a text.  What is reachable
    is a value of the library, and each step on it has the result of the library's operation. -/
theorem reachable_storage_safe (D : Type) :
    (∀ (item : PrintType) (b : MachineBlock (item.Machine D)),
      Reachable (.block item) b ∨ Reachable (.frozen item) b → b.Safe) ∧
    (∀ (item : PrintType) (v : MachineView (item.Machine D)), Reachable (.view item) v →
      v.Safe ∧ ∃ b, MachineBlock.ofView item.copySteps v = .ok b) ∧
    (∀ (item : PrintType) (n : Nat) (l : Fixed (item.Machine D) n) (size : UInt64)
      (filler : item.Machine D), Reachable (.fixed item n) l → Reachable item filler →
        ∃ b, MachineBlock.ofFixed item.copySteps l size filler = .ok b) ∧
    (∀ bytes : Bytes, bytes.length < UInt64.size →
      MachineView.ofZeroEnded bytes = .ok ((View.ofZeroEnded bytes).machine id)) ∧
    (∀ (t : PrintType) (x : t.Machine D), Reachable t x →
      ∃ y : t.Value D, t.IsAddressable y ∧ t.machine y = x ∧
        t.copySteps x = .ok (t.machine (t.copy y)) ∧
        t.freezeSteps x = .ok (t.constant.machine (t.freeze y))) ∧
    (∀ (item : PrintType) (b : Block (item.Value D)), (PrintType.block item).IsAddressable b →
      b.StepsAgree item.machine) ∧
    (∀ (item : PrintType) (v : View (item.Value D)), (PrintType.view item).IsAddressable v →
      v.StepsAgree item.machine) := by
  -- Whatever is reachable represents a value, and for represented values the rest was shown.
  refine ⟨fun item b hb => ?_, fun item v hv => ⟨hv.represented.safe_view, ?_⟩,
    fun item n l size filler hl hfiller => ?_, fun bytes => MachineView.ofZeroEnded_eq,
    fun t x hx => ?_, fun item b hb => Block.stepsAgree _ (Addressable.size_lt hb),
    fun item v hv => View.stepsAgree _ (Addressable.size_lt hv)⟩
  · cases hb with
    | inl hb => exact hb.represented.safe_block
    | inr hb => exact hb.represented.block_of_frozen.safe_block
  · obtain ⟨w, haddressable, rfl⟩ := hv.represented
    exact ⟨_, item.ofView_copySteps haddressable⟩
  · obtain ⟨k, haddressable, rfl⟩ := hl.represented
    obtain ⟨y, hy, rfl⟩ := hfiller.represented
    exact ⟨_, item.ofFixed_copySteps haddressable size y⟩
  · obtain ⟨y, haddressable, rfl⟩ := hx.represented
    exact ⟨y, haddressable, rfl, t.copySteps_machine y haddressable,
      t.freezeSteps_machine y haddressable⟩

/-- A block of blocks that shows the second of two, which shows the second of two elements, and the
    view of none of it; the first block owns no buffer and was restricted to nothing. -/
theorem reachable_storage_safe_restricted :
    let bare : MachineBlock Bool := ⟨none, 0, 0⟩
    let inner : MachineBlock Bool := ⟨some #[true, false], 1, 1⟩
    let b : MachineBlock (MachineBlock Bool) := ⟨some #[bare, inner], 1, 1⟩
    let v : MachineView (MachineBlock Bool) := ⟨#[bare, inner], 2, 0⟩
    @Reachable Empty (.block (.block .bool)) b ∧ b.Safe ∧
      @Reachable Empty (.view (.block .bool)) v ∧ v.Safe ∧
      b.restrict 1 18446744073709551615 =
        .error (.bounds (.range 1 18446744073709551615 1)) := by
  intro bare inner b v
  -- Each of the values is the outcome of a step on one of the values before.
  have hnothing : (MachineBlock.empty : MachineBlock Bool).restrict 0 0 = .ok bare := rfl
  have hsecond : (MachineBlock.adopt #[true, false]).restrict 1 2 = .ok inner := rfl
  have hlast : (MachineBlock.adopt #[bare, inner]).restrict 1 2 = .ok b := rfl
  have hview : b.toView = .ok ⟨#[bare, inner], 1, 1⟩ := rfl
  have hend : (⟨#[bare, inner], 1, 1⟩ : MachineView (MachineBlock Bool)).slice 1 1 = .ok v := rfl
  have hbools : @Reachable Empty (.slice .bool) [true, false] :=
    .slice (by decide) fun x _ => .atom rfl x
  have hblocks : @Reachable Empty (.slice (.block .bool)) [bare, inner] := by
    have hbare : @Reachable Empty (.block .bool) bare := .restrict .empty hnothing
    have hinner : @Reachable Empty (.block .bool) inner := .restrict (.adopt hbools) hsecond
    exact .slice (by decide) (List.forall_mem_cons.2 ⟨hbare, List.forall_mem_singleton.2 hinner⟩)
  have hb : @Reachable Empty (.block (.block .bool)) b := .restrict (.adopt hblocks) hlast
  have hv : @Reachable Empty (.view (.block .bool)) v := .viewSlice (.blockView hb hview) hend
  have hsafe := reachable_storage_safe Empty
  exact ⟨hb, hsafe.1 (.block .bool) b (.inl hb), hv, (hsafe.2.1 (.block .bool) v hv).1, rfl⟩

end ValueText
