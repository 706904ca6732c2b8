import Mathlib.Data.List.Forall2
import ValueText.Proofs.ContainerIndependence

/-!
# Copies own what they show and nothing else

A block is exact if it owns a buffer that holds the visible elements and no others.  What is frozen
is exact at every depth, whatever the blocks in it owned or hid before, and freezing it once more
gives the same value.  A copy is exact at every depth as well, except that it has no buffer where
the block that it was made from has none.

These two conditions are said by recursion on the type of a value (`IsCompact`, `IsCopy`), without
reference to how copies are made.  The elements of a store are among these values, block for block
(`ElementType.embed`), and what is shown of all values is carried over to them.

## Key results

- `Block.isCopyOf_iff`: of one block, `copyWith` makes the one copy
- `PrintType.isCompact_freeze`, `PrintType.freeze_of_isCompact`: what is frozen is compact, and
  stays what it is when frozen again
- `PrintType.isCopy_iff`: of one value, `copy` makes the one copy
- `ElementType.embed_copy`, `ElementType.embed_freeze`: elements are copied and frozen as the values
  that they are
- `copies_compact`: all of this, for every nesting of containers
-/

namespace ValueText

/-! ## Blocks -/

namespace Block

variable {α β : Type}

/-- Whether a block owns a buffer of the visible elements and no others. -/
def IsExact (b : Block α) : Prop := b.offset = 0 ∧ b.buffer = some b.toList.toArray

theorem isExact_ofList (xs : List α) : (ofList xs).IsExact :=
  ⟨rfl, by rw [toList_ofList]; rfl⟩

/-- An exact block is determined by what it shows. -/
theorem IsExact.eq_ofList {b : Block α} (h : b.IsExact) : b = ofList b.toList := by
  obtain ⟨hoffset, hbuffer⟩ := h
  have hsize : b.size = b.toList.toArray.size := by simp
  obtain ⟨buffer, start, size, fits⟩ := b
  simp only [ofList, ofArray, mk.injEq]
  exact ⟨hbuffer, hoffset, hsize⟩

/-- A block without a buffer is the empty one. -/
theorem eq_empty_of_not_hasBuffer {b : Block α} (h : b.hasBuffer = false) : b = empty := by
  have hbuffer : b.buffer = none := by simpa [hasBuffer] using h
  obtain ⟨hstart, hsize⟩ := start_size_of_buffer_eq_none hbuffer
  obtain ⟨buffer, start, size, fits⟩ := b
  simp only [empty, mk.injEq]
  exact ⟨hbuffer, hstart, hsize⟩

/-- A block is a copy of another one if its elements are copies of the visible elements in order,
    and it is exact if the other one owns a buffer, and owns none if that owns none. -/
structure IsCopyOf (IsCopy : α → β → Prop) (b : Block α) (c : Block β) : Prop where
  items : List.Forall₂ IsCopy b.toList c.toList
  exact : b.hasBuffer = true → c.IsExact
  bare : b.hasBuffer = false → c.hasBuffer = false

/-- Lists of copies, if a copy of an element is what a function makes of it. -/
theorem forall₂_iff {IsCopy : α → β → Prop} {copy : α → β} (h : ∀ x y, IsCopy x y ↔ y = copy x)
    {xs : List α} {ys : List β} : List.Forall₂ IsCopy xs ys ↔ ys = xs.map copy := by
  induction xs generalizing ys with
  | nil => simp
  | cons x xs ih => simp [List.forall₂_cons_left_iff, h, ih]

/-- Of one block, `copyWith` makes the one copy. -/
theorem isCopyOf_iff {IsCopy : α → β → Prop} {copy : α → β} (h : ∀ x y, IsCopy x y ↔ y = copy x)
    {b : Block α} {c : Block β} : b.IsCopyOf IsCopy c ↔ c = b.copyWith copy := by
  constructor
  -- By whether the original has a buffer, for that decides what its copy must be.
  · rintro ⟨hitems, hexact, hbare⟩
    rw [forall₂_iff h] at hitems
    cases hbuffer : b.hasBuffer with
    | true =>
      rw [copyWith, if_pos hbuffer, ← hitems]
      exact (hexact hbuffer).eq_ofList
    | false =>
      rw [copyWith, if_neg (by simp [hbuffer])]
      exact eq_empty_of_not_hasBuffer (hbare hbuffer)
  · rintro rfl
    refine ⟨(forall₂_iff h).2 (toList_copyWith copy b), fun hbuffer => ?_, fun hbuffer => ?_⟩
    · rw [copyWith, if_pos hbuffer]
      exact isExact_ofList _
    · rw [copyWith, if_neg (by simp [hbuffer])]
      rfl

end Block

namespace Frozen

variable {α β : Type}

/-- An exact frozen block of elements that stay what they are when frozen stays what it is. -/
theorem ofList_map_heq (htype : β = α) {f : Frozen α} (hexact : f.block.IsExact) {g : α → β}
    (hg : ∀ x ∈ f.toList, HEq (g x) x) : HEq (ofList (f.toList.map g)) f := by
  subst htype
  have hmap : f.toList.map g = f.toList :=
    (List.map_congr_left fun x hx => eq_of_heq (hg x hx)).trans (List.map_id _)
  rw [hmap]
  exact heq_of_eq (congrArg Frozen.mk hexact.eq_ofList.symm)

/-- A frozen block made of new elements is exact, and its elements are as they were made. -/
theorem isExact_ofList_map {P : β → Prop} {g : α → β} (h : ∀ x, P (g x)) (xs : List α) :
    (ofList (xs.map g)).block.IsExact ∧ ∀ y ∈ (ofList (xs.map g)).toList, P y := by
  refine ⟨Block.isExact_ofList _, fun y hy => ?_⟩
  rw [toList_ofList, List.mem_map] at hy
  obtain ⟨x, -, rfl⟩ := hy
  exact h x

/-- Of one frozen block, `copyWith` makes the one copy. -/
theorem isCopyOf_iff {IsCopy : α → β → Prop} {copy : α → β} (h : ∀ x y, IsCopy x y ↔ y = copy x)
    {f : Frozen α} {g : Frozen β} : f.block.IsCopyOf IsCopy g.block ↔ g = f.copyWith copy := by
  rw [Block.isCopyOf_iff h]
  exact ⟨fun h => congrArg Frozen.mk h, fun h => congrArg Frozen.block h⟩

end Frozen

/-- A fixed sequence is made of the changed elements exactly if its list of elements is. -/
theorem Fixed.toList_eq_map_iff {α β : Type} {n : Nat} {g : α → β} {l : Fixed α n} {m : Fixed β n} :
    m.toList = l.toList.map g ↔ m = ⟨l.values.map g⟩ := by
  unfold toList
  rw [← Vector.toList_map, Vector.toList_inj]
  exact ⟨fun h => congrArg mk h, fun h => congrArg values h⟩

/-! ## Values of every type -/

namespace PrintType

variable {D : Type}

/-- Whether all blocks in a value are exact, as far as the value owns them. -/
def IsCompact : (t : PrintType) → t.Value D → Prop
  | .block item, b => Block.IsExact b ∧ ∀ x ∈ Block.toList b, item.IsCompact x
  | .frozen item, f => Block.IsExact (Frozen.block f) ∧ ∀ x ∈ Frozen.toList f, item.IsCompact x
  | .fixed item _, l => ∀ x ∈ Fixed.toList l, item.IsCompact x
  | .bool, _ | .integer _, _ | .float _, _ | .char, _ | .string, _ | .view _, _ | .slice _, _
  | .ref _, _ | .dynamic, _ => True

/-- Whether a second value is a copy of the first: each block in it is a copy of the one in its
    place, and what the first value does not own, it shares. -/
def IsCopy : (t : PrintType) → t.Value D → t.Value D → Prop
  | .block item, b, c => Block.IsCopyOf item.IsCopy b c
  | .frozen item, f, g => Block.IsCopyOf item.IsCopy (Frozen.block f) (Frozen.block g)
  | .fixed item _, l, m => List.Forall₂ item.IsCopy (Fixed.toList l) (Fixed.toList m)
  | .bool, x, y | .integer _, x, y | .float _, x, y | .char, x, y | .string, x, y
  | .view _, x, y | .slice _, x, y | .ref _, x, y | .dynamic, x, y => y = x

/-- What is frozen stays of the same type when it is frozen again. -/
theorem constant_constant (t : PrintType) : t.constant.constant = t.constant := by
  induction t with
  | block item ih | frozen item ih | view item ih | fixed item n ih =>
    exact congrArg PrintType.frozen ih
  | bool | integer | float | char | string | slice | ref | dynamic => rfl

/-- What is frozen is compact. -/
theorem isCompact_freeze (t : PrintType) (x : t.Value D) : t.constant.IsCompact (t.freeze x) := by
  induction t with
  | block item ih | frozen item ih | view item ih | fixed item n ih =>
    exact Frozen.isExact_ofList_map ih _
  | bool | integer | float | char | string | slice | ref | dynamic => trivial

/-- What is compact, and of the type of what is frozen, stays what it is when it is frozen. -/
theorem freeze_of_isCompact (t : PrintType) (x : t.constant.Value D)
    (h : t.constant.IsCompact x) : HEq (t.constant.freeze x) x := by
  induction t with
  | block item ih | frozen item ih | view item ih | fixed item n ih =>
    have htype := congrArg (PrintType.Value D) item.constant_constant
    exact Frozen.ofList_map_heq htype h.1 fun y hy => ih y (h.2 y hy)
  | bool | integer | float | char | string | slice | ref | dynamic => rfl

/-- Freezing what is frozen changes nothing. -/
theorem freeze_freeze (t : PrintType) (x : t.Value D) :
    HEq (t.constant.freeze (t.freeze x)) (t.freeze x) :=
  t.freeze_of_isCompact _ (t.isCompact_freeze x)

/-- Of one value, `copy` makes the one copy. -/
theorem isCopy_iff (t : PrintType) (x y : t.Value D) : t.IsCopy x y ↔ y = t.copy x := by
  induction t with
  | block item ih => exact Block.isCopyOf_iff ih
  | frozen item ih => exact Frozen.isCopyOf_iff ih
  | fixed item n ih => exact (Block.forall₂_iff ih).trans Fixed.toList_eq_map_iff
  | bool | integer | float | char | string | view | slice | ref | dynamic => exact Iff.rfl

end PrintType

/-! ## The elements of a store -/

namespace Block

variable {α β : Type}

/-- The same range of a buffer in which all elements are changed. -/
def map (f : α → β) (b : Block α) : Block β :=
  ⟨b.buffer.map (·.map f), b.start, b.size, by
    have := b.fits
    cases h : b.buffer <;> simp_all⟩

theorem toList_map (f : α → β) (b : Block α) : (b.map f).toList = b.toList.map f := by
  obtain ⟨_ | buffer, start, size, fits⟩ := b <;>
    simp [toList, toView, View.toList, map, List.map_take, List.map_drop]

theorem map_ofList (f : α → β) (xs : List α) : (ofList xs).map f = ofList (xs.map f) := by
  simp [ofList, ofArray, map]

/-- Changing all elements goes along with copying if it goes along with copying one element. -/
theorem map_copyWith {f : α → β} {copy : α → α} {copy' : β → β} (h : ∀ x, f (copy x) = copy' (f x))
    (b : Block α) : (b.copyWith copy).map f = (b.map f).copyWith copy' := by
  -- A copy has a buffer where the original has one, and that is so for both.
  have hbuffer : (b.map f).hasBuffer = b.hasBuffer := Option.isSome_map
  have hcopy : f ∘ copy = copy' ∘ f := funext h
  unfold copyWith
  rw [hbuffer, toList_map]
  split
  next => rw [map_ofList, List.map_map, List.map_map, hcopy]
  next => rfl

/-- If no two elements become the same then no two blocks do. -/
theorem map_injective {f : α → β} (hf : f.Injective) : (map f).Injective := by
  rintro ⟨buffer, start, size, fits⟩ ⟨buffer', start', size', fits'⟩ h
  simp only [map, mk.injEq] at h
  obtain ⟨hbuffer, rfl, rfl⟩ := h
  -- Two arrays with the same changed elements had the same elements.
  have harray : (Array.map f).Injective := fun xs ys hxs => by
    simpa [Array.map_inj_right (fun _ _ h => hf h)] using hxs
  obtain rfl := Option.map_injective harray hbuffer
  rfl

end Block

namespace Frozen

variable {α β γ : Type}

/-- The same frozen block with all elements changed. -/
def map (g : α → β) (f : Frozen α) : Frozen β := ⟨f.block.map g⟩

/-- Changing all elements goes along with freezing if it goes along with freezing one element, also
    where the two types of frozen elements are only found to be equal. -/
theorem map_freeze_heq {α' γ' : Type} (htype : γ = γ') {f : α → β} {freeze : β → γ}
    {freeze' : α → α'} {f' : α' → γ'} (h : ∀ x, HEq (freeze (f x)) (f' (freeze' x))) (b : Block α) :
    HEq (ofList ((b.map f).toList.map freeze)) (map f' (ofList (b.toList.map freeze'))) := by
  subst htype
  have hsame : freeze ∘ f = f' ∘ freeze' := funext fun x => eq_of_heq (h x)
  rw [Block.toList_map, List.map_map, hsame, ← List.map_map]
  exact heq_of_eq (congrArg mk (Block.map_ofList f' _).symm)

end Frozen

namespace PrintType

variable {D : Type} {s t : PrintType} {x : s.Value D} {y : t.Value D}

theorem isCompact_congr (h : s = t) (hxy : HEq x y) : s.IsCompact x ↔ t.IsCompact y := by
  subst h
  rw [eq_of_heq hxy]

theorem freeze_congr (h : s = t) (hxy : HEq x y) : HEq (s.freeze x) (t.freeze y) := by
  subst h
  rw [eq_of_heq hxy]

end PrintType

namespace ElementType

variable {access : Access}

/-- The type of an element among the types of all values that can be printed. -/
def printType (access : Access) : ElementType → PrintType
  | .bool => .bool
  | .integer k => .integer k
  | .float f => .float f
  | .char => .char
  | .block item =>
    match access with
    | .editable => .block (item.printType .editable)
    | .readOnly => .frozen (item.printType .readOnly)

/-- An element as a value of that type: each block in it is the block in its place, over the same
    range of its buffer. -/
def embed (access : Access) : (t : ElementType) → t.Value access → (t.printType access).Value Empty
  | .bool, x | .integer _, x | .float _, x | .char, x => x
  | .block item, x =>
    match access, x with
    | .editable, b => Block.map (item.embed .editable) b
    | .readOnly, f => Frozen.map (item.embed .readOnly) f

/-- No two elements are the same value. -/
theorem embed_injective (access : Access) (t : ElementType) : (t.embed access).Injective := by
  induction t with
  | bool | integer | float | char => exact fun _ _ h => h
  | block item ih =>
    -- A block that can only be read is kept frozen, so it is compared by what was frozen.
    cases access with
    | editable => exact Block.map_injective ih
    | readOnly =>
      intro f g h
      exact congrArg Frozen.mk (Block.map_injective ih (congrArg Frozen.block h))

/-- Elements are copied as the values that they are. -/
theorem embed_copy (t : ElementType) (x : t.Value access) :
    t.embed access (t.copy access x) = (t.printType access).copy (t.embed access x) := by
  induction t with
  | bool | integer | float | char => rfl
  | block item ih =>
    cases access with
    | editable => exact Block.map_copyWith ih x
    | readOnly => exact congrArg Frozen.mk (Block.map_copyWith ih (Frozen.block x))

/-- What can only be read of an element is of one type, by whichever access it was reached. -/
theorem constant_printType (access : Access) (t : ElementType) :
    (t.printType access).constant = t.printType .readOnly := by
  induction t with
  | bool | integer | float | char => rfl
  | block item ih =>
    cases access with
    | editable => exact congrArg PrintType.frozen ih
    | readOnly => exact congrArg PrintType.frozen ih

/-- Elements are frozen as the values that they are. -/
theorem embed_freeze (t : ElementType) (x : t.Value access) :
    HEq ((t.printType access).freeze (t.embed access x)) (t.embed .readOnly (t.freeze access x)) := by
  induction t with
  | bool | integer | float | char => rfl
  | block item ih =>
    -- The two types of frozen elements are equal, but not by definition.
    have htype := congrArg (PrintType.Value Empty) (item.constant_printType access)
    cases access with
    | editable => exact Frozen.map_freeze_heq htype ih x
    | readOnly => exact Frozen.map_freeze_heq htype ih (Frozen.block x)

/-- Whether all blocks in an element are exact. -/
def IsCompact (access : Access) (t : ElementType) (x : t.Value access) : Prop :=
  (t.printType access).IsCompact (t.embed access x)

/-- Whether a second element is a copy of the first: each block in it is a copy of the one in its
    place. -/
def IsCopy (access : Access) (t : ElementType) (x y : t.Value access) : Prop :=
  (t.printType access).IsCopy (t.embed access x) (t.embed access y)

/-- What is frozen is compact. -/
theorem isCompact_freeze (t : ElementType) (x : t.Value access) :
    t.IsCompact .readOnly (t.freeze access x) :=
  (PrintType.isCompact_congr (t.constant_printType access) (t.embed_freeze x)).1
    ((t.printType access).isCompact_freeze (t.embed access x))

/-- What is frozen one by one makes a compact block. -/
theorem isCompact_ofList_freeze (item : ElementType) (xs : List (item.Value access)) :
    (block item).IsCompact .readOnly (Frozen.ofList (xs.map (item.freeze access))) := by
  have hlist : (Block.ofList xs).toList = xs := Block.toList_ofList xs
  rw [← hlist]
  -- The elements are those of some block, and freezing that block freezes them one by one.
  cases access with
  | editable => exact @isCompact_freeze .editable (block item) (Block.ofList xs)
  | readOnly => exact @isCompact_freeze .readOnly (block item) (Frozen.ofList xs)

/-- Freezing once more changes nothing. -/
theorem freeze_freeze (t : ElementType) (x : t.Value access) :
    t.freeze .readOnly (t.freeze access x) = t.freeze access x := by
  have hagain : HEq ((t.printType .readOnly).freeze (t.embed .readOnly (t.freeze access x)))
      ((t.printType access).constant.freeze ((t.printType access).freeze (t.embed access x))) :=
    PrintType.freeze_congr (t.constant_printType access).symm (t.embed_freeze x).symm
  have hsame := (t.printType access).freeze_freeze (t.embed access x)
  -- What is known of the embedded values holds of the elements, since none are confused.
  apply t.embed_injective .readOnly
  exact eq_of_heq ((t.embed_freeze (t.freeze access x)).symm.trans
    (hagain.trans (hsame.trans (t.embed_freeze x))))

/-- Of one element, `copy` makes the one copy. -/
theorem isCopy_iff (t : ElementType) (x y : t.Value access) :
    t.IsCopy access x y ↔ y = t.copy access x := by
  rw [IsCopy, PrintType.isCopy_iff, ← embed_copy, (t.embed_injective access).eq_iff]

end ElementType

/-! ## Copies -/

/-- A block made of a view is exact, and its elements are copies of those in the view. -/
theorem Block.isExact_ofViewWith {α β : Type} {IsCopy : α → β → Prop} {copy : α → β}
    (h : ∀ x y, IsCopy x y ↔ y = copy x) (v : View α) :
    (ofViewWith copy v).IsExact ∧ List.Forall₂ IsCopy v.toList (ofViewWith copy v).toList :=
  ⟨isExact_ofList _, (forall₂_iff h).2 (toList_ofViewWith copy v)⟩

/-- A thawed block is a copy of the frozen one. -/
theorem Frozen.isCopyOf_thawWith {α β : Type} {IsCopy : α → β → Prop} {copy : α → β}
    (h : ∀ x y, IsCopy x y ↔ y = copy x) (f : Frozen α) :
    f.block.IsCopyOf IsCopy (f.thawWith copy) :=
  (Block.isCopyOf_iff h).2 rfl

/-- Copies are compact at every depth, in whatever containers the blocks of a value stand.  What is
    frozen shows the same elements and has an exact block in the place of every container, and
    freezing it again changes nothing.  A copy shows the same elements and is the one value in
    which each block is exact where the original owns a buffer and without a buffer where it owns
    none.  A block made of a view is exact in any case, and the copies of its elements follow that
    rule; so does a thawed block.  The same holds of the elements of a store. -/
theorem copies_compact :
    (∀ (n : Nat) (t : PrintType) (x : t.Value (Dynamic n)),
      (Alike t.constant t (t.freeze x) x ∧ t.constant.IsCompact (t.freeze x) ∧
        HEq (t.constant.freeze (t.freeze x)) (t.freeze x)) ∧
      Alike t t (t.copy x) x ∧ ∀ y, t.IsCopy x y ↔ y = t.copy x) ∧
    (∀ (n : Nat) (item : PrintType) (v : View (item.Value (Dynamic n))),
      (Block.ofViewWith item.copy v).IsExact ∧
      List.Forall₂ item.IsCopy v.toList (Block.ofViewWith item.copy v).toList) ∧
    (∀ (n : Nat) (item : PrintType) (f : Frozen (item.Value (Dynamic n))),
      f.block.IsCopyOf item.IsCopy (f.thawWith item.copy)) ∧
    (∀ (access : Access) (t : ElementType) (x : t.Value access),
      (t.plain .readOnly (t.freeze access x) = t.plain access x ∧
        t.IsCompact .readOnly (t.freeze access x) ∧
        t.freeze .readOnly (t.freeze access x) = t.freeze access x) ∧
      t.plain access (t.copy access x) = t.plain access x ∧
      ∀ y, t.IsCopy access x y ↔ y = t.copy access x) ∧
    (∀ (access : Access) (item : ElementType) (v : View (item.Value access)),
      (ElementType.block item).IsCompact .readOnly
        (Frozen.ofList (v.toList.map (item.freeze access))) ∧
      (Block.ofViewWith (item.copy access) v).IsExact ∧
      List.Forall₂ (item.IsCopy access) v.toList (Block.ofViewWith (item.copy access) v).toList) ∧
    (∀ (item : ElementType) (f : Frozen (item.Value .readOnly)),
      f.block.IsCopyOf (item.IsCopy .readOnly) (f.thawWith (item.copy .readOnly))) := by
  -- First the values of every type, then the elements of a store, for which the same lemmas hold.
  refine ⟨fun n t x => ?_, fun n item v => ?_, fun n item f => ?_, fun access t x => ?_,
    fun access item v => ?_, fun item f => ?_⟩
  · exact ⟨⟨Alike.freeze t x, t.isCompact_freeze x, t.freeze_freeze x⟩, Alike.copy t x,
      t.isCopy_iff x⟩
  · exact Block.isExact_ofViewWith item.isCopy_iff v
  · exact Frozen.isCopyOf_thawWith item.isCopy_iff f
  · exact ⟨⟨t.plain_freeze x, t.isCompact_freeze x, t.freeze_freeze x⟩, t.plain_copy x,
      t.isCopy_iff x⟩
  · exact ⟨item.isCompact_ofList_freeze v.toList, Block.isExact_ofViewWith item.isCopy_iff v⟩
  · exact Frozen.isCopyOf_thawWith item.isCopy_iff f

end ValueText
