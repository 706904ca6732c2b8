import ValueText.Proofs.MissedBounds
import ValueText.Storage.Stepwise

/-!
# Storage steps do not trap

A block or view of the library is written in machine words by forgetting its proof (`Block.machine`,
`View.machine`).  As long as its storage has fewer elements than there are words, the machine steps
on it have the results of the library's operations, and these miss their bounds or succeed.

The invariant that carries this is that the range ends in the storage, and that a block without a
buffer begins at zero and shows nothing (`MachineBlock.Fits`): then neither the end of the range nor
any position in it overflows, and a range that was checked against the visible elements can be added
to the beginning.

## Key results

- `View.stepsAgree`, `Block.stepsAgree`: the machine steps have the results of the library's
  operations
- `View.safe_machine`, `Block.safe_machine`: what they miss, and that nothing traps
- `Block.copyWith_machine`, `Block.ofView_machine`, `Block.ofFixed_machine`: copies, if the elements
  are copied without trapping
-/

namespace ValueText

open Checked

/-! ## Words -/

namespace Checked

variable {α β : Type}

/-- A result of the library as one of a machine step. -/
def ofBounds (f : α → β) : Except BoundsError α → Checked β
  | .ok x => .ok (f x)
  | .error e => .error (.bounds e)

/-- Whether a step has a result unless it misses these bounds. -/
def FailsBy (missed : Option BoundsError) (step : Checked α) : Prop :=
  match missed with
  | none => ∃ x, step = .ok x
  | some e => step = .error (.bounds e)

/-- A step that has the result of the library fails by the bounds that the library misses. -/
theorem FailsBy.of_eq {f : α → β} {r : Except BoundsError α} {step : Checked β}
    {missed : Option BoundsError} (hstep : step = ofBounds f r) (hmissed : missedBy r = missed) :
    FailsBy missed step := by
  subst hstep hmissed
  cases r with
  | error e => rfl
  | ok x => exact ⟨f x, rfl⟩

/-- A sum that is a word is found. -/
theorem add_ofNat {a b : Nat} (h : a + b < UInt64.size) :
    add (.ofNat a) (.ofNat b) = .ok (.ofNat (a + b)) := by
  have ha : (UInt64.ofNat a).toNat = a := UInt64.toNat_ofNat_of_lt' (by omega)
  have hb : (UInt64.ofNat b).toNat = b := UInt64.toNat_ofNat_of_lt' (by omega)
  rw [add, ha, hb, if_pos h, UInt64.ofNat_add]

theorem add_of_lt {a : Nat} {b : UInt64} (h : a + b.toNat < UInt64.size) :
    add (.ofNat a) b = .ok (.ofNat (a + b.toNat)) := by
  rw [← add_ofNat h, UInt64.ofNat_toNat]

theorem sub_of_le {a b : UInt64} (h : b.toNat ≤ a.toNat) :
    sub a b = .ok (.ofNat (a.toNat - b.toNat)) := by
  have hle : b ≤ a := UInt64.le_iff_toNat_le.2 h
  rw [sub, if_pos hle, ← UInt64.toNat_sub_of_le a b hle, UInt64.ofNat_toNat]

/-- A range that lies in the storage is found there. -/
theorem range_ofNat {storage : Array α} {start size : Nat} (hfits : start + size ≤ storage.size)
    (hsize : storage.size < UInt64.size) :
    range storage (.ofNat start) (.ofNat (start + size)) =
      .ok ((storage.toList.drop start).take size) := by
  -- Both ends are words, so nothing wraps around on the way to them.
  have hstart : (UInt64.ofNat start).toNat = start := UInt64.toNat_ofNat_of_lt' (by omega)
  have hlast : (UInt64.ofNat (start + size)).toNat = start + size :=
    UInt64.toNat_ofNat_of_lt' (by omega)
  have hle : UInt64.ofNat start ≤ UInt64.ofNat (start + size) := by
    rw [UInt64.le_iff_toNat_le, hstart, hlast]
    omega
  rw [range, hstart, hlast, if_pos ⟨hle, hfits⟩, Nat.add_sub_cancel_left]

/-- A range that begins at zero is the first elements. -/
theorem range_take {xs : List α} {size : Nat} (h : size ≤ xs.length)
    (hsize : xs.length < UInt64.size) :
    range xs.toArray 0 (.ofNat size) = .ok (xs.take size) := by
  have hrange : range xs.toArray (.ofNat 0) (.ofNat (0 + size)) = _ :=
    range_ofNat (by simpa using h) (by simpa using hsize)
  simpa using hrange

/-- The check of a range is the one that the library makes. -/
theorem checkRange_ofNat (first last : UInt64) {size : Nat} (hsize : size < UInt64.size) :
    checkRange first last (.ofNat size) =
      if first.toNat ≤ last.toNat ∧ last.toNat ≤ size then .ok ()
      else .error (.bounds (.range first.toNat last.toNat size)) := by
  have hword : (UInt64.ofNat size).toNat = size := UInt64.toNat_ofNat_of_lt' hsize
  simp only [checkRange, UInt64.le_iff_toNat_le, hword]

/-- An element is looked up before or after the elements are changed. -/
theorem element_map (f : α → β) (xs : List α) (index : UInt64) :
    element (xs.map f) index = ofBounds f (match xs[index.toNat]? with
      | some x => .ok x
      | none => .error (.index index.toNat xs.length)) := by
  unfold element
  rw [List.getElem?_map, List.length_map]
  cases xs[index.toNat]? <;> rfl

/-- Elements that are copied one by one without trapping are copied together. -/
theorem mapM_map {γ δ : Type} {step : β → Checked δ} {f : α → β} {copy : α → γ} {g : γ → δ}
    {xs : List α} (h : ∀ x ∈ xs, step (f x) = .ok (g (copy x))) :
    (xs.map f).mapM step = .ok ((xs.map copy).map g) := by
  -- The elements are copied one after the other, and none of them traps.
  induction xs with
  | nil => rfl
  | cons x xs ih =>
    rw [List.map_cons, List.mapM_cons, h x (List.mem_cons_self ..),
      ih fun y hy => h y (List.mem_cons_of_mem x hy)]
    rfl

end Checked

/-! ## Views -/

namespace View

variable {α β : Type}

/-- A view in machine words, its elements written by `f`. -/
def machine (f : α → β) (v : View α) : MachineView β :=
  ⟨v.base.map f, .ofNat v.start, .ofNat v.size⟩

theorem mem_base_of_mem_toList {v : View α} {x : α} (h : x ∈ v.toList) : x ∈ v.base :=
  Array.mem_toList_iff.1 (List.mem_of_mem_drop (List.mem_of_mem_take h))

/-- The view of an array, in words, is the view of the machine's array. -/
theorem machine_ofArray (f : α → β) (base : Array α) :
    (ofArray base).machine f = MachineView.ofArray (base.map f) := by
  simp [machine, ofArray, MachineView.ofArray]

/-- A view whose range is in its storage is made in words as well. -/
theorem withBase_machine (f : α → β) {base : Array α} {start size : Nat}
    (hfits : start + size ≤ base.size) (hsize : base.size < UInt64.size) :
    MachineView.withBase (base.map f) (.ofNat start) (.ofNat size) =
      .ok ((⟨base, start, size, hfits⟩ : View α).machine f) := by
  -- The check adds start and size, which are in the storage and therefore a word.
  have hlast : (UInt64.ofNat (start + size)).toNat = start + size :=
    UInt64.toNat_ofNat_of_lt' (by omega)
  rw [MachineView.withBase, add_ofNat (by omega)]
  simp only [bind, Except.bind, hlast, Array.size_map, if_pos hfits]
  rfl

/-- The machine steps on a view have the results of the library's operations. -/
structure StepsAgree (f : α → β) (v : View α) : Prop where
  visible : (v.machine f).visible = .ok (v.toList.map f)
  get : ∀ index : UInt64, (v.machine f).get index = ofBounds f (v.get index.toNat)
  slice : ∀ first last : UInt64, (v.machine f).slice first last =
    ofBounds (machine f) (v.slice first.toNat last.toNat)

/-- The machine steps agree as long as the storage has fewer elements than there are words. -/
theorem stepsAgree (f : α → β) {v : View α} (h : v.base.size < UInt64.size) :
    v.StepsAgree f := by
  have hfits := v.fits
  -- Everything else reads the visible elements, so these come first.
  have hvisible : (v.machine f).visible = .ok (v.toList.map f) := by
    rw [MachineView.visible, machine, add_ofNat (by omega)]
    simp only [bind, Except.bind]
    rw [range_ofNat (by simpa using hfits) (by simpa using h)]
    simp [toList, List.map_take, List.map_drop]
  refine ⟨hvisible, fun index => ?_, fun first last => ?_⟩
  · rw [MachineView.get, hvisible, get_eq, ← length_toList]
    exact element_map f v.toList index
  · rw [MachineView.slice, show (v.machine f).size = .ofNat v.size from rfl,
      checkRange_ofNat first last (by omega)]
    by_cases hrange : first.toNat ≤ last.toNat ∧ last.toNat ≤ v.size
    · rw [if_pos hrange, slice_eq_ok v hrange, sub_of_le hrange.1]
      -- A range among the visible elements ends in the storage, so it begins at a word.
      have hstart : add (v.machine f).start first = .ok (.ofNat (v.start + first.toNat)) :=
        add_of_lt (by omega)
      rw [hstart]
      exact withBase_machine f (by omega) h
    · rw [if_neg hrange, slice_eq_error v hrange]
      rfl

end View

theorem Fixed.toList_map {α β : Type} {n : Nat} (f : α → β) (l : Fixed α n) :
    (⟨l.values.map f⟩ : Fixed β n).toList = l.toList.map f :=
  Vector.toList_map ..

/-! ## Blocks -/

namespace Block

variable {α β : Type}

/-- A block in machine words, its elements written by `f`. -/
def machine (f : α → β) (b : Block α) : MachineBlock β :=
  ⟨b.buffer.map (·.map f), .ofNat b.start, .ofNat b.size⟩

/-- The whole buffer stays with a restricted block. -/
theorem base_restrict {b c : Block α} {first last : Nat} (h : b.restrict first last = .ok c) :
    c.toView.base = b.toView.base :=
  View.base_slice (of_restrict_eq_ok h).1

/-- Changes the visible elements at their places. -/
def mapVisible (b : Block α) (f : Nat → α → α) : Block α :=
  b.mapBuffer fun i x => if b.start ≤ i ∧ i < b.start + b.size then f (i - b.start) x else x

/-- Writing an element changes the visible elements. -/
theorem set_eq_mapVisible (b : Block α) {index : Nat} (value : α) (h : index < b.size) :
    b.set index value = .ok (b.mapVisible fun i x => if i = index then value else x) := by
  rw [set, if_pos h, mapVisible]
  congr
  funext i x
  -- By the position in the buffer: the one that is written, another visible one, or a hidden one.
  by_cases hi : i = b.start + index
  · subst hi
    simp [h]
  · by_cases hvisible : b.start ≤ i ∧ i < b.start + b.size
    · have hne : i - b.start ≠ index := by omega
      simp [hi, hne]
    · simp [hi, hvisible]

/-- The machine steps on a block have the results of the library's operations. -/
structure StepsAgree (f : α → β) (b : Block α) : Prop where
  visible : (b.machine f).visible = .ok (b.toList.map f)
  toView : (b.machine f).toView = .ok (b.toView.machine f)
  get : ∀ index : UInt64, (b.machine f).get index = ofBounds f (b.get index.toNat)
  slice : ∀ first last : UInt64, (b.machine f).slice first last =
    ofBounds (View.machine f) (b.slice first.toNat last.toNat)
  restrict : ∀ first last : UInt64, (b.machine f).restrict first last =
    ofBounds (machine f) (b.restrict first.toNat last.toNat)
  set : ∀ (index : UInt64) (value : α), (b.machine f).set index (f value) =
    ofBounds (machine f) (b.set index.toNat value)
  modify : ∀ (g : Nat → α → α) (step : Nat → β → β), (∀ i x, step i (f x) = f (g i x)) →
    (b.machine f).modify step = .ok ((b.mapVisible g).machine f)

/-- What is visible of a block, and how it is viewed. -/
theorem visible_toView_machine (f : α → β) {b : Block α} (h : b.toView.base.size < UInt64.size) :
    (b.machine f).visible = .ok (b.toList.map f) ∧
      (b.machine f).toView = .ok (b.toView.machine f) := by
  have hview := View.stepsAgree f h
  obtain ⟨_ | buffer, start, size, fits⟩ := b
  · -- Without a buffer the range is the empty one at zero.
    obtain ⟨rfl, rfl⟩ : start = 0 ∧ size = 0 := by simpa using fits
    refine ⟨rfl, ?_⟩
    show _ = Except.ok ((View.ofArray #[]).machine f)
    rw [View.machine_ofArray, Array.map_empty]
    rfl
  · exact ⟨hview.visible, View.withBase_machine f fits h⟩

/-- In words, a block is restricted where it is without them, and misses the same bounds. -/
theorem restrict_machine (f : α → β) {b : Block α} (h : b.toView.base.size < UInt64.size)
    (first last : UInt64) : (b.machine f).restrict first last =
      ofBounds (machine f) (b.restrict first.toNat last.toNat) := by
  have hfits : b.start + b.size ≤ b.toView.base.size := b.fits
  rw [MachineBlock.restrict, restrict, show (b.machine f).size = .ofNat b.size from rfl,
    checkRange_ofNat first last (by omega)]
  by_cases hrange : first.toNat ≤ last.toNat ∧ last.toNat ≤ b.size
  · rw [if_pos hrange, dif_pos hrange, sub_of_le hrange.1]
    -- The bounds were checked first, so the sum is in the buffer, however large they were.
    have hstart : add (b.machine f).start first = .ok (.ofNat (b.start + first.toNat)) :=
      add_of_lt (by omega)
    rw [hstart]
    rfl
  · rw [if_neg hrange, dif_neg hrange]
    rfl

/-- The visible elements are changed where they are in the buffer. -/
theorem modify_machine {f : α → β} {b : Block α} (h : b.toView.base.size < UInt64.size)
    {g : Nat → α → α} {step : Nat → β → β} (hstep : ∀ i x, step i (f x) = f (g i x)) :
    (b.machine f).modify step = .ok ((b.mapVisible g).machine f) := by
  -- Without a buffer there is nothing to change.
  obtain ⟨_ | buffer, start, size, fits⟩ := b
  · rfl
  · have hfits : start + size ≤ buffer.size := fits
    have hsize : buffer.size < UInt64.size := h
    have hstart : (UInt64.ofNat start).toNat = start := UInt64.toNat_ofNat_of_lt' (by omega)
    have hlast : (UInt64.ofNat (start + size)).toNat = start + size :=
      UInt64.toNat_ofNat_of_lt' (by omega)
    have hrange : range (buffer.map f) (.ofNat start) (.ofNat (start + size)) = .ok _ :=
      range_ofNat (by simpa using fits) (by simpa using hsize)
    have hword : start + size < UInt64.size := by omega
    -- On both sides the elements outside the range are left as they are.
    have hbuffer : ((buffer.map f).mapIdx fun i x =>
        if start ≤ i ∧ i < start + size then step (i - start) x else x) =
        (buffer.mapIdx fun i x =>
          if start ≤ i ∧ i < start + size then g (i - start) x else x).map f := by
      apply Array.ext
      · simp
      · intro i hi hj
        simp only [Array.getElem_mapIdx, Array.getElem_map, hstep, apply_ite f]
    simp only [MachineBlock.modify, machine, Option.map_some, add_ofNat hword, bind, Except.bind,
      hrange, hstart, hlast, mapVisible, mapBuffer]
    rw [hbuffer]
    rfl

/-- The machine steps agree as long as the buffer has fewer elements than there are words. -/
theorem stepsAgree (f : α → β) {b : Block α} (h : b.toView.base.size < UInt64.size) :
    b.StepsAgree f := by
  obtain ⟨hvisible, htoView⟩ := visible_toView_machine f h
  have hview := View.stepsAgree f h
  -- A block is read through its view, on both sides.
  have hget (index : UInt64) : (b.machine f).get index = ofBounds f (b.get index.toNat) := by
    rw [get, ← hview.get, MachineBlock.get, MachineView.get, hvisible, hview.visible]
    rfl
  refine ⟨hvisible, htoView, hget, fun first last => ?_, restrict_machine f h,
    fun index value => ?_, fun g step hstep => modify_machine h hstep⟩
  · rw [slice, ← hview.slice, MachineBlock.slice, htoView]
    rfl
  · rw [MachineBlock.set, hget]
    -- Reading checks the index, and after that nothing is left to be missed.
    by_cases hindex : index.toNat < b.size
    · have hread : ∃ x, b.get index.toNat = .ok x := ⟨_, dif_pos hindex⟩
      obtain ⟨x, hx⟩ := hread
      rw [hx, set_eq_mapVisible b value hindex]
      exact modify_machine h fun i x => (apply_ite f (i = index.toNat) value x).symm
    · have hread : b.get index.toNat = .error (.index index.toNat b.size) := dif_neg hindex
      rw [hread, set, if_neg hindex]
      rfl

/-! ### Copies -/

/-- A block made of an array, in words, adopts the machine's array. -/
theorem machine_ofArray (f : α → β) (values : Array α) :
    (ofArray values).machine f = MachineBlock.adopt (values.map f) := by
  simp [machine, ofArray, MachineBlock.adopt]

theorem machine_replicate (f : α → β) (size : UInt64) (x : α) :
    (replicate size.toNat x).machine f = MachineBlock.create size (f x) := by
  rw [replicate, machine_ofArray, Array.map_replicate, MachineBlock.create]

section Copies

variable {γ δ : Type} {f : α → β} {copy : α → γ} {g : γ → δ} {step : β → Checked δ}

/-- A fresh block has the copies of elements that are copied without trapping. -/
theorem ofListWith_map {xs : List α} (h : ∀ x ∈ xs, step (f x) = .ok (g (copy x))) :
    MachineBlock.ofListWith step (xs.map f) = .ok ((ofList (xs.map copy)).machine g) := by
  rw [MachineBlock.ofListWith, mapM_map h, ofList, machine_ofArray, List.map_toArray]
  rfl

/-- A block made of what a block shows is the same in words, if each element is. -/
theorem ofVisible_machine {b : Block α} (hsize : b.toView.base.size < UInt64.size)
    (h : ∀ x ∈ b.toList, step (f x) = .ok (g (copy x))) :
    (b.machine f).visible >>= MachineBlock.ofListWith step =
      .ok ((ofList (b.toList.map copy)).machine g) := by
  rw [(visible_toView_machine f hsize).1]
  exact ofListWith_map h

/-- A block made of the values of a fixed sequence is the same in words, if each element is. -/
theorem ofFixedValues_machine {n : Nat} {l : Fixed α n}
    (h : ∀ x ∈ l.toList, step (f x) = .ok (g (copy x))) :
    MachineBlock.ofListWith step (⟨l.values.map f⟩ : Fixed β n).toList =
      .ok ((ofList (l.toList.map copy)).machine g) := by
  rw [Fixed.toList_map]
  exact ofListWith_map h

/-- A copied block is the same in words, if each element is. -/
theorem copyWith_machine {b : Block α} (hsize : b.toView.base.size < UInt64.size)
    (h : ∀ x ∈ b.toList, step (f x) = .ok (g (copy x))) :
    (b.machine f).copyWith step = .ok ((b.copyWith copy).machine g) := by
  obtain ⟨hvisible, -⟩ := visible_toView_machine f hsize
  have hbuffer : (b.machine f).buffer.isNone = !b.hasBuffer := by
    simp [machine, hasBuffer]
  rw [MachineBlock.copyWith, hbuffer, copyWith, hvisible]
  -- A block without a buffer is copied as the empty block, whatever its range says.
  cases b.hasBuffer with
  | true => exact ofListWith_map h
  | false => rfl

/-- A block made of a view is the same in words, if each element is. -/
theorem ofView_machine {v : View α} (hsize : v.base.size < UInt64.size)
    (h : ∀ x ∈ v.toList, step (f x) = .ok (g (copy x))) :
    MachineBlock.ofView step (v.machine f) = .ok ((ofViewWith copy v).machine g) := by
  rw [MachineBlock.ofView, (View.stepsAgree f hsize).visible]
  exact ofListWith_map h

/-- What is done to positions beyond the buffer does not count. -/
theorem mapBuffer_congr {b : Block α} {f g : Nat → α → α}
    (h : ∀ i < b.toView.base.size, ∀ x, f i x = g i x) : b.mapBuffer f = b.mapBuffer g := by
  -- By whether there is a buffer at all.
  obtain ⟨_ | buffer, start, size, fits⟩ := b
  · rfl
  · have hbuffer : buffer.mapIdx f = buffer.mapIdx g := by
      apply Array.ext
      · simp
      · intro i hi hj
        have hlt : i < buffer.size := by simpa using hi
        rw [Array.getElem_mapIdx, Array.getElem_mapIdx]
        exact h i hlt _
    simp only [mapBuffer, Option.map_some, hbuffer]

/-- A block made of a fixed sequence is a fresh one whose visible elements are written over. -/
theorem toBlockWith_eq_mapVisible {n : Nat} (copy : α → γ) (l : Fixed α n) (size : Nat)
    (filler : γ) : l.toBlockWith copy size filler = (replicate size filler).mapVisible fun i x =>
      ((l.toList.take size).map copy)[i]?.getD x := by
  -- All of a fresh block is visible, so no element of it is kept from being written.
  refine mapBuffer_congr fun i hi x => ?_
  have hlt : i < size := by simpa [toView, replicate, ofArray] using hi
  have hvisible : (replicate size filler).start ≤ i ∧
      i < (replicate size filler).start + (replicate size filler).size := by
    simp [replicate, ofArray, hlt]
  rw [if_pos hvisible]
  simp [replicate, ofArray, hlt, Fixed.toList]

/-- A block made of a fixed sequence is the same in words, if each element is, at any size that is
    asked for. -/
theorem ofFixed_machine {n : Nat} {l : Fixed α n} (size : UInt64) (filler : γ)
    (h : ∀ x ∈ l.toList, step (f x) = .ok (g (copy x))) :
    MachineBlock.ofFixed step ⟨l.values.map f⟩ size (g filler) =
      .ok ((l.toBlockWith copy size.toNat filler).machine g) := by
  have hitems : (⟨l.values.map f⟩ : Fixed β n).toList.take size.toNat =
      (l.toList.take size.toNat).map f := by
    rw [Fixed.toList_map, List.map_take]
  have hsize : (replicate size.toNat filler).toView.base.size < UInt64.size := by
    simpa [toView, replicate, ofArray] using size.toNat_lt
  rw [MachineBlock.ofFixed, hitems, mapM_map fun x hx => h x (List.mem_of_mem_take hx),
    ← machine_replicate, toBlockWith_eq_mapVisible]
  -- Behind the values that are copied, the fillers stay as they are.
  have hwrite (i : Nat) (x : γ) : (((l.toList.take size.toNat).map copy).map g)[i]?.getD (g x) =
      g (((l.toList.take size.toNat).map copy)[i]?.getD x) := by
    rw [List.getElem?_map, Option.getD_map]
  exact modify_machine hsize hwrite

end Copies

end Block

/-- A fixed sequence is copied if its values are copied without trapping. -/
theorem Fixed.mapChecked_map {α β γ δ : Type} {f : α → β} {copy : α → γ} {g : γ → δ}
    {step : β → Checked δ} {n : Nat} {l : Fixed α n}
    (h : ∀ x ∈ l.toList, step (f x) = .ok (g (copy x))) :
    mapChecked step ⟨l.values.map f⟩ = .ok ⟨(l.values.map copy).map g⟩ := by
  -- The copies are found as a list; that there are `n` of them is what the type of the result says.
  have hlist : Array.toList <$> Vector.toArray <$> (l.values.map f).mapM step =
      .ok ((l.toList.map copy).map g) := by
    rw [Vector.toArray_mapM, Array.toList_mapM, ← mapM_map h, Vector.toArray_map,
      Array.toList_map]
    rfl
  rw [mapChecked]
  cases hvalues : (l.values.map f).mapM step with
  | error e =>
    rw [hvalues] at hlist
    exact nomatch hlist
  | ok values =>
    rw [hvalues] at hlist
    have hcopies : values.toList = ((l.values.map copy).map g).toList := by
      rw [Vector.toList_map, Vector.toList_map]
      exact Except.ok.inj hlist
    rw [Vector.toList_inj.1 hcopies]
    rfl

/-! ## What is missed -/

/-- Whether the range of a view ends in its storage. -/
def MachineView.Fits {α : Type} (v : MachineView α) : Prop :=
  v.start.toNat + v.size.toNat ≤ v.base.size

/-- Whether the range of a block ends in its buffer, or there is neither a buffer nor a range. -/
def MachineBlock.Fits {α : Type} (b : MachineBlock α) : Prop :=
  match b.buffer with
  | some buffer => b.start.toNat + b.size.toNat ≤ buffer.size
  | none => b.start = 0 ∧ b.size = 0

/-- The range of a view in words ends in its storage. -/
theorem View.fits_machine {α β : Type} (f : α → β) {v : View α}
    (h : v.base.size < UInt64.size) : (v.machine f).Fits := by
  have hfits := v.fits
  have hstart : (UInt64.ofNat v.start).toNat = v.start := UInt64.toNat_ofNat_of_lt' (by omega)
  have hsize : (UInt64.ofNat v.size).toNat = v.size := UInt64.toNat_ofNat_of_lt' (by omega)
  rw [MachineView.Fits, machine, hstart, hsize, Array.size_map]
  exact hfits

/-- The range of a block in words ends in its buffer, and without one there is no range. -/
theorem Block.fits_machine {α β : Type} (f : α → β) {b : Block α}
    (h : b.toView.base.size < UInt64.size) : (b.machine f).Fits := by
  have hview := View.fits_machine f h
  obtain ⟨_ | buffer, start, size, fits⟩ := b
  · obtain ⟨rfl, rfl⟩ : start = 0 ∧ size = 0 := by simpa using fits
    exact ⟨rfl, rfl⟩
  · exact hview

/-- What the steps on a view miss; nothing else can go wrong in them. -/
structure MachineView.Safe {α : Type} (v : MachineView α) : Prop where
  fits : v.Fits
  visible : ∃ xs, v.visible = .ok xs ∧ xs.length = v.size.toNat
  get : ∀ index : UInt64, FailsBy (missedIndex index.toNat v.size.toNat) (v.get index)
  slice : ∀ first last : UInt64,
    FailsBy (missedPath [(first.toNat, last.toNat)] v.size.toNat) (v.slice first last)

/-- What the steps on a block miss; nothing else can go wrong in them. -/
structure MachineBlock.Safe {α : Type} (b : MachineBlock α) : Prop where
  fits : b.Fits
  visible : ∃ xs, b.visible = .ok xs ∧ xs.length = b.size.toNat
  toView : ∃ v, b.toView = .ok v
  get : ∀ index : UInt64, FailsBy (missedIndex index.toNat b.size.toNat) (b.get index)
  slice : ∀ first last : UInt64,
    FailsBy (missedPath [(first.toNat, last.toNat)] b.size.toNat) (b.slice first last)
  restrict : ∀ first last : UInt64,
    FailsBy (missedPath [(first.toNat, last.toNat)] b.size.toNat) (b.restrict first last)
  set : ∀ (index : UInt64) (value : α),
    FailsBy (missedIndex index.toNat b.size.toNat) (b.set index value)
  modify : ∀ f, ∃ c, b.modify f = .ok c

/-- Slicing a view misses a range as a path of that one range does. -/
theorem View.missedBy_slice {α : Type} (v : View α) (first last : Nat) :
    missedBy (v.slice first last) = missedPath [(first, last)] v.size := by
  rw [missedPath, missedAlong, missedAlong]
  unfold slice
  split <;> rfl

/-- A view that ends in its storage is safe. -/
theorem MachineView.Fits.safe {α : Type} {v : MachineView α} (h : v.Fits)
    (hsize : v.base.size < UInt64.size) : v.Safe := by
  -- Such a view is one of the library, and that answers every request.
  obtain ⟨w, rfl⟩ : ∃ w : View α, w.machine id = v :=
    ⟨⟨v.base, v.start.toNat, v.size.toNat, h⟩, by simp [View.machine]⟩
  have hbase : w.base.size < UInt64.size := by simpa [View.machine] using hsize
  have hfits := w.fits
  have hword : (w.machine id).size.toNat = w.size := UInt64.toNat_ofNat_of_lt' (by omega)
  have hagree := View.stepsAgree id hbase
  refine ⟨h, ⟨_, hagree.visible, ?_⟩, fun index => ?_, fun first last => ?_⟩
  · rw [List.length_map, View.length_toList, hword]
  · rw [hword]
    exact .of_eq (hagree.get index) (w.missedBy_get _)
  · rw [hword]
    exact .of_eq (hagree.slice first last) (w.missedBy_slice _ _)

/-- A block that ends in its buffer is safe. -/
theorem MachineBlock.Fits.safe {α : Type} {b : MachineBlock α} (h : b.Fits)
    (hsize : (b.buffer.getD #[]).size < UInt64.size) : b.Safe := by
  -- Such a block is one of the library, be it one without a buffer.
  obtain ⟨c, rfl⟩ : ∃ c : Block α, c.machine id = b := by
    refine ⟨⟨b.buffer, b.start.toNat, b.size.toNat, ?_⟩, by simp [Block.machine]⟩
    obtain ⟨_ | buffer, start, size⟩ := b
    · obtain ⟨rfl, rfl⟩ : start = 0 ∧ size = 0 := h
      exact Nat.le_refl _
    · exact h
  have hbase : c.toView.base.size < UInt64.size := by
    simpa [Block.machine, Block.toView] using hsize
  have hfits : c.start + c.size ≤ c.toView.base.size := c.fits
  have hword : (c.machine id).size.toNat = c.size := UInt64.toNat_ofNat_of_lt' (by omega)
  -- For a block of the library, each step has the result of an operation.
  have hagree := Block.stepsAgree id hbase
  have hmodify (f : Nat → α → α) : ∃ d, (c.machine id).modify f = .ok d :=
    ⟨_, hagree.modify f f fun _ _ => rfl⟩
  refine ⟨h, ⟨_, hagree.visible, ?_⟩, ⟨_, hagree.toView⟩, fun index => ?_, fun first last => ?_,
    fun first last => ?_, fun index value => ?_, hmodify⟩
  · rw [List.length_map, Block.length_toList, hword]
  · rw [hword]
    exact .of_eq (hagree.get index) (c.toView.missedBy_get _)
  · rw [hword]
    exact .of_eq (hagree.slice first last) (c.toView.missedBy_slice _ _)
  · rw [hword]
    exact .of_eq (hagree.restrict first last) (c.missedBy_restrict _ _)
  · rw [hword]
    exact .of_eq (hagree.set index value) (c.missedBy_set _ value)

theorem View.safe_machine {α β : Type} (f : α → β) {v : View α}
    (h : v.base.size < UInt64.size) : (v.machine f).Safe :=
  (fits_machine f h).safe (by simpa [machine] using h)

/-- A block in words is safe. -/
theorem Block.safe_machine {α β : Type} (f : α → β) {b : Block α}
    (h : b.toView.base.size < UInt64.size) : (b.machine f).Safe := by
  refine (fits_machine f h).safe ?_
  cases hbuffer : b.buffer with
  | none => simp [machine, hbuffer]
  | some buffer => simpa [machine, toView, hbuffer] using h

end ValueText
