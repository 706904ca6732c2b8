import Mathlib.Data.List.Forall2
import ValueText.Proofs.CompactCopies
import ValueText.Proofs.ReachableStorage
import ValueText.Proofs.SlicePaths

/-!
# Blocks made of fixed sequences

A block of any size can be made of a fixed sequence: it owns a buffer of that size and nothing else,
which holds copies of the first values as far as both reach, and behind them what a new element
starts as.  A block of the full size holds copies of all values, so that it makes no difference
whether a fixed sequence is first sliced and then copied, or first copied and then sliced.

The copies are written one after another over a fresh block.  The invariant of that loop is that the
elements before the index are as they will be in the end, and those from the index on are still as
they were (`Block.writeFrom`).  A fixed sequence of bytes is itself written by a loop of this kind.

## Key results

- `Fixed.isExact_toBlockWith`, `Fixed.toBlockWith_full`: what a block made of a fixed sequence owns
- `View.follow_map`: slicing goes along with a change of the elements
- `Block.writeEach_machine`, `Fixed.ofBytes_eq`: the two loops, in machine words
- `fixed_conversions_faithful`: blocks of every size, for every nesting of elements, and their slices
-/

namespace ValueText

/-! ## What a block made of a fixed sequence owns -/

namespace Block

variable {α : Type}

/-- A block that shows all of its buffer is exact. -/
theorem isExact_of_size {b : Block α} {buffer : Array α} (hbuffer : b.buffer = some buffer)
    (hstart : b.start = 0) (hsize : b.size = buffer.size) : b.IsExact := by
  obtain ⟨buffer', start, size, fits⟩ := b
  simp only at hbuffer hstart hsize
  subst hbuffer hstart hsize
  refine ⟨rfl, congrArg some ?_⟩
  -- A range as large as the buffer shows all of it.
  have hall : buffer.toList.take buffer.size = buffer.toList :=
    List.take_of_length_le (Nat.le_of_eq Array.length_toList)
  simp [toList, toView, View.toList, hall]

end Block

namespace Fixed

variable {α β : Type} {n : Nat}

/-- A block made of a fixed sequence hides nothing, of whatever size it is. -/
theorem isExact_toBlockWith (copy : α → β) (l : Fixed α n) (size : Nat) (filler : β) :
    (l.toBlockWith copy size filler).IsExact :=
  Block.isExact_of_size rfl rfl (by simp [toBlockWith, Block.mapBuffer, Block.replicate,
    Block.ofArray])

/-- Of the full size, a block holds copies of all values and no filler. -/
theorem toBlockWith_full (copy : α → β) (l : Fixed α n) (filler : β) :
    l.toBlockWith copy n filler = Block.ofList (l.toList.map copy) := by
  have hall : l.toList.take n = l.toList := List.take_of_length_le (by simp)
  rw [(l.isExact_toBlockWith copy n filler).eq_ofList, toList_toBlockWith, hall, Nat.sub_self,
    List.replicate_zero, List.append_nil]

/-- The values come first. -/
theorem getElem?_toBlockWith_of_lt (copy : α → β) (l : Fixed α n) (filler : β) {size i : Nat}
    (hi : i < min size n) :
    (l.toBlockWith copy size filler).toList[i]? = l.toList[i]?.map copy := by
  have hlength : i < ((l.toList.take size).map copy).length := by simpa using hi
  rw [toList_toBlockWith, List.getElem?_append_left hlength, List.getElem?_map,
    List.getElem?_take_of_lt (by omega)]

/-- Behind the values there is the filler. -/
theorem getElem?_toBlockWith_of_ge (copy : α → β) (l : Fixed α n) (filler : β) {size i : Nat}
    (hn : n ≤ i) (hi : i < size) :
    (l.toBlockWith copy size filler).toList[i]? = some filler := by
  have hlength : ((l.toList.take size).map copy).length = n := by simp; omega
  rw [toList_toBlockWith, List.getElem?_append_right (by omega), hlength,
    List.getElem?_replicate_of_lt (by omega)]

/-- The values of a block, without the filler behind them. -/
theorem take_toBlockWith (copy : α → β) (l : Fixed α n) (size : Nat) (filler : β) :
    (l.toBlockWith copy size filler).toList.take n = (l.toList.take size).map copy := by
  rw [toList_toBlockWith, List.take_append]
  have hlength : ((l.toList.take size).map copy).length = min size n := by simp
  -- Either there are no values behind the copied ones or there are no fillers.
  by_cases h : size ≤ n
  · have hnone : size - n = 0 := by omega
    rw [hnone, List.replicate_zero, List.take_nil, List.append_nil, List.take_of_length_le]
    omega
  · have hfull : n - ((l.toList.take size).map copy).length = 0 := by omega
    rw [hfull, List.take_zero, List.append_nil, List.take_of_length_le]
    omega

end Fixed

/-! ## Slices -/

namespace View

variable {α β : Type}

/-- The same range of storage in which all elements are changed. -/
def map (f : α → β) (v : View α) : View β :=
  ⟨v.base.map f, v.start, v.size, by rw [Array.size_map]; exact v.fits⟩

theorem toList_map (f : α → β) (v : View α) : (v.map f).toList = v.toList.map f := by
  simp [toList, map, List.map_take, List.map_drop]

/-- A range of changed elements is cut out where that of the original ones is, or misses as well. -/
theorem slice_map (f : α → β) (v : View α) (first last : Nat) :
    (v.map f).slice first last = (v.slice first last).map (map f) := by
  have hsize : (v.map f).size = v.size := rfl
  by_cases h : first ≤ last ∧ last ≤ v.size
  · rw [slice_eq_ok v h, slice_eq_ok (v.map f) h]
    rfl
  · rw [slice_eq_error v h, slice_eq_error (v.map f) h, hsize]
    rfl

/-- Slicing goes along with a change of the elements. -/
theorem follow_map (f : α → β) (v : View α) (path : Path) :
    (v.map f).follow path = (v.follow path).map (map f) := by
  -- By the path; what is left of a changed view is the changed rest.
  induction path generalizing v with
  | nil => rfl
  | cons range path ih =>
    rw [follow_cons, follow_cons, slice_map]
    cases v.slice range.1 range.2 with
    | error e => rfl
    | ok w => exact ih w

end View

namespace Fixed

variable {α β : Type} {n : Nat}

/-- A block of the full size is viewed as the fixed sequence is, but for the copying. -/
theorem toView_toBlockWith_full (copy : α → β) (l : Fixed α n) (filler : β) :
    (l.toBlockWith copy n filler).toView = l.toView.map copy := by
  have hvalues : l.values.toList.toArray = l.values.toArray := Array.toArray_toList
  rw [toBlockWith_full, View.eq_iff]
  simp [Block.ofList, Block.ofArray, Block.toView, View.map, toView, View.ofArray, toList,
    ← List.map_toArray, hvalues]

/-- Slicing and copying can be exchanged, along every path; where one misses a range, the other
    misses the same. -/
theorem sliceAlong_toBlockWith (copy : α → β) (l : Fixed α n) (filler : β) (path : Path) :
    ((Sliceable.block (l.toBlockWith copy n filler)).sliceAlong path).map
        (fun w => (w.toList, w.offset)) =
      ((Sliceable.fixed l).sliceAlong path).map
        (fun v => ((Block.ofViewWith copy v).toList, v.offset)) := by
  -- The block shows exactly the copies of the values, so both are sliced alike.
  have hblock : (Sliceable.block (l.toBlockWith copy n filler)).toView = l.toView.map copy :=
    l.toView_toBlockWith_full copy filler
  have hfixed : (Sliceable.fixed l).toView = l.toView := rfl
  rw [Sliceable.sliceAlong_eq, Sliceable.sliceAlong_eq, hblock, hfixed, View.follow_map]
  cases l.toView.follow path with
  | error e => rfl
  | ok v =>
    have hlist := Block.toList_ofViewWith copy v
    simp only [Except.map, View.toList_map, hlist]
    rfl

end Fixed

/-! ## Writing one value after another -/

namespace Block

variable {α β γ δ : Type}

/-- What is done to positions beyond the visible elements does not count. -/
theorem mapVisible_congr {b : Block α} {f g : Nat → α → α}
    (h : ∀ i < b.size, ∀ x, f i x = g i x) : b.mapVisible f = b.mapVisible g := by
  refine mapBuffer_congr fun i _ x => ?_
  split
  next hvisible => exact h _ (by omega) x
  next => rfl

/-- Two changes of the visible elements are one change by both functions, one after the other. -/
theorem mapVisible_mapVisible (b : Block α) (f g : Nat → α → α) :
    (b.mapVisible g).mapVisible f = b.mapVisible fun i x => f i (g i x) := by
  obtain ⟨_ | buffer, start, size, fits⟩ := b
  · rfl
  -- Both changes skip the hidden positions, which are the same for both.
  · simp only [mapVisible, mapBuffer, Option.map_some, Array.mapIdx_mapIdx]
    congr
    funext i x
    simp only [Function.comp_apply]
    split <;> rfl

/-- Nothing is changed by leaving all visible elements as they are. -/
theorem mapVisible_id (b : Block α) : (b.mapVisible fun _ x => x) = b := by
  obtain ⟨_ | buffer, start, size, fits⟩ := b
  · rfl
  · have hbuffer : (buffer.mapIdx fun _ x => x) = buffer := by
      apply Array.ext <;> simp
    simp only [mapVisible, mapBuffer, Option.map_some, ite_self, hbuffer]

/-- The elements from `first` on are written over by some items, as far as both reach. -/
def writeFrom (b : Block α) (first : Nat) (items : List α) : Block α :=
  b.mapVisible fun i x => if first ≤ i then items[i - first]?.getD x else x

/-- Without items nothing is written. -/
theorem writeFrom_nil (b : Block α) (first : Nat) : b.writeFrom first [] = b := by
  have hsame : (fun (i : Nat) (x : α) => if first ≤ i then ([] : List α)[i - first]?.getD x else x) =
      fun _ x => x := by
    funext i x
    simp
  rw [writeFrom, hsame, mapVisible_id]

/-- Nothing is written beyond the visible elements. -/
theorem writeFrom_of_size_le (b : Block α) {first : Nat} (h : b.size ≤ first) (items : List α) :
    b.writeFrom first items = b := by
  have hnothing : b.writeFrom first items = b.mapVisible fun _ x => x :=
    mapVisible_congr fun i hi x => if_neg (by omega)
  rw [hnothing, mapVisible_id]

/-- Writing one item, and then the others from the next element on, is writing all of them. -/
theorem writeFrom_set {b c : Block α} {first : Nat} {item : α} (h : b.set first item = .ok c)
    (items : List α) : c.writeFrom (first + 1) items = b.writeFrom first (item :: items) := by
  obtain ⟨hfirst, -⟩ := set_eq_ok_iff.1 h
  rw [set_eq_mapVisible b item hfirst] at h
  obtain rfl := Except.ok.inj h
  rw [writeFrom, mapVisible_mapVisible, writeFrom]
  congr
  funext i x
  -- An element is before the item, is the item, or is one of those behind it.
  rcases Nat.lt_trichotomy i first with hlt | rfl | hgt
  · simp [show ¬first + 1 ≤ i by omega, show ¬first ≤ i by omega, show i ≠ first by omega]
  · simp [show ¬i + 1 ≤ i by omega]
  · obtain ⟨k, rfl⟩ : ∃ k, i = first + 1 + k := ⟨i - (first + 1), by omega⟩
    have hindex : first + 1 + k - first = k + 1 := by omega
    simp [hindex, show first ≤ first + 1 + k by omega, show first + 1 + k ≠ first by omega]

/-- Writing one element keeps the size of the buffer, so that words stay large enough for it. -/
theorem size_base_set {b c : Block α} {index : Nat} {value : α} (h : b.set index value = .ok c) :
    c.toView.base.size = b.toView.base.size := by
  obtain ⟨-, rfl⟩ := set_eq_ok_iff.1 h
  obtain ⟨_ | buffer, start, size, fits⟩ := b
  · rfl
  · simp [mapBuffer, toView]

/-- The loop in machine words writes all items, if they are copied without trapping. -/
theorem writeEach_machine {f : α → β} {copy : α → γ} {g : γ → δ} {step : β → Checked δ}
    {b : Block γ} (hsize : b.toView.base.size < UInt64.size) (index : UInt64) {xs : List α}
    (h : ∀ x ∈ xs, step (f x) = .ok (g (copy x))) :
    (b.machine g).writeEach step index (xs.map f) =
      .ok ((b.writeFrom index.toNat (xs.map copy)).machine g) := by
  -- The block that is left to be written over changes with each item, and so does the index.
  induction xs generalizing b index with
  | nil =>
    rw [List.map_nil, List.map_nil, writeFrom_nil]
    rfl
  | cons x xs ih =>
    have hfits : b.start + b.size ≤ b.toView.base.size := b.fits
    have hword : (b.machine g).size.toNat = b.size := UInt64.toNat_ofNat_of_lt' (by omega)
    have hvisible : index < (b.machine g).size ↔ index.toNat < b.size := by
      rw [UInt64.lt_iff_toNat_lt, hword]
    rw [List.map_cons, MachineBlock.writeEach]
    by_cases hindex : index.toNat < b.size
    · obtain ⟨c, hc⟩ : ∃ c, b.set index.toNat (copy x) = .ok c := ⟨_, if_pos hindex⟩
      have hset := (stepsAgree g hsize).set index (copy x)
      rw [hc] at hset
      have hbase := size_base_set hc
      -- The index stays below the size of the buffer, so the next one is a word.
      have hnext : (UInt64.ofNat (index.toNat + 1)).toNat = index.toNat + 1 :=
        UInt64.toNat_ofNat_of_lt' (by omega)
      have hadd : Checked.add index 1 = .ok (.ofNat (index.toNat + 1)) := by
        have hsum := Checked.add_of_lt (a := index.toNat) (b := 1) (by simpa using by omega)
        rwa [UInt64.ofNat_toNat] at hsum
      have hrest := ih (b := c) (by omega) (.ofNat (index.toNat + 1))
        fun y hy => h y (List.mem_cons_of_mem x hy)
      rw [hnext, writeFrom_set hc] at hrest
      rw [if_pos (hvisible.2 hindex), h x List.mem_cons_self]
      simp only [bind, Except.bind, hset, Checked.ofBounds, hadd, hrest, List.map_cons]
    -- Behind the end of the block, both stop with the items that are left.
    · rw [if_neg (mt hvisible.1 hindex), writeFrom_of_size_le b (by omega)]
      rfl

/-- Over a fresh block, the loop makes the block of the fixed sequence. -/
theorem writeFrom_replicate {n : Nat} (copy : α → γ) (l : Fixed α n) (size : Nat) (filler : γ) :
    (replicate size filler).writeFrom 0 (l.toList.map copy) = l.toBlockWith copy size filler := by
  rw [toBlockWith_eq_mapVisible]
  refine mapVisible_congr fun i hi x => ?_
  have hlt : i < size := by simpa [replicate, ofArray] using hi
  simp [hlt]

end Block

/-- In machine words, writing one copy after another over a fresh block makes the block of the fixed
    sequence. -/
theorem PrintType.writeEach_copySteps {D : Type} (item : PrintType) {n : Nat}
    {l : Fixed (item.Value D) n} (h : Addressable item.IsAddressable l.toList) (size : UInt64)
    (filler : item.Value D) :
    (MachineBlock.create size (item.machine filler)).writeEach item.copySteps 0
        (l.toList.map item.machine) =
      .ok ((l.toBlockWith item.copy size.toNat filler).machine item.machine) := by
  have hsize : (Block.replicate size.toNat filler).toView.base.size < UInt64.size := by
    simpa [Block.toView, Block.replicate, Block.ofArray] using size.toNat_lt
  -- The machine's loop writes what the model's does, element by element.
  rw [← Block.machine_replicate, ← Block.writeFrom_replicate]
  exact Block.writeEach_machine hsize 0 fun x hx => item.copySteps_machine x (h.items x hx)

namespace Fixed

/-- The bytes before the index are written, and those from it on are still to be written. -/
theorem toList_writeBytes {n : Nat} (hn : n < UInt64.size) (bytes values : Vector Char8 n)
    (index : UInt64) (hindex : index.toNat ≤ n) :
    ∃ written, writeBytes bytes values index = .ok written ∧
      written.toList = values.toList.take index.toNat ++ bytes.toList.drop index.toNat := by
  fun_induction writeBytes bytes values index with
  | case1 values index hlt next hnext ih =>
    have hstep : next.toNat = index.toNat + 1 := Checked.toNat_of_add hnext
    obtain ⟨written, hwritten, hlist⟩ := ih (by omega)
    refine ⟨written, hwritten, ?_⟩
    -- The byte at the index moves from those that are left to those that are written.
    have hleft : bytes.toList.drop index.toNat =
        bytes[index.toNat] :: bytes.toList.drop (index.toNat + 1) := by
      rw [List.drop_eq_getElem_cons (by simpa using hlt), Vector.getElem_toList]
    have hdone : (values.set index.toNat bytes[index.toNat]).toList.take (index.toNat + 1) =
        values.toList.take index.toNat ++ [bytes[index.toNat]] := by
      rw [Vector.toList_set, List.take_add_one, List.take_set, List.getElem?_set_self (by simpa),
        List.set_eq_of_length_le (List.length_take_le _ _)]
      rfl
    rw [hlist, hstep, hdone, hleft, List.append_assoc, List.singleton_append]
  | case2 values index hlt e hoverflow =>
    -- An index below the length has a next one.
    have hadd : Checked.add index 1 = .ok (index + 1) := if_pos (by simpa using by omega)
    rw [hadd] at hoverflow
    exact nomatch hoverflow
  | case3 values index hge =>
    have hend : index.toNat = n := by omega
    refine ⟨values, rfl, ?_⟩
    rw [hend, List.take_of_length_le (by simp), List.drop_of_length_le (by simp), List.append_nil]

/-- The loop over all indices writes all bytes. -/
theorem ofBytes_eq {n : Nat} (hn : n < UInt64.size) (bytes : Vector Char8 n) :
    ofBytes bytes = .ok ⟨bytes⟩ := by
  obtain ⟨written, hwritten, hlist⟩ :=
    toList_writeBytes hn bytes (.replicate n Char8.nul) 0 (Nat.zero_le n)
  have hall : written = bytes := Vector.toList_inj.1 (by simpa using hlist)
  rw [ofBytes, hwritten, hall]
  rfl

end Fixed

/-! ## Every size and every nesting -/

/-- Blocks made of fixed sequences are faithful.  Of whatever size, such a block owns a buffer of
    its elements and nothing else; these are copies of the first values in order, and fillers behind
    them.  Of the full size it holds copies of all values.  The copies show what the values show at
    every depth, and the fillers are what new elements start as.  Slices of a fixed sequence that
    are copied have the elements of the slices of its block, and each path misses the same ranges.
    The block of a fixed sequence of bytes is the text of these bytes.  In machine words nothing
    traps in the two loops, and they have these results. -/
theorem fixed_conversions_faithful :
    (∀ (α β : Type) (n : Nat) (l : Fixed α n) (copy : α → β) (size : Nat) (filler : β),
      let b := l.toBlockWith copy size filler
      b.hasBuffer = true ∧ b.IsExact ∧ b.size = size ∧
      (∀ i < min size n, b.toList[i]? = l.toList[i]?.map copy) ∧
      (∀ i, n ≤ i → i < size → b.toList[i]? = some filler)) ∧
    (∀ (α β : Type) (n : Nat) (l : Fixed α n) (copy : α → β) (filler : β),
      l.toBlockWith copy n filler = Block.ofList (l.toList.map copy) ∧
      ∀ path : Path,
        ((Sliceable.block (l.toBlockWith copy n filler)).sliceAlong path).map
            (fun w => (w.toList, w.offset)) =
          ((Sliceable.fixed l).sliceAlong path).map
            (fun v => ((Block.ofViewWith copy v).toList, v.offset))) ∧
    (∀ (m : Nat) (item : PrintType) (n : Nat) (l : Fixed (item.Value (Dynamic m)) n) (size : Nat)
      (filler : item.Value (Dynamic m)),
      List.Forall₂ item.IsCopy (l.toList.take size)
        ((l.toBlockWith item.copy size filler).toList.take n)) ∧
    (∀ (access : Access) (t : ElementType) (n : Nat) (l : Fixed (t.Value access) n) (size : Nat),
      (l.toBlockWith (t.copy access) size (t.initial access)).toList.map (t.plain access) =
        (l.toList.take size).map (t.plain access) ++
          List.replicate (size - n) t.plainInitial) ∧
    (∀ bytes : Bytes,
      (Fixed.ofList bytes).toBlockWith id bytes.length Char8.nul = Text.ofBytes bytes ∧
      (bytes.length < UInt64.size →
        Fixed.ofBytes ⟨bytes.toArray, List.size_toArray⟩ = .ok (Fixed.ofList bytes))) ∧
    ∀ (D : Type) (item : PrintType) (n : Nat) (l : Fixed (item.Value D) n) (size : UInt64)
      (filler : item.Value D), Addressable item.IsAddressable l.toList →
      (MachineBlock.create size (item.machine filler)).writeEach item.copySteps 0
          (l.toList.map item.machine) =
        .ok ((l.toBlockWith item.copy size.toNat filler).machine item.machine) := by
  refine ⟨fun α β n l copy size filler => ?_, fun α β n l copy filler => ?_,
    fun m item n l size filler => ?_, fun access t n l size => ?_, fun bytes => ⟨?_, fun hsize => ?_⟩,
    fun D item n l size filler h => item.writeEach_copySteps h size filler⟩
  · exact ⟨rfl, l.isExact_toBlockWith copy size filler, l.size_toBlockWith copy size filler,
      fun i => l.getElem?_toBlockWith_of_lt copy filler,
      fun i => l.getElem?_toBlockWith_of_ge copy filler⟩
  · exact ⟨l.toBlockWith_full copy filler, l.sliceAlong_toBlockWith copy filler⟩
  -- Copies are recognised by what `copy` makes, element by element.
  · rw [Fixed.take_toBlockWith]
    exact (Block.forall₂_iff item.isCopy_iff).2 rfl
  · rw [Fixed.toList_toBlockWith, List.map_append, List.map_replicate, t.plain_initial,
      ElementType.map_map_eq t.plain_copy]
  · rw [Fixed.toBlockWith_full, Fixed.toList_ofList, List.map_id]
    rfl
  · exact Fixed.ofBytes_eq hsize _

/-- One text, shown from the middle of its buffer, in a block of two, and two bytes. -/
theorem fixed_conversions_faithful_narrowed :
    let text : Text := ⟨some #[0x39, 0x61, 0x62, 0x30], 1, 2, by decide⟩
    let item : PrintType := .block .char
    let l : Fixed (item.Value (Dynamic 0)) 1 := Fixed.ofList [text]
    let b := l.toBlockWith item.copy 2 (Text.ofBytes [0x7a])
    b.toList[0]? = some (Text.ofBytes [0x61, 0x62]) ∧
      b.toList[1]? = some (Text.ofBytes [0x7a]) ∧
      (MachineBlock.create 2 (item.machine (Text.ofBytes [0x7a]))).writeEach item.copySteps 0
          (l.toList.map item.machine) =
        .ok (b.machine item.machine) ∧
      Fixed.ofBytes ⟨#[0x61, 0x62], rfl⟩ = .ok (Fixed.ofList [0x61, 0x62]) := by
  intro text item l b
  obtain ⟨hsize, -, -, -, hbytes, hloop⟩ := fixed_conversions_faithful
  obtain ⟨-, -, -, hvalues, hfillers⟩ :=
    hsize _ _ 1 l item.copy 2 (Text.ofBytes [0x7a] : item.Value (Dynamic 0))
  -- The text has a word for its size, so that it can be copied in steps.
  have hitem : item.IsAddressable (D := Dynamic 0) text := ⟨by decide, fun _ _ => trivial⟩
  have haddressable : Addressable item.IsAddressable l.toList :=
    ⟨by decide, fun x hx => List.mem_singleton.1 hx ▸ hitem⟩
  exact ⟨hvalues 0 (by decide), hfillers 1 (by decide) (by decide),
    hloop _ item 1 l 2 _ haddressable, (hbytes [0x61, 0x62]).2 (by decide)⟩

end ValueText
