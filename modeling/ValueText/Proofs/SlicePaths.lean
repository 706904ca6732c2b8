import ValueText.Proofs.StorageSteps

/-!
# Slices along a path

Slices of slices are slices: whatever the path, its last view is cut from the first one at once,
by a range that begins at the sum of all beginnings.  A path is followed as long as each of its
ranges lies in the elements that are visible when its turn comes, and the first range that does
not is the one that is answered.

A block can be restricted along the same path.  That shows what slicing shows and fails where
slicing fails, and the block keeps its buffer.

## Key results

- `View.follow_eq_ok_iff`: what a path leaves, and of which paths
- `View.follow_eq_error`: the first range that is missed ends the path
- `Block.toView_restrictAlong`: a block restricted along a path is viewed like the slice
- `Sliceable.along_path`: all of this for everything that can be sliced
-/

namespace ValueText

section

variable {β γ : Type} {f : γ → β} {r : Except BoundsError γ}

theorem map_eq_ok_iff {w : β} : r.map f = .ok w ↔ ∃ u, r = .ok u ∧ f u = w := by
  cases r <;> simp [Except.map]

theorem map_eq_error_iff {e : BoundsError} : r.map f = .error e ↔ r = .error e := by
  cases r <;> simp [Except.map]

end

/-! ## Paths -/

/-- The number of elements in a range. -/
def width (range : Nat × Nat) : Nat := range.2 - range.1

namespace Path

/-- The sum of the beginnings of all ranges. -/
def shift : Path → Nat
  | [] => 0
  | range :: path => range.1 + shift path

/-- The number of elements that are visible before the range number `i`, of `size` elements to
    begin with: the whole for the first range, and what the range before it took for any other. -/
def sizeBefore (path : Path) (size : Nat) : Nat → Nat
  | 0 => size
  | i + 1 => (path[i]?.map width).getD 0

/-- Whether the range number `i`, if there is one, lies in the elements that are visible before
    it. -/
def FitsAt (path : Path) (size i : Nat) : Prop :=
  ∀ range, path[i]? = some range → range.1 ≤ range.2 ∧ range.2 ≤ path.sizeBefore size i

/-- A path of machine words. -/
def ofWords (words : List (UInt64 × UInt64)) : Path :=
  words.map fun range => (range.1.toNat, range.2.toNat)

variable {range : Nat × Nat} {path : Path} {size : Nat}

/-- After its first range a path goes on with the elements that this range takes. -/
theorem sizeBefore_cons_succ (i : Nat) :
    sizeBefore (range :: path) size (i + 1) = path.sizeBefore (width range) i := by
  cases i <;> simp [sizeBefore]

/-- The first range of a path fits if it is in order and ends within the size. -/
theorem fitsAt_cons_zero :
    FitsAt (range :: path) size 0 ↔ range.1 ≤ range.2 ∧ range.2 ≤ size := by
  simp [FitsAt, sizeBefore]

/-- A later range fits if it does in what the first range leaves. -/
theorem fitsAt_cons_succ (i : Nat) :
    FitsAt (range :: path) size (i + 1) ↔ path.FitsAt (width range) i := by
  simp [FitsAt, sizeBefore_cons_succ]

/-- A path fits if its first range does and the others do in what that leaves. -/
theorem forall_fitsAt_cons :
    (∀ i, FitsAt (range :: path) size i) ↔
      (range.1 ≤ range.2 ∧ range.2 ≤ size) ∧ ∀ i, path.FitsAt (width range) i := by
  rw [← Nat.and_forall_add_one, fitsAt_cons_zero]
  simp only [fitsAt_cons_succ]

/-- What a whole path leaves is a range of the elements that it began with. -/
theorem shift_add_sizeBefore_le (h : ∀ i, path.FitsAt size i) :
    path.shift + path.sizeBefore size path.length ≤ size := by
  induction path generalizing size with
  | nil => simp [shift, sizeBefore]
  | cons range path ih =>
    obtain ⟨hrange, hpath⟩ := forall_fitsAt_cons.1 h
    -- The rest of the path stays inside the first range, which lies in the whole.
    have hrest := ih hpath
    rw [List.length_cons, sizeBefore_cons_succ]
    simp only [shift, width] at hrest ⊢
    omega

/-- The last range of a path takes what the whole path leaves. -/
theorem sizeBefore_length (hpath : path ≠ []) :
    path.sizeBefore size path.length = width (path.getLast hpath) := by
  -- The last range is the last one of the path behind the first, as long as there is one.
  induction path generalizing size with
  | nil => contradiction
  | cons range path ih =>
    rw [List.length_cons, sizeBefore_cons_succ]
    cases path with
    | nil => rfl
    | cons next path => rw [ih (List.cons_ne_nil _ _), List.getLast_cons (List.cons_ne_nil _ _)]

/-- A walk along a path ends at the range number `i`, which is missed: the walk comes as far as
    that range, the ranges before it fit and it does not, and it is the one that is named,
    together with the number of elements that are visible there. -/
structure StopsAt {β : Type} (path : Path) (walk : Path → Except BoundsError β)
    (sizeOf : β → Nat) (size i : Nat) (range : Nat × Nat) : Prop where
  here : path[i]? = some range
  before : ∀ j < i, path.FitsAt size j
  missed : ¬path.FitsAt size i
  reached : ∃ w, walk (path.take i) = .ok w ∧ sizeOf w = path.sizeBefore size i
  raised : walk (path.take (i + 1)) = .error (.range range.1 range.2 (path.sizeBefore size i))
  whole : walk path = .error (.range range.1 range.2 (path.sizeBefore size i))

namespace StopsAt

variable {β γ : Type} {walk : Path → Except BoundsError β} {sizeOf : β → Nat} {i : Nat}
  {missed : Nat × Nat}

/-- A walk ends at once if its first range does not fit. -/
theorem head (hrange : ¬(range.1 ≤ range.2 ∧ range.2 ≤ size))
    (hreached : ∃ w, walk [] = .ok w ∧ sizeOf w = size)
    (hraised : ∀ rest, walk (range :: rest) = .error (.range range.1 range.2 size)) :
    StopsAt (range :: path) walk sizeOf size 0 range where
  here := rfl
  before := by simp
  missed := by rwa [fitsAt_cons_zero]
  reached := hreached
  raised := hraised []
  whole := hraised path

/-- A walk whose first range fits ends where the walk from there ends. -/
theorem tail {next : Path → Except BoundsError β} (hrange : range.1 ≤ range.2 ∧ range.2 ≤ size)
    (hnext : ∀ rest, walk (range :: rest) = next rest)
    (h : path.StopsAt next sizeOf (width range) i missed) :
    StopsAt (range :: path) walk sizeOf size (i + 1) missed where
  here := h.here
  before j hj := by
    -- The ranges before are the first one, and those before on the path from there.
    cases j with
    | zero => exact fitsAt_cons_zero.2 hrange
    | succ j => exact (fitsAt_cons_succ j).2 (h.before j (by omega))
  missed := by
    rw [fitsAt_cons_succ]
    exact h.missed
  reached := by
    rw [List.take_succ_cons, hnext, sizeBefore_cons_succ]
    exact h.reached
  raised := by
    rw [List.take_succ_cons, hnext, sizeBefore_cons_succ]
    exact h.raised
  whole := by
    rw [hnext, sizeBefore_cons_succ]
    exact h.whole

/-- Two walks whose results correspond along every path end at the same range. -/
theorem map_iff {other : Path → Except BoundsError γ} {f : γ → β}
    (hmap : ∀ p, (other p).map f = walk p) :
    path.StopsAt walk sizeOf size i missed ↔
      path.StopsAt other (fun w => sizeOf (f w)) size i missed := by
  -- Whatever is said of one walk, of its size or of its error, is said of the other one.
  constructor
  · intro h
    refine ⟨h.here, h.before, h.missed, ?_, ?_, ?_⟩
    · obtain ⟨w, hw, hsize⟩ := h.reached
      obtain ⟨u, hu, rfl⟩ := map_eq_ok_iff.1 ((hmap _).trans hw)
      exact ⟨u, hu, hsize⟩
    · exact map_eq_error_iff.1 ((hmap _).trans h.raised)
    · exact map_eq_error_iff.1 ((hmap _).trans h.whole)
  · intro h
    refine ⟨h.here, h.before, h.missed, ?_, ?_, ?_⟩
    · obtain ⟨u, hu, hsize⟩ := h.reached
      exact ⟨f u, (hmap _).symm.trans (map_eq_ok_iff.2 ⟨u, hu, rfl⟩), hsize⟩
    · exact (hmap _).symm.trans (map_eq_error_iff.2 h.raised)
    · exact (hmap _).symm.trans (map_eq_error_iff.2 h.whole)

end StopsAt

end Path

/-! ## Views -/

namespace View

variable {α β : Type}

theorem eq_iff {v w : View α} : v = w ↔ v.base = w.base ∧ v.start = w.start ∧ v.size = w.size := by
  cases v
  cases w
  simp

/-- A path has a result if all its ranges fit, and the result is over the same storage, shifted
    by the sum of all beginnings. -/
theorem follow_eq_ok_iff {v w : View α} {path : Path} :
    v.follow path = .ok w ↔
      (∀ i, path.FitsAt v.size i) ∧ w.base = v.base ∧ w.start = v.start + path.shift ∧
        w.size = path.sizeBefore v.size path.length := by
  induction path generalizing v with
  | nil =>
    have hfits : ∀ i, Path.FitsAt [] v.size i := by simp [Path.FitsAt]
    simp [hfits, follow, pure, Except.pure, eq_iff, Path.shift, Path.sizeBefore, eq_comm]
  | cons range path ih =>
    obtain ⟨first, last⟩ := range
    rw [follow_cons, Path.forall_fitsAt_cons]
    by_cases h : first ≤ last ∧ last ≤ v.size
    · -- The slice begins later by `first`, and the rest of the path adds its own beginnings.
      rw [v.slice_eq_ok h, List.length_cons, Path.sizeBefore_cons_succ]
      simp only [bind, Except.bind, ih, h, and_self, true_and, Path.shift, width, Nat.add_assoc]
    · rw [v.slice_eq_error h]
      simp [h, bind, Except.bind]

/-- A path is followed exactly if all of its ranges fit. -/
theorem exists_follow_iff {v : View α} {path : Path} :
    (∃ w, v.follow path = .ok w) ↔ ∀ i, path.FitsAt v.size i := by
  constructor
  · rintro ⟨w, hw⟩
    exact (follow_eq_ok_iff.1 hw).1
  -- A path that fits ends within the view, so the slice can be given at once.
  · intro h
    have hrange := Path.shift_add_sizeBefore_le h
    have hfits := v.fits
    exact ⟨⟨v.base, v.start + path.shift, path.sizeBefore v.size path.length, by omega⟩,
      follow_eq_ok_iff.2 ⟨h, rfl, rfl, rfl⟩⟩

/-- A path without a result ends at its first range that does not fit. -/
theorem follow_eq_error {v : View α} {path : Path} {e : BoundsError}
    (h : v.follow path = .error e) :
    ∃ i range, path.StopsAt v.follow View.size v.size i range := by
  induction path generalizing v with
  | nil => cases h
  | cons range path ih =>
    obtain ⟨first, last⟩ := range
    by_cases hrange : first ≤ last ∧ last ≤ v.size
    · -- The rest of the path is followed from the slice, and it stops there.
      have hnext (rest : Path) := v.follow_cons first last rest
      simp only [v.slice_eq_ok hrange, bind, Except.bind] at hnext
      rw [hnext] at h
      obtain ⟨i, range, hstop⟩ := ih h
      exact ⟨i + 1, range, hstop.tail hrange hnext⟩
    · have hraised (rest : Path) :
          v.follow ((first, last) :: rest) = .error (.range first last v.size) := by
        rw [follow_cons, v.slice_eq_error hrange]
        rfl
      exact ⟨0, (first, last), .head hrange ⟨v, rfl, rfl⟩ hraised⟩

/-- The single range that a path comes to. -/
theorem slice_shift {v w : View α} {path : Path} (h : v.follow path = .ok w) :
    v.slice path.shift (path.shift + path.sizeBefore v.size path.length) = .ok w := by
  obtain ⟨hfits, hbase, hstart, hsize⟩ := follow_eq_ok_iff.1 h
  have hrange := Path.shift_add_sizeBefore_le hfits
  rw [v.slice_eq_ok ⟨Nat.le_add_right _ _, hrange⟩]
  apply congrArg Except.ok
  rw [eq_iff, hbase, hstart, hsize]
  exact ⟨rfl, rfl, Nat.add_sub_cancel_left ..⟩

end View

/-! ## Blocks -/

namespace Block

variable {α : Type}

/-- Restrictions along a path. -/
def restrictAlong (b : Block α) (path : Path) : Except BoundsError (Block α) :=
  path.foldlM (fun c range => c.restrict range.1 range.2) b

/-- A block is restricted by one range after the other. -/
theorem restrictAlong_cons (b : Block α) (range : Nat × Nat) (path : Path) :
    b.restrictAlong (range :: path) =
      b.restrict range.1 range.2 >>= fun c => c.restrictAlong path := by
  rw [restrictAlong, List.foldlM_cons]
  rfl

/-- A restricted block is viewed like the slice of the same range. -/
theorem toView_restrict (b : Block α) (first last : Nat) :
    (b.restrict first last).map toView = b.toView.slice first last := by
  by_cases h : first ≤ last ∧ last ≤ b.size
  · rw [restrict, dif_pos h, b.toView.slice_eq_ok h]
    rfl
  · rw [restrict, dif_neg h, b.toView.slice_eq_error h]
    rfl

/-- Restricting a block does not change its buffer. -/
theorem buffer_restrict {b c : Block α} {first last : Nat} (h : b.restrict first last = .ok c) :
    c.buffer = b.buffer :=
  (of_restrict_eq_ok h).2

/-- A block that is restricted along a path is viewed like the slice along that path. -/
theorem toView_restrictAlong (b : Block α) (path : Path) :
    (b.restrictAlong path).map toView = b.toView.follow path := by
  induction path generalizing b with
  | nil => rfl
  | cons range path ih =>
    rw [restrictAlong_cons, View.follow_cons, ← toView_restrict]
    -- Both sides stop here together, or go on from the block that is left.
    cases b.restrict range.1 range.2 with
    | error e => rfl
    | ok c => exact ih c

/-- The buffer stays with a block along every path. -/
theorem buffer_restrictAlong {b c : Block α} {path : Path} (h : b.restrictAlong path = .ok c) :
    c.buffer = b.buffer := by
  -- By the path, over all blocks, since each range leaves another block.
  induction path generalizing b with
  | nil =>
    cases h
    rfl
  | cons range path ih =>
    rw [restrictAlong_cons] at h
    cases hnext : b.restrict range.1 range.2 with
    | error e =>
      rw [hnext] at h
      cases h
    | ok d =>
      rw [hnext] at h
      rw [ih h, buffer_restrict hnext]

end Block

/-! ## Machine words -/

/-- Slices along a path of words. -/
def MachineView.follow {α : Type} (v : MachineView α) (words : List (UInt64 × UInt64)) :
    Checked (MachineView α) :=
  words.foldlM (fun w range => w.slice range.1 range.2) v

/-- Restrictions along a path of words. -/
def MachineBlock.restrictAlong {α : Type} (b : MachineBlock α) (words : List (UInt64 × UInt64)) :
    Checked (MachineBlock α) :=
  words.foldlM (fun c range => c.restrict range.1 range.2) b

/-- Slicing along a path of words goes as in the library: no sum of words overflows on the
    way. -/
theorem View.follow_machine {α : Type} {v : View α} (h : v.base.size < UInt64.size)
    (words : List (UInt64 × UInt64)) :
    (v.machine id).follow words =
      Checked.ofBounds (machine id) (v.follow (Path.ofWords words)) := by
  induction words generalizing v with
  | nil => rfl
  | cons range words ih =>
    have hslice := (stepsAgree id h).slice range.1 range.2
    -- A slice is over the storage of its whole, so the bound on the storage is kept.
    rw [MachineView.follow, List.foldlM_cons, hslice, Path.ofWords, List.map_cons, follow_cons]
    cases hw : v.slice range.1.toNat range.2.toNat with
    | error e => rfl
    | ok w => exact ih (by rwa [base_slice hw])

/-- In machine words, a block is restricted along a path as it is without them. -/
theorem Block.restrictAlong_machine {α : Type} {b : Block α}
    (h : b.toView.base.size < UInt64.size) (words : List (UInt64 × UInt64)) :
    (b.machine id).restrictAlong words =
      Checked.ofBounds (machine id) (b.restrictAlong (Path.ofWords words)) := by
  -- By the path; the block that a range leaves still has the buffer whose size is a word.
  induction words generalizing b with
  | nil => rfl
  | cons range words ih =>
    have hrestrict := (stepsAgree id h).restrict range.1 range.2
    rw [MachineBlock.restrictAlong, List.foldlM_cons, hrestrict, Path.ofWords, List.map_cons,
      restrictAlong_cons]
    cases hc : b.restrict range.1.toNat range.2.toNat with
    | error e => rfl
    | ok c => exact ih (by rwa [base_restrict hc])

/-! ## Everything that can be sliced -/

/-- What can be sliced: blocks, frozen blocks, fixed sequences, and views of storage that nothing
    in this library owns. -/
inductive Sliceable (α : Type) where
  | block (b : Block α)
  | frozen (f : Frozen α)
  | fixed {n : Nat} (l : Fixed α n)
  | foreign (v : View α)

namespace Sliceable

variable {α : Type}

/-- The visible elements in order. -/
def toList : Sliceable α → List α
  | block b => b.toList
  | frozen f => f.toList
  | fixed l => l.toList
  | foreign v => v.toList

/-- The view of the whole. -/
def toView : Sliceable α → View α
  | block b => b.toView
  | frozen f => f.toView
  | fixed l => l.toView
  | foreign v => v

/-- The distance of the visible elements from the beginning of the storage. -/
def offset : Sliceable α → Nat
  | block b => b.offset
  | frozen f => f.offset
  | fixed l => l.toView.offset
  | foreign v => v.offset

def slice (first last : Nat) : Sliceable α → Except BoundsError (View α)
  | block b => b.slice first last
  | frozen f => f.slice first last
  | fixed l => l.toView.slice first last
  | foreign v => v.slice first last

/-- Slices along a path: the first one is cut from `s`, and each other one from the view that
    the one before it left. -/
def sliceAlong (s : Sliceable α) : Path → Except BoundsError (View α)
  | [] => .ok s.toView
  | (first, last) :: path => do (← s.slice first last).follow path

/-- A slice in machine words. -/
def machineSlice (first last : UInt64) : Sliceable α → Checked (MachineView α)
  | block b => (b.machine id).slice first last
  | frozen f => (f.block.machine id).slice first last
  | fixed l => (MachineView.ofArray l.values.toArray).slice first last
  | foreign v => (v.machine id).slice first last

/-- Slices along a path of words. -/
def machineSliceAlong (s : Sliceable α) : List (UInt64 × UInt64) → Checked (MachineView α)
  | [] => .ok (s.toView.machine id)
  | (first, last) :: words => do (← s.machineSlice first last).follow words

/-! ### Whatever is sliced is sliced through its view -/

theorem toList_toView (s : Sliceable α) : s.toView.toList = s.toList := by
  cases s with
  | fixed l => exact l.toList_toView
  | _ => rfl

theorem offset_toView (s : Sliceable α) : s.toView.offset = s.offset := by
  cases s <;> rfl

/-- A slice is the slice of the view. -/
theorem slice_eq (s : Sliceable α) (first last : Nat) :
    s.slice first last = s.toView.slice first last := by
  cases s <;> rfl

/-- A path of slices is followed from the view. -/
theorem sliceAlong_eq (s : Sliceable α) (path : Path) :
    s.sliceAlong path = s.toView.follow path := by
  cases path with
  | nil => rfl
  | cons range path =>
    rw [sliceAlong, slice_eq, View.follow_cons]

/-- In machine words too, a slice is the slice of the view. -/
theorem machineSlice_eq {s : Sliceable α} (h : s.toView.base.size < UInt64.size)
    (first last : UInt64) :
    s.machineSlice first last = (s.toView.machine id).slice first last := by
  cases s with
  | block b =>
    -- In words, a block is made a view by steps of its own before it is sliced.
    rw [machineSlice, MachineBlock.slice, (Block.stepsAgree id h).toView]
    rfl
  | frozen f =>
    rw [machineSlice, MachineBlock.slice, (Block.stepsAgree (b := f.block) id h).toView]
    rfl
  | fixed l =>
    rw [machineSlice, toView, Fixed.toView, View.machine_ofArray, Array.map_id]
  | foreign v => rfl

/-- A path of slices in machine words ends where the path of slices does. -/
theorem machineSliceAlong_eq {s : Sliceable α} (h : s.toView.base.size < UInt64.size)
    (words : List (UInt64 × UInt64)) :
    s.machineSliceAlong words =
      Checked.ofBounds (View.machine id) (s.sliceAlong (Path.ofWords words)) := by
  rw [sliceAlong_eq, ← View.follow_machine h]
  -- The first slice makes a view, and from there on views are sliced.
  cases words with
  | nil => rfl
  | cons range words =>
    rw [machineSliceAlong, machineSlice_eq h, MachineView.follow, List.foldlM_cons]
    rfl

/-! ### Paths -/

/-- What slices along a path show, or which of them ends the path. -/
structure FollowsPath (s : Sliceable α) (path : Path) (hpath : path ≠ []) : Prop where
  /-- There is a result just if each range lies in what is visible before it. -/
  ok_iff : (∃ w, s.sliceAlong path = .ok w) ↔ ∀ i, path.FitsAt s.toList.length i
  /-- The result is the range that begins at the sum of all beginnings and is as long as the
      last range. -/
  shows : ∀ w, s.sliceAlong path = .ok w →
    w.toList = (s.toList.drop path.shift).take (width (path.getLast hpath)) ∧
    w.offset = s.offset + path.shift ∧
    s.slice path.shift (path.shift + width (path.getLast hpath)) = .ok w
  /-- Otherwise the first range that does not fit is named. -/
  stops : ∀ e, s.sliceAlong path = .error e →
    ∃ i range, path.StopsAt s.sliceAlong View.size s.toList.length i range ∧
      let seen := path.sizeBefore s.toList.length i
      e.message = s!"slice bounds [{range.1}, {range.2}) out of range for view of length {seen}"
  /-- In machine words the same happens, and nothing else can. -/
  inWords : s.toView.base.size < UInt64.size → ∀ words, Path.ofWords words = path →
    s.machineSliceAlong words = Checked.ofBounds (View.machine id) (s.sliceAlong path)

/-- What a block that is restricted along a path has in common with its slice. -/
structure RestrictsAlike (b : Block α) (path : Path) : Prop where
  ok_iff : (∃ c, b.restrictAlong path = .ok c) ↔ ∃ w, (block b).sliceAlong path = .ok w
  /-- The same elements stand at the same distance, in the buffer that the block had. -/
  shows : ∀ c, b.restrictAlong path = .ok c → ∃ w, (block b).sliceAlong path = .ok w ∧
    c.toList = w.toList ∧ c.offset = w.offset ∧ c.buffer = b.buffer
  /-- The same error is found at the same range. -/
  error_iff : ∀ e, b.restrictAlong path = .error e ↔ (block b).sliceAlong path = .error e
  stops_iff : ∀ i range,
    path.StopsAt b.restrictAlong Block.size b.toList.length i range ↔
      path.StopsAt (block b).sliceAlong View.size b.toList.length i range
  inWords : b.toView.base.size < UInt64.size → ∀ words, Path.ofWords words = path →
    (b.machine id).restrictAlong words =
      Checked.ofBounds (Block.machine id) (b.restrictAlong path)

/-- Whatever can be sliced follows every path that is not empty. -/
theorem followsPath (s : Sliceable α) {path : Path} (hpath : path ≠ []) :
    s.FollowsPath path hpath := by
  have hwalk : s.sliceAlong = s.toView.follow := funext s.sliceAlong_eq
  have hlength : s.toList.length = s.toView.size := by rw [← toList_toView, View.length_toList]
  refine ⟨?_, fun w hw => ?_, fun e he => ?_, ?_⟩
  -- A path is followed exactly if it fits.
  · rw [hwalk, hlength]
    exact View.exists_follow_iff
  -- What is found at the end is one slice, by the sum of the offsets.
  · rw [hwalk] at hw
    have hslice := View.slice_shift hw
    rw [Path.sizeBefore_length hpath] at hslice
    refine ⟨?_, ?_, by rw [slice_eq, hslice]⟩
    · rw [View.toList_slice hslice, Nat.add_sub_cancel_left, toList_toView]
    · rw [View.offset_slice hslice, offset_toView]
  -- What is missed is missed by the first range that does not fit.
  · rw [hwalk] at he ⊢
    rw [hlength]
    obtain ⟨i, range, hstop⟩ := View.follow_eq_error he
    have he' := Except.error.inj (he.symm.trans hstop.whole)
    exact ⟨i, range, hstop, by rw [he']; rfl⟩
  · rintro hsize words rfl
    exact machineSliceAlong_eq hsize words

/-- Restricting a block in place ends where slicing it does, along every path. -/
theorem restrictsAlike (b : Block α) (path : Path) : RestrictsAlike b path := by
  -- After each range, the view of the restricted block is the slice of the original one.
  have hmap (p : Path) : (b.restrictAlong p).map Block.toView = (block b).sliceAlong p := by
    rw [b.toView_restrictAlong, sliceAlong_eq]
    rfl
  have hshows (c : Block α) (hc : b.restrictAlong path = .ok c) :
      (block b).sliceAlong path = .ok c.toView := by
    rw [← hmap, hc]
    rfl
  refine ⟨⟨?_, ?_⟩, fun c hc => ?_, fun e => ?_, fun i range => ?_, ?_⟩
  · rintro ⟨c, hc⟩
    exact ⟨c.toView, hshows c hc⟩
  · rintro ⟨w, hw⟩
    obtain ⟨c, hc, -⟩ := map_eq_ok_iff.1 ((hmap path).trans hw)
    exact ⟨c, hc⟩
  · exact ⟨c.toView, hshows c hc, rfl, rfl, Block.buffer_restrictAlong hc⟩
  · rw [← hmap, map_eq_error_iff]
  · have hstops : path.StopsAt (block b).sliceAlong View.size b.toList.length i range ↔
        path.StopsAt b.restrictAlong (fun c => c.toView.size) b.toList.length i range :=
      Path.StopsAt.map_iff hmap
    exact hstops.symm
  · rintro hsize words rfl
    exact Block.restrictAlong_machine hsize words

/-- Slices along a path compose to one slice, or the first range that is missed ends them; and
    restricting a block along the path does the same. -/
theorem along_path (s : Sliceable α) {path : Path} (hpath : path ≠ []) :
    s.FollowsPath path hpath ∧ ∀ b, s = block b → RestrictsAlike b path :=
  ⟨s.followsPath hpath, fun b _ => restrictsAlike b path⟩

/-- Two ranges of a block of five numbers, in words as well; and a second range that ends behind
    what the first one left. -/
theorem along_path_of_five :
    let five : Block Nat := Block.ofList [7, 8, 9, 10, 11]
    ((block five).FollowsPath [(1, 4), (1, 3)] (List.cons_ne_nil _ _) ∧
      RestrictsAlike five [(1, 4), (1, 3)] ∧
      ((block five).sliceAlong [(1, 4), (1, 3)]).map View.toList = .ok [9, 10] ∧
      (block five).machineSliceAlong [(1, 4), (1, 3)] =
        Checked.ofBounds (View.machine id) ((block five).sliceAlong [(1, 4), (1, 3)])) ∧
    (block five).FollowsPath [(1, 4), (1, 5)] (List.cons_ne_nil _ _) ∧
      five.restrictAlong [(1, 4), (1, 5)] = .error (.range 1 5 3) ∧
      Path.StopsAt [(1, 4), (1, 5)] (block five).sliceAlong View.size 5 1 (1, 5) ∧
      (block five).machineSliceAlong [(1, 4), (1, 5)] = .error (.bounds (.range 1 5 3)) := by
  intro five
  obtain ⟨hfollows, hrestricts⟩ :=
    (block five).along_path (List.cons_ne_nil (1, 4) [(1, 3)] : ([(1, 4), (1, 3)] : Path) ≠ [])
  have hwords := hfollows.inWords (by decide) [(1, 4), (1, 3)] rfl
  obtain ⟨hmisses, hmissed⟩ :=
    (block five).along_path (List.cons_ne_nil (1, 4) [(1, 5)] : ([(1, 4), (1, 5)] : Path) ≠ [])
  have hslice : (block five).sliceAlong [(1, 4), (1, 5)] = .error (.range 1 5 3) := rfl
  have hstops : Path.StopsAt [(1, 4), (1, 5)] (block five).sliceAlong View.size 5 1 (1, 5) := by
    -- The error names the range, and that range stands in one place of the path.
    obtain ⟨i, range, hstop, -⟩ := hmisses.stops _ hslice
    have hrange := Except.error.inj (hstop.whole.symm.trans hslice)
    simp only [BoundsError.range.injEq] at hrange
    obtain rfl : range = (1, 5) := Prod.ext hrange.1 hrange.2.1
    match i, hstop with
    | 1, hstop => exact hstop
    | 0, hstop => exact absurd hstop.here (by decide)
    | j + 2, hstop => exact nomatch hstop.here
  exact ⟨⟨hfollows, hrestricts _ rfl, rfl, hwords⟩, hmisses,
    ((hmissed _ rfl).error_iff _).2 hslice, hstops,
    hmisses.inWords (by decide) [(1, 4), (1, 5)] rfl⟩

end Sliceable

end ValueText
