import ValueText.Proofs.MissedBounds
import ValueText.Proofs.ShownStore

/-!
# What a store hides never shows

The answers of a store depend on what its slots show and on nothing else: on every run they are
those of the machine that only knows the shown elements, the offsets and whether there are
buffers.  One step of the store and one step of that machine agree for every step
(`perform_shown`), so whole runs do.

## Key results

- `View.follow_shown`, `View.look_shown`: slicing and looking only see the window of a view
- `perform_shown`: a step shows what the machine does in that step
- `run_shown`: so does a run
-/

namespace ValueText

variable {t : ElementType} {access : Access}

/-! ## Views -/

namespace View

def shown (v : View (t.Value access)) : Window t := ⟨v.toList.map (t.plain access), v.offset⟩

theorem length_items_shown (v : View (t.Value access)) : v.shown.items.length = v.size := by
  rw [shown, List.length_map, length_toList]

/-- What is summed up of a view is what it shows. -/
theorem summary_shown (v : View (t.Value access)) : v.shown.summary = Summary.ofView v := by
  rw [Window.summary, Summary.ofView, length_items_shown, length_toList]
  congr 1
  exact t.sequence_plain v.toList

/-- What is dumped of a view is what it shows. -/
theorem dump_shown (pretty : Bool) (v : View (t.Value access)) :
    v.shown.dump pretty = (Inspect.dump v).text pretty := by
  have hitems : (v.toList.map (t.plain access)).map dump = v.toList.map dump :=
    ElementType.map_map_eq t.dump_plain v.toList
  rw [Window.dump, shown, hitems]
  rfl

/-- Reading what a view shows finds the element of the view, or misses the same index. -/
theorem get_shown (v : View (t.Value access)) (index : Nat) :
    v.shown.get index = t.plain access <$> v.get index := by
  rw [Window.get, length_items_shown, get_eq, shown, List.getElem?_map]
  cases v.toList[index]? <;> rfl

/-- Slicing what a view shows leaves what the slice of the view shows, or misses the same range. -/
theorem slice_shown (v : View (t.Value access)) (first last : Nat) :
    v.shown.slice first last = shown <$> v.slice first last := by
  rw [Window.slice, length_items_shown]
  -- Both check the range against the same number of visible elements.
  split
  next h =>
    have hslice := v.slice_eq_ok h
    have hitems := toList_slice hslice
    rw [hslice]
    show Except.ok _ = Except.ok _
    rw [shown, shown, hitems, List.map_take, List.map_drop]
    rfl
  next h =>
    rw [v.slice_eq_error h]
    rfl

/-- Slicing along a path only sees the window. -/
theorem follow_shown (v : View (t.Value access)) (path : Path) :
    v.shown.follow path = shown <$> v.follow path := by
  -- The ranges are cut one after another, and each cut only sees the window of the last.
  induction path generalizing v with
  | nil => rfl
  | cons range path ih =>
    obtain ⟨first, last⟩ := range
    rw [Window.follow, slice_shown, follow_cons]
    cases v.slice first last with
    | error e => rfl
    | ok w => exact ih w

/-- Looking only sees the window. -/
theorem look_shown (v : View (t.Value access)) (how : Look) : v.shown.look how = v.look how := by
  -- Each way of looking sees no more than the lemmas above are about.
  cases how with
  | summary => rw [Window.look, summary_shown, look]
  | dump pretty => rw [Window.look, summary_shown, dump_shown, look]
  | element index =>
    rw [Window.look, get_shown, look]
    cases v.get index with
    | error e => rfl
    | ok x => exact congrArg (Except.ok ∘ Answer.element) (t.form_plain x)

/-- Following a path through what a view shows comes to what the view at its end shows. -/
theorem follow_look_shown (v : View (t.Value access)) (path : Path) (how : Look) :
    (v.shown.follow path >>= fun w => w.look how) = v.follow path >>= fun w => w.look how := by
  rw [follow_shown]
  cases v.follow path with
  | error e => rfl
  | ok w => exact look_shown w how

/-- The view of a list shows the list, from its beginning. -/
theorem shown_ofList (values : List (t.Value .editable)) :
    (ofList values).shown = (⟨values.map (t.plain .editable), 0⟩ : Window t) := by
  rw [shown, toList_ofList]
  rfl

end View

/-! ## Blocks -/

namespace Block

/-- What a block shows in a slot of some kind. -/
def shown (kind : SlotKind) (b : Block (t.Value access)) : Shown t :=
  ⟨b.toView.shown, kind, b.hasBuffer⟩

variable {kind : SlotKind} {b : Block (t.Value access)}

theorem length_items_shown : (b.shown kind).items.length = b.size := b.toView.length_items_shown

/-- A block made of a list shows it, in a fresh buffer. -/
theorem shown_ofList (values : List (t.Value access)) :
    (ofList values).shown kind = Shown.fresh kind (values.map (t.plain access)) := by
  have hitems : (ofList values).toView.shown.items = values.map (t.plain access) :=
    congrArg (List.map _) (toList_ofList values)
  rw [Shown.fresh, ← hitems]
  rfl

/-- A block of initial elements shows initial plain values. -/
theorem shown_replicate (size : Nat) :
    (replicate size (t.initial access)).shown kind =
      Shown.fresh kind (List.replicate size t.plainInitial) := by
  have hvalues : replicate size (t.initial access) =
      ofList (List.replicate size (t.initial access)) := by
    rw [replicate, ofList, List.toArray_replicate]
  rw [hvalues, shown_ofList, List.map_replicate, t.plain_initial]

/-- A copy of what can be read or written shows the same. -/
theorem shown_copyWith {copied : Access} {copy : t.Value access → t.Value copied}
    (hcopy : ∀ x, t.plain copied (copy x) = t.plain access x) (other : SlotKind) :
    (b.copyWith copy).shown other = (b.shown kind).copyAs other := by
  rw [copyWith, Shown.copyAs]
  -- Without a buffer there is nothing to copy, and none is made.
  by_cases hbuffer : b.hasBuffer
  · rw [if_pos hbuffer, if_pos (show (b.shown kind).hasBuffer from hbuffer), shown_ofList,
      ElementType.map_map_eq hcopy]
    rfl
  · rw [if_neg hbuffer, if_neg (show ¬(b.shown kind).hasBuffer from hbuffer)]
    rfl

/-- A block made of a view shows the elements of the view, in a fresh buffer. -/
theorem shown_ofViewWith (v : View (t.Value access)) :
    (ofViewWith (t.copy access) v).shown kind = Shown.fresh kind v.shown.items := by
  rw [ofViewWith, shown_ofList, ElementType.map_map_eq t.plain_copy]
  rfl

/-- A restricted block is measured and cut off as the view of it would be; it owns a buffer if
    the whole block does. -/
theorem restrict_eq_slice (first last : Nat) :
    shown kind <$> b.restrict first last =
      (fun w => (⟨w, kind, b.hasBuffer⟩ : Shown t)) <$> b.toView.shown.slice first last := by
  rw [View.slice_shown, restrict]
  -- A block is restricted in the same bounds in which its view is sliced.
  split
  next h =>
    rw [View.slice_eq_ok b.toView h]
    rfl
  next h =>
    rw [View.slice_eq_error b.toView h]
    rfl

/-- Restricting what a block shows is restricting the block. -/
theorem restrict_shown (first last : Nat) :
    (b.shown kind).restrict first last = shown kind <$> b.restrict first last := by
  rw [restrict_eq_slice, Shown.restrict, shown]
  cases b.toView.shown.slice first last <;> rfl

/-- Changing elements in place changes the visible elements and leaves the rest of what a block
    shows. -/
theorem shown_mapBuffer {f : Nat → t.Value access → t.Value access}
    {items : List (t.Value access)} (h : (b.mapBuffer f).toList = items) :
    (b.mapBuffer f).shown kind = { b.shown kind with items := items.map (t.plain access) } := by
  -- Neither the range nor the presence of a buffer changes with the elements.
  have hbuffer : (b.mapBuffer f).hasBuffer = b.hasBuffer := Option.isSome_map
  have hwindow : (b.mapBuffer f).toView.shown = ⟨items.map (t.plain access), b.offset⟩ := by
    rw [View.shown, toList_toView, h]
    rfl
  rw [shown, hbuffer, hwindow]
  rfl

/-- Writing an element of what a block shows is writing it in the block. -/
theorem set_shown (index : Nat) (x : t.Value access) :
    (b.shown kind).set index (t.plain access x) = shown kind <$> b.set index x := by
  rw [Shown.set, length_items_shown]
  -- Both machines check the index against the same number of visible elements.
  by_cases hindex : index < b.size
  · have hset : b.set index x = .ok _ := if_pos hindex
    rw [if_pos hindex, hset]
    show _ = Except.ok _
    rw [shown_mapBuffer (toList_set hset), List.map_set]
    rfl
  · rw [if_neg hindex, Block.set, if_neg hindex]
    rfl

/-- Filling what a block shows is filling the block. -/
theorem fill_shown (x : t.Value access) :
    (b.shown kind).fill (t.plain access x) = (b.fill x).shown kind := by
  have hitems : (b.fill x).shown kind =
      { b.shown kind with items := (List.replicate b.size x).map (t.plain access) } :=
    shown_mapBuffer (b.toList_fill x)
  rw [hitems, List.map_replicate, Shown.fill, length_items_shown]

theorem lt_size_of_get {index : Nat} {x : t.Value access} (h : b.get index = .ok x) :
    index < b.size := by
  unfold get View.get at h
  split at h
  next hindex => exact hindex
  next => exact nomatch h

/-- Exchanging two elements of what a block shows is exchanging them in the block. -/
theorem swap_shown (index other : Nat) :
    (b.shown kind).swap index other = shown kind <$> b.swap index other := by
  have hget (i : Nat) : (b.shown kind).get i = t.plain access <$> b.get i := b.toView.get_shown i
  rw [Shown.swap, Block.swap, hget, hget]
  -- The two reads are checked first, and the writes use indices that passed.
  cases hx : b.get index with
  | error e => rfl
  | ok x =>
    cases hy : b.get other with
    | error e => rfl
    | ok y =>
      have hindex := lt_size_of_get hx
      have hother := lt_size_of_get hy
      -- Both writes succeed, the second because the first leaves the size as it is.
      have hset : shown kind <$> b.set index y = .ok
          { b.shown kind with items := (b.shown kind).items.set index (t.plain access y) } := by
        rw [← set_shown, Shown.set, length_items_shown, if_pos hindex]
      cases hc : b.set index y with
      | error e =>
        rw [hc] at hset
        cases hset
      | ok c =>
        rw [hc] at hset
        have hshown := Except.ok.inj hset
        have hsize : other < (c.shown kind).items.length := by
          rw [hshown, List.length_set, length_items_shown]
          exact hother
        show _ = shown kind <$> (b.set index y >>= fun c => c.set other x)
        rw [hc]
        show _ = shown kind <$> c.set other x
        rw [← set_shown, Shown.set, if_pos hsize, hshown]
        rfl

end Block

/-! ## Slots -/

namespace Slot

/-- How the elements of a slot are reached. -/
def reach : Slot t → Access
  | block access _ => access
  | frozen _ => .readOnly

/-- The block that a slot holds, frozen or not. -/
def held : (slot : Slot t) → Block (t.Value slot.reach)
  | block _ b => b
  | frozen f => f.block

/-- The kind of a slot. -/
def kind : Slot t → SlotKind
  | block access _ => .block access
  | frozen _ => .frozen

theorem shown_eq (slot : Slot t) : slot.shown = slot.held.shown slot.kind := by
  cases slot <;> rfl

/-- What is summed up of a slot is what it shows. -/
theorem summary_shown (slot : Slot t) : slot.shown.summary = slot.summary := by
  have hwindow : (slot.held.shown slot.kind).toWindow.summary = Summary.ofView slot.held.toView :=
    View.summary_shown _
  rw [shown_eq, Shown.summary, hwindow]
  cases slot with
  | block access b => cases access <;> rfl
  | frozen f => rfl

/-- What is dumped of a slot is what it shows. -/
theorem dump_shown (pretty : Bool) (slot : Slot t) :
    slot.shown.toWindow.dump pretty = slot.dump pretty := by
  rw [shown_eq]
  show slot.held.toView.shown.dump pretty = _
  rw [View.dump_shown]
  cases slot <;> rfl

/-- Reading an element of what a slot shows prints the element of the slot. -/
theorem get_shown (slot : Slot t) (index : Nat) :
    ((fun x => Answer.element (form x)) <$> slot.shown.get index) =
      Answer.element <$> slot.get index := by
  -- The answer of a slot is the printed form of the element, which is that of its plain value.
  have hget : slot.get index = form <$> slot.held.toView.get index := by cases slot <;> rfl
  rw [shown_eq, hget]
  show _ <$> slot.held.toView.shown.get index = _
  rw [View.get_shown]
  cases slot.held.toView.get index with
  | error e => rfl
  | ok x => exact congrArg (Except.ok ∘ Answer.element) (t.form_plain x)

/-- Looking along a path at what a slot shows is looking at the slot. -/
theorem look_shown (slot : Slot t) (path : Path) (how : Look) :
    (slot.shown.toWindow.follow path >>= fun w => w.look how) = slot.look path how := by
  rw [shown_eq]
  show (slot.held.toView.shown.follow path >>= fun w => w.look how) = _
  rw [View.follow_look_shown]
  cases slot <;> rfl

/-- A slot made of a view has the elements of the view and a buffer of its own. -/
theorem ofSlice_shown (slot : Slot t) (other : SlotKind) (path : Path)
    (make : View (t.Value slot.reach) → Slot t)
    (hmake : ∀ v, (make v).shown = Shown.fresh other v.shown.items) :
    slot.shown.ofSlice other path =
      (fun v => (Summary.ofView v, (make v).shown)) <$> slot.held.toView.follow path := by
  rw [shown_eq, Shown.ofSlice]
  show (slot.held.toView.shown.follow path >>= _) = _
  rw [View.follow_shown]
  -- Either a bound is missed by both or the path ends in a view, of which both are made.
  cases slot.held.toView.follow path with
  | error e => rfl
  | ok v =>
    show Except.ok (v.shown.summary, _) = Except.ok (_, (make v).shown)
    rw [View.summary_shown, hmake]

/-- A copied slice shows the copies of what is shown. -/
theorem copySlice_shown (slot : Slot t) (path : Path) :
    slot.shown.ofSlice slot.shown.sliceKind path =
      (fun made => (made.1, made.2.shown)) <$> slot.copySlice path := by
  -- The two kinds of slots differ in the access to the copy.
  cases slot with
  | block access b =>
    refine (ofSlice_shown (block access b) _ path
      (fun v => block access (Block.ofViewWith (t.copy access) v)) Block.shown_ofViewWith).trans ?_
    show _ <$> b.toView.follow path = _ <$> (b.toView.follow path >>= _)
    cases b.toView.follow path <;> rfl
  | frozen f =>
    refine (ofSlice_shown (frozen f) _ path
      (fun v => block .readOnly (Block.ofViewWith (t.copy .readOnly) v))
      Block.shown_ofViewWith).trans ?_
    show _ <$> f.block.toView.follow path = _ <$> (f.block.toView.follow path >>= _)
    cases f.block.toView.follow path <;> rfl

/-- Freezing keeps what elements show and makes a buffer of its own. -/
theorem shown_frozen_ofList (xs : List (t.Value access)) :
    (frozen (Frozen.ofList (xs.map (t.freeze access)))).shown =
      Shown.fresh .frozen (xs.map (t.plain access)) := by
  show (Block.ofList (xs.map (t.freeze access))).shown .frozen = _
  rw [Block.shown_ofList, ElementType.map_map_eq t.plain_freeze]

/-- A frozen slice shows what is shown of the slice. -/
theorem freezeSlice_shown (slot : Slot t) (path : Path) :
    slot.shown.ofSlice .frozen path =
      (fun made => (made.1, made.2.shown)) <$> slot.freezeSlice path := by
  rw [ofSlice_shown slot _ path
    (fun v => frozen (Frozen.ofList (v.toList.map (t.freeze slot.reach))))
    (fun v => shown_frozen_ofList v.toList)]
  -- In both kinds of slots the slice is found first and frozen then.
  cases slot with
  | block access b =>
    show _ <$> b.toView.follow path = _ <$> (b.toView.follow path >>= _)
    cases b.toView.follow path <;> rfl
  | frozen f =>
    show _ <$> f.block.toView.follow path = _ <$> (f.block.toView.follow path >>= _)
    cases f.block.toView.follow path <;> rfl

/-- A copy shows what the original shows, with a buffer where that has one. -/
theorem copy_shown (slot : Slot t) : slot.shown.copyAs slot.shown.kind = slot.copy.shown := by
  cases slot with
  | block access b => exact (Block.shown_copyWith t.plain_copy _).symm
  | frozen f => exact (Block.shown_copyWith t.plain_copy _).symm

/-- A frozen slot shows what the original shows, with a buffer in any case. -/
theorem freeze_shown (slot : Slot t) :
    Shown.fresh .frozen slot.shown.items = slot.freeze.shown := by
  cases slot with
  | block access b => exact (shown_frozen_ofList b.toList).symm
  | frozen f => exact (shown_frozen_ofList f.toList).symm

/-- A thawed slot shows what the frozen one shows. -/
theorem thaw_shown (f : Frozen (t.Value .readOnly)) :
    (frozen f).shown.copyAs (.block .readOnly) =
      (block .readOnly (f.thawWith (t.copy .readOnly))).shown :=
  (Block.shown_copyWith t.plain_copy _).symm

/-- Slots of one kind are equal if what they show is. -/
theorem equality?_shown (a b : Slot t) : a.shown.equality? b.shown = a.equality? b := by
  have hitems (access : Access) (xs ys : List (t.Value access)) :
      (xs.map (t.plain access) == ys.map (t.plain access)) = (xs == ys) :=
    ElementType.beq_map t.beq_plain xs ys
  rw [Shown.equality?]
  cases a with
  | block access a =>
    cases b with
    | block access' b =>
      -- Blocks of different access are of different kinds, which are not compared.
      cases access <;> cases access' <;>
        first
          | exact congrArg (fun eq => some (eq, eq)) (hitems _ a.toList b.toList)
          | rfl
    | frozen f => cases access <;> rfl
  | frozen a =>
    cases b with
    | block access' b => cases access' <;> rfl
    | frozen b => exact congrArg (fun eq => some (eq, eq)) (hitems _ a.toList b.toList)

end Slot

/-! ## Steps and runs -/

namespace Store

def shown (store : Store t) : ShownStore t := store.map Slot.shown

/-- What is seen of a store and an answer. -/
def seen (result : Store t × Answer) : ShownStore t × Answer := (result.1.shown, result.2)

variable {store : Store t} {name : String}

/-- Filling a slot is seen as filling it with what it shows. -/
theorem seen_make (slot : Slot t) :
    seen (store.make name slot) = store.shown.make name slot.shown := by
  rw [seen, make, ShownStore.make, Slot.summary_shown, shown, Slots.map_put]
  rfl

/-- A step on a slot is seen as the step on what the slot shows, if it is so for each slot. -/
theorem seen_withSlot {act : Slot t → Store t × Answer} {act' : Shown t → ShownStore t × Answer}
    (h : ∀ slot, seen (act slot) = act' slot.shown) :
    seen (store.withSlot name act) = store.shown.withSlot name act' := by
  rw [withSlot, ShownStore.withSlot, shown, Slots.get?_map]
  cases store.get? name with
  | none => rfl
  | some slot => exact h slot

/-- A change of a block is seen as the change of what it shows, if it is so for each block. -/
theorem seen_change {missed : Store t}
    {act : (access : Access) → Block (t.Value access) → Except BoundsError (Block (t.Value access))}
    {act' : Shown t → Except BoundsError (Shown t)}
    (h : ∀ access (b : Block (t.Value access)),
      act' (b.shown (.block access)) = Block.shown (.block access) <$> act access b) :
    seen (store.change name missed act) = store.shown.change name missed.shown act' := by
  rw [change, ShownStore.change]
  apply seen_withSlot
  intro slot
  -- A frozen slot is refused by both machines, and a block is changed by both.
  cases slot with
  | frozen f => rfl
  | block access b =>
    have hshown : act' (Slot.block access b).shown =
        Block.shown (.block access) <$> act access b := h access b
    dsimp only
    rw [hshown]
    cases act access b with
    | ok c => exact seen_make (.block access c)
    | error e => rfl

/-- Filling a slot from a view is seen as filling it with what the made slot shows. -/
theorem seen_makeOfView (made : Except BoundsError (Summary × Slot t)) :
    seen (store.makeOfView name made) =
      store.shown.makeOfView name ((fun m => (m.1, m.2.shown)) <$> made) := by
  -- A missed bound leaves both stores as they are.
  cases made with
  | error e => rfl
  | ok m =>
    show (shown (store.put name m.2), Answer.copied m.1 m.2.summary) =
      (store.shown.put name m.2.shown, Answer.copied m.1 m.2.shown.summary)
    rw [Slot.summary_shown, shown, Slots.map_put]
    rfl

/-- A step shows what the machine does in that step. -/
theorem perform_shown (store : Store t) (step : Step t) :
    seen (store.perform step) = store.shown.perform step := by
  -- Each step makes a slot, changes one, or answers by what a slot shows; the lemmas on slots
  -- and blocks say that the machine sees the same.
  cases step with
  | create target size =>
    rw [perform, seen_make]
    exact congrArg (store.shown.make target) (Block.shown_replicate size)
  | createEmpty target => exact seen_make _
  | createFrozenEmpty target => exact seen_make _
  | ofValues target values =>
    rw [perform, seen_make]
    exact congrArg (store.shown.make target) (Block.shown_ofList values)
  -- What is not in the store is seen as the view of its values.
  | lookForeign values path how =>
    rw [perform, ShownStore.perform, ← View.shown_ofList]
    exact congrArg (fun r => (store.shown, Answer.ofExcept r))
      (View.follow_look_shown (View.ofList values) path how).symm
  | copyForeign values path target =>
    rw [perform, ShownStore.perform, ← View.shown_ofList, View.follow_shown]
    cases (View.ofList values).follow path with
    | error e => rfl
    | ok v =>
      refine (seen_make _).trans ?_
      exact congrArg (store.shown.make target) (Block.shown_ofViewWith v)
  | look of path how =>
    rw [perform, ShownStore.perform]
    apply seen_withSlot
    intro slot
    exact congrArg (fun r => (store.shown, Answer.ofExcept r)) (slot.look_shown path how).symm
  | copySlice of path target =>
    rw [perform, ShownStore.perform]
    apply seen_withSlot
    intro slot
    rw [slot.copySlice_shown, seen_makeOfView]
  | freezeSlice of path target =>
    rw [perform, ShownStore.perform]
    apply seen_withSlot
    intro slot
    rw [slot.freezeSlice_shown, seen_makeOfView]
  | restrict of first last =>
    -- The only step that leaves less than the store where it misses its bounds.
    rw [perform, ShownStore.perform, shown, ← Slots.map_remove]
    apply seen_change
    intro access b
    exact Block.restrict_shown first last
  | release of =>
    rw [perform, ShownStore.perform]
    apply seen_withSlot
    intro slot
    rw [seen, shown, Slots.map_remove, ← Slots.names_map Slot.shown, Slots.map_remove]
    rfl
  | copy of target =>
    rw [perform, ShownStore.perform]
    apply seen_withSlot
    intro slot
    rw [seen_make, slot.copy_shown]
  | freeze of target =>
    rw [perform, ShownStore.perform]
    apply seen_withSlot
    intro slot
    rw [seen_make, slot.freeze_shown]
  -- Only what is frozen can be thawed, and both machines know which slots are.
  | thaw of target =>
    rw [perform, ShownStore.perform]
    apply seen_withSlot
    intro slot
    cases slot with
    | block access b => rfl
    | frozen f =>
      refine (seen_make _).trans ?_
      exact congrArg (store.shown.make target) (Slot.thaw_shown f).symm
  | get of index =>
    rw [perform, ShownStore.perform]
    apply seen_withSlot
    intro slot
    rw [slot.get_shown]
    rfl
  | set of index value =>
    rw [perform, ShownStore.perform]
    apply seen_change
    intro access b
    -- What is written into a thawed block is frozen first, which shows the same.
    rw [← t.plain_adapt value, Block.set_shown]
  | fill of value =>
    rw [perform, ShownStore.perform]
    apply seen_change
    intro access b
    rw [← t.plain_adapt value, Block.fill_shown]
    rfl
  | swap of index other =>
    rw [perform, ShownStore.perform]
    apply seen_change
    intro access b
    exact Block.swap_shown index other
  -- Slots of different kinds are not compared, on both sides.
  | equality of other =>
    rw [perform, ShownStore.perform]
    apply seen_withSlot
    intro a
    apply seen_withSlot
    intro b
    rw [Slot.equality?_shown]
    cases a.equality? b <;> rfl
  | summary of =>
    rw [perform, ShownStore.perform]
    apply seen_withSlot
    intro slot
    rw [slot.summary_shown]
    rfl
  | dump of pretty =>
    rw [perform, ShownStore.perform]
    apply seen_withSlot
    intro slot
    rw [slot.dump_shown]
    rfl

/-- A run is seen as the run of the machine that only knows what slots show. -/
theorem run_shown (store : Store t) (steps : List (Step t)) :
    (store.run steps).1.shown = (store.shown.run steps).1 ∧
      (store.run steps).2 = (store.shown.run steps).2 := by
  -- By the steps, over all stores, with `perform_shown` for each of them.
  induction steps generalizing store with
  | nil => exact ⟨rfl, rfl⟩
  | cons step steps ih =>
    -- The store after the first step shows what the machine goes on with.
    have hstep := store.perform_shown step
    obtain ⟨hstore, hanswer⟩ := Prod.ext_iff.1 hstep
    obtain ⟨hlast, hanswers⟩ := ih (store.perform step).1
    have hstore' : (store.perform step).1.shown = (store.shown.perform step).1 := hstore
    rw [hstore'] at hlast hanswers
    exact ⟨hlast, List.cons_eq_cons.2 ⟨hanswer, hanswers⟩⟩

/-- Nothing that a store hides ever shows.  On every run, whatever the store held before, the
    answers are those of the machine that only knows what slots show, and the store ends up
    showing what that machine ends up with.  A step misses its bounds exactly if they are not
    inside the visible elements, and it is answered with their number; it then leaves every
    slot as it was, but a block that was to be restricted is lost. -/
theorem run_refines (store : Store t) (steps : List (Step t)) :
    (store.run steps).2 = (store.shown.run steps).2 ∧
    (store.run steps).1.shown = (store.shown.run steps).1 ∧
    (∀ step e, ((store.run steps).1.perform step).2 = .outOfBounds e ↔
      (store.run steps).1.missed? step = some e) ∧
    (∀ step e, ((store.run steps).1.perform step).2 = .outOfBounds e →
      ∀ name, ((store.run steps).1.perform step).1.get? name =
        if step.lost? = some name then none else (store.run steps).1.get? name) := by
  obtain ⟨hstore, hanswers⟩ := store.run_shown steps
  -- What a step misses is decided in the store that the run has left.
  refine ⟨hanswers, hstore, ?_, ?_⟩
  · intro step e
    exact outOfBounds_iff_missed? _ step e
  · intro step e h name
    exact get?_perform_of_outOfBounds h name

end Store

end ValueText
