import ValueText.Store

/-!
# Which steps miss their bounds

A step of a store misses its bounds exactly if one of its ranges is reversed or ends behind the
elements that are visible where it is applied, or one of its indices is not below their number.
What a block hides does not count: the answer names the number of visible elements also where
the buffer goes on behind them.

A step writes under one name at most, so that a run leaves every slot as it was that none of its
steps makes or changes.

## Key results

- `missedBy_follow`: along a path, the first range that misses what is left is the one answered
- `outOfBounds_iff_missed?`: which step misses what
- `get?_perform_of_outOfBounds`: what is left of the store then
- `get?_make`, `get?_makeOfView`: what is found in a store after a slot was made
- `get?_run_of_forall_ne`: what a run leaves alone, whether it misses bounds or not
-/

namespace ValueText

/-! ## What can be missed -/

/-- The bounds that a result missed. -/
def missedBy {α : Type} : Except BoundsError α → Option BoundsError
  | .ok _ => none
  | .error e => some e

/-- What an index misses among so many elements. -/
def missedIndex (index length : Nat) : Option BoundsError :=
  if index < length then none else some (.index index length)

/-- What a path misses that starts out from so many elements: its first range that is reversed
    or ends behind what the ranges before it left, or, if there is none, what is missed among
    the elements that the whole path left. -/
def missedAlong (next : Nat → Option BoundsError) : Path → Nat → Option BoundsError
  | [], length => next length
  | (first, last) :: path, length =>
    if first ≤ last ∧ last ≤ length then missedAlong next path (last - first)
    else some (.range first last length)

/-- A path alone misses nothing beyond its ranges. -/
def missedPath : Path → Nat → Option BoundsError := missedAlong fun _ => none

/-- What is missed by looking at so many elements. -/
def Look.missed? : Look → Nat → Option BoundsError
  | .summary, _ | .dump _, _ => none
  | .element index, length => missedIndex index length

/-- The number of visible elements. -/
def Slot.size {t : ElementType} : Slot t → Nat
  | block _ b => b.size
  | frozen f => f.size

/-- The number of visible elements of what can be written. -/
def Slot.writableSize? {t : ElementType} : Slot t → Option Nat
  | block _ b => some b.size
  | frozen _ => none

namespace Store

variable {t : ElementType}

/-- The bounds that a step misses. -/
def missed? (store : Store t) : Step t → Option BoundsError
  | .lookForeign values path how => missedAlong how.missed? path values.length
  | .copyForeign values path _ => missedPath path values.length
  | .look of path how => (store.get? of).bind fun slot => missedAlong how.missed? path slot.size
  | .copySlice of path _ => (store.get? of).bind fun slot => missedPath path slot.size
  | .freezeSlice of path _ => (store.get? of).bind fun slot => missedPath path slot.size
  | .restrict of first last =>
    (store.get? of).bind fun slot => slot.writableSize?.bind (missedPath [(first, last)])
  | .get of index => (store.get? of).bind fun slot => missedIndex index slot.size
  | .set of index _ => (store.get? of).bind fun slot => slot.writableSize?.bind (missedIndex index)
  | .swap of index other =>
    (store.get? of).bind fun slot =>
      slot.writableSize?.bind fun size => (missedIndex index size).or (missedIndex other size)
  | _ => none

/-- What is left of a store after a step that missed its bounds: all of it, unless the step
    gave up its slot. -/
def afterMiss (store : Store t) : Step t → Store t
  | .restrict of _ _ => store.remove of
  | _ => store

/-- The slot that a step loses if it misses its bounds. -/
def Step.lost? : Step t → Option String
  | .restrict of _ _ => some of
  | _ => none

/-- A step that misses a bound loses at most one slot, which is the one that it was to restrict. -/
theorem get?_afterMiss (store : Store t) (step : Step t) (name : String) :
    (store.afterMiss step).get? name =
      if step.lost? = some name then none else store.get? name := by
  cases step with
  | restrict of first last =>
    rw [afterMiss, Step.lost?, Slots.get?_remove]
    simp only [Option.some.injEq, eq_comm]
  | _ => rfl

end Store

/-! ## Views and blocks -/

/-- Where two computations in a row have a result, both have one. -/
theorem exists_ok_of_bind_eq_ok {α β : Type} {r : Except BoundsError α}
    {k : α → Except BoundsError β} {y : β} (h : (r >>= k) = .ok y) :
    ∃ x, r = .ok x ∧ k x = .ok y := by
  cases r with
  | error e => exact nomatch h
  | ok x => exact ⟨x, rfl, h⟩

namespace View

variable {α : Type}

/-- A view misses an index exactly if its size is not above it. -/
theorem missedBy_get (v : View α) (index : Nat) :
    missedBy (v.get index) = missedIndex index v.size := by
  unfold get missedIndex
  split <;> rfl

/-- A path is measured against what its ranges leave, one after another. -/
theorem missedBy_follow {β : Type} {k : View α → Except BoundsError β}
    (next : Nat → Option BoundsError) (hk : ∀ w, missedBy (k w) = next w.size)
    (v : View α) (path : Path) : missedBy (v.follow path >>= k) = missedAlong next path v.size := by
  induction path generalizing v with
  | nil => exact hk v
  | cons range path ih =>
    -- The rest of the path is measured against the size of the slice, `last - first`.
    obtain ⟨first, last⟩ := range
    rw [follow_cons, missedAlong]
    by_cases h : first ≤ last ∧ last ≤ v.size
    · rw [if_pos h, v.slice_eq_ok h]
      exact ih _
    · rw [if_neg h, v.slice_eq_error h]
      rfl

/-- A view misses a path where a view of that size does, whatever its elements are. -/
theorem missedBy_path (v : View α) (path : Path) :
    missedBy (v.follow path) = missedPath path v.size := by
  have hok (w : View α) : missedBy (Except.ok w : Except BoundsError (View α)) = none := rfl
  rw [missedPath, ← missedBy_follow (fun _ => none) hok v path]
  cases v.follow path <;> rfl

variable [HasForm α] [Inspect α]

/-- What is missed by looking at a view depends on its size only. -/
theorem missedBy_look (v : View α) (how : Look) : missedBy (v.look how) = how.missed? v.size := by
  cases how with
  | summary => rfl
  | dump pretty => rfl
  | element index =>
    rw [Look.missed?, ← v.missedBy_get, look]
    cases v.get index <;> rfl

/-- What is seen by looking is not the answer to a missed bound. -/
theorem look_ne_outOfBounds {v : View α} {path : Path} {how : Look} {a : Answer}
    (h : (v.follow path >>= fun w => w.look how) = .ok a) (e : BoundsError) :
    a ≠ .outOfBounds e := by
  obtain ⟨w, -, hlook⟩ := exists_ok_of_bind_eq_ok h
  -- By what is looked at: each of the three answers is of a kind of its own.
  cases how with
  | summary =>
    obtain rfl := Except.ok.inj hlook
    exact nofun
  | dump pretty =>
    obtain rfl := Except.ok.inj hlook
    exact nofun
  | element index =>
    obtain ⟨x, -, hx⟩ := exists_ok_of_bind_eq_ok hlook
    obtain rfl := Except.ok.inj hx
    exact nofun

end View

namespace Block

variable {α : Type}

/-- Restricting a block misses the range exactly if a slice does. -/
theorem missedBy_restrict (b : Block α) (first last : Nat) :
    missedBy (b.restrict first last) = missedPath [(first, last)] b.size := by
  rw [missedPath, missedAlong, missedAlong]
  unfold restrict
  split <;> rfl

theorem missedBy_set (b : Block α) (index : Nat) (x : α) :
    missedBy (b.set index x) = missedIndex index b.size := by
  unfold set missedIndex
  split <;> rfl

/-- Writing an element does not change the size, so a second write misses by the same size. -/
theorem size_set {b c : Block α} {index : Nat} {x : α} (h : b.set index x = .ok c) :
    c.size = b.size := by
  obtain ⟨-, rfl⟩ := set_eq_ok_iff.1 h
  rfl

/-- Of two bad indices the first is the one answered; once both are good, nothing is missed. -/
theorem missedBy_swap (b : Block α) (index other : Nat) :
    missedBy (b.swap index other) = (missedIndex index b.size).or (missedIndex other b.size) := by
  have hget (i : Nat) : missedBy (b.get i) = missedIndex i b.size := b.toView.missedBy_get i
  rw [swap, ← hget, ← hget]
  cases hx : b.get index with
  | error e => rfl
  | ok x =>
    cases hy : b.get other with
    | error e => rfl
    | ok y =>
      -- Both indices are inside, so neither of the two writes misses.
      have hset := b.missedBy_set index y
      rw [← hget, hx] at hset
      show missedBy (b.set index y >>= fun c => c.set other x) = none
      cases hc : b.set index y with
      | error e =>
        rw [hc] at hset
        exact nomatch hset
      | ok c =>
        have hset' := c.missedBy_set other x
        rw [size_set hc, ← hget, hy] at hset'
        exact hset'

end Block

/-! ## Slots -/

namespace Slot

variable {t : ElementType}

/-- What is missed by looking at a slot is that of its elements, writable or frozen. -/
theorem missedBy_look (slot : Slot t) (path : Path) (how : Look) :
    missedBy (slot.look path how) = missedAlong how.missed? path slot.size := by
  cases slot with
  | block access b => exact View.missedBy_follow _ (fun w => w.missedBy_look how) b.toView path
  | frozen f => exact View.missedBy_follow _ (fun w => w.missedBy_look how) f.toView path

/-- What is seen by looking at a slot is not the answer to a missed bound. -/
theorem look_ne_outOfBounds {slot : Slot t} {path : Path} {how : Look} {a : Answer}
    (h : slot.look path how = .ok a) (e : BoundsError) : a ≠ .outOfBounds e := by
  cases slot with
  | block access b => exact View.look_ne_outOfBounds (v := b.toView) h e
  | frozen f => exact View.look_ne_outOfBounds (v := f.toView) h e

/-- Copying a slice misses only the path to it. -/
theorem missedBy_copySlice (slot : Slot t) (path : Path) :
    missedBy (slot.copySlice path) = missedPath path slot.size := by
  cases slot with
  | block access b => exact View.missedBy_follow _ (fun _ => rfl) b.toView path
  | frozen f => exact View.missedBy_follow _ (fun _ => rfl) f.toView path

/-- Freezing a slice misses only the path to it. -/
theorem missedBy_freezeSlice (slot : Slot t) (path : Path) :
    missedBy (slot.freezeSlice path) = missedPath path slot.size := by
  cases slot with
  | block access b => exact View.missedBy_follow _ (fun _ => rfl) b.toView path
  | frozen f => exact View.missedBy_follow _ (fun _ => rfl) f.toView path

/-- Reading an element of a slot misses an index by the size of the slot. -/
theorem missedBy_get (slot : Slot t) (index : Nat) :
    missedBy (Answer.element <$> slot.get index) = missedIndex index slot.size := by
  cases slot with
  | block access b =>
    -- The answer is made of the element behind the check, which is what decides.
    refine Eq.trans ?_ (b.toView.missedBy_get index)
    show missedBy (_ <$> _ <$> b.toView.get index) = _
    cases b.toView.get index <;> rfl
  | frozen f =>
    refine Eq.trans ?_ (f.toView.missedBy_get index)
    show missedBy (_ <$> _ <$> f.toView.get index) = _
    cases f.toView.get index <;> rfl

end Slot

/-! ## Steps -/

namespace Store

variable {t : ElementType} {store after : Store t}

/-- A result is that of missing some bounds, or of missing none. -/
def MissesExactly (after : Store t) (result : Store t × Answer) : Option BoundsError → Prop
  | some e => result = (after, .outOfBounds e)
  | none => ∀ e, result.2 ≠ .outOfBounds e

theorem missesExactly_make {name : String} {slot : Slot t} :
    MissesExactly after (store.make name slot) none := by
  intro e he
  exact nomatch he

/-- A step on a slot misses what it misses on the slot that is there; without one it gives up for
    another reason. -/
theorem missesExactly_withSlot {name : String} {act : Slot t → Store t × Answer}
    {missed : Slot t → Option BoundsError}
    (h : ∀ slot, MissesExactly after (act slot) (missed slot)) :
    MissesExactly after (store.withSlot name act) ((store.get? name).bind missed) := by
  rw [withSlot]
  cases store.get? name with
  | some slot => exact h slot
  -- Without a slot the answer is another one, which misses nothing.
  | none =>
    intro e he
    exact nomatch he

/-- A step that misses nothing on any slot misses nothing. -/
theorem missesExactly_withSlot_none {name : String} {act : Slot t → Store t × Answer}
    (h : ∀ slot, MissesExactly after (act slot) none) :
    MissesExactly after (store.withSlot name act) none := by
  have hslot : MissesExactly after (store.withSlot name act)
      ((store.get? name).bind fun _ => none) := missesExactly_withSlot h
  rwa [Option.bind_fun_none] at hslot

/-- An answer that leaves the store as it is misses what is missed in finding it. -/
theorem missesExactly_ofExcept {answer : Except BoundsError Answer}
    (h : ∀ a, answer = .ok a → ∀ e, a ≠ .outOfBounds e) :
    MissesExactly store (store, .ofExcept answer) (missedBy answer) := by
  cases answer with
  | error e => rfl
  | ok a => exact h a rfl

/-- A change of a block misses what it misses at the size of the block; a frozen slot is refused for
    another reason. -/
theorem missesExactly_change {name : String}
    {act : (access : Access) → Block (t.Value access) → Except BoundsError (Block (t.Value access))}
    {missed : Nat → Option BoundsError}
    (h : ∀ access (b : Block (t.Value access)), missedBy (act access b) = missed b.size) :
    MissesExactly after (store.change name after act)
      ((store.get? name).bind fun slot => slot.writableSize?.bind missed) := by
  rw [change]
  apply missesExactly_withSlot
  intro slot
  -- Only a block is changed; a frozen slot has no writable size.
  cases slot with
  | frozen f =>
    intro e he
    exact nomatch he
  | block access b =>
    show MissesExactly after _ (missed b.size)
    rw [← h access b]
    dsimp only
    cases act access b with
    | error e => rfl
    | ok c => exact missesExactly_make

/-- Filling a slot from a view misses what is missed on the way to that view. -/
theorem missesExactly_makeOfView {name : String} (made : Except BoundsError (Summary × Slot t)) :
    MissesExactly store (store.makeOfView name made) (missedBy made) := by
  cases made with
  | error e => rfl
  | ok m =>
    intro e he
    exact nomatch he

/-- Which step misses what, and what is left of the store then. -/
theorem perform_missesExactly (store : Store t) (step : Step t) :
    MissesExactly (store.afterMiss step) (store.perform step) (store.missed? step) := by
  -- A step misses what the operation on its slot misses; without the slot it misses nothing.
  cases step with
  | create | createEmpty | createFrozenEmpty | ofValues => exact missesExactly_make
  -- Storage that is not in the store is measured by the list that it is made of.
  | lookForeign values path how =>
    have hsize : (View.ofList values).size = values.length := List.size_toArray
    have hmissed := View.missedBy_follow _ (fun w => w.missedBy_look how) (View.ofList values) path
    rw [missed?, ← hsize, ← hmissed]
    exact missesExactly_ofExcept fun a h => View.look_ne_outOfBounds h
  | copyForeign values path target =>
    have hsize : (View.ofList values).size = values.length := List.size_toArray
    rw [missed?, ← hsize, ← View.missedBy_path, perform]
    cases (View.ofList values).follow path with
    | error e => rfl
    | ok v => exact missesExactly_make
  | look of path how =>
    rw [perform, missed?]
    apply missesExactly_withSlot
    intro slot
    rw [← slot.missedBy_look]
    exact missesExactly_ofExcept fun a h => Slot.look_ne_outOfBounds h
  | copySlice of path target =>
    rw [perform, missed?]
    apply missesExactly_withSlot
    intro slot
    rw [← slot.missedBy_copySlice]
    exact missesExactly_makeOfView _
  | freezeSlice of path target =>
    rw [perform, missed?]
    apply missesExactly_withSlot
    intro slot
    rw [← slot.missedBy_freezeSlice]
    exact missesExactly_makeOfView _
  | restrict of first last =>
    exact missesExactly_change fun access b => b.missedBy_restrict first last
  | get of index =>
    rw [perform, missed?]
    apply missesExactly_withSlot
    intro slot
    rw [← slot.missedBy_get]
    cases slot.get index with
    | error e => rfl
    | ok x => exact nofun
  | set of index value => exact missesExactly_change fun access b => b.missedBy_set index _
  | swap of index other => exact missesExactly_change fun access b => b.missedBy_swap index other
  -- What follows checks no bounds, so it cannot miss any.
  | fill of value =>
    refine missesExactly_withSlot_none fun slot => ?_
    cases slot with
    | block access b => exact missesExactly_make
    | frozen f => exact nofun
  | thaw of target =>
    refine missesExactly_withSlot_none fun slot => ?_
    cases slot with
    | block access b => exact nofun
    | frozen f => exact missesExactly_make
  | equality of other =>
    refine missesExactly_withSlot_none fun a => missesExactly_withSlot_none fun b => ?_
    cases a.equality? b <;> exact nofun
  | copy of target => exact missesExactly_withSlot_none fun slot => missesExactly_make
  | freeze of target => exact missesExactly_withSlot_none fun slot => missesExactly_make
  | release of => exact missesExactly_withSlot_none fun slot => nofun
  | summary of => exact missesExactly_withSlot_none fun slot => nofun
  | dump of pretty => exact missesExactly_withSlot_none fun slot => nofun

/-- A step answers with a missed bound exactly where one is foreseen. -/
theorem outOfBounds_iff_missed? (store : Store t) (step : Step t) (e : BoundsError) :
    (store.perform step).2 = .outOfBounds e ↔ store.missed? step = some e := by
  have hmisses := store.perform_missesExactly step
  -- A step that misses nothing has some other answer, and one that misses has this answer.
  cases hmissed : store.missed? step with
  | none =>
    rw [hmissed] at hmisses
    exact ⟨fun h => absurd h (hmisses e), nofun⟩
  | some e' =>
    rw [hmissed] at hmisses
    rw [show store.perform step = _ from hmisses, Answer.outOfBounds.injEq, Option.some.injEq]

/-- A step that misses its bounds leaves every slot as it is, unless it loses its own. -/
theorem get?_perform_of_outOfBounds {store : Store t} {step : Step t} {e : BoundsError}
    (h : (store.perform step).2 = .outOfBounds e) (name : String) :
    (store.perform step).1.get? name =
      if step.lost? = some name then none else store.get? name := by
  have hmisses := store.perform_missesExactly step
  rw [(outOfBounds_iff_missed? store step e).1 h] at hmisses
  rw [show store.perform step = _ from hmisses, get?_afterMiss]

/-! ### What steps leave under other names -/

/-- The name whose slot a step may change. -/
def Step.target? : Step t → Option String
  | .create target _ | .createEmpty target | .createFrozenEmpty target | .ofValues target _
  | .copyForeign _ _ target | .copySlice _ _ target | .freezeSlice _ _ target | .copy _ target
  | .freeze _ target | .thaw _ target => some target
  | .restrict of _ _ | .release of | .set of _ _ | .fill of _ | .swap of _ _ => some of
  | .lookForeign .. | .look .. | .get .. | .equality .. | .summary .. | .dump .. => none

/-- A slot that is made is found under its name, and every other name has what it had. -/
theorem get?_make (store : Store t) (name other : String) (slot : Slot t) :
    (store.make name slot).1.get? other = if other = name then some slot else store.get? other :=
  store.get?_put name other slot

/-- A slot is made of a view only if there is a view; the names are then as for any slot that is
    made. -/
theorem get?_makeOfView (store : Store t) (target other : String)
    (made : Except BoundsError (Summary × Slot t)) :
    (store.makeOfView target made).1.get? other =
      match made with
      | .ok m => if other = target then some m.2 else store.get? other
      | .error _ => store.get? other := by
  cases made with
  | error e => rfl
  | ok m => exact store.get?_put target other m.2

section Other

variable {name other : String}

/-- Filling a slot leaves those of other names alone. -/
theorem get?_make_of_ne (h : some name ≠ some other) (slot : Slot t) :
    (store.make name slot).1.get? other = store.get? other := by
  rw [get?_make, if_neg fun heq => h (congrArg some heq.symm)]

/-- So does filling it from a view, whether the view is found or not. -/
theorem get?_makeOfView_of_ne (h : some name ≠ some other)
    (made : Except BoundsError (Summary × Slot t)) :
    (store.makeOfView name made).1.get? other = store.get? other := by
  rw [get?_makeOfView]
  cases made with
  | error e => rfl
  | ok m => exact if_neg fun heq => h (congrArg some heq.symm)

theorem get?_remove_of_ne (h : some name ≠ some other) :
    (store.remove name).get? other = store.get? other := by
  rw [Slots.get?_remove, if_neg fun heq => h (congrArg some heq.symm)]

/-- Whether there is a slot or not, what is done with it has to leave the other name alone. -/
theorem get?_withSlot {act : Slot t → Store t × Answer}
    (h : ∀ slot, (act slot).1.get? other = store.get? other) :
    (store.withSlot name act).1.get? other = store.get? other := by
  rw [withSlot]
  cases store.get? name with
  | some slot => exact h slot
  | none => rfl

/-- A change of a block leaves the slots of other names alone, if those are left alone where the
    change misses a bound. -/
theorem get?_change_of_ne (h : some name ≠ some other) {missed : Store t}
    (hmissed : missed.get? other = store.get? other)
    (act : (access : Access) → Block (t.Value access) → Except BoundsError (Block (t.Value access))) :
    (store.change name missed act).1.get? other = store.get? other := by
  apply get?_withSlot
  intro slot
  cases slot with
  | frozen f => rfl
  | block access b =>
    dsimp only
    -- Either the store is the one for a miss or a slot is put under the same name.
    cases act access b with
    | error e => exact hmissed
    | ok c => exact get?_make_of_ne h _

/-- A step leaves every slot alone but the one that it makes, changes or gives up. -/
theorem get?_perform_of_ne {step : Step t} (h : step.target? ≠ some other) :
    (store.perform step).1.get? other = store.get? other := by
  -- By the step: those that make, change or give up a slot, and those that leave all as they are.
  cases step with
  | create | createEmpty | createFrozenEmpty | ofValues => exact get?_make_of_ne h _
  | copyForeign values path target =>
    rw [perform]
    cases (View.ofList values).follow path with
    | error e => rfl
    | ok v => exact get?_make_of_ne h _
  | copySlice | freezeSlice => exact get?_withSlot fun slot => get?_makeOfView_of_ne h _
  | copy | freeze => exact get?_withSlot fun slot => get?_make_of_ne h _
  | thaw of target =>
    apply get?_withSlot
    intro slot
    cases slot with
    | block access b => rfl
    | frozen f => exact get?_make_of_ne h _
  | restrict of first last => exact get?_change_of_ne h (get?_remove_of_ne h) _
  | release of => exact get?_withSlot fun slot => get?_remove_of_ne h
  | set | fill | swap => exact get?_change_of_ne h rfl _
  | look | get | summary | dump => exact get?_withSlot fun slot => rfl
  | lookForeign => rfl
  | equality of other' =>
    refine get?_withSlot fun a => get?_withSlot fun b => ?_
    cases a.equality? b <;> rfl

/-- A slot that no step of a run makes, changes or gives up is there afterwards as it was. -/
theorem get?_run_of_forall_ne {steps : List (Step t)}
    (h : ∀ step ∈ steps, step.target? ≠ some other) :
    (store.run steps).1.get? other = store.get? other := by
  induction steps generalizing store with
  | nil => rfl
  | cons step steps ih =>
    rw [List.forall_mem_cons] at h
    exact (ih h.2).trans (get?_perform_of_ne h.1)

end Other

end Store

end ValueText
