/-!
# Named slots

Slots are kept in the order of their names, and what holds a name is looked up by it.

* `get?_remove`   removing a slot leaves all others
* `get?_put`      putting a slot leaves all others
* `map_put`, `map_remove`, `get?_map`   what is done to names is not changed by what they name
-/

namespace ValueText

/-- Slots by name, in the order of their names. -/
structure Slots (σ : Type) where
  slots : List (String × σ) := []

namespace Slots

variable {σ τ : Type}

def get? (store : Slots σ) (name : String) : Option σ :=
  (store.slots.find? (·.1 == name)).map (·.2)

/-- Puts a slot under a name, in place of any that is there. -/
def insert (name : String) (slot : σ) : List (String × σ) → List (String × σ)
  | [] => [(name, slot)]
  | (other, held) :: rest =>
    if name = other then (name, slot) :: rest
    else if name < other then (name, slot) :: (other, held) :: rest
    else (other, held) :: insert name slot rest

def put (store : Slots σ) (name : String) (slot : σ) : Slots σ :=
  ⟨insert name slot store.slots⟩

def remove (store : Slots σ) (name : String) : Slots σ :=
  ⟨store.slots.filter (·.1 != name)⟩

def names (store : Slots σ) : List String := store.slots.map (·.1)

/-- The same names for what a function makes of each slot. -/
def map (f : σ → τ) (store : Slots σ) : Slots τ :=
  ⟨store.slots.map fun entry => (entry.1, f entry.2)⟩

/-- Removing a slot leaves all others as they are. -/
theorem get?_remove (store : Slots σ) (name other : String) :
    (store.remove name).get? other = if other = name then none else store.get? other := by
  unfold get? remove
  simp only [List.find?_filter]
  split
  next h =>
    -- The slot that is looked for is the one that was filtered out.
    subst h
    rw [Option.map_eq_none_iff, List.find?_eq_none]
    simp
  next h =>
    -- For another name, the filter does not matter to what is found.
    congr 2
    funext entry
    by_cases he : entry.1 = other
    · simp [he, h]
    · simp [he]

/-- Putting a slot under a name leaves all others as they are. -/
theorem get?_put (store : Slots σ) (name other : String) (slot : σ) :
    (store.put name slot).get? other = if other = name then some slot else store.get? other := by
  unfold get? put
  simp only
  -- The slot is put where its name belongs in the order, and what is looked up goes by name alone.
  induction store.slots with
  | nil =>
    by_cases h : other = name
    · simp [insert, h]
    · simp [insert, h, Ne.symm h]
  | cons entry rest ih =>
    obtain ⟨held, s⟩ := entry
    unfold insert
    split
    next hname =>
      subst hname
      by_cases h : other = name
      · simp [h]
      · simp [h, Ne.symm h]
    -- The name belongs before this entry or behind it.
    next hname =>
      split
      next =>
        by_cases h : other = name
        · simp [h]
        · simp [h, Ne.symm h]
      next =>
        by_cases hheld : held = other
        · have h : other ≠ name := fun h => hname (hheld.trans h).symm
          simp [hheld, h]
        · simpa [List.find?_cons, hheld] using ih

/-- What is found under a name is what was made of the slot there. -/
@[simp] theorem get?_map (f : σ → τ) (store : Slots σ) (name : String) :
    (store.map f).get? name = (store.get? name).map f := by
  unfold get? map
  simp only [List.find?_map, Option.map_map]
  rfl

/-- Where a slot goes depends on its name alone, so it can be changed before or after. -/
theorem insert_map (f : σ → τ) (name : String) (slot : σ) (slots : List (String × σ)) :
    insert name (f slot) (slots.map fun entry => (entry.1, f entry.2)) =
      (insert name slot slots).map fun entry => (entry.1, f entry.2) := by
  -- Only names are compared, and these stay what they are.
  induction slots with
  | nil => rfl
  | cons entry rest ih =>
    rw [List.map_cons, insert, insert]
    split
    next => rfl
    next =>
      split
      next => rfl
      next => rw [ih, List.map_cons]

/-- Putting a slot goes along with changing all slots. -/
@[simp] theorem map_put (f : σ → τ) (store : Slots σ) (name : String) (slot : σ) :
    (store.put name slot).map f = (store.map f).put name (f slot) := by
  rw [put, put, map, map, insert_map]

/-- Removing a slot goes along with changing all slots. -/
@[simp] theorem map_remove (f : σ → τ) (store : Slots σ) (name : String) :
    (store.remove name).map f = (store.map f).remove name := by
  unfold map remove
  rw [List.filter_map]
  rfl

/-- The names are kept. -/
@[simp] theorem names_map (f : σ → τ) (store : Slots σ) : (store.map f).names = store.names := by
  unfold map names
  rw [List.map_map]
  rfl

end Slots

end ValueText
