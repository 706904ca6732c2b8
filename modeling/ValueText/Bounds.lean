/-!
# Bounds errors

The two ways in which a request can miss the view that it is made of.  Both carry the length
of the *view*: storage that a view hides is never named.
-/

namespace ValueText

/-- A request outside the view. -/
inductive BoundsError where
  /-- The range `[first, last)` is reversed or ends beyond the view. -/
  | range (first last length : Nat)
  /-- The index is not below the length of the view. -/
  | index (index length : Nat)
  deriving DecidableEq, Repr

def BoundsError.message : BoundsError → String
  | .range first last length =>
    s!"slice bounds [{first}, {last}) out of range for view of length {length}"
  | .index i length => s!"index out of bounds: the len is {length} but the index is {i}"

end ValueText
