import ValueText.Bytes

/-!
# UTF-8

A byte sequence is cut into characters and malformed runs.  A malformed run is as long as
possible while it still is the beginning of some character, so that a truncated character
counts once and not once per byte.

* `decode`    every character of a byte sequence, with `none` for each malformed run
* `decode?`   the string, if no run is malformed
* `decodeReplacing`     the string, with the replacement character for each malformed run
-/

namespace ValueText.Utf8

/-- What a leading byte announces: the bits of the code point that it carries, and the
    allowed range of each byte that has to follow it.  The narrower ranges after `E0`, `ED`,
    `F0` and `F4` rule out overlong forms, surrogates and code points past `10FFFF`. -/
def lead (b : UInt8) : Option (Nat × List (UInt8 × UInt8)) :=
  let tail := (0x80, 0xBF)
  if b < 0x80 then some (b.toNat, [])
  else if 0xC2 ≤ b ∧ b ≤ 0xDF then some (b.toNat - 0xC0, [tail])
  else if b = 0xE0 then some (0, [(0xA0, 0xBF), tail])
  else if b = 0xED then some (0xD, [(0x80, 0x9F), tail])
  else if 0xE1 ≤ b ∧ b ≤ 0xEF then some (b.toNat - 0xE0, [tail, tail])
  else if b = 0xF0 then some (0, [(0x90, 0xBF), tail, tail])
  else if 0xF1 ≤ b ∧ b ≤ 0xF3 then some (b.toNat - 0xF0, [tail, tail, tail])
  else if b = 0xF4 then some (4, [(0x80, 0x8F), tail, tail])
  else none

/-- Reads one byte for each range and adds its six low bits to the code point.  The first
    byte outside its range ends the character early and stays unread. -/
def follow : List (UInt8 × UInt8) → Nat → Bytes → Option Char × Bytes
  | [], code, rest => (some (Char.ofNat code), rest)
  | _ :: _, _, [] => (none, [])
  | (low, high) :: ranges, code, b :: rest =>
    if low ≤ b ∧ b ≤ high then follow ranges (code * 64 + (b.toNat - 0x80)) rest
    else (none, b :: rest)

/-- Following bytes are only taken from the bytes that are left. -/
theorem length_follow_le (ranges : List (UInt8 × UInt8)) (code : Nat) (bytes : Bytes) :
    (follow ranges code bytes).2.length ≤ bytes.length := by
  -- Each range takes one byte or stops.
  induction ranges generalizing code bytes with
  | nil => simp [follow]
  | cons range ranges ih =>
    cases bytes with
    | nil => simp [follow]
    | cons b rest =>
      simp only [follow]
      split
      · exact Nat.le_trans (ih _ _) (by simp)
      · simp

/-- The characters of a byte sequence in order, with `none` for each malformed run. -/
def decode : Bytes → List (Option Char)
  | [] => []
  | b :: rest =>
    match lead b with
    | none => none :: decode rest
    | some (code, ranges) =>
      (follow ranges code rest).1 :: decode (follow ranges code rest).2
termination_by bytes => bytes.length
decreasing_by
  · simp
  · have := length_follow_le ranges code rest
    simp only [List.length_cons]
    omega

/-- The string that the bytes encode, or nothing if some run is malformed. -/
def decode? (bytes : Bytes) : Option String :=
  (decode bytes).mapM id |>.map String.ofList

/-- The string that the bytes encode, with `U+FFFD` in place of each malformed run. -/
def decodeReplacing (bytes : Bytes) : String :=
  String.ofList ((decode bytes).map (·.getD '\uFFFD'))

end ValueText.Utf8
