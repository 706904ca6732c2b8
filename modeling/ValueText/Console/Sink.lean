import ValueText.Bytes

/-!
# Sinks

A sink keeps the bytes that are written to it, up to a limit.  One transfer takes what fits, and
a piece is written by transfers until all of it is taken or one of them takes nothing, which is
a failure.  Writing nothing never fails.  Flushing succeeds or fails as the sink has it, and
successful flushes are counted.

An action on a sink keeps the sink also when it fails, so that later actions go on from there.
-/

namespace ValueText

/-- A failure of input or output. -/
inductive IoError where
  | noRoom
  | flushFailed
  | sourceFailed
  deriving DecidableEq, Repr

def IoError.message : IoError → String
  | .noRoom => "failed to write whole buffer"
  | .flushFailed => "flush failed"
  | .sourceFailed => "source failed"

/-- A sink of bytes. -/
structure Sink where
  /-- The greatest number of bytes that the sink keeps, if there is one. -/
  limit : Option Nat := none
  failsFlush : Bool := false
  /-- The bytes kept so far. -/
  kept : Array Char8 := #[]
  /-- The number of successful flushes so far. -/
  flushes : Nat := 0
  deriving DecidableEq, Repr

namespace Sink

/-- An action that may fail and goes on from the sink as it then is. -/
abbrev Action := EStateM IoError Sink

def bytes (sink : Sink) : Bytes := sink.kept.toList

/-- How many of so many more bytes fit into the sink. -/
def room (sink : Sink) (count : Nat) : Nat :=
  match sink.limit with
  | none => count
  | some limit => min count (limit - sink.kept.size)

/-- The sink after one transfer: it takes what fits. -/
def transfer (sink : Sink) (piece : Bytes) : Sink :=
  { sink with kept := sink.kept ++ piece.take (sink.room piece.length) }

/-- Writes a piece, transfer by transfer.  It fails if not all of the piece fits. -/
def write (piece : Bytes) : Action Unit := fun sink =>
  if piece.isEmpty then .ok () sink
  else
    let taken := sink.room piece.length
    if taken = 0 then .error .noRoom (sink.transfer piece)
    else write (piece.drop taken) (sink.transfer piece)
termination_by piece.length
decreasing_by
  simp only [List.isEmpty_iff] at *
  have := List.length_pos_iff.2 ‹¬piece = []›
  rw [List.length_drop]
  omega

/-- Writes pieces in order up to the first that does not fit. -/
def writeAll : List Bytes → Action Unit
  | [] => pure ()
  | piece :: pieces => do
    write piece
    writeAll pieces

def flush : Action Unit := fun sink =>
  if sink.failsFlush then .error .flushFailed sink
  else .ok () { sink with flushes := sink.flushes + 1 }

end Sink

end ValueText
