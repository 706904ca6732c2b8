import ValueText.Console.Sink

/-!
# Reading lines

A source hands out its bytes in chunks and may fail once on the way.  A line reader buffers
one chunk and collects bytes up to the end of a line, refilling its buffer only when it is
empty.  A line is handed out without the line feed that ends it and without one carriage
return directly before that line feed; behind the last line there are empty lines without end.

When the source fails in the middle of a line, what was already collected of the line is lost.
-/

namespace ValueText

/-- Where bytes come from. -/
structure Source where
  /-- The bytes that were not handed out yet. -/
  pending : Bytes
  /-- The source fails once when so many more bytes were handed out. -/
  failsAfter : Option Nat := none
  /-- The greatest number of bytes handed out at once. -/
  chunk : Nat := 8192
  chunk_pos : 0 < chunk := by decide

namespace Source

/-- Hands out the next bytes: none only at the end.  At the point of failure it fails, and
    goes on from there when it is asked again. -/
def read (s : Source) : Except IoError Bytes × Source :=
  match s.failsAfter with
  | some 0 => (.error .sourceFailed, { s with failsAfter := none })
  | some (k + 1) =>
    let bytes := s.pending.take (min s.chunk (k + 1))
    (.ok bytes, { s with
      pending := s.pending.drop (min s.chunk (k + 1))
      failsAfter := some (k + 1 - bytes.length) })
  | none => (.ok (s.pending.take s.chunk), { s with pending := s.pending.drop s.chunk })

/-- Handing out bytes loses none of them. -/
theorem length_pending_read {s t : Source} {bytes : Bytes} (h : s.read = (.ok bytes, t)) :
    bytes.length + t.pending.length = s.pending.length := by
  unfold read at h
  split at h
  · exact nomatch h
  -- Up to the failure or up to the end, as many bytes as fit the chunk go over.
  all_goals
    obtain ⟨hb, rfl⟩ := Prod.mk.inj h
    obtain rfl := Except.ok.inj hb
    simp only [List.length_take, List.length_drop]
    omega

/-- A read that fails takes nothing from what is still to come. -/
theorem pending_read_of_error {s t : Source} {e : IoError} (h : s.read = (.error e, t)) :
    t.pending = s.pending := by
  unfold read at h
  split at h
  · obtain ⟨_, rfl⟩ := Prod.mk.inj h
    rfl
  all_goals exact nomatch h

end Source

/-- A source with a buffer. -/
structure LineReader where
  source : Source
  /-- The bytes that were handed out by the source but not read yet. -/
  buffer : Bytes := []

namespace LineReader

def ofBytes (bytes : Bytes) : LineReader := { source := { pending := bytes } }

/-- The bytes that were not read yet. -/
def unread (r : LineReader) : Bytes := r.buffer ++ r.source.pending

/-- Asks the source for bytes if the buffer is empty. -/
def fill (r : LineReader) : Option IoError × LineReader :=
  if r.buffer.isEmpty then
    match r.source.read with
    | (.ok bytes, source) => (none, ⟨source, bytes⟩)
    | (.error e, source) => (some e, ⟨source, []⟩)
  else (none, r)

/-- Filling the buffer neither loses nor adds bytes. -/
theorem length_unread_fill (r : LineReader) : r.fill.2.unread.length = r.unread.length := by
  unfold fill
  split
  next h =>
    have hb : r.buffer = [] := by simpa using h
    -- A failed read takes no bytes, so none are lost with it.
    split
    next hr => simp [unread, hb, Source.length_pending_read hr]
    next hr => simp [unread, hb, Source.pending_read_of_error hr]
  next => rfl

/-- The bytes up to and including the next line feed, or up to the end if there is none. -/
def readRaw (r : LineReader) : Except IoError Bytes × LineReader :=
  match _h : r.fill with
  | (some e, filled) => (.error e, filled)
  | (none, filled) =>
    if _hb : filled.buffer = [] then (.ok [], filled)
    else
      let body := filled.buffer.takeWhile (· != Char8.lineFeed)
      match filled.buffer.dropWhile (· != Char8.lineFeed) with
      | feed :: rest => (.ok (body ++ [feed]), { filled with buffer := rest })
      | [] =>
        let (result, last) := readRaw { filled with buffer := [] }
        (result.map (body ++ ·), last)
termination_by r.unread.length
decreasing_by
  have hlen := r.length_unread_fill
  rw [_h] at hlen
  have hpos : 0 < filled.buffer.length := List.length_pos_iff.2 _hb
  simp only [unread, List.length_append, List.nil_append] at hlen ⊢
  omega

/-- A line without the line feed at its end and one carriage return directly before it.
    Without a line feed at its end it is kept as it is. -/
def chomp (line : Bytes) : Bytes :=
  if line.getLast? = some Char8.lineFeed then
    let body := line.dropLast
    if body.getLast? = some Char8.carriageReturn then body.dropLast else body
  else line

def readLine (r : LineReader) : Except IoError Bytes × LineReader :=
  let (result, r') := r.readRaw
  (result.map chomp, r')

/-- The results of reading so many lines in a row. -/
def readLines (r : LineReader) : Nat → List (Except IoError Bytes)
  | 0 => []
  | count + 1 =>
    let (result, r') := r.readLine
    result :: r'.readLines count

end LineReader

end ValueText
