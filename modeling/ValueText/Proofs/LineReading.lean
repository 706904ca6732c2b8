import ValueText.Console.LineReader
import ValueText.Proofs.LongestRun

/-!
# Lines do not depend on how bytes are handed out

A reader is determined by its *feed*, the bytes that it has not read yet and the failure that may
stand between two of them; how much of the feed is buffered already, and how large the chunks are,
makes no difference.  A line is what comes up to the next line feed.  A failure that comes before
it takes what was collected so far along, and the next line begins behind the failure.

## Key results

- `LineReader.takeLine_feed`: a reader takes a line from its feed and leaves the rest of it
- `LineReader.readLines_feed`: two readers with the same feed read the same lines
- `LineReader.readLines_exact`: the lines that are read, with and without a failure
-/

namespace ValueText

/-! ## The lines of a text -/

namespace Lines

/-- A line without one carriage return at its end. -/
def dropReturn (line : Bytes) : Bytes :=
  if line.getLast? = some Char8.carriageReturn then line.dropLast else line

/-- What stands before each line feed and behind the one before it. -/
def pieces (text : Bytes) : List Bytes := (text.splitOn Char8.lineFeed).dropLast

/-- What stands behind the last line feed. -/
def tail (text : Bytes) : Bytes := (text.splitOn Char8.lineFeed).getLastD []

/-- The lines that end in a line feed, without it and one carriage return directly before it. -/
def terminated (text : Bytes) : List Bytes := (pieces text).map dropReturn

/-- The lines of a text.  What stands behind the last line feed is one of them unless it is
    empty, and is kept as it is. -/
def ofText (text : Bytes) : List Bytes :=
  terminated text ++ if tail text = [] then [] else [tail text]

/-- A line of a text, counted from zero.  Behind the last one there are empty lines. -/
def line (text : Bytes) (i : Nat) : Bytes := (ofText text).getD i []

/-- What comes of reading a line, counted from zero, if the source fails between what is given
    before and what is given later: the lines that end before the failure, the failure, and the
    lines of what is given later. -/
def resultAround (given later : Bytes) (i : Nat) : Except IoError Bytes :=
  if h : i < (terminated given).length then .ok (terminated given)[i]
  else if i = (terminated given).length then .error .sourceFailed
  else .ok (line later (i - (terminated given).length - 1))

variable {body rest text : Bytes}

/-- A text without a line feed ends no line. -/
theorem pieces_of_not_mem (h : Char8.lineFeed ∉ text) : pieces text = [] := by
  rw [pieces, List.splitOn_eq_singleton h]
  rfl

/-- The first line feed ends the first line, and the others are those of the rest. -/
theorem pieces_append (h : Char8.lineFeed ∉ body) (rest : Bytes) :
    pieces (body ++ Char8.lineFeed :: rest) = body :: pieces rest := by
  rw [pieces, List.splitOn_append_cons_self_of_not_mem h,
    List.dropLast_cons_of_ne_nil (List.splitOn_ne_nil _ _), pieces]

/-- All of a text without a line feed stands behind the last line. -/
theorem tail_of_not_mem (h : Char8.lineFeed ∉ text) : tail text = text := by
  rw [tail, List.splitOn_eq_singleton h]
  rfl

/-- What stands behind the last line is found in the rest. -/
theorem tail_append (h : Char8.lineFeed ∉ body) (rest : Bytes) :
    tail (body ++ Char8.lineFeed :: rest) = tail rest := by
  rw [tail, List.splitOn_append_cons_self_of_not_mem h, tail]
  cases hsplit : rest.splitOn Char8.lineFeed with
  | nil => exact absurd hsplit (List.splitOn_ne_nil _ _)
  | cons piece pieces => rfl

theorem terminated_of_not_mem (h : Char8.lineFeed ∉ text) : terminated text = [] := by
  rw [terminated, pieces_of_not_mem h, List.map_nil]

theorem terminated_append (h : Char8.lineFeed ∉ body) (rest : Bytes) :
    terminated (body ++ Char8.lineFeed :: rest) = dropReturn body :: terminated rest := by
  rw [terminated, pieces_append h, List.map_cons, terminated]

theorem line_nil (i : Nat) : line [] i = [] := by
  have hempty : ofText [] = [] := rfl
  rw [line, hempty]
  rfl

/-- A text without a line feed is a line of its own, and the only one. -/
theorem ofText_of_not_mem (h : Char8.lineFeed ∉ text) :
    ofText text = if text = [] then [] else [text] := by
  rw [ofText, terminated_of_not_mem h, tail_of_not_mem h, List.nil_append]

/-- A text without a line feed is its first line, with a carriage return if it has one. -/
theorem line_zero_of_not_mem (h : Char8.lineFeed ∉ text) : line text 0 = text := by
  rw [line, ofText_of_not_mem h]
  split
  next hempty => rw [hempty]; rfl
  next => rfl

/-- The lines behind the first are empty if there is no line feed. -/
theorem line_succ_of_not_mem (h : Char8.lineFeed ∉ text) (i : Nat) : line text (i + 1) = [] := by
  rw [line, ofText_of_not_mem h]
  split <;> rfl

/-- The lines are the first, which ends at the first line feed, and those of the rest. -/
theorem ofText_append (h : Char8.lineFeed ∉ body) (rest : Bytes) :
    ofText (body ++ Char8.lineFeed :: rest) = dropReturn body :: ofText rest := by
  rw [ofText, terminated_append h, tail_append h, List.cons_append, ofText]

/-- The first line ends at the first line feed and loses its carriage return. -/
theorem line_zero_append (h : Char8.lineFeed ∉ body) (rest : Bytes) :
    line (body ++ Char8.lineFeed :: rest) 0 = dropReturn body := by
  rw [line, ofText_append h]
  rfl

theorem line_succ_append (h : Char8.lineFeed ∉ body) (rest : Bytes) (i : Nat) :
    line (body ++ Char8.lineFeed :: rest) (i + 1) = line rest i := by
  rw [line, ofText_append h]
  rfl

/-- A line that ends before the failure is read. -/
theorem resultAround_zero_append (h : Char8.lineFeed ∉ body) (rest later : Bytes) :
    resultAround (body ++ Char8.lineFeed :: rest) later 0 = .ok (dropReturn body) := by
  simp [resultAround, terminated_append h]

theorem resultAround_succ_append (h : Char8.lineFeed ∉ body) (rest later : Bytes) (i : Nat) :
    resultAround (body ++ Char8.lineFeed :: rest) later (i + 1) = resultAround rest later i := by
  simp [resultAround, terminated_append h]

/-- If no line ends before the failure then the failure comes first. -/
theorem resultAround_zero_of_not_mem (h : Char8.lineFeed ∉ text) (later : Bytes) :
    resultAround text later 0 = .error .sourceFailed := by
  simp [resultAround, terminated_of_not_mem h]

/-- Behind the failure come the lines of the later text. -/
theorem resultAround_succ_of_not_mem (h : Char8.lineFeed ∉ text) (later : Bytes) (i : Nat) :
    resultAround text later (i + 1) = .ok (line later i) := by
  simp [resultAround, terminated_of_not_mem h]

end Lines

/-! ## Feeds -/

/-- The bytes that a reader is going to be handed, with `none` for a failure. -/
abbrev Feed := List (Option Char8)

namespace Feed

/-- The bytes up to and including the next line feed, or up to the end if there is none; and
    what is left. -/
def takeLine : Feed → Except IoError Bytes × Feed
  | [] => (.ok [], [])
  | none :: feed => (.error .sourceFailed, feed)
  | some b :: feed =>
    if b = Char8.lineFeed then (.ok [b], feed)
    else ((takeLine feed).1.map (b :: ·), (takeLine feed).2)

/-- The results of taking so many lines in a row. -/
def lines (feed : Feed) : Nat → List (Except IoError Bytes)
  | 0 => []
  | count + 1 => (takeLine feed).1.map LineReader.chomp :: lines (takeLine feed).2 count

/-- Bytes without a line feed belong to the line that goes on behind them. -/
theorem takeLine_append {body : Bytes} (h : Char8.lineFeed ∉ body) (feed : Feed) :
    takeLine (body.map some ++ feed) =
      ((takeLine feed).1.map (body ++ ·), (takeLine feed).2) := by
  -- None of the bytes is the line feed, so none of them ends the line.
  induction body with
  | nil => cases hresult : (takeLine feed).1 <;> simp [← hresult, Except.map]
  | cons b body ih =>
    rw [List.mem_cons, not_or] at h
    obtain ⟨hb, hbody⟩ := h
    rw [List.map_cons, List.cons_append, takeLine, if_neg (Ne.symm hb), ih hbody]
    cases (takeLine feed).1 <;> rfl

/-- A line is taken up to its line feed, and what follows stays in the feed. -/
theorem takeLine_append_lineFeed {body : Bytes} (h : Char8.lineFeed ∉ body) (feed : Feed) :
    takeLine (body.map some ++ some Char8.lineFeed :: feed) =
      (.ok (body ++ [Char8.lineFeed]), feed) := by
  rw [takeLine_append h, takeLine, if_pos rfl]
  rfl

/-- A failure takes along what was collected of its line. -/
theorem takeLine_append_failure {body : Bytes} (h : Char8.lineFeed ∉ body) (feed : Feed) :
    takeLine (body.map some ++ none :: feed) = (.error .sourceFailed, feed) := by
  rw [takeLine_append h, takeLine]
  rfl

/-- Without a line feed, all of the feed is taken. -/
theorem takeLine_of_not_mem {body : Bytes} (h : Char8.lineFeed ∉ body) :
    takeLine (body.map some) = (.ok body, []) := by
  have hline := takeLine_append h []
  rw [List.append_nil] at hline
  rw [hline]
  simp [takeLine, Except.map]

end Feed

namespace LineReader

open Feed

/-- A line with a line feed loses that and a carriage return before it. -/
theorem chomp_append_lineFeed (body : Bytes) :
    chomp (body ++ [Char8.lineFeed]) = Lines.dropReturn body := by
  rw [chomp, List.getLast?_concat, if_pos rfl, List.dropLast_concat, Lines.dropReturn]

theorem chomp_of_not_mem {line : Bytes} (h : Char8.lineFeed ∉ line) : chomp line = line :=
  if_neg fun hlast => h (List.mem_of_getLast? hlast)

end LineReader

/-! ## The feed of a reader -/

namespace Source

/-- What a source is going to hand out.  A failure that lies beyond the end is never reached. -/
def feed (s : Source) : Feed :=
  match s.failsAfter with
  | none => s.pending.map some
  | some k =>
    if k ≤ s.pending.length then (s.pending.take k).map some ++ none :: (s.pending.drop k).map some
    else s.pending.map some

/-- A failed read takes the failure, which comes first, and nothing else from the feed. -/
theorem feed_of_read_error {s t : Source} {e : IoError} (h : s.read = (.error e, t)) :
    s.feed = none :: t.feed ∧ e = .sourceFailed := by
  unfold read at h
  split at h
  next hfails =>
    obtain ⟨he, rfl⟩ := Prod.mk.inj h
    exact ⟨by simp [feed, hfails], (Except.error.inj he).symm⟩
  all_goals exact nomatch h

/-- Handing out a chunk moves it from the source to the reader, and it is empty only at the end. -/
theorem feed_of_read_ok {s t : Source} {bytes : Bytes} (h : s.read = (.ok bytes, t)) :
    s.feed = bytes.map some ++ t.feed ∧ (bytes = [] → s.feed = []) := by
  have hchunk := s.chunk_pos
  unfold read at h
  split at h
  next => exact nomatch h
  next k hfails =>
    obtain ⟨hb, rfl⟩ := Prod.mk.inj h
    obtain rfl := Except.ok.inj hb
    -- A chunk ends before the failure, which comes nearer by the length of the chunk.
    obtain ⟨left, hleft⟩ : ∃ left, k + 1 = min s.chunk (k + 1) + left :=
      ⟨k + 1 - min s.chunk (k + 1), by omega⟩
    have hpos : 0 < min s.chunk (k + 1) := by omega
    generalize min s.chunk (k + 1) = size at *
    have hfails : s.failsAfter = some (size + left) := hfails.trans (congrArg some hleft)
    simp only [feed, hfails, hleft, List.length_take, List.length_drop]
    by_cases hreached : size + left ≤ s.pending.length
    -- The failure is within the data, and behind the chunk that is handed out.
    · have hmin : min size s.pending.length = size := by omega
      have hleft' : left ≤ s.pending.length - size := by omega
      rw [hmin, Nat.add_sub_cancel_left, if_pos hreached, if_pos hleft', List.take_add,
        List.map_append, List.append_assoc, List.drop_drop]
      refine ⟨rfl, fun hempty => ?_⟩
      rw [List.take_eq_nil_iff, ← List.length_eq_zero_iff] at hempty
      omega
    -- The data end before the failure, so it is not in the feed, before or after the read.
    · have hbeyond : ¬size + left - min size s.pending.length ≤ s.pending.length - size := by
        omega
      rw [if_neg hreached, if_neg hbeyond, ← List.map_append, List.take_append_drop]
      refine ⟨rfl, fun hempty => ?_⟩
      rw [List.take_eq_nil_iff] at hempty
      rw [hempty.resolve_left (by omega), List.map_nil]
  -- Without a failure, a chunk is cut off the data.
  next hfails =>
    obtain ⟨hb, rfl⟩ := Prod.mk.inj h
    obtain rfl := Except.ok.inj hb
    simp only [feed, hfails]
    rw [← List.map_append, List.take_append_drop]
    refine ⟨rfl, fun hempty => ?_⟩
    rw [List.take_eq_nil_iff] at hempty
    rw [hempty.resolve_left (by omega), List.map_nil]

end Source

namespace LineReader

open Feed

/-- What a reader is going to read. -/
def feed (r : LineReader) : Feed := r.buffer.map some ++ r.source.feed

/-- The buffer is not filled only if a read fails, and the failure comes first in the feed. -/
theorem feed_of_fill_error {r filled : LineReader} {e : IoError}
    (h : r.fill = (some e, filled)) : r.feed = none :: filled.feed ∧ e = .sourceFailed := by
  unfold fill at h
  -- A source is read only into an empty buffer, so the feed is that of the source.
  split at h
  next hempty =>
    rw [List.isEmpty_iff] at hempty
    split at h
    next => exact nomatch h
    next hread =>
      obtain ⟨he, rfl⟩ := Prod.mk.inj h
      obtain rfl := Option.some.inj he
      rw [feed, feed, hempty]
      exact Source.feed_of_read_error hread
  next => exact nomatch h

/-- Filling the buffer takes nothing from the feed, and fails to fill it only at its end. -/
theorem feed_of_fill {r filled : LineReader} (h : r.fill = (none, filled)) :
    r.feed = filled.feed ∧ (filled.buffer = [] → r.feed = []) := by
  unfold fill at h
  -- Either the source is read into an empty buffer or there is nothing to do.
  split at h
  next hempty =>
    rw [List.isEmpty_iff] at hempty
    split at h
    next hread =>
      obtain ⟨-, rfl⟩ := Prod.mk.inj h
      rw [feed, feed, hempty]
      exact Source.feed_of_read_ok hread
    next => exact nomatch h
  next hbuffer =>
    obtain ⟨-, rfl⟩ := Prod.mk.inj h
    exact ⟨rfl, fun hempty => absurd (List.isEmpty_iff.2 hempty) hbuffer⟩

theorem lineFeed_not_mem_takeWhile (buffer : Bytes) :
    Char8.lineFeed ∉ buffer.takeWhile (· != Char8.lineFeed) := by
  intro hmem
  simpa using (LongestRun.takeWhile_dropWhile (· != Char8.lineFeed) buffer).all _ hmem

/-- A buffer with a line feed in it is cut behind the first one. -/
theorem splitAtLineFeed {buffer rest : Bytes} {b : Char8}
    (h : buffer.dropWhile (· != Char8.lineFeed) = b :: rest) :
    b = Char8.lineFeed ∧
      buffer = buffer.takeWhile (· != Char8.lineFeed) ++ Char8.lineFeed :: rest := by
  have hrun := LongestRun.takeWhile_dropWhile (· != Char8.lineFeed) buffer
  rw [h] at hrun
  obtain rfl : b = Char8.lineFeed := by simpa using hrun.stops b rfl
  exact ⟨rfl, by rw [← h, List.takeWhile_append_dropWhile]⟩

/-- Reading up to the end of a line takes a line from the feed, however many chunks that needs. -/
theorem takeLine_feed (r : LineReader) : takeLine r.feed = (r.readRaw.1, r.readRaw.2.feed) := by
  fun_induction readRaw r with
  -- The source fails before there is anything to look at.
  | case1 r e filled hfill =>
    obtain ⟨hfeed, rfl⟩ := feed_of_fill_error hfill
    rw [hfeed, takeLine]
  -- The end of the data has been reached.
  | case2 r filled hfill hempty =>
    obtain ⟨hfeed, hend⟩ := feed_of_fill hfill
    rw [← hfeed, hend hempty, takeLine]
  | case3 r filled hfill hbuffer body b rest hrest =>
    -- The line feed is in the buffer.
    obtain ⟨hfeed, -⟩ := feed_of_fill hfill
    obtain ⟨rfl, hsplit⟩ := splitAtLineFeed hrest
    have hnot : Char8.lineFeed ∉ body := lineFeed_not_mem_takeWhile filled.buffer
    have hbuffered : filled.feed =
        body.map some ++ some Char8.lineFeed :: (rest.map some ++ filled.source.feed) := by
      rw [feed, hsplit, List.map_append, List.map_cons, List.append_assoc, List.cons_append]
    rw [hfeed, hbuffered, takeLine_append_lineFeed hnot, feed]
  | case4 r filled hfill hbuffer body hrest result last hread ih =>
    -- All of the buffer belongs to the line, which goes on in the next chunk.
    obtain ⟨hfeed, -⟩ := feed_of_fill hfill
    have hbody : body = filled.buffer := by
      have hsplit := List.takeWhile_append_dropWhile (p := (· != Char8.lineFeed))
        (l := filled.buffer)
      rwa [hrest, List.append_nil] at hsplit
    have hnot : Char8.lineFeed ∉ body := lineFeed_not_mem_takeWhile filled.buffer
    rw [hread] at ih
    rw [hfeed, feed, ← hbody, takeLine_append hnot]
    rw [feed, List.map_nil, List.nil_append] at ih
    rw [ih]

/-- What is read depends on the feed alone. -/
theorem readLines_feed (r : LineReader) (count : Nat) : r.readLines count = lines r.feed count := by
  induction count generalizing r with
  | zero => rfl
  | succ count ih =>
    rw [lines, takeLine_feed]
    exact congrArg (r.readRaw.1.map chomp :: ·) (ih r.readRaw.2)

end LineReader

/-! ## The lines of a feed -/

namespace Feed

/-- From a feed without failures, the lines of the text are read. -/
theorem lines_map_some (text : Bytes) (count : Nat) :
    lines (text.map some) count = (List.range count).map fun i => .ok (Lines.line text i) := by
  -- By the number of lines, over all texts, since each line leaves a shorter one.
  induction count generalizing text with
  | zero => rfl
  | succ count ih =>
    rw [lines, List.range_succ_eq_map, List.map_cons, List.map_map]
    by_cases hmem : Char8.lineFeed ∈ text
    · obtain ⟨body, rest, rfl, hbody⟩ := List.eq_append_cons_of_mem hmem
      rw [List.map_append, List.map_cons, takeLine_append_lineFeed hbody, ih]
      congr 1
      · rw [Lines.line_zero_append hbody, Except.map, LineReader.chomp_append_lineFeed]
      · exact List.map_congr_left fun i _ => by
          rw [Function.comp, Lines.line_succ_append hbody]
    · -- The text ends within this line, and from then on there is nothing but empty lines.
      rw [takeLine_of_not_mem hmem, ← List.map_nil, ih]
      congr 1
      · rw [Lines.line_zero_of_not_mem hmem, Except.map, LineReader.chomp_of_not_mem hmem]
      · exact List.map_congr_left fun i _ => by
          rw [Function.comp, Lines.line_succ_of_not_mem hmem, Lines.line_nil]

/-- From a feed with one failure, the lines around it are read. -/
theorem lines_failure (given later : Bytes) (count : Nat) :
    lines (given.map some ++ none :: later.map some) count =
      (List.range count).map (Lines.resultAround given later) := by
  -- By the number of lines; the failure is met in the first line that does not end before it.
  induction count generalizing given with
  | zero => rfl
  | succ count ih =>
    rw [lines, List.range_succ_eq_map, List.map_cons, List.map_map]
    by_cases hmem : Char8.lineFeed ∈ given
    · obtain ⟨body, rest, rfl, hbody⟩ := List.eq_append_cons_of_mem hmem
      rw [List.map_append, List.map_cons, List.append_assoc, List.cons_append,
        takeLine_append_lineFeed hbody, ih]
      congr 1
      · rw [Lines.resultAround_zero_append hbody, Except.map, LineReader.chomp_append_lineFeed]
      · exact List.map_congr_left fun i _ => by
          rw [Function.comp, Lines.resultAround_succ_append hbody]
    · -- The failure comes before the end of this line, and what follows it is read as usual.
      rw [takeLine_append_failure hmem, lines_map_some]
      congr 1
      · rw [Lines.resultAround_zero_of_not_mem hmem, Except.map]
      · exact List.map_congr_left fun i _ => by
          rw [Function.comp, Lines.resultAround_succ_of_not_mem hmem]

end Feed

/-- A text is its pieces, with a line feed behind each of them, and its tail. -/
theorem Lines.flatMap_pieces_append_tail (text : Bytes) :
    (pieces text).flatMap (· ++ [Char8.lineFeed]) ++ tail text = text := by
  -- The induction is on the length, as the text behind a line feed is a shorter one.
  induction hlength : text.length using Nat.strongRecOn generalizing text with
  | ind n ih =>
    by_cases hmem : Char8.lineFeed ∈ text
    · obtain ⟨body, rest, rfl, hbody⟩ := List.eq_append_cons_of_mem hmem
      rw [pieces_append hbody, tail_append hbody, List.flatMap_cons, List.append_assoc,
        ih rest.length (by simp at hlength; omega) rest rfl, List.append_assoc]
      rfl
    · rw [pieces_of_not_mem hmem, tail_of_not_mem hmem]
      rfl

namespace LineReader

/-- Reading lines is independent of the size of the chunks, and what a failure costs is exact.
    Without a failure the lines of the data are read.  With a failure behind the first `k` bytes,
    the lines that end within them are read, then the failure is reported once, and after it the
    lines of the other bytes are read; what gets lost is what stands behind the last line feed of
    the first `k` bytes. -/
theorem readLines_exact (data : Bytes) (chunk : Nat) (hchunk : 0 < chunk) (count : Nat) :
    readLines { source := ⟨data, none, chunk, hchunk⟩ } count =
      (List.range count).map (fun i => .ok (Lines.line data i)) ∧
    ∀ k ≤ data.length,
      readLines { source := ⟨data, some k, chunk, hchunk⟩ } count =
        (List.range count).map (Lines.resultAround (data.take k) (data.drop k)) ∧
      (Lines.pieces (data.take k)).flatMap (· ++ [Char8.lineFeed]) ++
        (Lines.tail (data.take k) ++ data.drop k) = data := by
  refine ⟨?_, fun k hk => ⟨?_, ?_⟩⟩
  -- However large the chunks are, lines are taken from the feed.
  · rw [readLines_feed]
    exact Feed.lines_map_some data count
  · rw [readLines_feed]
    have hfeed : feed { source := ⟨data, some k, chunk, hchunk⟩ } =
        (data.take k).map some ++ none :: (data.drop k).map some := if_pos hk
    rw [hfeed, Feed.lines_failure]
  -- Nothing but the tail of the first part is lost.
  · rw [← List.append_assoc, Lines.flatMap_pieces_append_tail, List.take_append_drop]

/-- A failure between the carriage return and the line feed of `b`: that line is lost, and an
    empty one ends at the line feed. -/
theorem readLines_within_terminator :
    0 < 2 ∧ 5 ≤ (Bytes.ofString "a\r\nb\r\nc").length ∧
      readLines { source := ⟨Bytes.ofString "a\r\nb\r\nc", some 5, 2, by decide⟩ } 5 =
        [.ok (Bytes.ofString "a"), .error .sourceFailed, .ok [], .ok (Bytes.ofString "c"), .ok []] := by
  have hchunk : 0 < 2 := by decide
  have hk : 5 ≤ (Bytes.ofString "a\r\nb\r\nc").length := by decide
  obtain ⟨-, hfailure⟩ := readLines_exact (Bytes.ofString "a\r\nb\r\nc") 2 hchunk 5
  exact ⟨hchunk, hk, (hfailure 5 hk).1⟩

end LineReader

end ValueText
