import Mathlib.Data.List.Infix
import Cppboot.LongText

/-!
# Reading text from a connection

A connection delivers blocks of bytes and then ends, in the ordinary way or with an
error. `readUntil` adds blocks to a buffer until a delimiter is in it; more than the
delimiter may have arrived by then, and how much depends on how the bytes were cut.

A formatted stream reads from the buffer: words, numbers and lines. Its two flags are
sticky. The flag for the end is set by every operation that looks at the end of the
buffer, also if it has a result, and a stream with a flag set gives no more results.
-/

namespace Cppboot.Streams

/-- How a connection ends. -/
inductive Ending where
  | eof
  | failed (message : Bytes)
deriving DecidableEq, Repr

def Ending.message : Ending → Bytes
  | .eof => text "End of file"
  | .failed message => message

/-- What arrives: the blocks that reading returns, and how it ends. -/
structure Incoming where
  blocks : List Bytes
  ending : Ending
deriving DecidableEq, Repr

/-- Read blocks into a buffer until the delimiter is in it: the buffer and the blocks
that are left, or nothing if the connection ends before. -/
def readUntil (delim buffer : Bytes) : List Bytes → Option (Bytes × List Bytes)
  | [] => if delim <:+: buffer then some (buffer, []) else none
  | block :: blocks =>
    if delim <:+: buffer then some (buffer, block :: blocks)
    else readUntil delim (buffer ++ block) blocks

/-- Nothing is lost, and the delimiter is in the buffer. -/
theorem readUntil_some {delim buffer : Bytes} {blocks : List Bytes} {read : Bytes}
    {left : List Bytes} (found : readUntil delim buffer blocks = some (read, left)) :
    read ++ left.flatten = buffer ++ blocks.flatten ∧ delim <:+: read := by
  induction blocks generalizing buffer with
  | nil =>
    rw [readUntil] at found
    split at found
    next present =>
      cases found
      exact ⟨rfl, present⟩
    next => cases found
  | cons block blocks inductionHypothesis =>
    rw [readUntil] at found
    split at found
    next present =>
      cases found
      exact ⟨rfl, present⟩
    next =>
      obtain ⟨whole, present⟩ := inductionHypothesis found
      exact ⟨by rw [whole, List.append_assoc, List.flatten_cons], present⟩

/-- The delimiter is found exactly when it arrives, however the bytes are cut. -/
theorem readUntil_isSome_iff (delim buffer : Bytes) (blocks : List Bytes) :
    (readUntil delim buffer blocks).isSome ↔ delim <:+: buffer ++ blocks.flatten := by
  induction blocks generalizing buffer with
  | nil =>
    rw [readUntil, List.flatten_nil, List.append_nil]
    split
    next present => exact iff_of_true rfl present
    next absent => exact iff_of_false (by simp) absent
  | cons block blocks inductionHypothesis =>
    rw [readUntil]
    split
    next present =>
      exact iff_of_true rfl (present.trans (List.prefix_append _ _).isInfix)
    next => rw [inductionHypothesis, List.append_assoc, List.flatten_cons]

/-- A formatted stream: what is left to read, and its flags. -/
structure InputStream where
  buffer : Bytes
  eofbit : Bool := false
  failbit : Bool := false
deriving DecidableEq, Repr

namespace InputStream

def good (s : InputStream) : Bool := !s.eofbit && !s.failbit

/-- `>>` into a string: the next word. -/
def word (s : InputStream) : Bytes × InputStream :=
  if s.good then
    match s.buffer.dropWhile isSpace with
    | [] => ([], ⟨[], true, true⟩)
    | c :: rest =>
      let left := (c :: rest).dropWhile (!isSpace ·)
      ((c :: rest).takeWhile (!isSpace ·), ⟨left, left.isEmpty, false⟩)
  else ([], { s with failbit := true })

/-- `>>` into an `unsigned int`: a sign and digits. A negative number is taken modulo
2 ^ 32, and one that does not fit is a failure. -/
def number (s : InputStream) : UInt32 × InputStream :=
  if s.good then
    match s.buffer.dropWhile isSpace with
    | [] => (0, ⟨[], true, true⟩)
    | c :: rest =>
      let signed := takeSign (c :: rest)
      let digits := signed.2.takeWhile Decimal.isDigit
      let left := signed.2.dropWhile Decimal.isDigit
      let n := Decimal.value digits
      if digits = [] then (0, ⟨left, left.isEmpty, true⟩)
      else if 2 ^ 32 ≤ n then (0xFFFFFFFF, ⟨left, left.isEmpty, true⟩)
      else (if signed.1 then -UInt32.ofNat n else UInt32.ofNat n, ⟨left, left.isEmpty, false⟩)
  else (0, { s with failbit := true })

/-- `std::getline`: the characters up to the end of the line, which is removed. -/
def getline (s : InputStream) : Bytes × InputStream :=
  if s.good then
    let line := s.buffer.takeWhile (· ≠ byte '\n')
    match s.buffer.dropWhile (· ≠ byte '\n') with
    | [] => (line, ⟨[], true, line.isEmpty⟩)
    | _ :: left => (line, ⟨left, false, false⟩)
  else ([], { s with failbit := true })

/-- A line that is read makes the rest shorter. -/
theorem getline_shorter {s : InputStream} (read : s.getline.2.failbit = false) :
    s.getline.2.buffer.length < s.buffer.length := by
  unfold getline at *
  split at read
  next ready =>
    rw [if_pos ready]
    have parts : s.buffer.takeWhile (· ≠ byte '\n') ++ s.buffer.dropWhile (· ≠ byte '\n') =
        s.buffer := List.takeWhile_append_dropWhile
    have lengths := congrArg List.length parts
    rw [List.length_append] at lengths
    dsimp only at *
    cases behind : s.buffer.dropWhile (· ≠ byte '\n') with
    | nil =>
      rw [behind] at read lengths
      have line : s.buffer.takeWhile (· ≠ byte '\n') ≠ [] := by simpa using read
      have positive := List.length_pos_iff.mpr line
      simp only [List.length_nil] at *
      omega
    | cons stop left =>
      rw [behind, List.length_cons] at lengths
      dsimp only
      omega
  next => cases read

/-- The next line of a stream that has one. -/
theorem getline_line {line : Bytes} (plain : byte '\n' ∉ line) (rest : Bytes) :
    getline ⟨line ++ byte '\n' :: rest, false, false⟩ = (line, ⟨rest, false, false⟩) := by
  have stops : ∀ c, (byte '\n' :: rest).head? = some c → decide (c ≠ byte '\n') = false := by
    rintro c ⟨⟩
    exact decide_eq_false fun other => other rfl
  obtain ⟨taken, left⟩ := takeWhile_front (kept_of_not_mem plain) stops
  have ready : good ⟨line ++ byte '\n' :: rest, false, false⟩ = true := rfl
  rw [getline, if_pos ready]
  simp only [taken, left]

end InputStream

end Cppboot.Streams
