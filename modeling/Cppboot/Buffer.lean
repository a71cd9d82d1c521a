import Mathlib.Data.Option.Basic
import Cppboot.Bytes
import Cppboot.Storage

/-!
# The byte buffer of a connection

`net::Buffer` keeps its bytes in one vector and marks with two indices where the
readable bytes begin and end. Retrieving moves the first index, or resets both
when nothing is left; appending writes behind the second and, when the vector is
too short, either moves the readable bytes to the front or grows the vector.

`Raw` is the class as written, with an assertion that fails modelled by `none`.
`Buffer` carries the index order as fields, so its operations cannot fail and
their effect is stated on the readable bytes alone: to a caller the buffer is a
queue of bytes. Index arithmetic is on unbounded naturals; sizes near the end of
the `size_t` range are outside this model.
-/

namespace Cppboot

open Storage

/-- Room kept in front of the readable bytes. -/
def kCheapPrepend : Nat := 8

/-- Room for readable bytes in a buffer constructed without a size. -/
def kInitialSize : Nat := 1024

/-- The three fields of the class, with no condition on them. -/
structure Raw where
  buffer_ : Bytes
  reader_ : Nat
  writer_ : Nat
deriving DecidableEq, Repr

namespace Raw

/-- The constructor: all bytes zero and nothing readable. -/
def create (initialSize : Nat) : Raw :=
  ⟨List.replicate (kCheapPrepend + initialSize) 0, kCheapPrepend, kCheapPrepend⟩

def prependableBytes (b : Raw) : Nat := b.reader_
def readableBytes (b : Raw) : Nat := b.writer_ - b.reader_
def writableBytes (b : Raw) : Nat := b.buffer_.length - b.writer_

/-- The readable bytes, as `Str` and `ToString` return them. -/
def str (b : Raw) : Bytes := slice b.buffer_ b.reader_ b.readableBytes

/-- Both indices go back to the front. -/
def retriveAll (b : Raw) : Raw := { b with reader_ := kCheapPrepend, writer_ := kCheapPrepend }

/-- Take bytes off the front. If there are no more than that, all are taken. -/
def retrive (b : Raw) (len : Nat) : Raw :=
  if len < b.readableBytes then { b with reader_ := b.reader_ + len } else b.retriveAll

/-- Make room for `len` bytes behind the readable ones: grow the vector, or move
the readable bytes to the front when the freed room in front suffices. -/
def makeSpace (b : Raw) (len : Nat) : Option Raw :=
  if b.writableBytes + b.prependableBytes < len + kCheapPrepend then
    some { b with buffer_ := resize b.buffer_ (b.writer_ + len) 0 }
  else do
    guard (kCheapPrepend < b.reader_)
    let readable := b.readableBytes
    let moved : Raw :=
      { buffer_ := overwrite b.buffer_ kCheapPrepend (slice b.buffer_ b.reader_ readable)
        reader_ := kCheapPrepend
        writer_ := kCheapPrepend + readable }
    guard (readable = moved.readableBytes)
    some moved

/-- Make room if there is too little, and assert that there is enough. -/
def ensureWritableBytes (b : Raw) (len : Nat) : Option Raw := do
  let spaced ← if b.writableBytes < len then b.makeSpace len else some b
  guard (len ≤ spaced.writableBytes)
  some spaced

def hasWritten (b : Raw) (len : Nat) : Option Raw := do
  guard (len ≤ b.writableBytes)
  some { b with writer_ := b.writer_ + len }

def unwrite (b : Raw) (len : Nat) : Option Raw := do
  guard (len ≤ b.readableBytes)
  some { b with writer_ := b.writer_ - len }

/-- Copy the data behind the readable bytes, after making room for it. The assertion behind
the copy is about the vector as it was before, which a copy does not make longer. -/
def append (b : Raw) (data : Bytes) : Option Raw := do
  let spaced ← b.ensureWritableBytes data.length
  let written ← spaced.hasWritten data.length
  some { written with buffer_ := overwrite spaced.buffer_ spaced.writer_ data }

/-- The order of the indices that every operation keeps. -/
structure WellFormed (b : Raw) : Prop where
  lower : kCheapPrepend ≤ b.reader_
  ordered : b.reader_ ≤ b.writer_
  bounded : b.writer_ ≤ b.buffer_.length

theorem create_wellFormed (initialSize : Nat) : (create initialSize).WellFormed := by
  constructor <;> simp [create]

theorem create_str (initialSize : Nat) : (create initialSize).str = [] := by
  simp [create, str, readableBytes]

/-- The readable bytes are as many as the indices say. -/
theorem str_length {b : Raw} (formed : b.WellFormed) : b.str.length = b.readableBytes := by
  have ordered := formed.ordered
  have bounded := formed.bounded
  exact slice_length _ _ _ (by simp only [readableBytes]; omega)

theorem retrive_wellFormed {b : Raw} (formed : b.WellFormed) (len : Nat) :
    (b.retrive len).WellFormed := by
  obtain ⟨lower, ordered, bounded⟩ := formed
  unfold retrive
  split
  next shorter =>
    simp only [readableBytes] at shorter
    exact ⟨by simp only; omega, by simp only; omega, bounded⟩
  next =>
    exact ⟨Nat.le_refl _, Nat.le_refl _, by simp only [retriveAll]; omega⟩

/-- Retrieving drops bytes from the front; asking for more than there are drops
them all. -/
theorem retrive_str {b : Raw} (formed : b.WellFormed) (len : Nat) :
    (b.retrive len).str = b.str.drop len := by
  unfold retrive
  split
  next shorter =>
    simp only [str, slice_drop, readableBytes]
    congr 1
    omega
  next all =>
    rw [List.drop_eq_nil_of_le (by rw [str_length formed]; omega)]
    simp [retriveAll, str, readableBytes]

/-- Making room when there is too little succeeds, keeps the index order and the
readable bytes and leaves at least the room asked for. The assertion of the
moving branch holds there: the room asked for exceeds the writable bytes, so the
reader must have left the front. -/
theorem makeSpace_exact {b : Raw} (formed : b.WellFormed) (len : Nat)
    (short : b.writableBytes < len) :
    ∃ spaced, b.makeSpace len = some spaced ∧ spaced.WellFormed ∧ spaced.str = b.str ∧
      len ≤ spaced.writableBytes := by
  obtain ⟨lower, ordered, bounded⟩ := formed
  simp only [writableBytes] at short
  unfold makeSpace
  split
  next tight =>
    have grown : (resize b.buffer_ (b.writer_ + len) 0).length = b.writer_ + len :=
      resize_length _ _ _ (by omega)
    refine ⟨_, rfl, ⟨lower, ordered, by simp only [grown]; omega⟩, ?_, ?_⟩
    · exact slice_resize _ _ _ _ _ (by simp only [readableBytes]; omega) (by omega)
    · simp only [writableBytes, grown]
      omega
  next roomy =>
    simp only [writableBytes, prependableBytes] at roomy
    have away : kCheapPrepend < b.reader_ := by omega
    have inside : b.reader_ + b.readableBytes ≤ b.buffer_.length := by
      simp only [readableBytes]
      omega
    have taken : (slice b.buffer_ b.reader_ b.readableBytes).length = b.readableBytes :=
      slice_length _ _ _ inside
    have kept : (overwrite b.buffer_ kCheapPrepend
        (slice b.buffer_ b.reader_ b.readableBytes)).length = b.buffer_.length :=
      overwrite_length _ _ _ (by omega)
    refine ⟨_, by unfold guard; simp [away, readableBytes]; rfl, ⟨Nat.le_refl _, ?_, ?_⟩, ?_, ?_⟩
    · exact Nat.le_add_right _ _
    · simp only [readableBytes] at kept ⊢
      omega
    · have whole := slice_overwrite_self b.buffer_ (slice b.buffer_ b.reader_ b.readableBytes)
        kCheapPrepend (by omega)
      rw [taken] at whole
      simpa [str, readableBytes] using whole
    · simp only [writableBytes, readableBytes] at kept ⊢
      omega

/-- Room can always be provided. When there is enough already nothing moves. -/
theorem ensureWritableBytes_exact {b : Raw} (formed : b.WellFormed) (len : Nat) :
    ∃ spaced, b.ensureWritableBytes len = some spaced ∧ spaced.WellFormed ∧
      spaced.str = b.str ∧ len ≤ spaced.writableBytes ∧
      (len ≤ b.writableBytes → spaced = b) := by
  by_cases short : b.writableBytes < len
  · obtain ⟨spaced, made, formed', same, room⟩ := makeSpace_exact formed len short
    refine ⟨spaced, ?_, formed', same, room, fun enough => absurd short (by omega)⟩
    unfold ensureWritableBytes guard
    simp [short, made, room]
  · have room : len ≤ b.writableBytes := by omega
    refine ⟨b, ?_, formed, rfl, room, fun _ => rfl⟩
    unfold ensureWritableBytes guard
    simp [short, room]

/-- Appending always succeeds, keeps the index order and puts the data behind
the readable bytes. Data that fits leaves the reader and every cell before the
writer as they were. -/
theorem append_exact {b : Raw} (formed : b.WellFormed) (data : Bytes) :
    ∃ appended, b.append data = some appended ∧ appended.WellFormed ∧
      appended.str = b.str ++ data ∧
      (data.length ≤ b.writableBytes → appended =
        { b with buffer_ := overwrite b.buffer_ b.writer_ data
                 writer_ := b.writer_ + data.length }) := by
  obtain ⟨spaced, made, ⟨lower, ordered, bounded⟩, same, room, inPlace⟩ :=
    ensureWritableBytes_exact formed data.length
  simp only [writableBytes] at room
  have kept : (overwrite spaced.buffer_ spaced.writer_ data).length = spaced.buffer_.length :=
    overwrite_length _ _ _ (by omega)
  refine ⟨{ spaced with
      buffer_ := overwrite spaced.buffer_ spaced.writer_ data
      writer_ := spaced.writer_ + data.length }, ?_, ⟨lower, ?_, ?_⟩, ?_, ?_⟩
  · unfold append hasWritten guard
    simp [made, writableBytes, room]
  · simp only
    omega
  · simp only [kept]
    omega
  · rw [← same]
    have joined := slice_overwrite_append spaced.buffer_ data spaced.writer_ spaced.reader_
      ordered bounded
    simp only [str, readableBytes]
    rw [← joined]
    congr 1
    omega
  · intro enough
    rw [inPlace enough]

end Raw

/-- A buffer whose indices are in order. No operation of the class leaves this
type, so the assertions in it never fail. -/
structure Buffer extends Raw where
  formed : toRaw.WellFormed

namespace Buffer

/-- A buffer constructed with the given room. -/
def create (initialSize : Nat) : Buffer := ⟨Raw.create initialSize, Raw.create_wellFormed _⟩

/-- A buffer constructed without a size. -/
def fresh : Buffer := create kInitialSize

/-- The readable bytes. -/
def str (b : Buffer) : Bytes := b.toRaw.str

def readableBytes (b : Buffer) : Nat := b.toRaw.readableBytes

/-- Take bytes off the front. If there are no more than that, all are taken. -/
def retrive (b : Buffer) (len : Nat) : Buffer :=
  ⟨b.toRaw.retrive len, Raw.retrive_wellFormed b.formed len⟩

/-- Appending cannot fail on a buffer in order, so its result is taken. -/
def append (b : Buffer) (data : Bytes) : Buffer where
  toRaw := (b.toRaw.append data).get (by
    obtain ⟨appended, done, _⟩ := Raw.append_exact b.formed data
    simp [done])
  formed := by
    obtain ⟨appended, done, formed, _⟩ := Raw.append_exact b.formed data
    simpa [done] using formed

@[simp] theorem create_str (initialSize : Nat) : (create initialSize).str = [] :=
  Raw.create_str initialSize

@[simp] theorem fresh_str : fresh.str = [] := Raw.create_str kInitialSize

/-- The count of readable bytes is the length of the readable bytes. -/
theorem readableBytes_eq (b : Buffer) : b.readableBytes = b.str.length :=
  (Raw.str_length b.formed).symm

@[simp] theorem retrive_str (b : Buffer) (len : Nat) : (b.retrive len).str = b.str.drop len :=
  Raw.retrive_str b.formed len

@[simp] theorem append_str (b : Buffer) (data : Bytes) : (b.append data).str = b.str ++ data := by
  obtain ⟨appended, done, _, joined, _⟩ := Raw.append_exact b.formed data
  simpa [append, str, done] using joined

/-- Data that fits is written behind the readable bytes in place: the reader and
the cells before the writer stay. -/
theorem append_in_place (b : Buffer) (data : Bytes) (fits : data.length ≤ b.writableBytes) :
    (b.append data).toRaw =
      { b.toRaw with
        buffer_ := overwrite b.buffer_ b.writer_ data
        writer_ := b.writer_ + data.length } := by
  obtain ⟨appended, done, _, _, inPlace⟩ := Raw.append_exact b.formed data
  simpa [append, done] using inPlace fits

end Buffer

end Cppboot
