import Mathlib.Logic.Function.Basic
import Cppboot.Buffer
import Cppboot.Runs

/-!
# Buffers as queues of bytes

Any number of buffers, of any initial sizes, and any sequence of calls on them,
among them exchanges of two buffers. The caller keeps three promises: it unwrites
no more bytes than are readable, writes no more bytes behind them than there is
room for, and takes no longer string than is readable. Then no assertion fails,
the indices stay in order, and the readable bytes of every buffer are those of a
plain list on which the same calls are made.

`net2::Buffer` repeats the class. Its methods of the same names have the same
bodies, so `Raw` stands for both classes; what only `net2::Buffer` has is defined
here, with the size of its own that `Shrink` uses.
-/

namespace Cppboot

open Storage Runs

namespace Raw

/-- Copy data to `BeginWrite()` and report it with `HasWritten`, whose assertion is about the
vector as it was before the copy. -/
def write (b : Raw) (data : Bytes) : Option Raw := do
  let written ← b.hasWritten data.length
  some { written with buffer_ := overwrite b.buffer_ b.writer_ data }

/-- Exchange two buffers field by field. -/
def swap (b rhs : Raw) : Raw × Raw :=
  (⟨rhs.buffer_, rhs.reader_, rhs.writer_⟩, ⟨b.buffer_, b.reader_, b.writer_⟩)

/-- Nothing is readable after everything was retrieved. -/
theorem retriveAll_exact {b : Raw} (formed : b.WellFormed) :
    b.retriveAll.WellFormed ∧ b.retriveAll.str = [] := by
  obtain ⟨lower, ordered, bounded⟩ := formed
  constructor
  · exact ⟨Nat.le_refl _, Nat.le_refl _, by simp only [retriveAll]; omega⟩
  · simp [retriveAll, str, readableBytes]

/-- Unwriting what is readable drops bytes at the end. -/
theorem unwrite_exact {b : Raw} (formed : b.WellFormed) {len : Nat}
    (readable : len ≤ b.readableBytes) :
    ∃ after, b.unwrite len = some after ∧ after.WellFormed ∧
      after.str = b.str.take (b.str.length - len) := by
  have length := str_length formed
  obtain ⟨lower, ordered, bounded⟩ := formed
  refine ⟨{ b with writer_ := b.writer_ - len }, ?_, ?_, ?_⟩
  · unfold unwrite guard
    simp [readable]
  · simp only [readableBytes] at readable
    exact ⟨lower, by simp only; omega, by simp only; omega⟩
  · rw [length, str, str, slice_take _ _ _ _ (Nat.sub_le _ _)]
    simp only [readableBytes]
    congr 1
    omega

/-- Data that fits and is written behind the readable bytes joins them. -/
theorem write_exact {b : Raw} (formed : b.WellFormed) {data : Bytes}
    (fits : data.length ≤ b.writableBytes) :
    ∃ after, b.write data = some after ∧ after.WellFormed ∧ after.str = b.str ++ data := by
  obtain ⟨appended, done, appended_formed, joined, in_place⟩ := append_exact formed data
  refine ⟨appended, ?_, appended_formed, joined⟩
  rw [in_place fits]
  unfold write hasWritten guard
  simp [fits]

end Raw

namespace Net2

/-- Room for readable bytes in a `net2::Buffer` constructed without a size. -/
def kInitialSize : Nat := 256

/-- Take a string off the front. -/
def retriveAsString (b : Raw) (len : Nat) : Option (Bytes × Raw) := do
  guard (len ≤ b.readableBytes)
  let result := slice b.buffer_ b.reader_ len
  some (result, b.retrive len)

/-- Move the readable bytes into a new buffer that has some room in reserve. -/
def shrink (b : Raw) (reserve : Nat) : Option Raw := do
  let other ← (Raw.create kInitialSize).ensureWritableBytes (b.readableBytes + reserve)
  let filled ← other.append b.str
  some (b.swap filled).1

/-- A string of readable bytes is returned as it is removed. -/
theorem retriveAsString_exact {b : Raw} {len : Nat} (readable : len ≤ b.readableBytes) :
    retriveAsString b len = some (b.str.take len, b.retrive len) := by
  have front : slice b.buffer_ b.reader_ len = b.str.take len :=
    (slice_take b.buffer_ b.reader_ b.readableBytes len readable).symm
  unfold retriveAsString guard
  simp [readable, front]

/-- The new buffer has the readable bytes and the room in reserve. -/
theorem shrink_exact {b : Raw} (formed : b.WellFormed) (reserve : Nat) :
    ∃ after, shrink b reserve = some after ∧ after.WellFormed ∧ after.str = b.str ∧
      reserve ≤ after.writableBytes := by
  obtain ⟨other, made, other_formed, empty, room, _⟩ :=
    Raw.ensureWritableBytes_exact (Raw.create_wellFormed kInitialSize) (b.readableBytes + reserve)
  obtain ⟨filled, done, filled_formed, joined, in_place⟩ := Raw.append_exact other_formed b.str
  have length := Raw.str_length formed
  refine ⟨filled, ?_, filled_formed, ?_, ?_⟩
  · simp [shrink, made, done, Raw.swap]
  · rw [joined, empty, Raw.create_str, List.nil_append]
  · have bounded := other_formed.bounded
    simp only [Raw.writableBytes] at room
    have kept : (overwrite other.buffer_ other.writer_ b.str).length = other.buffer_.length :=
      overwrite_length _ _ _ (by omega)
    rw [in_place (by simp only [Raw.writableBytes]; omega)]
    simp only [Raw.writableBytes, kept]
    omega

end Net2

/-- A call on one buffer. The last two are calls on a `net2::Buffer`. -/
inductive BufferCall where
  | append (data : Bytes)
  | retrive (len : Nat)
  | retriveAll
  | ensureWritableBytes (len : Nat)
  | unwrite (len : Nat)
  | write (data : Bytes)
  | retriveAsString (len : Nat)
  | shrink (reserve : Nat)
deriving DecidableEq, Repr

namespace BufferCall

/-- Carry out a call. There is no result where an assertion fails. -/
def perform (b : Raw) : BufferCall → Option Raw
  | .append data => b.append data
  | .retrive len => some (b.retrive len)
  | .retriveAll => some b.retriveAll
  | .ensureWritableBytes len => b.ensureWritableBytes len
  | .unwrite len => b.unwrite len
  | .write data => b.write data
  | .retriveAsString len => (Net2.retriveAsString b len).map Prod.snd
  | .shrink reserve => Net2.shrink b reserve

/-- What the caller promises. -/
def Allowed (b : Raw) : BufferCall → Prop
  | .unwrite len => len ≤ b.readableBytes
  | .write data => data.length ≤ b.writableBytes
  | .retriveAsString len => len ≤ b.readableBytes
  | _ => True

instance (b : Raw) (call : BufferCall) : Decidable (call.Allowed b) := by
  cases call <;> unfold Allowed <;> infer_instance

/-- The same call on a list. -/
def model (queue : Bytes) : BufferCall → Bytes
  | .append data => queue ++ data
  | .retrive len => queue.drop (min len queue.length)
  | .retriveAll => []
  | .ensureWritableBytes _ => queue
  | .unwrite len => queue.take (queue.length - len)
  | .write data => queue ++ data
  | .retriveAsString len => queue.drop len
  | .shrink _ => queue

/-- A call that is allowed fails no assertion, keeps the indices in order and does
to the readable bytes what it does to a list. -/
theorem perform_exact {b : Raw} (formed : b.WellFormed) {call : BufferCall}
    (allowed : call.Allowed b) :
    ∃ after, call.perform b = some after ∧ after.WellFormed ∧ after.str = call.model b.str := by
  cases call with
  | append data =>
    obtain ⟨after, done, after_formed, joined, _⟩ := Raw.append_exact formed data
    exact ⟨after, done, after_formed, joined⟩
  | retrive len =>
    refine ⟨_, rfl, Raw.retrive_wellFormed formed len, ?_⟩
    rw [Raw.retrive_str formed, model]
    rcases Nat.le_total len b.str.length with shorter | longer
    · rw [Nat.min_eq_left shorter]
    · rw [Nat.min_eq_right longer, List.drop_length, List.drop_eq_nil_of_le longer]
  | retriveAll =>
    obtain ⟨after_formed, empty⟩ := Raw.retriveAll_exact formed
    exact ⟨_, rfl, after_formed, empty⟩
  | ensureWritableBytes len =>
    obtain ⟨after, done, after_formed, same, _⟩ := Raw.ensureWritableBytes_exact formed len
    exact ⟨after, done, after_formed, same⟩
  | unwrite len => exact Raw.unwrite_exact formed allowed
  | write data => exact Raw.write_exact formed allowed
  | retriveAsString len =>
    refine ⟨b.retrive len, ?_, Raw.retrive_wellFormed formed len, Raw.retrive_str formed len⟩
    rw [perform, Net2.retriveAsString_exact allowed]
    rfl
  | shrink reserve =>
    obtain ⟨after, done, after_formed, same, _⟩ := Net2.shrink_exact formed reserve
    exact ⟨after, done, after_formed, same⟩

end BufferCall

/-- The buffers of a program. -/
abbrev Buffers := Nat → Raw

namespace Buffers

/-- A call on one of the buffers, or an exchange of two. -/
inductive Op where
  | call (i : Nat) (call : BufferCall)
  | swap (i j : Nat)
deriving DecidableEq, Repr

/-- New buffers, each of its own size. -/
def create (sizes : Nat → Nat) : Buffers := fun i => Raw.create (sizes i)

def perform (buffers : Buffers) : Op → Option Buffers
  | .call i call => (call.perform (buffers i)).map (Function.update buffers i)
  | .swap i j =>
    let (left, right) := (buffers i).swap (buffers j)
    some (Function.update (Function.update buffers i left) j right)

/-- What the caller promises of the buffer that is called. -/
def Allowed (buffers : Buffers) : Op → Prop
  | .call i call => call.Allowed (buffers i)
  | .swap _ _ => True

instance (buffers : Buffers) (op : Op) : Decidable (buffers.Allowed op) := by
  cases op <;> unfold Allowed <;> infer_instance

/-- The same operation on lists. -/
def model (queues : Nat → Bytes) : Op → Nat → Bytes
  | .call i call => Function.update queues i (call.model (queues i))
  | .swap i j => Function.update (Function.update queues i (queues j)) j (queues i)

/-- The lists after some operations. -/
def modelAll (ops : List Op) : Nat → Bytes := ops.foldl model fun _ => []

/-- The buffers are in order and hold what some lists hold. -/
structure Represents (buffers : Buffers) (queues : Nat → Bytes) : Prop where
  formed : ∀ i, (buffers i).WellFormed
  content : ∀ i, (buffers i).str = queues i

/-- New buffers hold empty lists. -/
theorem create_represents (sizes : Nat → Nat) : (create sizes).Represents fun _ => [] where
  formed i := Raw.create_wellFormed (sizes i)
  content i := Raw.create_str (sizes i)

/-- A buffer that holds what a list holds may take its place. -/
theorem Represents.update {buffers : Buffers} {queues : Nat → Bytes}
    (represents : buffers.Represents queues) (i : Nat) {b : Raw} {queue : Bytes}
    (formed : b.WellFormed) (content : b.str = queue) :
    Represents (Function.update buffers i b) (Function.update queues i queue) := by
  constructor
  · intro other
    by_cases same : other = i
    · subst same
      rw [Function.update_self]
      exact formed
    · rw [Function.update_of_ne same]
      exact represents.formed other
  · intro other
    by_cases same : other = i
    · subst same
      rw [Function.update_self, Function.update_self]
      exact content
    · rw [Function.update_of_ne same, Function.update_of_ne same]
      exact represents.content other

/-- An operation that is allowed fails no assertion and does to the readable bytes
what it does to the lists. -/
theorem Represents.perform {buffers : Buffers} {queues : Nat → Bytes}
    (represents : buffers.Represents queues) {op : Op} (allowed : buffers.Allowed op) :
    ∃ after, buffers.perform op = some after ∧ after.Represents (model queues op) := by
  cases op with
  | call i call =>
    obtain ⟨b, done, formed, content⟩ := call.perform_exact (represents.formed i) allowed
    refine ⟨Function.update buffers i b, by simp [Buffers.perform, done], ?_⟩
    apply represents.update i formed
    rw [content, represents.content i]
  | swap i j =>
    refine ⟨_, rfl, ?_⟩
    apply Represents.update
    · apply represents.update i
      · exact represents.formed j
      · exact represents.content j
    · exact represents.formed i
    · exact represents.content i

/-- After any operations that were allowed, the buffers hold what the lists hold. -/
theorem run_represents {sizes : Nat → Nat} {ops : List Op} {buffers : Buffers}
    (run : Run (Guarded Allowed (Accepts perform)) (create sizes) ops buffers) :
    buffers.Represents (modelAll ops) := by
  apply run.history (fun ops buffers => buffers.Represents (modelAll ops))
  · intro ops before after op represents stepped
    obtain ⟨reached, done, kept⟩ := represents.perform stepped.1
    have same : reached = after := Option.some.inj (done.symm.trans stepped.2)
    rw [modelAll, List.foldl_append, List.foldl_cons, List.foldl_nil, ← modelAll]
    exact same ▸ kept
  · exact create_represents sizes

/-- What the buffers are after some operations. -/
structure Exact (ops : List Op) (buffers : Buffers) : Prop where
  ordered : ∀ i, kCheapPrepend ≤ (buffers i).reader_ ∧
    (buffers i).reader_ ≤ (buffers i).writer_ ∧ (buffers i).writer_ ≤ (buffers i).buffer_.length
  asserted : ∀ op, buffers.Allowed op → ∃ after, buffers.perform op = some after
  content : ∀ i, (buffers i).str = modelAll ops i
  returned : ∀ i len, len ≤ (buffers i).readableBytes →
    ∃ after, Net2.retriveAsString (buffers i) len = some ((buffers i).str.take len, after) ∧
      after.str = (buffers i).str.drop len
  shrunk : ∀ i reserve, ∃ after, Net2.shrink (buffers i) reserve = some after ∧
    after.str = (buffers i).str ∧ reserve ≤ after.writableBytes

/-- Buffers are queues: for all initial sizes and all operations that are allowed
where they are performed, the indices are in order, no assertion of any operation
fails that is allowed next, and the readable bytes are those of the lists. -/
theorem buffers_are_queues (sizes : Nat → Nat) (ops : List Op) (buffers : Buffers)
    (run : Run (Guarded Allowed (Accepts perform)) (create sizes) ops buffers) :
    buffers.Exact ops := by
  have represents := run_represents run
  constructor
  · intro i
    obtain ⟨lower, ordered, bounded⟩ := represents.formed i
    exact ⟨lower, ordered, bounded⟩
  · intro op allowed
    obtain ⟨after, done, _⟩ := represents.perform allowed
    exact ⟨after, done⟩
  · exact represents.content
  · intro i len readable
    have dropped := Raw.retrive_str (represents.formed i) len
    exact ⟨_, Net2.retriveAsString_exact readable, dropped⟩
  · intro i reserve
    obtain ⟨after, done, _, same, room⟩ := Net2.shrink_exact (represents.formed i) reserve
    exact ⟨after, done, same, room⟩

/-- The readable bytes are moved to the front to make room. -/
def slide : List Op :=
  [.call 0 (.append [1, 2, 3, 4]), .call 0 (.retrive 3), .swap 0 1, .call 1 (.append [5, 6, 7])]

/-- A buffer of four bytes takes three more after three were retrieved, without
growing. -/
theorem slid_buffers_exact :
    ∃ buffers, Run (Guarded Allowed (Accepts perform)) (create fun _ => 4) slide buffers ∧
      (buffers 1).buffer_.length = 12 ∧ (buffers 1).str = [4, 5, 6, 7] ∧ buffers.Exact slide := by
  have observed : (execute (restrict Allowed perform) (create fun _ => 4) slide).map
      (fun buffers => ((buffers 1).buffer_.length, (buffers 1).str)) =
      some (12, [4, 5, 6, 7]) := by
    decide
  obtain ⟨buffers, executed, seen⟩ := Option.map_eq_some_iff.mp observed
  obtain ⟨length, content⟩ := Prod.mk.inj seen
  have run := restrict_run Allowed perform _ _ _ executed
  exact ⟨buffers, run, length, content, buffers_are_queues _ _ _ run⟩

end Buffers

end Cppboot
