import Cppboot.Buffer
import Cppboot.Runs

/-!
# The output side of a TCP connection

`TcpConn::Send` appends the data to the output buffer and posts one call of
`WriteToSocket`. That call starts a write of all readable bytes when there are
any. The completion of a write retrieves the bytes written and calls
`WriteToSocket` again while bytes remain. Nothing records that a write is in
flight, so a posted call that runs during a write starts a second write over the
same bytes.

A write names its bytes by their place in the storage of the buffer and reads
them when it is carried out, not when it is started. Appending during a write
may move the readable bytes within the storage or replace the storage; the model
counts every growth of the storage as a replacement, and a write into replaced
storage may put any bytes on the wire.

The main result is a discipline under which the wire carries the sent data: no
posted call starts a write while one is in flight, and no append during a write
needs more room than there is. `overlapping_write_breaks` shows that the first
half cannot be dropped.
-/

namespace Cppboot

open Storage Runs

/-- A write in flight: the generation of the storage it points into, the place
of its first byte there and its length. -/
structure SocketWrite where
  generation : Nat
  offset : Nat
  length : Nat
deriving DecidableEq, Repr

/-- How an asynchronous write ends: with bytes written, or with an error, which
may be the abortion of the operation. -/
inductive WriteResult where
  | written (bytes : Bytes)
  | failed (operationAborted : Bool)
deriving DecidableEq, Repr

/-- What the output side of a connection consists of. Posted calls are all alike,
so their number stands for them. -/
structure TcpConn where
  connected : Bool
  output_buffer_ : Buffer
  generation : Nat
  posted : Nat
  inFlight : List SocketWrite
  wire : Bytes

namespace TcpConn

/-- A connection on which nothing has been sent. -/
def fresh : TcpConn := ⟨true, Buffer.fresh, 0, 0, [], []⟩

/-- The storage is replaced when an append grows it. -/
def nextGeneration (c : TcpConn) (len : Nat) : Nat :=
  if c.output_buffer_.writableBytes < len ∧
      c.output_buffer_.writableBytes + c.output_buffer_.prependableBytes < len + kCheapPrepend
  then c.generation + 1 else c.generation

/-- Append the data and post one call of `WriteToSocket`. -/
def send (c : TcpConn) (data : Bytes) : TcpConn :=
  { c with
    output_buffer_ := c.output_buffer_.append data
    generation := c.nextGeneration data.length
    posted := c.posted + 1 }

/-- Start a write of the readable bytes, if there are any. -/
def writeToSocket (c : TcpConn) : TcpConn :=
  if c.output_buffer_.readableBytes ≠ 0 then
    { c with inFlight := c.inFlight ++
        [⟨c.generation, c.output_buffer_.reader_, c.output_buffer_.readableBytes⟩] }
  else c

/-- Shut the socket down. Closing it aborts what is still in flight; the aborted
operations complete as events of their own. -/
def stop (c : TcpConn) : TcpConn := { c with connected := false }

/-- The completion handler of a write. -/
def onWrite (c : TcpConn) : WriteResult → TcpConn
  | .written bytes =>
    let retrived := { c with
      wire := c.wire ++ bytes
      output_buffer_ := c.output_buffer_.retrive bytes.length }
    if retrived.output_buffer_.readableBytes = 0 then retrived else retrived.writeToSocket
  | .failed operationAborted => if operationAborted then c else c.stop

/-- A completed write adds its bytes to the wire, whether or not it goes on to
start another. -/
theorem onWrite_wire (c : TcpConn) (bytes : Bytes) :
    (c.onWrite (.written bytes)).wire = c.wire ++ bytes := by
  simp only [onWrite, writeToSocket]
  split <;> rfl

/-- The bytes a write may put on the wire: at least one and at most its length,
and the bytes now stored at its place unless the storage has been replaced. -/
def Transfers (c : TcpConn) (write : SocketWrite) : WriteResult → Prop
  | .written bytes =>
    1 ≤ bytes.length ∧ bytes.length ≤ write.length ∧
      (write.generation = c.generation →
        bytes = slice c.output_buffer_.buffer_ write.offset bytes.length)
  | .failed _ => True

instance (c : TcpConn) (write : SocketWrite) (result : WriteResult) :
    Decidable (c.Transfers write result) := by
  cases result <;> unfold Transfers <;> infer_instance

/-- What can happen to the output side. -/
inductive Event where
  | send (data : Bytes)
  | runPosted
  | complete (index : Nat) (result : WriteResult)
deriving DecidableEq, Repr

/-- One event, refused where it cannot happen. -/
def step (c : TcpConn) : Event → Option TcpConn
  | .send data => some (c.send data)
  | .runPosted =>
    if c.posted = 0 then none else some { c with posted := c.posted - 1 }.writeToSocket
  | .complete index result => do
    let write ← c.inFlight[index]?
    if c.Transfers write result then
      some ({ c with inFlight := c.inFlight.eraseIdx index }.onWrite result)
    else none

/-- The data an event hands over for sending. -/
def Event.data : Event → Bytes
  | .send data => data
  | _ => []

/-- The data sent by a run, in the order of the calls. -/
def sentBy (events : List Event) : Bytes := (events.map Event.data).flatten

/-- No write of the run ended with an error. -/
def Flawless (events : List Event) : Prop :=
  ∀ index operationAborted, Event.complete index (.failed operationAborted) ∉ events

/-- The discipline the connection does not enforce: a posted call that finds
bytes to write runs when no write is in flight, and data sent during a write fits
behind the bytes already stored. -/
def OneWriter (c : TcpConn) : Event → Prop
  | .send data => c.inFlight = [] ∨ data.length ≤ c.output_buffer_.writableBytes
  | .runPosted => c.inFlight = [] ∨ c.output_buffer_.readableBytes = 0
  | .complete _ _ => True

instance (c : TcpConn) (event : Event) : Decidable (c.OneWriter event) := by
  cases event <;> unfold OneWriter <;> infer_instance

/-- What holds under the discipline, relative to the data sent so far: the wire
and the readable bytes together are that data; at most one write is in flight,
and it covers the first readable bytes where they are stored; and unless some
write has failed, readable bytes have a posted call or a write to take them. -/
structure Streaming (sent : Bytes) (flawless : Prop) (c : TcpConn) : Prop where
  content : c.wire ++ c.output_buffer_.str = sent
  single : c.inFlight = [] ∨ ∃ length, 1 ≤ length ∧ length ≤ c.output_buffer_.readableBytes ∧
    c.inFlight = [⟨c.generation, c.output_buffer_.reader_, length⟩]
  pending : flawless → c.output_buffer_.str ≠ [] → 0 < c.posted ∨ c.inFlight ≠ []

theorem fresh_streaming : Streaming [] True fresh :=
  ⟨by simp [fresh], Or.inl rfl, by simp [fresh]⟩

/-- Starting a write when none is in flight, or finding nothing to write, keeps
the streaming state and leaves readable bytes with a write. -/
theorem writeToSocket_streaming {sent : Bytes} {c : TcpConn}
    (content : c.wire ++ c.output_buffer_.str = sent) (idle : c.inFlight = []) :
    Streaming sent True c.writeToSocket := by
  unfold writeToSocket
  split
  next some =>
    refine ⟨content, Or.inr ⟨c.output_buffer_.readableBytes, by omega, Nat.le_refl _, ?_⟩, ?_⟩
    · simp [idle]
    · simp
  next none =>
    have empty : c.output_buffer_.str = [] := by
      apply List.eq_nil_of_length_eq_zero
      rw [← Buffer.readableBytes_eq]
      omega
    exact ⟨content, Or.inl idle, fun _ nonempty => absurd empty nonempty⟩

/-- Sending appends to the readable bytes. During a write the data fits, so the
cells the write points at stay where they are. -/
theorem send_streaming {sent : Bytes} {flawless : Prop} {c : TcpConn}
    (streaming : Streaming sent flawless c) (data : Bytes)
    (disciplined : c.OneWriter (.send data)) :
    Streaming (sent ++ data) flawless (c.send data) := by
  refine ⟨?_, ?_, fun _ _ => Or.inl (Nat.succ_pos _)⟩
  · rw [← streaming.content]
    simp [send]
  · rcases streaming.single with idle | ⟨length, positive, covered, busy⟩
    · exact Or.inl idle
    · have fits : data.length ≤ c.output_buffer_.writableBytes := by
        rcases disciplined with idle | fits
        · simp [busy] at idle
        · exact fits
      have kept : (c.output_buffer_.append data).reader_ = c.output_buffer_.reader_ := by
        rw [Buffer.append_in_place _ _ fits]
      have sameStorage : c.nextGeneration data.length = c.generation := by
        simp only [nextGeneration]
        rw [if_neg (by omega)]
      refine Or.inr ⟨length, positive, ?_, ?_⟩
      · rw [Buffer.readableBytes_eq] at covered ⊢
        simp only [send, Buffer.append_str, List.length_append]
        omega
      · simp [send, busy, kept, sameStorage]

/-- Under the discipline a posted call runs on an idle connection or finds
nothing to write. -/
theorem runPosted_streaming {sent : Bytes} {flawless : Prop} {c : TcpConn}
    (streaming : Streaming sent flawless c) (disciplined : c.OneWriter .runPosted) :
    Streaming sent flawless { c with posted := c.posted - 1 }.writeToSocket := by
  by_cases idle : c.inFlight = []
  · have started := writeToSocket_streaming (c := { c with posted := c.posted - 1 })
      streaming.content idle
    exact ⟨started.content, started.single, fun _ => started.pending trivial⟩
  · have none : c.output_buffer_.readableBytes = 0 := disciplined.resolve_left idle
    have empty : c.output_buffer_.str = [] :=
      List.eq_nil_of_length_eq_zero (by rw [← Buffer.readableBytes_eq]; exact none)
    have same : { c with posted := c.posted - 1 }.writeToSocket =
        { c with posted := c.posted - 1 } := by
      simp [writeToSocket, none]
    rw [same]
    exact ⟨streaming.content, streaming.single, fun _ nonempty => absurd empty nonempty⟩

/-- The only write in flight puts the first readable bytes on the wire, and they
are then retrieved: what moves from the buffer to the wire is the same. -/
theorem written_streaming {sent : Bytes} {flawless : Prop} {c : TcpConn} {write : SocketWrite}
    {index : Nat} {bytes : Bytes} (streaming : Streaming sent flawless c)
    (found : c.inFlight[index]? = some write) (transfers : c.Transfers write (.written bytes)) :
    Streaming sent flawless
      ({ c with inFlight := c.inFlight.eraseIdx index }.onWrite (.written bytes)) := by
  obtain ⟨_, short, stored⟩ := transfers
  rcases streaming.single with idle | ⟨length, _, covered, busy⟩
  · simp [idle] at found
  · rw [busy] at found
    obtain ⟨rfl, rfl⟩ : index = 0 ∧ (⟨c.generation, c.output_buffer_.reader_, length⟩ :
        SocketWrite) = write := by
      cases index with
      | zero => exact ⟨rfl, by simpa using found⟩
      | succ index => simp at found
    have front : bytes = c.output_buffer_.str.take bytes.length := by
      have cells := stored rfl
      rw [Buffer.str, Raw.str, slice_take _ _ _ _ (by
        exact Nat.le_trans short covered)]
      exact cells
    have content : c.wire ++ bytes ++ (c.output_buffer_.retrive bytes.length).str = sent := by
      rw [Buffer.retrive_str, List.append_assoc]
      conv => lhs; arg 2; arg 1; rw [front]
      rw [List.take_append_drop]
      exact streaming.content
    simp only [onWrite, busy, List.eraseIdx_cons_zero]
    split
    next drained =>
      refine ⟨content, Or.inl rfl, fun _ nonempty => absurd ?_ nonempty⟩
      exact List.eq_nil_of_length_eq_zero (by rw [← Buffer.readableBytes_eq]; exact drained)
    next remaining =>
      have restarted : Streaming sent True _ := writeToSocket_streaming
        (c := { c with
          inFlight := []
          wire := c.wire ++ bytes
          output_buffer_ := c.output_buffer_.retrive bytes.length }) content rfl
      exact ⟨restarted.content, restarted.single, fun _ => restarted.pending trivial⟩

/-- A failed write leaves the bytes in the buffer and the wire as it was. -/
theorem failed_streaming {sent : Bytes} {flawless : Prop} {c : TcpConn}
    (streaming : Streaming sent flawless c) (index : Nat) (operationAborted : Bool) :
    Streaming sent False
      ({ c with inFlight := c.inFlight.eraseIdx index }.onWrite (.failed operationAborted)) := by
  have single : c.inFlight.eraseIdx index = [] ∨ ∃ length, 1 ≤ length ∧
      length ≤ c.output_buffer_.readableBytes ∧
      c.inFlight.eraseIdx index = [⟨c.generation, c.output_buffer_.reader_, length⟩] := by
    rcases streaming.single with idle | ⟨length, positive, covered, busy⟩
    · exact Or.inl (by simp [idle])
    · cases index with
      | zero => exact Or.inl (by simp [busy])
      | succ index => exact Or.inr ⟨length, positive, covered, by simp [busy]⟩
  cases operationAborted
  · exact ⟨streaming.content, single, False.elim⟩
  · exact ⟨streaming.content, single, False.elim⟩

/-- The event is not the failure of a write. -/
def Event.Succeeds : Event → Prop
  | .complete _ (.failed _) => False
  | _ => True

/-- One disciplined event extends the sent data by what it hands over and keeps
the streaming state. -/
theorem step_streaming {sent : Bytes} {flawless : Prop} {c after : TcpConn} {event : Event}
    (streaming : Streaming sent flawless c) (disciplined : c.OneWriter event)
    (taken : c.step event = some after) :
    Streaming (sent ++ event.data) (flawless ∧ event.Succeeds) after := by
  have weaken {sent : Bytes} {after : TcpConn} {event : Event}
      (streaming : Streaming sent flawless after) :
      Streaming sent (flawless ∧ event.Succeeds) after :=
    ⟨streaming.content, streaming.single, fun both => streaming.pending both.1⟩
  cases event with
  | send data =>
    obtain rfl : c.send data = after := Option.some.inj taken
    exact weaken (send_streaming streaming data disciplined)
  | runPosted =>
    simp only [step] at taken
    split at taken
    · cases taken
    · obtain rfl := Option.some.inj taken
      simpa [Event.data] using weaken (runPosted_streaming streaming disciplined)
  | complete index result =>
    cases found : c.inFlight[index]? with
    | none => simp [step, found] at taken
    | some write =>
      by_cases transfers : c.Transfers write result
      · have reached : { c with inFlight := c.inFlight.eraseIdx index }.onWrite result = after := by
          simpa [step, found, transfers] using taken
        subst reached
        cases result with
        | written bytes =>
          simpa [Event.data] using weaken (written_streaming streaming found transfers)
        | failed operationAborted =>
          have kept := failed_streaming streaming index operationAborted
          exact ⟨by simpa [Event.data] using kept.content, kept.single, fun both => both.2.elim⟩
      · simp [step, found, transfers] at taken

/-- Along a disciplined run the streaming state holds relative to the data the
run has sent. -/
theorem run_streaming {c : TcpConn} {events : List Event}
    (run : Run (Guarded OneWriter (Accepts step)) fresh events c) :
    Streaming (sentBy events) (∀ event ∈ events, event.Succeeds) c := by
  refine run.history
    (fun history state => Streaming (sentBy history) (∀ event ∈ history, event.Succeeds) state)
    (fun history before after event streaming taken => ?_) (by simpa [sentBy] using fresh_streaming)
  have advanced := step_streaming streaming taken.1 taken.2
  refine ⟨?_, advanced.single, fun all => advanced.pending ?_⟩
  · simpa [sentBy] using advanced.content
  · exact ⟨fun event member => all event (by simp [member]), all event (by simp)⟩

/-- In every run in which no posted call starts a write during another and no
append during a write needs more room, the wire is at all times a prefix of the
sent data in the order of the calls, and once no call is posted and no write is
in flight it is that data, unless some write failed. -/
theorem wire_carries_sent_data {c : TcpConn} {events : List Event}
    (run : Run (Guarded OneWriter (Accepts step)) fresh events c) :
    c.wire <+: sentBy events ∧
      (Flawless events → c.posted = 0 → c.inFlight = [] → c.wire = sentBy events) := by
  have streaming := run_streaming run
  refine ⟨⟨c.output_buffer_.str, streaming.content⟩, fun flawless quiet idle => ?_⟩
  have succeeds : ∀ event ∈ events, event.Succeeds := by
    intro event member
    cases event with
    | complete index result =>
      cases result with
      | written _ => trivial
      | failed operationAborted => exact absurd member (flawless index operationAborted)
    | _ => trivial
  have empty : c.output_buffer_.str = [] := by
    by_contra nonempty
    rcases streaming.pending succeeds nonempty with posted | busy
    · omega
    · exact busy idle
  rw [← streaming.content, empty, List.append_nil]

/-- Two calls of `Send`, their posted calls run one after the other, and each
write carried out whole. -/
def overlappingSends : List Event :=
  [.send [1], .send [2], .runPosted, .runPosted, .complete 0 (.written [1, 2]),
    .complete 0 (.written [1, 2])]

/-- Two sends may put their data on the wire twice: both posted calls find the
same readable bytes, and each starts a write of them. -/
theorem overlapping_write_duplicates :
    ∃ c, Run (Accepts step) fresh overlappingSends c ∧ Flawless overlappingSends ∧
      c.posted = 0 ∧ c.inFlight = [] ∧ c.wire = [1, 2, 1, 2] ∧
      sentBy overlappingSends = [1, 2] ∧ ¬ c.wire <+: sentBy overlappingSends := by
  have observed : (execute step fresh overlappingSends).map
      (fun c => (c.posted, c.inFlight, c.wire)) = some (0, [], [1, 2, 1, 2]) := by
    decide +kernel
  obtain ⟨c, executed, same⟩ := Option.map_eq_some_iff.mp observed
  obtain ⟨quiet, idle, wire⟩ : c.posted = 0 ∧ c.inFlight = [] ∧ c.wire = [1, 2, 1, 2] := by
    simpa using same
  refine ⟨c, execute_run step fresh c _ executed, ?_, quiet, idle, wire, rfl, ?_⟩
  · intro index operationAborted
    simp [overlappingSends]
  · rw [wire]
    decide

/-- A run that sends during a write and lets its posted calls wait for it. -/
def waitingSends : List Event :=
  [.send [1, 2], .runPosted, .send [3], .complete 0 (.written [1]), .complete 0 (.written [2, 3]),
    .runPosted]

/-- The discipline can be met, and the data then arrives once and in order. -/
theorem waiting_sends_delivered :
    ∃ c, Run (Guarded OneWriter (Accepts step)) fresh waitingSends c ∧
      c.wire <+: sentBy waitingSends ∧ c.wire = [1, 2, 3] := by
  have observed : (execute (restrict OneWriter step) fresh waitingSends).map TcpConn.wire =
      some [1, 2, 3] := by
    decide +kernel
  obtain ⟨c, executed, wire⟩ := Option.map_eq_some_iff.mp observed
  have run := restrict_run OneWriter step fresh c _ executed
  exact ⟨c, run, (wire_carries_sent_data run).1, wire⟩

/-- The first half of the discipline cannot be weakened. From any state that
streams, with a write in flight and a call posted, running the call leads on to a
wire that is no prefix of the sent data, whatever the data is.

The second write covers all readable bytes; carried out whole it completes the
wire. The first write then adds one byte more. -/
theorem overlapping_write_breaks {sent : Bytes} {flawless : Prop} {c : TcpConn}
    (streaming : Streaming sent flawless c) (posted : 0 < c.posted) (busy : c.inFlight ≠ []) :
    ∃ after events, Run (Accepts step) c (.runPosted :: events) after ∧
      sentBy events = [] ∧ ¬ after.wire <+: sent := by
  obtain ⟨length, positive, covered, only⟩ := streaming.single.resolve_left busy
  have readable := Buffer.readableBytes_eq c.output_buffer_
  have bounded := c.output_buffer_.formed.bounded
  -- the cells the two writes read: all readable ones, and the first of them
  have whole : c.output_buffer_.str =
      slice c.output_buffer_.buffer_ c.output_buffer_.reader_ c.output_buffer_.str.length := by
    rw [← readable]
    rfl
  obtain ⟨cell, stored⟩ : ∃ cell,
      slice c.output_buffer_.buffer_ c.output_buffer_.reader_ 1 = [cell] := by
    apply List.length_eq_one_iff.mp
    apply slice_length
    simp only [Buffer.readableBytes, Raw.readableBytes] at covered
    omega
  let retrived := c.output_buffer_.retrive c.output_buffer_.str.length
  have noneLeft : retrived.readableBytes = 0 := by simp [retrived, Buffer.readableBytes_eq]
  have storage : retrived.buffer_ = c.output_buffer_.buffer_ := by
    simp only [retrived, Buffer.retrive, Raw.retrive]
    split <;> rfl
  let first : SocketWrite := ⟨c.generation, c.output_buffer_.reader_, length⟩
  let second : SocketWrite :=
    ⟨c.generation, c.output_buffer_.reader_, c.output_buffer_.readableBytes⟩
  let doubled : TcpConn := { c with posted := c.posted - 1, inFlight := [first, second] }
  let drained : TcpConn := { doubled with
    inFlight := [first], wire := c.wire ++ c.output_buffer_.str, output_buffer_ := retrived }
  have started : c.step .runPosted = some doubled := by
    have some : c.output_buffer_.readableBytes ≠ 0 := by omega
    simp [step, writeToSocket, only, doubled, first, second, some, Nat.ne_of_gt posted]
  have completed : doubled.step (.complete 1 (.written c.output_buffer_.str)) = some drained := by
    have transfers : doubled.Transfers second (.written c.output_buffer_.str) :=
      ⟨by omega, by simp only [second]; omega, fun _ => whole⟩
    simp [step, onWrite, doubled, drained, transfers, noneLeft, retrived] at transfers ⊢
  have repeated : ∃ after, drained.step (.complete 0 (.written [cell])) = some after ∧
      after.wire = sent ++ [cell] := by
    have transfers : drained.Transfers first (.written [cell]) := by
      refine ⟨by simp, by simpa [first] using positive, fun _ => ?_⟩
      simp only [drained, first, storage]
      exact stored.symm
    refine ⟨_, by simp [step, drained, transfers]; rfl, ?_⟩
    rw [onWrite_wire, ← streaming.content]
  obtain ⟨after, taken, wire⟩ := repeated
  refine ⟨after, _, .next started (.next completed (.next taken (.done after))), rfl, ?_⟩
  intro isPrefix
  have bound := isPrefix.length_le
  simp only [wire, List.length_append, List.length_singleton] at bound
  omega

end TcpConn

end Cppboot
