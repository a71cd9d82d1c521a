import Mathlib.Logic.Function.Basic
import Cppboot.RequestBody
import Cppboot.Runs

/-!
# The life of a connection of the HTTP server

A connection reads until its request is accepted or refused, then writes one
reply and is stopped. Its manager holds the connections that were started and not
stopped. An operation that was begun completes at some time, and the completion
is queued until its handler runs. Closing a socket completes what is pending on
it as aborted; a completion that is queued already still runs afterwards, and its
handler may begin another operation on the closed socket, which then fails.

A connection remembers what it did: the reads and the write it began and the
request it handed to `ServeHttp`. No operation reads this record. What a reply
says is not modelled, and the function that `ServeHttp` calls is taken to return.
If it stops the server, it does so while the connection has no operation, so the
outcome is the same as if the server had been stopped just before the handler ran.
-/

namespace Cppboot.Http

open Std Runs

namespace Reading

/-- A block of input always has a result where `headers.back()` has a meaning. -/
theorem parse_some {r : Reading} (safe : r.BackSafe) (data : Bytes) :
    ∃ result rest after, r.parse data = some ⟨result, rest, after⟩ := by
  rw [parse_eq]
  rcases scan_safe safe data with ⟨after, waits, _⟩ | ⟨ending, after, rest, emits, defined⟩
  · rw [waits]
    exact ⟨.indeterminate, [], after, rfl⟩
  · rw [emits]
    cases ending with
    | good => exact ⟨.good, rest, _, rfl⟩
    | bad => exact ⟨.bad, rest, after, rfl⟩
    | undefined => exact absurd rfl defined

/-- A parser that wants more input stays safe. -/
theorem parse_safe {r after : Reading} {data rest : Bytes} (safe : r.BackSafe)
    (read : r.parse data = some ⟨.indeterminate, rest, after⟩) : after.BackSafe := by
  rw [parse_eq] at read
  rcases scan_safe safe data with ⟨other, waits, kept⟩ | ⟨ending, other, left, emits, _⟩
  · rw [waits] at read
    cases read
    exact kept
  · rw [emits] at read
    cases ending with
    | good => cases read
    | bad => cases read
    | undefined => cases read

end Reading

/-- The operations of a connection. -/
inductive Op where
  | read
  | write
deriving DecidableEq, Repr

/-- How an operation completes. A read brings bytes. -/
inductive Completion where
  | success (data : Bytes)
  | error
  | aborted
deriving DecidableEq, Repr

/-- An operation that was begun, with its completion once that is queued. -/
structure Operation where
  op : Op
  queued : Option Completion
deriving DecidableEq, Repr

/-- What a connection does, as far as a client can tell. -/
inductive Action where
  | read
  | serve (req : Request)
  | write

def Action.isServe : Action → Bool
  | .serve _ => true
  | _ => false

def Action.isWrite : Action → Bool
  | .write => true
  | _ => false

/-- A `TcpConnection`, with what it did. -/
structure Connection where
  is_open : Bool
  operations : List Operation
  reading : Reading
  trace : List Action

namespace Connection

def create : Connection := ⟨true, [], .fresh, []⟩

def doRead (conn : Connection) : Connection :=
  { conn with operations := conn.operations ++ [⟨.read, none⟩], trace := conn.trace ++ [.read] }

def doWrite (conn : Connection) : Connection :=
  { conn with operations := conn.operations ++ [⟨.write, none⟩], trace := conn.trace ++ [.write] }

def start (conn : Connection) : Connection := conn.doRead

/-- Closing the socket aborts what is pending. -/
def abort (operation : Operation) : Operation :=
  { operation with queued := operation.queued.or (some .aborted) }

def stop (conn : Connection) : Connection :=
  { conn with is_open := false, operations := conn.operations.map abort }

/-- Whether a pending operation can complete like this. What is begun on a closed
socket does not succeed, and nothing is aborted on an open one. -/
def Completes (conn : Connection) : Completion → Prop
  | .success _ => conn.is_open = true
  | .error => True
  | .aborted => conn.is_open = false

instance (conn : Connection) (completion : Completion) :
    Decidable (conn.Completes completion) := by
  cases completion <;> unfold Completes <;> infer_instance

/-- The handler of a read, and whether it asks the manager to stop the
connection. -/
def onRead (conn : Connection) : Completion → Option (Connection × Bool)
  | .success data =>
    match conn.reading.parse data with
    | none => none
    | some ⟨.good, _, after⟩ =>
      some (doWrite { conn with reading := after, trace := conn.trace ++ [.serve after.req] },
        false)
    | some ⟨.bad, _, after⟩ => some (doWrite { conn with reading := after }, false)
    | some ⟨.indeterminate, _, after⟩ => some (doRead { conn with reading := after }, false)
  | .error => some (conn, true)
  | .aborted => some (conn, false)

/-- The handler of a write. -/
def onWrite (conn : Connection) : Completion → Connection × Bool
  | .success _ => (conn, true)
  | .error => (conn, true)
  | .aborted => (conn, false)

/-- The handler of an operation that completes. -/
def handle (conn : Connection) (op : Op) (completion : Completion) :
    Option (Connection × Bool) :=
  match op with
  | .read => conn.onRead completion
  | .write => some (conn.onWrite completion)

/-- One block makes the handler of a read do what reading blocks one after another
says of it. -/
theorem onRead_doRead (conn : Connection) (data : Bytes) :
    (conn.onRead (.success data)).map (fun handled => handled.1.trace) =
      (TcpConnection.doRead conn.reading [data]).map fun
        | .handled req => conn.trace ++ [.serve req] ++ [.write]
        | .bad_request => conn.trace ++ [.write]
        | .reading _ => conn.trace ++ [.read] := by
  simp only [onRead, TcpConnection.doRead]
  cases conn.reading.parse data with
  | none => rfl
  | some parsed =>
    obtain ⟨verdict, rest, after⟩ := parsed
    cases verdict with
    | good => rfl
    | bad => rfl
    | indeterminate => rfl

/-- Nothing but reads. -/
def Reads (trace : List Action) : Prop := ∀ action ∈ trace, action = .read

/-- A connection reads, or it has begun its one reply, perhaps after its one call
of `ServeHttp`. It has at most one operation, of the kind of its phase. -/
inductive Phase (conn : Connection) : Prop
  | reading (safe : conn.reading.BackSafe) (reads : Reads conn.trace)
      (operations : conn.operations = [] ∨ ∃ queued, conn.operations = [⟨.read, queued⟩])
  | replied (reads served : List Action) (all : Reads reads)
      (once : served = [] ∨ ∃ req, served = [.serve req])
      (trace : conn.trace = reads ++ served ++ [.write])
      (operations : conn.operations = [] ∨ ∃ queued, conn.operations = [⟨.write, queued⟩])

/-- At most one operation is pending. -/
theorem Phase.length_le {conn : Connection} (phase : conn.Phase) :
    conn.operations.length ≤ 1 := by
  cases phase with
  | reading _ _ operations => rcases operations with only | ⟨_, only⟩ <;> simp [only]
  | replied _ _ _ _ _ operations => rcases operations with only | ⟨_, only⟩ <;> simp [only]

/-- An operation of a connection is its only one. -/
theorem Phase.only {conn : Connection} (phase : conn.Phase) {i : Nat} {operation : Operation}
    (found : conn.operations[i]? = some operation) :
    i = 0 ∧ conn.operations = [operation] := by
  obtain ⟨within, here⟩ := List.getElem?_eq_some_iff.mp found
  have length_le := phase.length_le
  obtain ⟨single, only⟩ := List.length_eq_one_iff.mp (show conn.operations.length = 1 by omega)
  have first : i = 0 := by omega
  subst first
  simp only [only, List.getElem_cons_zero] at here
  exact ⟨rfl, here ▸ only⟩

/-- The phase does not depend on what is queued. -/
theorem Phase.requeue {conn : Connection} (phase : conn.Phase) (is_open : Bool)
    (change : Operation → Operation) (kind : ∀ operation, (change operation).op = operation.op) :
    Phase { conn with is_open := is_open, operations := conn.operations.map change } := by
  have mapped (op : Op) (operations : conn.operations = [] ∨
      ∃ queued, conn.operations = [⟨op, queued⟩]) :
      conn.operations.map change = [] ∨
        ∃ queued, conn.operations.map change = [⟨op, queued⟩] := by
    rcases operations with none_left | ⟨queued, only⟩
    · exact .inl (by rw [none_left]; rfl)
    · refine .inr ⟨(change ⟨op, queued⟩).queued, ?_⟩
      rw [only, List.map_singleton]
      exact congrArg (fun kept => [Operation.mk kept _]) (kind ⟨op, queued⟩)
  cases phase with
  | reading safe reads operations => exact .reading safe reads (mapped .read operations)
  | replied reads served all once trace operations =>
    exact .replied reads served all once trace (mapped .write operations)

/-- A connection that is stopped is in a phase too. -/
theorem Phase.stop {conn : Connection} (phase : conn.Phase) : conn.stop.Phase :=
  phase.requeue false abort fun _ => rfl

/-- Without its operation, a connection is in the same phase. -/
theorem Phase.finish {conn : Connection} (phase : conn.Phase) :
    Phase { conn with operations := [] } := by
  cases phase with
  | reading safe reads operations => exact .reading safe reads (.inl rfl)
  | replied reads served all once trace operations =>
    exact .replied reads served all once trace (.inl rfl)

/-- A connection that reads goes on reading. -/
theorem doRead_phase {conn : Connection} (safe : conn.reading.BackSafe)
    (reads : Reads conn.trace) (finished : conn.operations = []) : conn.doRead.Phase := by
  refine .reading safe ?_ (.inr ⟨none, ?_⟩)
  · intro action member
    rcases List.mem_append.mp member with old | new
    · exact reads action old
    · exact List.mem_singleton.mp new
  · simp [doRead, finished]

/-- The one operation of a connection is of the kind of its phase. -/
theorem kind_of {conn : Connection} {operation : Operation} {op : Op}
    (operations : conn.operations = [] ∨ ∃ queued, conn.operations = [⟨op, queued⟩])
    (only : conn.operations = [operation]) : operation.op = op := by
  rw [only] at operations
  rcases operations with nothing | ⟨queued, same⟩
  · cases nothing
  · rw [List.singleton_inj.mp same]

/-- What the handler of an operation leaves behind. If it does not stop the
connection and was not called for an aborted operation, it has begun another
one. -/
theorem handle_phase {conn after : Connection} {operation : Operation} {completion : Completion}
    {stops : Bool} (phase : conn.Phase) (only : conn.operations = [operation])
    (handled : handle { conn with operations := [] } operation.op completion =
      some (after, stops)) :
    after.Phase ∧ after.is_open = conn.is_open ∧
      (stops = false → completion ≠ .aborted → ∃ op, after.operations = [⟨op, none⟩]) := by
  have finished := phase.finish
  cases phase with
  | reading safe reads operations =>
    have kind := kind_of operations only
    rw [kind] at handled
    cases completion with
    | error =>
      cases handled
      exact ⟨finished, rfl, by simp⟩
    | aborted =>
      cases handled
      exact ⟨finished, rfl, by simp⟩
    | success data =>
      obtain ⟨verdict, rest, reader, read⟩ := Reading.parse_some safe data
      simp only [handle, onRead, read] at handled
      cases verdict with
      | good =>
        cases handled
        refine ⟨?_, rfl, fun _ _ => ⟨.write, rfl⟩⟩
        exact .replied conn.trace [.serve reader.req] reads (.inr ⟨_, rfl⟩) rfl (.inr ⟨none, rfl⟩)
      | bad =>
        cases handled
        refine ⟨?_, rfl, fun _ _ => ⟨.write, rfl⟩⟩
        exact .replied conn.trace [] reads (.inl rfl) (by simp [doWrite]) (.inr ⟨none, rfl⟩)
      | indeterminate =>
        cases handled
        have kept := Reading.parse_safe safe read
        exact ⟨doRead_phase kept reads rfl, rfl, fun _ _ => ⟨.read, rfl⟩⟩
  | replied reads served all once trace operations =>
    have kind := kind_of operations only
    rw [kind] at handled
    cases completion with
    | success data =>
      cases handled
      exact ⟨finished, rfl, by simp⟩
    | error =>
      cases handled
      exact ⟨finished, rfl, by simp⟩
    | aborted =>
      cases handled
      exact ⟨finished, rfl, by simp⟩

/-- An operation that has completed has a handler that returns. -/
theorem handle_some {conn : Connection} {operation : Operation} (phase : conn.Phase)
    (only : conn.operations = [operation]) (completion : Completion) :
    ∃ handled, handle { conn with operations := [] } operation.op completion = some handled := by
  cases phase with
  | reading safe reads operations =>
    rw [kind_of operations only]
    cases completion with
    | error => exact ⟨_, rfl⟩
    | aborted => exact ⟨_, rfl⟩
    | success data =>
      obtain ⟨verdict, rest, reader, read⟩ := Reading.parse_some safe data
      simp only [handle, onRead, read]
      cases verdict <;> exact ⟨_, rfl⟩
  | replied reads served all once trace operations =>
    rw [kind_of operations only]
    exact ⟨_, rfl⟩

/-- The reads of a trace count neither as calls of `ServeHttp` nor as replies. -/
theorem Reads.countP {trace : List Action} (reads : Reads trace) {counted : Action → Bool}
    (other : counted .read = false) : trace.countP counted = 0 := by
  rw [List.countP_eq_zero]
  intro action member
  rw [reads action member, other]
  exact Bool.false_ne_true

/-- Of actions that are no reads and do not occur together, there is at most one. -/
theorem Phase.counted {conn : Connection} (phase : conn.Phase) {counted : Action → Bool}
    (unread : counted .read = false)
    (apart : ∀ req, counted (.serve req) = true → counted .write = false) :
    conn.trace.countP counted ≤ 1 := by
  cases phase with
  | reading _ reads _ =>
    rw [reads.countP unread]
    exact Nat.zero_le 1
  | replied reads served all once trace _ =>
    rw [trace, List.countP_append, List.countP_append, all.countP unread, Nat.zero_add]
    rcases once with rfl | ⟨req, rfl⟩
    · rw [List.countP_nil, Nat.zero_add]
      exact List.countP_le_length
    · cases called : counted (.serve req) with
      | true => simp [called, apart req called]
      | false =>
        rw [List.countP_singleton, called, if_neg Bool.false_ne_true, Nat.zero_add]
        exact List.countP_le_length

/-- What a connection did before a read is a read. -/
theorem Phase.reads_first {conn : Connection} (phase : conn.Phase) :
    conn.trace.Pairwise fun earlier later => later = .read → earlier = .read := by
  cases phase with
  | reading _ reads _ =>
    apply List.pairwise_of_forall_mem_list
    intro earlier member later _ _
    exact reads earlier member
  | replied reads served all once trace _ =>
    rw [trace, List.append_assoc, List.pairwise_append]
    constructor
    · apply List.pairwise_of_forall_mem_list
      intro earlier member later _ _
      exact all earlier member
    · constructor
      · rcases once with rfl | ⟨req, rfl⟩ <;> simp
      · intro earlier member later _ _
        exact all earlier member

end Connection

/-- The manager and the connections that were made. -/
structure Server where
  accepting : Bool
  connections_ : ExtTreeSet Nat
  conns : Nat → Option Connection

namespace Server

/-- What happens: a connection is accepted or not, an operation completes, its handler runs, the
manager stops all connections, or the server shuts down. -/
inductive Event where
  | accept (c : Nat) (ec : Bool)
  | queue (c i : Nat) (completion : Completion)
  | run (c i : Nat)
  | stopAll
  | shutdown

/-- A server that accepts, and has no connections. -/
def fresh : Server := ⟨true, ∅, fun _ => none⟩

/-- The state of one connection is replaced. -/
def setConn (s : Server) (c : Nat) (conn : Connection) : Server :=
  { s with conns := Function.update s.conns c (some conn) }

/-- `ConnectionManager::Start`. -/
def start (s : Server) (c : Nat) (conn : Connection) : Server :=
  { s with connections_ := s.connections_.insert c }.setConn c conn.start

/-- `ConnectionManager::Stop`. -/
def stop (s : Server) (c : Nat) (conn : Connection) : Server :=
  { s with connections_ := s.connections_.erase c }.setConn c conn.stop

/-- `ConnectionManager::StopAll`. -/
def stopAll (s : Server) : Server :=
  { s with
    connections_ := ∅
    conns := fun c => if c ∈ s.connections_ then (s.conns c).map Connection.stop else s.conns c }

/-- A new connection is a new object. An operation that is pending may complete,
and the handler of one that completed may run. -/
def step (s : Server) : Event → Option Server
  | .accept c ec =>
    if s.accepting = false ∨ ec = true then some s
    else if (s.conns c).isSome then none
    else some (s.start c .create)
  | .queue c i completion => do
    let conn ← s.conns c
    let operation ← conn.operations[i]?
    if operation.queued = none ∧ conn.Completes completion then
      some (s.setConn c { conn with
        operations := conn.operations.set i { operation with queued := some completion } })
    else none
  | .run c i => do
    let conn ← s.conns c
    let operation ← conn.operations[i]?
    let completion ← operation.queued
    let handled ← { conn with operations := conn.operations.eraseIdx i }.handle operation.op
      completion
    some (if handled.2 then s.stop c handled.1 else s.setConn c handled.1)
  | .stopAll => some s.stopAll
  | .shutdown => some { s.stopAll with accepting := false }

/-- What a step does. -/
theorem step_cases {s after : Server} {event : Event} (stepped : step s event = some after) :
    after = s ∨
    (∃ c, s.conns c = none ∧ after = s.start c .create) ∨
    (∃ c i conn operation completion, s.conns c = some conn ∧
      conn.operations[i]? = some operation ∧ conn.Completes completion ∧
      after = s.setConn c { conn with
        operations := conn.operations.set i { operation with queued := some completion } }) ∨
    (∃ c i conn operation completion handled stops, s.conns c = some conn ∧
      conn.operations[i]? = some operation ∧ operation.queued = some completion ∧
      Connection.handle { conn with operations := conn.operations.eraseIdx i } operation.op
        completion = some (handled, stops) ∧
      after = if stops then s.stop c handled else s.setConn c handled) ∨
    (∃ accepting, after = { s.stopAll with accepting := accepting }) := by
  cases event with
  | accept c ec =>
    simp only [step] at stepped
    split at stepped
    · cases stepped
      exact .inl rfl
    · split at stepped
      · cases stepped
      next unused =>
        cases stepped
        exact .inr (.inl ⟨c, by simpa using unused, rfl⟩)
  | queue c i completion =>
    simp only [step, Option.bind_eq_bind, Option.bind_eq_some_iff] at stepped
    obtain ⟨conn, present, operation, found, stepped⟩ := stepped
    split at stepped
    next completes =>
      cases stepped
      exact .inr (.inr (.inl ⟨c, i, conn, operation, completion, present, found, completes.2, rfl⟩))
    next => cases stepped
  | run c i =>
    simp only [step, Option.bind_eq_bind, Option.bind_eq_some_iff] at stepped
    obtain ⟨conn, present, operation, found, completion, queued, ⟨handled, stops⟩, called,
      stepped⟩ := stepped
    cases stepped
    exact .inr (.inr (.inr (.inl ⟨c, i, conn, operation, completion, handled, stops, present,
      found, queued, called, rfl⟩)))
  | stopAll =>
    cases stepped
    exact .inr (.inr (.inr (.inr ⟨s.accepting, rfl⟩)))
  | shutdown =>
    cases stepped
    exact .inr (.inr (.inr (.inr ⟨false, rfl⟩)))

/-- Every connection is in a phase, and one that is managed is open and has an
operation that was not aborted. -/
structure Sound (s : Server) : Prop where
  phases : ∀ c conn, s.conns c = some conn → conn.Phase
  managed : ∀ c ∈ s.connections_, ∃ conn op queued, s.conns c = some conn ∧
    conn.is_open = true ∧ conn.operations = [⟨op, queued⟩] ∧ queued ≠ some .aborted

/-- A new server is sound. -/
theorem fresh_sound : fresh.Sound where
  phases c conn present := by cases present
  managed c member := absurd member ExtTreeSet.not_mem_empty

/-- A connection that is managed is fit for that. -/
theorem Sound.fit {s : Server} (sound : s.Sound) {c : Nat} {conn : Connection}
    (present : s.conns c = some conn) (member : c ∈ s.connections_) :
    ∃ op queued, conn.is_open = true ∧ conn.operations = [⟨op, queued⟩] ∧
      queued ≠ some .aborted := by
  obtain ⟨same, op, queued, managed, facts⟩ := sound.managed c member
  have equal : same = conn := Option.some.inj (managed.symm.trans present)
  exact ⟨op, queued, equal ▸ facts⟩

/-- A connection that is put in place of another keeps the invariant if it is in a
phase and, where it is managed, fit for that. -/
theorem Sound.setConn {s : Server} (sound : s.Sound) {c : Nat} {conn : Connection}
    (phase : conn.Phase) (fit : c ∈ s.connections_ → ∃ op queued, conn.is_open = true ∧
      conn.operations = [⟨op, queued⟩] ∧ queued ≠ some .aborted) : (s.setConn c conn).Sound where
  phases other found present := by
    by_cases same : other = c
    · subst same
      simp only [Server.setConn, Function.update_self, Option.some.injEq] at present
      exact present ▸ phase
    · simp only [Server.setConn, Function.update_of_ne same] at present
      exact sound.phases other found present
  managed other member := by
    by_cases same : other = c
    · subst same
      obtain ⟨op, queued, facts⟩ := fit member
      exact ⟨conn, op, queued, by simp [Server.setConn], facts⟩
    · obtain ⟨found, op, queued, present, facts⟩ := sound.managed other member
      exact ⟨found, op, queued, by simpa [Server.setConn, Function.update_of_ne same] using present,
        facts⟩

/-- With other members, the invariant is kept where the new ones are fit. -/
theorem Sound.remember {s : Server} (sound : s.Sound) {connections_ : ExtTreeSet Nat}
    (fewer : ∀ c ∈ connections_, c ∈ s.connections_) :
    Sound { s with connections_ := connections_ } where
  phases := sound.phases
  managed c member := sound.managed c (fewer c member)

/-- A connection that is started reads. -/
theorem Sound.start {s : Server} (sound : s.Sound) (c : Nat) : (s.start c .create).Sound where
  phases other found present := by
    by_cases same : other = c
    · subst same
      simp only [Server.start, Server.setConn, Function.update_self, Option.some.injEq] at present
      rw [← present]
      apply Connection.doRead_phase
      · exact Reading.fresh_safe
      · exact List.forall_mem_nil _
      · rfl
    · simp only [Server.start, Server.setConn, Function.update_of_ne same] at present
      exact sound.phases other found present
  managed other member := by
    by_cases same : other = c
    · subst same
      exact ⟨_, .read, none, Function.update_self .., rfl, rfl, by simp⟩
    · have old : other ∈ s.connections_ := by
        rcases ExtTreeSet.mem_insert.mp member with equal | old
        · exact absurd (LawfulEqCmp.eq_of_compare equal).symm same
        · exact old
      obtain ⟨found, op, queued, present, facts⟩ := sound.managed other old
      refine ⟨found, op, queued, ?_, facts⟩
      exact (Function.update_of_ne same ..).trans present

/-- Stopping one connection keeps a server sound. -/
theorem Sound.stop {s : Server} (sound : s.Sound) (c : Nat) {conn : Connection}
    (phase : conn.Phase) : (s.stop c conn).Sound := by
  apply Sound.setConn
  · apply sound.remember
    intro other member
    exact (ExtTreeSet.mem_erase.mp member).2
  · exact phase.stop
  · intro member
    have apart := (ExtTreeSet.mem_erase.mp member).1
    exact absurd ReflCmp.compare_self apart

/-- Stopping all of them does. -/
theorem Sound.stopAll {s : Server} (sound : s.Sound) (accepting : Bool) :
    Sound { s.stopAll with accepting := accepting } where
  phases c conn present := by
    simp only [Server.stopAll] at present
    split at present
    · obtain ⟨before, found, rfl⟩ := Option.map_eq_some_iff.mp present
      exact (sound.phases c before found).stop
    · exact sound.phases c conn present
  managed c member := absurd member ExtTreeSet.not_mem_empty

/-- A completion that is queued changes neither the phase nor the socket. -/
theorem Sound.queue {s : Server} {c i : Nat} {conn : Connection} {operation : Operation}
    {completion : Completion} (sound : s.Sound) (present : s.conns c = some conn)
    (found : conn.operations[i]? = some operation) (completes : conn.Completes completion) :
    Sound (s.setConn c { conn with
      operations := conn.operations.set i { operation with queued := some completion } }) := by
  have phase := sound.phases c conn present
  obtain ⟨rfl, only⟩ := phase.only found
  rw [only, List.set_cons_zero]
  apply sound.setConn
  · have requeued := phase.requeue conn.is_open
      (fun operation => { operation with queued := some completion }) fun _ => rfl
    rw [only] at requeued
    exact requeued
  · intro member
    obtain ⟨_, _, is_open, _⟩ := sound.fit present member
    refine ⟨operation.op, some completion, is_open, rfl, ?_⟩
    rintro aborted
    cases aborted
    exact absurd (is_open.symm.trans completes) Bool.noConfusion

/-- A handler that runs stops its connection or has begun the next operation,
unless the connection was stopped before. -/
theorem Sound.run {s : Server} {c i : Nat} {conn handled : Connection} {operation : Operation}
    {completion : Completion} {stops : Bool} (sound : s.Sound) (present : s.conns c = some conn)
    (found : conn.operations[i]? = some operation) (queued : operation.queued = some completion)
    (called : Connection.handle { conn with operations := conn.operations.eraseIdx i }
      operation.op completion = some (handled, stops)) :
    Sound (if stops then s.stop c handled else s.setConn c handled) := by
  have phase := sound.phases c conn present
  obtain ⟨rfl, only⟩ := phase.only found
  have finished : conn.operations.eraseIdx 0 = [] := by rw [only]; rfl
  rw [finished] at called
  obtain ⟨after, is_open, begun⟩ := Connection.handle_phase phase only called
  cases stops with
  | true => exact sound.stop c after
  | false =>
    apply sound.setConn after
    intro member
    obtain ⟨op, waiting, still, single, live⟩ := sound.fit present member
    have this_one : operation = ⟨op, waiting⟩ := List.singleton_inj.mp (only.symm.trans single)
    have not_aborted : completion ≠ .aborted := by
      rintro rfl
      rw [this_one] at queued
      exact live queued
    obtain ⟨next, begun⟩ := begun rfl not_aborted
    exact ⟨next, none, is_open.trans still, begun, by simp⟩

/-- Every step keeps the invariant. -/
theorem Sound.step {s after : Server} {event : Event} (sound : s.Sound)
    (stepped : step s event = some after) : after.Sound := by
  obtain rfl | ⟨c, _, rfl⟩ | ⟨c, i, conn, operation, completion, present, found, completes, rfl⟩ |
    ⟨c, i, conn, operation, completion, handled, stops, present, found, queued, called, rfl⟩ |
    ⟨accepting, rfl⟩ := step_cases stepped
  · exact sound
  · exact sound.start c
  · exact sound.queue present found completes
  · exact sound.run present found queued called
  · exact sound.stopAll accepting

/-- Every state that is reached is sound. -/
theorem run_sound {s : Server} {events : List Event} (run : Run (Accepts step) fresh events s) :
    s.Sound :=
  run.preserves Sound (fun _ _ _ sound stepped => sound.step stepped) fresh_sound

/-- In a state that is reached, the handler of a completion that is queued can run. -/
theorem queued_runs {s : Server} {events : List Event} (run : Run (Accepts step) fresh events s)
    {c i : Nat} {conn : Connection} {operation : Operation} {completion : Completion}
    (present : s.conns c = some conn) (found : conn.operations[i]? = some operation)
    (queued : operation.queued = some completion) : ∃ after, s.step (.run c i) = some after := by
  have phase := (run_sound run).phases c conn present
  obtain ⟨rfl, only⟩ := phase.only found
  obtain ⟨handled, called⟩ := Connection.handle_some phase only completion
  simp [Server.step, present, queued, only, called]

/-- The life cycle of the connections of a server. -/
structure LifeCycle (s : Server) : Prop where
  one : ∀ c conn, s.conns c = some conn → conn.operations.length ≤ 1
  managed : ∀ c ∈ s.connections_, ∃ conn, s.conns c = some conn ∧ conn.operations.length = 1
  served : ∀ c conn, s.conns c = some conn → conn.trace.countP Action.isServe ≤ 1
  replied : ∀ c conn, s.conns c = some conn → conn.trace.countP Action.isWrite ≤ 1
  silent : ∀ c conn, s.conns c = some conn →
    conn.trace.Pairwise fun earlier later => later = .read → earlier = .read
  idle : ∀ c conn, s.conns c = some conn → conn.operations = [] → c ∉ s.connections_

/-- In every state that is reached, a connection has at most one operation and a
managed one has exactly one, `ServeHttp` was called and a reply begun at most
once, and nothing is read after that. -/
theorem connections_live {s : Server} {events : List Event}
    (run : Run (Accepts step) fresh events s) : s.LifeCycle := by
  have sound := run_sound run
  constructor
  · intro c conn present
    exact (sound.phases c conn present).length_le
  · intro c member
    obtain ⟨conn, op, queued, present, _, only, _⟩ := sound.managed c member
    exact ⟨conn, present, by rw [only]; rfl⟩
  · intro c conn present
    exact (sound.phases c conn present).counted rfl fun _ _ => rfl
  · intro c conn present
    apply (sound.phases c conn present).counted rfl
    intro req called
    cases called
  · intro c conn present
    exact (sound.phases c conn present).reads_first
  · intro c conn present finished member
    obtain ⟨op, queued, _, only, _⟩ := sound.fit present member
    rw [finished] at only
    cases only

/-- A request whose read has completed when the server stops its connections. -/
def stoppedWhileQueued : List Event :=
  [.accept 0 false, .queue 0 0 (.success (text "GET / HTTP/1.0\r\n\r\n")), .stopAll, .run 0 0,
    .queue 0 0 .error]

/-- The handler runs all the same. It begins the reply on the closed socket, and
that fails. -/
theorem stopped_request_served :
    ∃ s, execute step fresh stoppedWhileQueued = some s ∧ s.LifeCycle ∧
      (s.conns 0).map (fun conn => (conn.is_open, conn.operations,
        conn.trace.countP Action.isServe)) = some (false, [⟨.write, some .error⟩], 1) := by
  have reached : (execute step fresh stoppedWhileQueued).map (fun s => (s.conns 0).map
      (fun conn => (conn.is_open, conn.operations, conn.trace.countP Action.isServe))) =
      some (some (false, [⟨.write, some .error⟩], 1)) := by
    decide +kernel
  obtain ⟨s, executed, observed⟩ := Option.map_eq_some_iff.mp reached
  exact ⟨s, executed, connections_live (execute_run step fresh s _ executed), observed⟩

end Server

end Cppboot.Http
