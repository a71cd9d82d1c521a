import Cppboot.BufferQueue
import Cppboot.TcpServer

/-!
# The chat room

The server sends everything that is read on a connection to all of its connections, under
the address of the one who spoke. Nothing in the room takes a connection out of the
manager, so a connection that was started is sent to for ever after, and each one has heard
everything that was said since it came.

The room keeps what was said, and where in that each connection came in. No operation
reads these records.
-/

namespace Cppboot

open Std Runs

/-- `RetriveAll` of a buffer in order. -/
def Buffer.retriveAll (b : Buffer) : Buffer :=
  ⟨b.toRaw.retriveAll, (Raw.retriveAll_exact b.formed).1⟩

theorem Buffer.retriveAll_str (b : Buffer) : b.retriveAll.str = [] :=
  (Raw.retriveAll_exact b.formed).2

/-- The server, the input buffers of its connections, what was said, and how much of it
before each connection was started. -/
structure ChatRoom where
  svr : TcpServer
  input_buffer_ : Nat → Buffer
  transcript : List Bytes
  joined : Nat → Nat

namespace ChatRoom

/-- An event of the server that the room takes no part in, or bytes that were read on a
connection, with what `GetRemoteAddress` gives for it. -/
inductive Event where
  | network (event : TcpServer.Event)
  | recv (conn : Nat) (username data : Bytes)

/-- The network does not send, and nothing asks the manager to stop a connection. -/
def FromNetwork : TcpServer.Event → Prop
  | .boardcast _ => False
  | .managerStop _ _ => False
  | .readDone _ => False
  | .output _ (.send _) => False
  | _ => True

instance : (event : TcpServer.Event) → Decidable (FromNetwork event)
  | .boardcast _ => instDecidableFalse
  | .managerStop _ _ => instDecidableFalse
  | .readDone _ => instDecidableFalse
  | .output _ (.send _) => instDecidableFalse
  | .output _ .runPosted => instDecidableTrue
  | .output _ (.complete _ _) => instDecidableTrue
  | .accept _ _ => instDecidableTrue
  | .readError _ _ _ => instDecidableTrue
  | .writeError _ _ _ => instDecidableTrue
  | .stop => instDecidableTrue

def fresh : ChatRoom := ⟨.fresh, fun _ => .fresh, [], fun _ => 0⟩

/-- A connection that is started comes in behind what was said so far. -/
def come (room : ChatRoom) (conn : Nat) : Nat :=
  if (room.svr.peers conn).isSome then room.joined conn else room.transcript.length

/-- The receive callback. -/
def reply (room : ChatRoom) (conn : Nat) (username data : Bytes) : Bytes :=
  username ++ text ": " ++ ((room.input_buffer_ conn).append data).str

def step (room : ChatRoom) : Event → Option ChatRoom
  | .network event =>
    if FromNetwork event then
      (room.svr.step event).map fun svr => { room with svr := svr, joined := room.come }
    else none
  | .recv conn username data => do
    let peer ← room.svr.peers conn
    if peer.reading = true then
      some { room with
        svr := room.svr.boardcast (room.reply conn username data)
        input_buffer_ := Function.update room.input_buffer_ conn
          ((room.input_buffer_ conn).append data).retriveAll
        transcript := room.transcript ++ [room.reply conn username data] }
    else none

/-- No connection starts a write during another, and what is sent during a write needs no
more room than there is. -/
def OneWriter (room : ChatRoom) : Event → Prop
  | .network (.output conn event) => ∀ peer ∈ room.svr.peers conn, peer.conn.OneWriter event
  | .network _ => True
  | .recv conn username data =>
    ∀ other ∈ room.svr.connections_.toList, ∀ peer ∈ room.svr.peers other,
      peer.conn.OneWriter (.send (room.reply conn username data))

/-- What the event says. -/
def Event.said : Event → Option Bytes
  | .network _ => none
  | .recv _ username data => some (username ++ text ": " ++ data)

/-- The event is not a write of the connection that fails. -/
def Event.Spares (conn : Nat) : Event → Prop
  | .network (.output other (.complete _ (.failed _))) => other ≠ conn
  | .network (.writeError other _ _) => other ≠ conn
  | _ => True

/-- What holds of the room, relative to what has happened in it. -/
structure Heard (history : List Event) (room : ChatRoom) : Prop where
  transcript : room.transcript = history.filterMap Event.said
  members : ∀ conn peer, room.svr.peers conn = some peer → conn ∈ room.svr.connections_
  emptied : ∀ conn, (room.input_buffer_ conn).str = []
  behind : ∀ conn, room.joined conn ≤ room.transcript.length
  streams : ∀ conn peer, room.svr.peers conn = some peer →
    TcpConn.Streaming (room.transcript.drop (room.joined conn)).flatten
      (∀ event ∈ history, event.Spares conn) peer.conn

theorem fresh_heard : Heard [] fresh where
  transcript := rfl
  members _ _ present := by contradiction
  emptied _ := Buffer.fresh_str
  behind _ := Nat.le_refl _
  streams _ _ present := by contradiction

section Network

variable {sent : Nat → Bytes} {flawless : Nat → Prop}

/-- Every connection of the server streams what was sent on it. -/
def AllStream (sent : Nat → Bytes) (flawless : Nat → Prop) (svr : TcpServer) : Prop :=
  ∀ conn peer, svr.peers conn = some peer →
    TcpConn.Streaming (sent conn) (flawless conn) peer.conn

/-- Where one connection is touched, only that one has to be looked at. -/
theorem AllStream.setPeer {svr : TcpServer} (all : AllStream sent flawless svr) {conn : Nat}
    {peer : Peer} (here : TcpConn.Streaming (sent conn) (flawless conn) peer.conn) :
    AllStream sent flawless (svr.setPeer conn peer) := by
  intro other found present
  by_cases same : other = conn
  · subst same
    simp only [TcpServer.setPeer, Function.update_self, Option.some.injEq] at present
    exact present ▸ here
  · simp only [TcpServer.setPeer, Function.update_of_ne same] at present
    exact all other found present

/-- Asking more of the writes keeps the streams. -/
theorem AllStream.weaken {svr : TcpServer} (all : AllStream sent flawless svr)
    {fewer : Nat → Prop} (implied : ∀ conn, fewer conn → flawless conn) :
    AllStream sent fewer svr := by
  intro conn peer present
  obtain ⟨content, single, pending⟩ := all conn peer present
  exact ⟨content, single, fun holds => pending (implied conn holds)⟩

/-- Stopping a connection does not touch its output. -/
theorem stop_streams {all : Bytes} {flawless : Prop} (peer : Peer)
    (streaming : TcpConn.Streaming all flawless peer.conn) (shutdown : Bool) :
    TcpConn.Streaming all flawless (peer.stop shutdown).conn := by
  obtain ⟨content, single, pending⟩ := streaming
  cases shutdown with
  | true => exact ⟨content, single, pending⟩
  | false => exact ⟨content, single, pending⟩

/-- What the network does to the connections keeps their streams. A connection that is
started has sent nothing. -/
theorem network_streams {room : ChatRoom} {after : TcpServer} {event : TcpServer.Event}
    (all : AllStream sent flawless room.svr)
    (unheard : ∀ conn, room.svr.peers conn = none → sent conn = [])
    (outside : FromNetwork event) (disciplined : room.OneWriter (.network event))
    (stepped : room.svr.step event = some after) :
    AllStream sent (fun conn => flawless conn ∧ (Event.network event).Spares conn) after := by
  have weaker : AllStream sent
      (fun conn => flawless conn ∧ (Event.network event).Spares conn) room.svr :=
    all.weaken fun conn both => both.1
  cases event with
  | accept conn ec =>
    simp only [TcpServer.step] at stepped
    split at stepped
    · exact Option.some.inj stepped ▸ weaker
    · simp only [Option.ite_none_left_eq_some, Option.some.injEq] at stepped
      obtain ⟨unused, rfl⟩ := stepped
      have joined : AllStream sent
          (fun conn => flawless conn ∧ (Event.network (.accept conn ec)).Spares conn)
          { room.svr with connections_ := room.svr.connections_.insert conn } := weaker
      refine joined.setPeer ?_
      have new : room.svr.peers conn = none := by simpa using unused
      obtain ⟨content, single, pending⟩ := TcpConn.fresh_streaming
      rw [unheard conn new]
      exact ⟨content, single, fun _ => pending trivial⟩
  | readDone conn => exact outside.elim
  | readError conn operationAborted shutdown =>
    simp only [TcpServer.step, Option.bind_eq_bind, Option.bind_eq_some_iff,
      Option.ite_none_right_eq_some, Option.some.injEq] at stepped
    obtain ⟨peer, present, _, rfl⟩ := stepped
    have here := weaker conn peer present
    refine weaker.setPeer ?_
    split
    · exact here
    · exact stop_streams { peer with reading := false } here shutdown
  | output conn event =>
    simp only [TcpServer.step, Option.bind_eq_bind, Option.bind_eq_some_iff] at stepped
    obtain ⟨peer, present, stepped⟩ := stepped
    have silent : event.data = [] := by
      cases event with
      | send data => exact outside.elim
      | _ => rfl
    split at stepped
    · cases stepped
    next calm =>
      simp only [Option.bind_eq_some_iff, Option.some.injEq] at stepped
      obtain ⟨moved, taken, rfl⟩ := stepped
      have advanced := TcpConn.step_streaming (all conn peer present)
        (disciplined peer present) taken
      rw [silent, List.append_nil] at advanced
      obtain ⟨content, single, pending⟩ := advanced
      refine weaker.setPeer ⟨content, single, fun both => pending ⟨both.1, ?_⟩⟩
      cases event with
      | complete index result =>
        cases result with
        | written bytes => trivial
        | failed operationAborted => exact both.2 rfl
      | _ => trivial
  | writeError conn index shutdown =>
    simp only [TcpServer.step, Option.bind_eq_bind, Option.bind_eq_some_iff,
      Option.ite_none_right_eq_some, Option.some.injEq] at stepped
    obtain ⟨peer, present, moved, taken, _, rfl⟩ := stepped
    have free : peer.conn.OneWriter (.complete index (.failed true)) := trivial
    have advanced := TcpConn.step_streaming (all conn peer present) free taken
    change TcpConn.Streaming (sent conn ++ []) _ moved at advanced
    rw [List.append_nil] at advanced
    obtain ⟨content, single, _⟩ := advanced
    refine weaker.setPeer (stop_streams { peer with conn := moved } ?_ shutdown)
    exact ⟨content, single, fun both => absurd rfl both.2⟩
  | managerStop conn shutdown => exact outside.elim
  | boardcast data => exact outside.elim
  | stop =>
    cases stepped
    exact weaker

/-- The network makes every connection it starts a member, and takes none away. -/
theorem network_members {svr after : TcpServer} {event : TcpServer.Event}
    (members : ∀ conn peer, svr.peers conn = some peer → conn ∈ svr.connections_)
    (outside : FromNetwork event) (stepped : svr.step event = some after) :
    (∀ conn peer, after.peers conn = some peer → conn ∈ after.connections_) := by
  have touched {conn : Nat} {peer changed : Peer} (present : svr.peers conn = some peer) :
      ∀ other found, (svr.setPeer conn changed).peers other = some found →
        other ∈ (svr.setPeer conn changed).connections_ := by
    intro other found present_
    by_cases same : other = conn
    · subst same
      exact members other peer present
    · simp only [TcpServer.setPeer, Function.update_of_ne same] at present_
      exact members other found present_
  cases event with
  | accept conn ec =>
    simp only [TcpServer.step] at stepped
    split at stepped
    · exact Option.some.inj stepped ▸ members
    · simp only [Option.ite_none_left_eq_some, Option.some.injEq] at stepped
      obtain ⟨_, rfl⟩ := stepped
      intro other found present
      simp only [TcpServer.start, TcpServer.setPeer] at present ⊢
      by_cases same : other = conn
      · subst same
        exact ExtTreeSet.mem_insert_self
      · rw [Function.update_of_ne same] at present
        exact ExtTreeSet.mem_insert.mpr (.inr (members other found present))
  | readDone conn => exact outside.elim
  | readError conn operationAborted shutdown =>
    simp only [TcpServer.step, Option.bind_eq_bind, Option.bind_eq_some_iff,
      Option.ite_none_right_eq_some, Option.some.injEq] at stepped
    obtain ⟨peer, present, _, rfl⟩ := stepped
    exact touched present
  | output conn event =>
    simp only [TcpServer.step, Option.bind_eq_bind, Option.bind_eq_some_iff] at stepped
    obtain ⟨peer, present, stepped⟩ := stepped
    split at stepped
    · cases stepped
    · simp only [Option.bind_eq_some_iff, Option.some.injEq] at stepped
      obtain ⟨moved, _, rfl⟩ := stepped
      exact touched present
  | writeError conn index shutdown =>
    simp only [TcpServer.step, Option.bind_eq_bind, Option.bind_eq_some_iff,
      Option.ite_none_right_eq_some, Option.some.injEq] at stepped
    obtain ⟨peer, present, moved, _, _, rfl⟩ := stepped
    exact touched present
  | managerStop conn shutdown => exact outside.elim
  | boardcast data => exact outside.elim
  | stop =>
    cases stepped
    exact members

end Network

/-- What is said goes out on every connection. -/
theorem said_streams {sent : Nat → Bytes} {flawless : Nat → Prop} {svr : TcpServer}
    (all : AllStream sent flawless svr)
    (members : ∀ conn peer, svr.peers conn = some peer → conn ∈ svr.connections_) {data : Bytes}
    (disciplined : ∀ other ∈ svr.connections_.toList, ∀ peer ∈ svr.peers other,
      peer.conn.OneWriter (.send data)) :
    AllStream (fun conn => sent conn ++ data) flawless (svr.boardcast data) := by
  intro conn peer present
  simp only [TcpServer.boardcast] at present
  split at present
  next member =>
    obtain ⟨before, found, rfl⟩ := Option.map_eq_some_iff.mp present
    exact TcpConn.send_streaming (all conn before found) data
      (disciplined conn (ExtTreeSet.mem_toList.mpr member) before found)
  next apart => exact absurd (members conn peer present) apart

theorem Heard.network {history : List Event} {room after : ChatRoom} {event : TcpServer.Event}
    (heard : Heard history room) (disciplined : room.OneWriter (.network event))
    (stepped : room.step (.network event) = some after) :
    Heard (history ++ [.network event]) after := by
  simp only [step, Option.ite_none_right_eq_some, Option.map_eq_some_iff] at stepped
  obtain ⟨outside, svr, moved, rfl⟩ := stepped
  have came : ∀ conn peer, room.svr.peers conn = some peer → room.come conn = room.joined conn :=
    fun conn peer present => if_pos (by rw [present]; rfl)
  have all : AllStream (fun conn => (room.transcript.drop (room.come conn)).flatten)
      (fun conn => ∀ event ∈ history, event.Spares conn) room.svr := by
    intro conn peer present
    dsimp only
    rw [came conn peer present]
    exact heard.streams conn peer present
  have unheard : ∀ conn, room.svr.peers conn = none →
      (room.transcript.drop (room.come conn)).flatten = [] := by
    intro conn missing
    rw [come, if_neg (by simp [missing]), List.drop_length, List.flatten_nil]
  refine ⟨?_, network_members heard.members outside moved, heard.emptied, ?_, ?_⟩
  · rw [List.filterMap_append, ← heard.transcript]
    exact (List.append_nil _).symm
  · intro conn
    change room.come conn ≤ room.transcript.length
    unfold come
    split
    · exact heard.behind conn
    · exact Nat.le_refl _
  · refine (network_streams all unheard outside disciplined moved).weaken ?_
    intro conn spared
    exact ⟨fun event member => spared event (List.mem_append_left _ member),
      spared _ (List.mem_append_right _ (List.mem_singleton.mpr rfl))⟩

theorem Heard.recv {history : List Event} {room after : ChatRoom} {conn : Nat}
    {username data : Bytes} (heard : Heard history room)
    (disciplined : room.OneWriter (.recv conn username data))
    (stepped : room.step (.recv conn username data) = some after) :
    Heard (history ++ [.recv conn username data]) after := by
  simp only [step, Option.bind_eq_bind, Option.bind_eq_some_iff, Option.ite_none_right_eq_some,
    Option.some.injEq] at stepped
  obtain ⟨_, _, _, rfl⟩ := stepped
  have spoken : room.reply conn username data = username ++ text ": " ++ data := by
    rw [reply, Buffer.append_str, heard.emptied conn, List.nil_append]
  refine ⟨?_, ?_, ?_, ?_, ?_⟩
  · rw [List.filterMap_append, ← heard.transcript, spoken]
    rfl
  · intro other peer present
    simp only [TcpServer.boardcast] at present ⊢
    split at present
    next member => exact member
    next => exact heard.members other peer present
  · intro other
    dsimp only
    by_cases same : other = conn
    · subst same
      rw [Function.update_self, Buffer.retriveAll_str]
    · rw [Function.update_of_ne same]
      exact heard.emptied other
  · intro other
    rw [List.length_append]
    exact Nat.le_add_right_of_le (heard.behind other)
  · have all : AllStream (fun conn => (room.transcript.drop (room.joined conn)).flatten)
        (fun conn => ∀ event ∈ history, event.Spares conn) room.svr := heard.streams
    have sent := said_streams all heard.members disciplined
    intro other peer present
    obtain ⟨content, single, pending⟩ := sent other peer present
    dsimp only
    rw [List.drop_append_of_le_length (heard.behind other), List.flatten_append,
      List.flatten_singleton]
    exact ⟨content, single, fun spared =>
      pending fun event member => spared event (List.mem_append_left _ member)⟩

/-- Whoever is in the room hears what is said from then on. In every run in which no
connection starts a write during another and nothing that is sent during a write needs more
room, what was said is what was read, each time under the address of its connection; and
what has arrived on a connection is at all times the beginning of what was said since it
was started. When nothing is posted and nothing in flight on it, and none of its writes
failed, all of that has arrived. -/
theorem everyone_hears {events : List Event} {room : ChatRoom}
    (run : Run (Guarded OneWriter (Accepts step)) fresh events room) :
    room.transcript = events.filterMap Event.said ∧
      ∀ conn peer, room.svr.peers conn = some peer →
        peer.conn.wire <+: (room.transcript.drop (room.joined conn)).flatten ∧
        ((∀ event ∈ events, event.Spares conn) → peer.conn.posted = 0 →
          peer.conn.inFlight = [] →
          peer.conn.wire = (room.transcript.drop (room.joined conn)).flatten) := by
  have heard : Heard events room := by
    refine run.history Heard ?_ fresh_heard
    intro history before after event heard taken
    cases event with
    | network event => exact heard.network taken.1 taken.2
    | recv conn username data => exact heard.recv taken.1 taken.2
  refine ⟨heard.transcript, ?_⟩
  intro conn peer present
  obtain ⟨content, _, pending⟩ := heard.streams conn peer present
  refine ⟨⟨peer.conn.output_buffer_.str, content⟩, ?_⟩
  intro spared quiet idle
  have sent : peer.conn.output_buffer_.str = [] := by
    by_contra left
    rcases pending spared left with posted | busy
    · omega
    · exact busy idle
  rw [← content, sent, List.append_nil]

instance (room : ChatRoom) (event : Event) : Decidable (room.OneWriter event) := by
  unfold OneWriter
  split <;> infer_instance

/-- Somebody speaks before the other one comes, and somebody after. -/
def twoSpeak : List Event :=
  [.network (.accept 0 false), .recv 0 (text "a") (text "x"), .network (.output 0 .runPosted),
    .network (.output 0 (.complete 0 (.written (text "a: x")))), .network (.accept 1 false),
    .recv 1 (text "b") (text "y"), .network (.output 1 .runPosted),
    .network (.output 1 (.complete 0 (.written (text "b: y"))))]

/-- The one who came later has heard the second only. -/
theorem later_hears_less :
    ∃ room peer, Run (Guarded OneWriter (Accepts step)) fresh twoSpeak room ∧
      room.transcript = [text "a: x", text "b: y"] ∧ room.svr.peers 1 = some peer ∧
      peer.conn.wire = (room.transcript.drop (room.joined 1)).flatten ∧
      peer.conn.wire = text "b: y" := by
  have observed : (execute (restrict OneWriter step) fresh twoSpeak).bind (fun room =>
      (room.svr.peers 1).map fun peer => (peer.conn.posted, peer.conn.inFlight, peer.conn.wire)) =
      some (0, [], text "b: y") := by
    decide +kernel
  obtain ⟨room, executed, found⟩ := Option.bind_eq_some_iff.mp observed
  obtain ⟨peer, present, same⟩ := Option.map_eq_some_iff.mp found
  obtain ⟨quiet, idle, wire⟩ : peer.conn.posted = 0 ∧ peer.conn.inFlight = [] ∧
      peer.conn.wire = text "b: y" := by
    simpa using same
  have run := restrict_run OneWriter step fresh room _ executed
  obtain ⟨spoken, hears⟩ := everyone_hears run
  refine ⟨room, peer, run, spoken.trans (by decide), present, ?_, wire⟩
  refine (hears 1 peer present).2 ?_ quiet idle
  simp [twoSpeak, Event.Spares]

end ChatRoom

end Cppboot
