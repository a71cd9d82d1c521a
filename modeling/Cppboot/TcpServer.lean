import Mathlib.Logic.Function.Basic
import Cppboot.OutputStream

/-!
# The connections of a TCP server

The manager holds the connections that were started. `TcpConnManager::Stop` takes
a connection out and stops it, but a read or a write that fails stops its
connection without asking the manager, and an accept that fails starts a
connection all the same. So the manager holds exactly the connections that were
accepted without an error and are still connected as long as nothing but the
manager stops a connection and no accept fails.

Stopping a connection shuts its socket down first. That throws where the socket
is closed already and may throw where the peer is gone, and then the connection
is left as it was. The output side of a connection is the one of `TcpConn`; of
the input side only the outstanding read matters here. A connection remembers
whether it was accepted without an error; no operation reads this.
-/

namespace Cppboot

open Std Runs

namespace TcpConn

/-- A write that fails removes itself and then stops the connection. -/
theorem step_failed (c : TcpConn) (index : Nat) :
    c.step (.complete index (.failed false)) =
      (c.step (.complete index (.failed true))).map stop := by
  simp only [step, Transfers, onWrite]
  cases c.inFlight[index]? <;> rfl

/-- Nothing but a write that fails changes whether the connection is connected. -/
theorem step_connected {c after : TcpConn} {event : Event} (stepped : c.step event = some after)
    (calm : ∀ index, event ≠ .complete index (.failed false)) : after.connected = c.connected := by
  have started (c : TcpConn) : c.writeToSocket.connected = c.connected := by
    unfold writeToSocket
    split <;> rfl
  cases event with
  | send data =>
    cases stepped
    rfl
  | runPosted =>
    simp only [step, Option.ite_none_left_eq_some, Option.some.injEq] at stepped
    obtain ⟨_, rfl⟩ := stepped
    exact started _
  | complete index result =>
    simp only [step, Option.bind_eq_bind, Option.bind_eq_some_iff,
      Option.ite_none_right_eq_some, Option.some.injEq] at stepped
    obtain ⟨write, _, _, rfl⟩ := stepped
    cases result with
    | written bytes =>
      simp only [onWrite]
      split
      · rfl
      · exact started _
    | failed operationAborted =>
      cases operationAborted with
      | true => rfl
      | false => exact absurd rfl (calm index)

end TcpConn

/-- A connection of the server. -/
structure Peer where
  conn : TcpConn
  is_open : Bool
  reading : Bool
  clean : Bool

namespace Peer

/-- `TcpConn::Start`, on the socket of an accept. A failed one leaves it closed. -/
def start (ec : Bool) : Peer := ⟨.fresh, !ec, true, !ec⟩

/-- `TcpConn::Stop`, where shutting the socket down succeeds or throws. -/
def stop (peer : Peer) (shutdown : Bool) : Peer :=
  if shutdown then { peer with conn := peer.conn.stop, is_open := false } else peer

def send (peer : Peer) (data : Bytes) : Peer := { peer with conn := peer.conn.send data }

/-- Accepted without an error, and not disconnected since. -/
def Live (peer : Peer) : Prop := peer.clean = true ∧ peer.conn.connected = true

instance (peer : Peer) : Decidable peer.Live := inferInstanceAs (Decidable (_ ∧ _))

/-- What of a connection matters to the manager. -/
def view (peer : Peer) : Bool × Bool × Bool := (peer.is_open, peer.clean, peer.conn.connected)

end Peer

/-- The acceptor, the manager's set of connections, and the connections themselves. -/
structure TcpServer where
  accepting : Bool
  connections_ : ExtTreeSet Nat
  peers : Nat → Option Peer

namespace TcpServer

/-- What can happen. `shutdown` says whether shutting down the socket succeeds
where the connection is stopped. -/
inductive Event where
  | accept (c : Nat) (ec : Bool)
  | readDone (c : Nat)
  | readError (c : Nat) (operationAborted shutdown : Bool)
  | output (c : Nat) (event : TcpConn.Event)
  | writeError (c index : Nat) (shutdown : Bool)
  | managerStop (c : Nat) (shutdown : Bool)
  | boardcast (data : Bytes)
  | stop

def fresh : TcpServer := ⟨true, ∅, fun _ => none⟩

def setPeer (s : TcpServer) (c : Nat) (peer : Peer) : TcpServer :=
  { s with peers := Function.update s.peers c (some peer) }

/-- `TcpConnManager::Start`. -/
def start (s : TcpServer) (c : Nat) (peer : Peer) : TcpServer :=
  { s with connections_ := s.connections_.insert c }.setPeer c peer

/-- `TcpConnManager::Stop`. -/
def managerStop (s : TcpServer) (c : Nat) (peer : Peer) (shutdown : Bool) : TcpServer :=
  { s with connections_ := s.connections_.erase c }.setPeer c (peer.stop shutdown)

/-- `TcpConnManager::Boardcast`. -/
def boardcast (s : TcpServer) (data : Bytes) : TcpServer :=
  { s with peers := fun c =>
      if c ∈ s.connections_ then (s.peers c).map (·.send data) else s.peers c }

/-- A new connection is a new object, and the socket of a connection can be shut
down only while it is open. -/
def step (s : TcpServer) : Event → Option TcpServer
  | .accept c ec =>
    if s.accepting = false then some s
    else if (s.peers c).isSome then none
    else some (s.start c (.start ec))
  | .readDone c => do
    let peer ← s.peers c
    if peer.reading = true then some s else none
  | .readError c operationAborted shutdown => do
    let peer ← s.peers c
    if peer.reading = true ∧ (shutdown = true → peer.is_open = true) then
      let ended := { peer with reading := false }
      some (s.setPeer c (if operationAborted then ended else ended.stop shutdown))
    else none
  | .output c event => do
    let peer ← s.peers c
    match event with
    | .complete _ (.failed false) => none
    | _ =>
      let conn ← peer.conn.step event
      some (s.setPeer c { peer with conn := conn })
  | .writeError c index shutdown => do
    let peer ← s.peers c
    let conn ← peer.conn.step (.complete index (.failed true))
    if shutdown = true → peer.is_open = true then
      some (s.setPeer c ({ peer with conn := conn }.stop shutdown))
    else none
  | .managerStop c shutdown => do
    let peer ← s.peers c
    if shutdown = true → peer.is_open = true then some (s.managerStop c peer shutdown) else none
  | .boardcast data => some (s.boardcast data)
  | .stop => some { s with accepting := false }

/-- The manager holds a connection exactly when it is live. -/
def Exactly (s : TcpServer) (c : Nat) : Prop :=
  c ∈ s.connections_ ↔ ∃ peer, s.peers c = some peer ∧ peer.Live

/-- The manager holds exactly the live connections, and so what is broadcast is
sent on all of these and on no others. -/
structure Membership (s : TcpServer) : Prop where
  exactly : ∀ c, s.Exactly c
  sends : ∀ data c, (s.boardcast data).peers c =
    (s.peers c).map fun peer => if peer.Live then peer.send data else peer

/-- The event leaves the right connections with the manager. -/
def Sound (s : TcpServer) (event : Event) : Prop :=
  ∀ after, step s event = some after → after.Membership

/-- No accept fails, a read or a write that fails does not stop its connection,
and the manager does stop the connections it takes out. -/
def Orderly (s : TcpServer) : Event → Prop
  | .accept _ ec => s.accepting = true → ec = false
  | .readError _ operationAborted shutdown => operationAborted = true ∨ shutdown = false
  | .writeError _ _ shutdown => shutdown = false
  | .managerStop c shutdown => c ∈ s.connections_ → shutdown = true
  | _ => True

theorem setPeer_view {s : TcpServer} {c : Nat} {peer changed : Peer}
    (present : s.peers c = some peer) (same : changed.view = peer.view) (other : Nat) :
    ((s.setPeer c changed).peers other).map Peer.view = (s.peers other).map Peer.view := by
  by_cases here : other = c
  · subst here
    simp [setPeer, present, same]
  · simp [setPeer, Function.update_of_ne here]

/-- What a step does: it changes nothing that matters to the manager, or it starts
a connection, or it stops one behind the back of the manager, or through it. -/
theorem step_cases {s after : TcpServer} {event : Event} (stepped : step s event = some after) :
    (s.Orderly event ∧ after.connections_ = s.connections_ ∧
      ∀ c, (after.peers c).map Peer.view = (s.peers c).map Peer.view) ∨
    (∃ c ec, s.peers c = none ∧ (s.Orderly event ↔ ec = false) ∧
      after = s.start c (.start ec)) ∨
    (∃ c peer changed, s.peers c = some peer ∧ peer.is_open = true ∧ ¬ s.Orderly event ∧
      after = s.setPeer c (Peer.stop changed true)) ∨
    (∃ c peer shutdown, s.peers c = some peer ∧
      (s.Orderly event ↔ (c ∈ s.connections_ → shutdown = true)) ∧
      after = s.managerStop c peer shutdown) := by
  cases event with
  | accept c ec =>
    simp only [step] at stepped
    split at stepped
    next closed =>
      cases stepped
      exact .inl ⟨by simp [Orderly, closed], rfl, fun _ => rfl⟩
    next accepting =>
      simp only [Option.ite_none_left_eq_some, Option.some.injEq] at stepped
      obtain ⟨unused, rfl⟩ := stepped
      refine .inr (.inl ⟨c, ec, by simpa using unused, ?_, rfl⟩)
      have open_still : s.accepting = true := by simpa using accepting
      simp [Orderly, open_still]
  | readDone c =>
    simp only [step, Option.bind_eq_bind, Option.bind_eq_some_iff, Option.ite_none_right_eq_some,
      Option.some.injEq] at stepped
    obtain ⟨peer, _, _, rfl⟩ := stepped
    exact .inl ⟨trivial, rfl, fun _ => rfl⟩
  | readError c operationAborted shutdown =>
    simp only [step, Option.bind_eq_bind, Option.bind_eq_some_iff, Option.ite_none_right_eq_some,
      Option.some.injEq] at stepped
    obtain ⟨peer, present, ⟨_, opened⟩, rfl⟩ := stepped
    cases operationAborted with
    | true => exact .inl ⟨.inl rfl, rfl, setPeer_view present rfl⟩
    | false =>
      cases shutdown with
      | true => exact .inr (.inr (.inl ⟨c, peer, _, present, opened rfl, by simp [Orderly], rfl⟩))
      | false => exact .inl ⟨.inr rfl, rfl, setPeer_view present rfl⟩
  | output c event =>
    simp only [step, Option.bind_eq_bind, Option.bind_eq_some_iff] at stepped
    obtain ⟨peer, present, stepped⟩ := stepped
    split at stepped
    · cases stepped
    next calm =>
      simp only [Option.bind_eq_some_iff, Option.some.injEq] at stepped
      obtain ⟨conn, moved, rfl⟩ := stepped
      have same := TcpConn.step_connected moved calm
      exact .inl ⟨trivial, rfl, setPeer_view present (by simp [Peer.view, same])⟩
  | writeError c index shutdown =>
    simp only [step, Option.bind_eq_bind, Option.bind_eq_some_iff, Option.ite_none_right_eq_some,
      Option.some.injEq] at stepped
    obtain ⟨peer, present, conn, moved, opened, rfl⟩ := stepped
    have same := TcpConn.step_connected moved (by simp)
    cases shutdown with
    | true => exact .inr (.inr (.inl ⟨c, peer, _, present, opened rfl, by simp [Orderly], rfl⟩))
    | false => exact .inl ⟨rfl, rfl, setPeer_view present (by simp [Peer.view, Peer.stop, same])⟩
  | managerStop c shutdown =>
    simp only [step, Option.bind_eq_bind, Option.bind_eq_some_iff, Option.ite_none_right_eq_some,
      Option.some.injEq] at stepped
    obtain ⟨peer, present, opened, rfl⟩ := stepped
    exact .inr (.inr (.inr ⟨c, peer, shutdown, present, Iff.rfl, rfl⟩))
  | boardcast data =>
    cases stepped
    refine .inl ⟨trivial, rfl, ?_⟩
    intro c
    simp only [boardcast]
    split
    · rw [Option.map_map]
      rfl
    · rfl
  | stop =>
    cases stepped
    exact .inl ⟨trivial, rfl, fun _ => rfl⟩

/-- The socket of a connection is open exactly while the connection is live. -/
def Opened (s : TcpServer) : Prop :=
  ∀ c peer, s.peers c = some peer → (peer.is_open = true ↔ peer.Live)

/-- Liveness is a matter of the view. -/
theorem live_of_view {peer changed : Peer} (same : changed.view = peer.view) :
    changed.Live ↔ peer.Live := by
  simp only [Peer.view, Prod.mk.injEq] at same
  rw [Peer.Live, Peer.Live, same.2.1, same.2.2]

theorem Opened.setPeer {s : TcpServer} (opened : s.Opened) {c : Nat} {peer : Peer}
    (fit : peer.is_open = true ↔ peer.Live) : (s.setPeer c peer).Opened := by
  intro other found present
  by_cases same : other = c
  · subst same
    simp only [TcpServer.setPeer, Function.update_self, Option.some.injEq] at present
    exact present ▸ fit
  · simp only [TcpServer.setPeer, Function.update_of_ne same] at present
    exact opened other found present

/-- Stopping keeps the socket and the connection in step. -/
theorem stop_fit {peer : Peer} (fit : peer.is_open = true ↔ peer.Live) (shutdown : Bool) :
    (peer.stop shutdown).is_open = true ↔ (peer.stop shutdown).Live := by
  cases shutdown with
  | true => simp [Peer.stop, Peer.Live, TcpConn.stop]
  | false => exact fit

theorem Opened.step {s after : TcpServer} {event : Event} (opened : s.Opened)
    (stepped : step s event = some after) : after.Opened := by
  obtain ⟨_, _, views⟩ | ⟨c, ec, _, _, rfl⟩ | ⟨c, peer, changed, _, _, _, rfl⟩ |
    ⟨c, peer, shutdown, present, _, rfl⟩ := step_cases stepped
  · intro c changed present
    have view := views c
    rw [present, Option.map_some] at view
    obtain ⟨peer, found, same⟩ := Option.map_eq_some_iff.mp view.symm
    rw [live_of_view same.symm, ← opened c peer found]
    simp only [Peer.view, Prod.mk.injEq] at same
    rw [same.1]
  · apply Opened.setPeer
    · exact opened
    · cases ec <;> simp [Peer.start, Peer.Live, TcpConn.fresh]
  · apply opened.setPeer
    simp [Peer.stop, Peer.Live, TcpConn.stop]
  · apply Opened.setPeer
    · exact opened
    · exact stop_fit (opened c peer present) shutdown

/-- A connection is live in its view. -/
theorem live_iff_view (s : TcpServer) (c : Nat) :
    (∃ peer, s.peers c = some peer ∧ peer.Live) ↔
      ∃ is_open, (s.peers c).map Peer.view = some (is_open, true, true) := by
  cases s.peers c with
  | none => simp
  | some peer => simp [Peer.Live, Peer.view]

/-- Where one connection is touched, only that one has to be looked at. -/
theorem exactly_iff {s after : TcpServer} (exactly : ∀ c, s.Exactly c) (c : Nat)
    (members : ∀ other, other ≠ c → (other ∈ after.connections_ ↔ other ∈ s.connections_))
    (peers : ∀ other, other ≠ c → after.peers other = s.peers other) :
    (∀ other, after.Exactly other) ↔ after.Exactly c := by
  constructor
  · intro all
    exact all c
  · intro here other
    by_cases same : other = c
    · exact same ▸ here
    · rw [Exactly, members other same, peers other same]
      exact exactly other

/-- What is broadcast goes to the members. -/
theorem membership_iff (s : TcpServer) : s.Membership ↔ ∀ c, s.Exactly c := by
  constructor
  · intro membership
    exact membership.exactly
  · intro exactly
    refine ⟨exactly, ?_⟩
    intro data c
    have member := exactly c
    simp only [boardcast]
    cases present : s.peers c with
    | none => simp
    | some peer =>
      simp only [Exactly, present, Option.some.injEq, exists_eq_left'] at member
      by_cases live : peer.Live
      · simp [member.mpr live, live]
      · simp [mt member.mp live, live]

/-- As long as the manager holds the right connections, the orderly steps are
those that leave it with the right ones. -/
theorem orderly_iff_sound {s after : TcpServer} {event : Event} (opened : s.Opened)
    (exactly : ∀ c, s.Exactly c) (stepped : step s event = some after) :
    s.Orderly event ↔ s.Sound event := by
  have sound_iff : s.Sound event ↔ ∀ c, after.Exactly c := by
    rw [← membership_iff]
    constructor
    · intro sound
      exact sound after stepped
    · intro membership other same
      rw [stepped, Option.some.injEq] at same
      exact same ▸ membership
  rw [sound_iff]
  obtain ⟨orderly, members, views⟩ | ⟨c, ec, unused, orderly, rfl⟩ |
    ⟨c, peer, changed, present, is_open, disorderly, rfl⟩ |
    ⟨c, peer, shutdown, present, orderly, rfl⟩ := step_cases stepped
  · refine iff_of_true orderly ?_
    intro c
    rw [Exactly, members, live_iff_view, views, ← live_iff_view]
    exact exactly c
  · rw [orderly, exactly_iff exactly c]
    · cases ec <;> simp [Exactly, start, setPeer, Peer.start, Peer.Live, TcpConn.fresh]
    · intro other apart
      simp [start, setPeer, ExtTreeSet.mem_insert, Ne.symm apart]
    · intro other apart
      simp [start, setPeer, Function.update_of_ne apart]
  · -- The socket was open, so the connection was live and a member, which it still is.
    refine iff_of_false disorderly ?_
    intro after
    have live := (opened c peer present).mp is_open
    have member := (exactly c).mpr ⟨peer, present, live⟩
    have gone := (after c).mp member
    simp [setPeer, Peer.stop, Peer.Live, TcpConn.stop] at gone
  · rw [orderly, exactly_iff exactly c]
    · have member := exactly c
      simp only [Exactly, present, Option.some.injEq, exists_eq_left'] at member
      cases shutdown with
      | true => simp [Exactly, managerStop, setPeer, Peer.stop, Peer.Live, TcpConn.stop]
      | false => simp [Exactly, managerStop, setPeer, Peer.stop, member]
    · intro other apart
      simp [managerStop, setPeer, ExtTreeSet.mem_erase, Ne.symm apart]
    · intro other apart
      simp [managerStop, setPeer, Function.update_of_ne apart]

/-- What the orderly steps keep. -/
def Kept (s : TcpServer) : Prop := s.Opened ∧ ∀ c, s.Exactly c

/-- At the start there are no connections. -/
theorem fresh_kept : fresh.Kept := by
  constructor
  · intro c peer present
    cases present
  · intro c
    simp [Exactly, fresh]

/-- After an orderly step the members of the manager are still those that live. -/
theorem Kept.step {s after : TcpServer} {event : Event} (kept : s.Kept)
    (orderly : s.Orderly event) (stepped : step s event = some after) : after.Kept := by
  have sound := (orderly_iff_sound kept.1 kept.2 stepped).mp orderly
  exact ⟨kept.1.step stepped, (sound after stepped).exactly⟩

/-- The runs whose steps are all orderly are the runs in which after every step
the manager holds exactly the live connections and broadcasts to these. -/
theorem orderly_runs_keep_members (events : List Event) (final : TcpServer) :
    (Run (Guarded Orderly (Accepts step)) fresh events final ↔
      Run (Guarded Sound (Accepts step)) fresh events final) ∧
    (Run (Guarded Orderly (Accepts step)) fresh events final → final.Membership) := by
  constructor
  · apply Run.guards_agree Kept
    · intro before after event kept stepped
      exact orderly_iff_sound kept.1 kept.2 stepped
    · intro before after event kept orderly stepped
      exact kept.step orderly stepped
    · exact fresh_kept
  · intro run
    rw [membership_iff]
    have kept : final.Kept := by
      apply run.preserves Kept
      · intro before after event kept stepped
        exact kept.step stepped.1 stepped.2
      · exact fresh_kept
    exact kept.2

instance (s : TcpServer) (event : Event) : Decidable (s.Orderly event) := by
  cases event <;> unfold Orderly <;> infer_instance

/-- Two connections, of which the manager stops one before it broadcasts. -/
def stoppedByManager : List Event :=
  [.accept 0 false, .accept 1 false, .managerStop 0 true, .readError 0 true false,
    .boardcast [7]]

/-- Only the connection that is left gets what is broadcast. -/
theorem stopped_connection_spared :
    ∃ final, Run (Guarded Orderly (Accepts step)) fresh stoppedByManager final ∧
      final.Membership ∧
      (final.peers 0).map (·.conn.output_buffer_.str) = some [] ∧
      (final.peers 1).map (·.conn.output_buffer_.str) = some [7] := by
  have observed : (execute (restrict Orderly step) fresh stoppedByManager).map (fun final =>
      ((final.peers 0).map (·.conn.output_buffer_.str),
        (final.peers 1).map (·.conn.output_buffer_.str))) = some (some [], some [7]) := by
    decide +kernel
  obtain ⟨final, executed, seen⟩ := Option.map_eq_some_iff.mp observed
  obtain ⟨spared, sent⟩ := Prod.mk.inj seen
  have run := restrict_run Orderly step _ _ _ executed
  exact ⟨final, run, (orderly_runs_keep_members _ final).2 run, spared, sent⟩

/-- A peer that goes away leaves its connection with the manager, which goes on
broadcasting to it. A failed accept adds a connection that never was. -/
theorem gone_peer_kept :
    (∃ final, Run (Accepts step) fresh [.accept 0 false, .readError 0 false true] final ∧
      0 ∈ final.connections_ ∧ (final.peers 0).map (·.conn.connected) = some false ∧
      ((final.boardcast [7]).peers 0).map (·.conn.output_buffer_.str) = some [7] ∧
      ¬ final.Membership) ∧
    ∃ final, Run (Accepts step) fresh [.accept 0 true] final ∧ 0 ∈ final.connections_ ∧
      (final.peers 0).map (·.clean) = some false ∧ ¬ final.Membership := by
  constructor
  · have observed : (execute step fresh [.accept 0 false, .readError 0 false true]).map
        (fun final => decide (0 ∈ final.connections_ ∧
          (final.peers 0).map (·.conn.connected) = some false ∧
          ((final.boardcast [7]).peers 0).map (·.conn.output_buffer_.str) = some [7])) =
        some true := by
      decide +kernel
    obtain ⟨final, executed, seen⟩ := Option.map_eq_some_iff.mp observed
    obtain ⟨member, gone, sent⟩ := of_decide_eq_true seen
    refine ⟨final, execute_run _ _ _ _ executed, member, gone, sent, ?_⟩
    intro membership
    obtain ⟨peer, present, live⟩ := (membership.exactly 0).mp member
    rw [present, Option.map_some, Option.some.injEq, live.2] at gone
    cases gone
  · have observed : (execute step fresh [.accept 0 true]).map (fun final =>
        decide (0 ∈ final.connections_ ∧ (final.peers 0).map (·.clean) = some false)) =
        some true := by
      decide
    obtain ⟨final, executed, seen⟩ := Option.map_eq_some_iff.mp observed
    obtain ⟨member, failed⟩ := of_decide_eq_true seen
    refine ⟨final, execute_run _ _ _ _ executed, member, failed, ?_⟩
    intro membership
    obtain ⟨peer, present, live⟩ := (membership.exactly 0).mp member
    rw [present, Option.map_some, Option.some.injEq, live.1] at failed
    cases failed

end TcpServer

end Cppboot
