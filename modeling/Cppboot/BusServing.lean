import Cppboot.BusEndpoints
import Cppboot.Runs

/-!
# The server of the bus and its connections

The server hears of a connection when it comes up, when bytes were read on it and
when it goes down. A connection that comes up gets a new context. One read gives
at most one message, and the message of a local request for `RegisterService`
enters its connection into the router under the name it carries. When a
connection goes down, the router forgets the name in its context. No operation
sets that name, so it is the empty name, whatever was registered.

A read that was complete when its connection went down is still handled, so a
message may come from a connection that is no longer connected.

The state keeps what the server has heard, the latest first. No operation reads
this record. The router is a function of it: a name belongs to the connection
that registered it last, and the empty name is free again when a connection with
a context goes down.
-/

namespace Cppboot

open Std Runs

/-- A message that is parsed does not touch the name in the context. -/
theorem BusContext.parse_name {μ : Type} (unpack : Bytes → Option μ) (ctx : BusContext)
    (buf : Buffer) : (ctx.parse unpack buf).2.1.name_ = ctx.name_ := by
  have body (ctx : BusContext) (buf : Buffer) :
      (ctx.parseBody unpack buf).2.1.name_ = ctx.name_ := by
    unfold parseBody
    split
    · rfl
    · dsimp only
      split <;> rfl
  unfold parse
  split
  · split
    · rfl
    · dsimp only
      split
      · rfl
      · rw [body]
  · exact body ctx buf

/-- The two states in which the server sees a connection. -/
inductive Conn.State where
  | kDisconnected
  | kConnected
deriving DecidableEq, Repr

/-- A connection of the server. Its context is kept when it goes down. -/
structure Conn where
  state_ : Conn.State
  context_ : Option BusContext
  input_buffer_ : Buffer

def Conn.fresh : Conn := ⟨.kDisconnected, none, .fresh⟩

def BusRouter.remove (connections_ : BusRouter.Connections) (name : Bytes) :
    BusRouter.Connections :=
  connections_.erase name

namespace BusServer

/-- What the server hears of. -/
inductive Happening where
  | up (conn : Nat)
  | down (conn : Nat)
  | message (conn : Nat) (msg : Msg)

/-- The router, the connections and the record of what was heard. -/
structure Serving where
  connections_ : BusRouter.Connections
  conns : Nat → Conn
  heard : List Happening

/-- What the network reports about a connection. -/
inductive Event where
  | connected (conn : Nat)
  | disconnected (conn : Nat)
  | received (conn : Nat) (data : Bytes)

namespace Serving

def fresh : Serving := ⟨∅, fun _ => .fresh, []⟩

def setState (s : Serving) (conn : Nat) (state : Conn.State) : Serving :=
  { s with conns := Function.update s.conns conn { s.conns conn with state_ := state } }

def setContext (s : Serving) (conn : Nat) (context : BusContext) : Serving :=
  { s with conns := Function.update s.conns conn { s.conns conn with context_ := some context } }

/-- The record of what was heard grows in front. -/
def hear (s : Serving) (happening : Happening) : Serving :=
  { s with heard := happening :: s.heard }

/-- Called after the state of a connection changed. -/
def handleConnection (s : Serving) (conn : Nat) : Serving :=
  match (s.conns conn).state_ with
  | .kConnected => s.setContext conn .fresh
  | .kDisconnected =>
    match (s.conns conn).context_ with
    | some ctx => { s with connections_ := BusRouter.remove s.connections_ ctx.name_ }
    | none => s

/-- What the server sends for a message from a connection. -/
def sends (s : Serving) (conn : Nat) (msg : Msg) : Option (Nat × Msg) :=
  (handleMessage s.connections_ (msg.setSrc conn)).2

/-- `HandleMessage` for a message from a connection. -/
def handle (s : Serving) (conn : Nat) (msg : Msg) : Serving :=
  { s with connections_ := (handleMessage s.connections_ (msg.setSrc conn)).1 }

/-- `OnReceive` with the context of the connection, after the bytes of one read
were appended to its buffer. -/
def onReceive (lib : JsonLibrary) (s : Serving) (conn : Nat) (ctx : BusContext) (data : Bytes) :
    Serving :=
  match receive lib ctx (s.conns conn).input_buffer_ data with
  | (result, ctx, buf) =>
    let s := { s with
      conns := Function.update s.conns conn
        { s.conns conn with context_ := some ctx, input_buffer_ := buf } }
    match result with
    | .kGood msg => (s.handle conn msg).hear (.message conn msg)
    | .kBad => s
    | .kContinue => s

/-- A connection is read only after it came up, when it has a context. -/
def step (lib : JsonLibrary) (s : Serving) : Event → Option Serving
  | .connected conn => some (((s.setState conn .kConnected).handleConnection conn).hear (.up conn))
  | .disconnected conn =>
    some (((s.setState conn .kDisconnected).handleConnection conn).hear (.down conn))
  | .received conn data =>
    match (s.conns conn).context_ with
    | some ctx => some (s.onReceive lib conn ctx data)
    | none => none

end Serving

/-- The message makes the server register its connection. -/
def Registers (msg : Msg) : Prop :=
  msg.is_request_ = true ∧ IsLocal msg ∧ msg.method_ = text "RegisterService"

instance (msg : Msg) : Decidable (Registers msg) := inferInstanceAs (Decidable (_ ∧ _ ∧ _))

/-- The name that a registration carries. -/
def serviceName (msg : Msg) : Bytes := msg.params_.values_.getD (text "ServiceName") []

/-- What a message does to the router. -/
theorem handleMessage_connections (connections_ : BusRouter.Connections) (conn : Nat) (msg : Msg) :
    (handleMessage connections_ (msg.setSrc conn)).1 =
      if Registers msg then connections_.insert (serviceName msg) (some conn)
      else connections_ := by
  have named : (In.copy ⟨some conn, ∅⟩ msg.params_).get (text "ServiceName") = serviceName msg := by
    rw [In.copy_empty]
    rfl
  have owned : (In.copy ⟨some conn, ∅⟩ msg.params_).conn = some conn := by
    rw [In.copy_empty]
  by_cases request : msg.is_request_ = true
  · by_cases mine : IsLocal msg
    · by_cases registers : msg.method_ = text "RegisterService"
      · rw [if_pos ⟨request, mine, registers⟩, ← named]
        have cut : handleMessage connections_ (msg.setSrc conn) =
            handleRequestMessage connections_ (msg.setSrc conn) := if_pos request
        rw [cut, handleRequestMessage, if_pos (show IsLocal (msg.setSrc conn) from mine),
          localMethod, if_pos (show (msg.setSrc conn).method_ = _ from registers)]
        change connections_.insert _ (In.copy ⟨some conn, ∅⟩ msg.params_).conn = _
        rw [owned]
        rfl
      · rw [if_neg fun all => registers all.2.2, handleMessage,
          if_pos (show (msg.setSrc conn).is_request_ = true from request), handleRequestMessage,
          if_pos (show IsLocal (msg.setSrc conn) from mine), localMethod,
          if_neg (show ¬ (msg.setSrc conn).method_ = _ from registers)]
    · rw [if_neg fun all => mine all.2.1, handleMessage,
        if_pos (show (msg.setSrc conn).is_request_ = true from request), handleRequestMessage,
        if_neg (show ¬ IsLocal (msg.setSrc conn) from mine)]
  · rw [if_neg fun all => request all.1, handleMessage,
      if_neg (show ¬ (msg.setSrc conn).is_request_ = true from request)]
    rfl

namespace Serving

/-- The message that a read gives, if it gives one. -/
def incoming (lib : JsonLibrary) (s : Serving) (conn : Nat) (data : Bytes) : Option Msg :=
  match (s.conns conn).context_ with
  | some ctx =>
    match receive lib ctx (s.conns conn).input_buffer_ data with
    | (.kGood msg, _, _) => some msg
    | (.kBad, _, _) => none
    | (.kContinue, _, _) => none
  | none => none

/-- What a step does. A read keeps the name in the context of its connection. -/
theorem step_cases {lib : JsonLibrary} {s after : Serving} {event : Event}
    (stepped : step lib s event = some after) :
    (∃ conn, event = .connected conn ∧
      after = ⟨s.connections_, Function.update s.conns conn
        { s.conns conn with state_ := .kConnected, context_ := some .fresh },
        .up conn :: s.heard⟩) ∨
    (∃ conn, event = .disconnected conn ∧
      after = ⟨((s.conns conn).context_.elim s.connections_ fun ctx =>
          s.connections_.erase ctx.name_),
        Function.update s.conns conn { s.conns conn with state_ := .kDisconnected },
        .down conn :: s.heard⟩) ∨
    (∃ conn data ctx context buf, event = .received conn data ∧
      (s.conns conn).context_ = some ctx ∧ context.name_ = ctx.name_ ∧
      after = ⟨((s.incoming lib conn data).elim s.connections_ fun msg =>
          if Registers msg then s.connections_.insert (serviceName msg) (some conn)
          else s.connections_),
        Function.update s.conns conn
          { s.conns conn with context_ := some context, input_buffer_ := buf },
        (s.incoming lib conn data).elim s.heard fun msg => .message conn msg :: s.heard⟩) := by
  cases event with
  | connected conn =>
    left
    refine ⟨conn, rfl, ?_⟩
    simp only [step, Option.some.injEq] at stepped
    rw [← stepped]
    simp [handleConnection, setState, setContext, hear]
  | disconnected conn =>
    right; left
    refine ⟨conn, rfl, ?_⟩
    simp only [step, Option.some.injEq] at stepped
    rw [← stepped]
    cases present : (s.conns conn).context_ <;>
      simp [handleConnection, setState, hear, present, BusRouter.remove]
  | received conn data =>
    right; right
    cases present : (s.conns conn).context_ with
    | none => simp [step, present] at stepped
    | some ctx =>
      simp only [step, present, Option.some.injEq] at stepped
      have named := BusContext.parse_name (JsonPacker.unpackNew lib) ctx
        ((s.conns conn).input_buffer_.append data)
      rcases called : receive lib ctx (s.conns conn).input_buffer_ data with ⟨result, context, buf⟩
      change ctx.parse _ _ = _ at called
      rw [called] at named
      change receive lib ctx _ data = _ at called
      refine ⟨conn, data, ctx, context, buf, rfl, present, named, ?_⟩
      rw [← stepped]
      cases result with
      | kContinue => simp [onReceive, incoming, called, present]
      | kBad => simp [onReceive, incoming, called, present]
      | kGood msg =>
        simp [onReceive, incoming, called, present, handle, hear, handleMessage_connections]

/-- No operation sets the name in a context. -/
def Unnamed (s : Serving) : Prop :=
  ∀ conn ctx, (s.conns conn).context_ = some ctx → ctx.name_ = []

/-- A connection may change as long as its context stays without a name. -/
theorem Unnamed.update {s : Serving} (unnamed : s.Unnamed) {conn : Nat} {changed : Conn}
    (blank : ∀ ctx, changed.context_ = some ctx → ctx.name_ = [])
    (connections_ : BusRouter.Connections) (heard : List Happening) :
    Unnamed ⟨connections_, Function.update s.conns conn changed, heard⟩ := by
  intro other ctx present
  by_cases same : other = conn
  · subst same
    simp only [Function.update_self] at present
    exact blank ctx present
  · simp only [Function.update_of_ne same] at present
    exact unnamed other ctx present

theorem Unnamed.step {lib : JsonLibrary} {s after : Serving} {event : Event}
    (unnamed : s.Unnamed) (stepped : step lib s event = some after) : after.Unnamed := by
  obtain ⟨conn, rfl, rfl⟩ | ⟨conn, rfl, rfl⟩ |
    ⟨conn, data, read, context, buf, rfl, before, named, rfl⟩ := step_cases stepped
  · apply unnamed.update
    rintro ctx ⟨⟩
    rfl
  · apply unnamed.update
    exact unnamed conn
  · apply unnamed.update
    rintro ctx ⟨⟩
    rw [named]
    exact unnamed conn read before

/-- Every entry of the router is a connection that is connected. -/
def Live (s : Serving) : Prop :=
  ∀ (name : Bytes) (ptr : ConnPtr), s.connections_[name]? = some ptr →
    ∃ conn, ptr = some conn ∧ (s.conns conn).state_ = .kConnected

/-- Exactly the entries of a connection are gone. -/
def Dropped (s : Serving) (conn : Nat) (after : Serving) : Prop :=
  ∀ (name : Bytes) (ptr : ConnPtr), after.connections_[name]? = some ptr ↔
    s.connections_[name]? = some ptr ∧ ptr ≠ some conn

/-- The event leaves a live router behind, without the entries of a connection
that goes down and with all others. -/
def Sound (lib : JsonLibrary) (s : Serving) (event : Event) : Prop :=
  ∀ after, step lib s event = some after →
    after.Live ∧ ∀ conn, event = .disconnected conn → s.Dropped conn after

/-- A connection goes down only when the entry under the empty name, if there is
one and the connection has a context, is its own and its only one; and only a
connection that is connected registers. -/
def Orderly (lib : JsonLibrary) (s : Serving) : Event → Prop
  | .connected _ => True
  | .disconnected conn =>
    ∀ (name : Bytes) (ptr : ConnPtr), s.connections_[name]? = some ptr →
      (ptr = some conn ↔ name = [] ∧ (s.conns conn).context_.isSome)
  | .received conn data =>
    ∀ msg, s.incoming lib conn data = some msg → Registers msg →
      (s.conns conn).state_ = .kConnected

/-- What is left in the router when a connection goes down. -/
theorem removed_getElem? {s : Serving} (unnamed : s.Unnamed) (conn : Nat) (name : Bytes) :
    ((s.conns conn).context_.elim s.connections_ fun ctx =>
        s.connections_.erase ctx.name_)[name]? =
      if name = [] ∧ (s.conns conn).context_.isSome then none else s.connections_[name]? := by
  cases present : (s.conns conn).context_ with
  | none => simp
  | some ctx =>
    simp only [Option.elim_some, Option.isSome_some, and_true, unnamed conn ctx present,
      ExtTreeMap.getElem?_erase, LawfulEqCmp.compare_eq_iff_eq]
    simp only [eq_comm]

/-- Removing the empty name is right when a connection goes down exactly where it
was its one entry. -/
theorem down_sound_iff {s after : Serving} (live : s.Live) (lib : JsonLibrary) {conn : Nat}
    (left : ∀ name : Bytes, after.connections_[name]? =
      if name = [] ∧ (s.conns conn).context_.isSome then none else s.connections_[name]?)
    (others : ∀ other, other ≠ conn → (after.conns other).state_ = (s.conns other).state_) :
    s.Orderly lib (.disconnected conn) ↔ after.Live ∧ s.Dropped conn after := by
  constructor
  · intro orderly
    have dropped : s.Dropped conn after := by
      intro name ptr
      rw [left]
      constructor
      · intro entry
        split at entry
        next => contradiction
        next stays => exact ⟨entry, fun mine => stays ((orderly name ptr entry).mp mine)⟩
      · rintro ⟨entry, other⟩
        rw [if_neg fun removed => other ((orderly name ptr entry).mpr removed)]
        exact entry
    refine ⟨?_, dropped⟩
    intro name ptr entry
    obtain ⟨before, other⟩ := (dropped name ptr).mp entry
    obtain ⟨owner, rfl, connected⟩ := live name ptr before
    have apart : owner ≠ conn := fun same => other (congrArg some same)
    exact ⟨owner, rfl, (others owner apart).trans connected⟩
  · rintro ⟨_, dropped⟩ name ptr entry
    have kept := dropped name ptr
    rw [left] at kept
    constructor
    · intro mine
      by_contra stays
      rw [if_neg stays] at kept
      exact (kept.mp entry).2 mine
    · intro removed
      rw [if_pos removed] at kept
      by_contra other
      exact absurd (kept.mpr ⟨entry, other⟩) (by simp)

/-- A read keeps a router live exactly when no connection that is gone
registers. -/
theorem read_live_iff {s after : Serving} (live : s.Live) {lib : JsonLibrary} {conn : Nat}
    {data : Bytes}
    (router : after.connections_ = (s.incoming lib conn data).elim s.connections_ fun msg =>
      if Registers msg then s.connections_.insert (serviceName msg) (some conn)
      else s.connections_)
    (states : ∀ other, (after.conns other).state_ = (s.conns other).state_) :
    s.Orderly lib (.received conn data) ↔ after.Live := by
  unfold Live Orderly
  simp only [states, router]
  cases s.incoming lib conn data with
  | none => exact iff_of_true (by simp) live
  | some msg =>
    by_cases registers : Registers msg
    · simp only [Option.elim_some, if_pos registers, Option.some.injEq, forall_eq']
      constructor
      · intro connected name ptr entry
        rw [ExtTreeMap.getElem?_insert] at entry
        split at entry
        next => exact ⟨conn, (Option.some.inj entry).symm, connected registers⟩
        next => exact live name ptr entry
      · intro alive _
        obtain ⟨owner, same, connected⟩ := alive (serviceName msg) (some conn)
          ExtTreeMap.getElem?_insert_self
        rw [Option.some.inj same]
        exact connected
    · simp only [Option.elim_some, if_neg registers, Option.some.injEq, forall_eq']
      exact iff_of_true (fun registered => absurd registered registers) live

/-- In a live router the orderly steps are the sound ones. -/
theorem orderly_iff_sound {lib : JsonLibrary} {s after : Serving} {event : Event}
    (unnamed : s.Unnamed) (live : s.Live) (stepped : step lib s event = some after) :
    s.Orderly lib event ↔ s.Sound lib event := by
  have sound_iff : s.Sound lib event ↔
      after.Live ∧ ∀ conn, event = .disconnected conn → s.Dropped conn after := by
    constructor
    · intro sound
      exact sound after stepped
    · intro holds other same
      rw [stepped, Option.some.injEq] at same
      exact same ▸ holds
  rw [sound_iff]
  obtain ⟨conn, rfl, up⟩ | ⟨conn, rfl, down⟩ |
    ⟨conn, data, ctx, context, buf, rfl, present, named, read⟩ := step_cases stepped
  · refine iff_of_true trivial ⟨?_, by simp⟩
    rw [up]
    intro name ptr entry
    obtain ⟨other, rfl, connected⟩ := live name ptr entry
    refine ⟨other, rfl, ?_⟩
    by_cases same : other = conn
    · subst same
      simp
    · simpa [Function.update_of_ne same] using connected
  · have left (name : Bytes) : after.connections_[name]? =
        if name = [] ∧ (s.conns conn).context_.isSome then none else s.connections_[name]? := by
      rw [down]
      exact removed_getElem? unnamed conn name
    have others (other : Nat) (apart : other ≠ conn) :
        (after.conns other).state_ = (s.conns other).state_ := by
      simp [down, Function.update_of_ne apart]
    rw [down_sound_iff live lib left others]
    simp
  · have states (other : Nat) : (after.conns other).state_ = (s.conns other).state_ := by
      rw [read]
      by_cases same : other = conn
      · subst same
        simp
      · simp [Function.update_of_ne same]
    rw [read_live_iff live (congrArg connections_ read) states]
    simp

/-- The runs in which every step is orderly are the runs in which, after every
step, every entry of the router is a connection that is connected, and a
connection that went down has lost exactly its entries. -/
theorem orderly_runs_stay_live (lib : JsonLibrary) (events : List Event) (final : Serving) :
    Run (Guarded (Orderly lib) (Accepts (step lib))) fresh events final ↔
      Run (Guarded (Sound lib) (Accepts (step lib))) fresh events final := by
  apply Run.guards_agree fun s => s.Unnamed ∧ s.Live
  · rintro before after event ⟨unnamed, live⟩ stepped
    exact orderly_iff_sound unnamed live stepped
  · rintro before after event ⟨unnamed, live⟩ orderly stepped
    have sound := (orderly_iff_sound unnamed live stepped).mp orderly
    exact ⟨unnamed.step stepped, (sound after stepped).1⟩
  · constructor
    · intro conn ctx present
      simp [fresh, Conn.fresh] at present
    · intro name ptr entry
      simp [fresh] at entry

/-- The frame of a message. -/
def frameFor (msg : Msg) : Bytes :=
  match JsonPacker.pack .canonical msg with
  | .ok body => frameOf body
  | .error _ => []

/-- The request that `Start` sends for a client with this name. -/
def registration (name : Bytes) : Msg :=
  ((Msg.fresh.setCaller name).setMethod (text "RegisterService")).setParam
    (text "ServiceName") name

/-- A connection registers under a name and goes down. -/
def registeredThenDown : List Event :=
  [.connected 0, .received 0 (frameFor (registration (text "a"))), .disconnected 0]

/-- Its entry stays in the router. -/
theorem dead_entry_stays :
    ∃ final, Run (Accepts (step .canonical)) fresh registeredThenDown final ∧
      final.connections_[text "a"]? = some (some 0) ∧
      (final.conns 0).state_ = .kDisconnected ∧ ¬ final.Live := by
  have observed : (execute (step .canonical) fresh registeredThenDown).map (fun final =>
      decide (final.connections_[text "a"]? = some (some 0) ∧
        (final.conns 0).state_ = .kDisconnected)) = some true := by
    decide +kernel
  obtain ⟨final, executed, seen⟩ := Option.map_eq_some_iff.mp observed
  obtain ⟨entry, disconnected⟩ := of_decide_eq_true seen
  refine ⟨final, execute_run _ _ _ _ executed, entry, disconnected, ?_⟩
  intro live
  obtain ⟨conn, same, connected⟩ := live _ _ entry
  rw [← Option.some.inj same, disconnected] at connected
  exact Conn.State.noConfusion connected

end Serving

end BusServer

end Cppboot
