import Cppboot.BusRpc
import Cppboot.QueueWork

/-!
# Every call over the bus comes to an end

A call is one request on its way to the server, then to the provider, and one response on
its way to the server, then to the caller. So each frame under way stands for a number of
deliveries that is still to come, at most four, and a delivery leaves behind one frame less
or a frame with one delivery less to come. Whatever the clients call, there are no more than
four deliveries for a call, as long as no write through a dangling pointer has an effect.

A message is dropped where it cannot be packed, and by the server where it does not know
the client it is for. Nothing else loses a call: as long as no message is dropped, a result
that has not come yet has its request or its response under way. When nothing is under way
any more every call has returned.
-/

namespace Cppboot.Bus

open Std Runs QueueWork

variable {lib : JsonLibrary} {names : Nat → Bytes} {s after : Bus}

/-- The message in a frame. -/
def opened (lib : JsonLibrary) (frame : Bytes) : Option Msg :=
  JsonPacker.unpackNew lib (frame.drop MsgHeader.size)

/-- Opening a frame gives the message as it is read back. -/
theorem opened_frameOf (faithful : lib.Faithful) {msg : Msg} {body : Bytes}
    (packed : JsonPacker.pack lib msg = .ok body) :
    opened lib (frameOf body) = some (JsonPacker.reread msg) := by
  rw [opened, frameOf_eq, JsonPacker.unpackNew]
  rw [show MsgHeader.size = (⟨kMsgMagic, UInt32.ofNat body.length + 1⟩ : MsgHeader).toBytes.length
    from (MsgHeader.toBytes_length _).symm, List.drop_left, JsonPacker.unpack_body faithful packed]

/-- Where a message came from is not packed. -/
theorem pack_src (lib : JsonLibrary) (msg : Msg) (src : ConnPtr) :
    JsonPacker.pack lib { msg with src := src } = JsonPacker.pack lib msg := by
  rw [JsonPacker.pack_eq, JsonPacker.pack_eq]
  rfl

/-- A message is sent as one more frame, or not at all. -/
theorem send_cases (lib : JsonLibrary) (queues : Nat → List Bytes) (conn : Nat) (msg : Msg) :
    (∃ body, JsonPacker.pack lib msg = .ok body ∧
      send lib queues conn msg = Function.update queues conn (queues conn ++ [frameOf body])) ∨
    ((∀ body, JsonPacker.pack lib msg ≠ .ok body) ∧ send lib queues conn msg = queues) := by
  unfold send
  cases packed : JsonPacker.pack lib msg with
  | ok body => exact .inl ⟨body, rfl, rfl⟩
  | error what => exact .inr ⟨fun _ => nofun, rfl⟩

/-- Sending takes no frame away. -/
theorem send_keeps (lib : JsonLibrary) (queues : Nat → List Bytes) (conn : Nat) (msg : Msg)
    {i : Nat} {frame : Bytes} (queued : frame ∈ queues i) :
    frame ∈ send lib queues conn msg i := by
  obtain ⟨body, _, sent⟩ | ⟨_, same⟩ := send_cases lib queues conn msg
  · rw [sent]
    by_cases here : i = conn
    · subst here
      rw [Function.update_self]
      exact List.mem_append_left _ queued
    · rwa [Function.update_of_ne here]
  · rwa [same]

/-- A message that can be packed is under way once it is sent. -/
theorem send_adds (queues : Nat → List Bytes) (conn : Nat) {msg : Msg} {body : Bytes}
    (packed : JsonPacker.pack lib msg = .ok body) :
    frameOf body ∈ send lib queues conn msg conn := by
  rw [send, packed]
  dsimp only
  rw [Function.update_self]
  exact List.mem_append_right _ (List.mem_singleton.mpr rfl)

/-- The server sends what it makes of a message, and nothing else. -/
theorem serverHandle_down (lib : JsonLibrary) (s : Bus) (i : Nat) (msg : Msg) :
    (serverHandle lib s i msg).down =
      (BusServer.handleMessage s.connections_ (msg.setSrc i)).2.elim s.down
        fun sent => send lib s.down sent.1 sent.2 := by
  unfold serverHandle
  cases sends : (BusServer.handleMessage s.connections_ (msg.setSrc i)).2 <;> simp only [sends] <;>
    rfl

/-- Whatever the server does, no frame is taken out of a queue. -/
theorem serverHandle_keeps (lib : JsonLibrary) (s : Bus) (i : Nat) (msg : Msg) {j : Nat}
    {frame : Bytes} (queued : frame ∈ s.down j) : frame ∈ (serverHandle lib s i msg).down j := by
  rw [serverHandle_down]
  cases (BusServer.handleMessage s.connections_ (msg.setSrc i)).2 with
  | none => exact queued
  | some sent => exact send_keeps lib s.down sent.1 sent.2 queued

/-- What the server does with the first frame of a connection: it handles the message. -/
theorem deliverUp_taken (faithful : lib.Faithful) (sound : Sound lib names s) {i : Nat}
    (disciplined : s.Disciplined lib (.deliverUp i))
    (taken : step lib names s (.deliverUp i) = some after) :
    ∃ (msg : Msg) (body : Bytes) (rest : List Bytes) (ctx : BusContext) (left : Buffer),
      JsonPacker.pack lib msg = .ok body ∧ s.up i = frameOf body :: rest ∧
      FromClient names s i msg ∧
      after = serverHandle lib { s with
        up := Function.update s.up i rest
        contexts := Function.update s.contexts i ctx
        buffers := Function.update s.buffers i left } i { msg with src := none } := by
  cases queue : s.up i with
  | nil =>
    simp only [step, queue] at taken
    contradiction
  | cons frame rest =>
    simp only [step, queue] at taken
    obtain ⟨msg, body, packed, rfl, good⟩ :=
      sound.upward i frame (queue ▸ List.mem_cons_self)
    obtain ⟨ctx, left, received, _, _⟩ := receive_frame faithful packed good.whole
      (disciplined (frameOf body) (by rw [queue]; rfl)) (sound.serverIdle i).1
      (sound.serverIdle i).2
    refine ⟨msg, body, rest, ctx, left, packed, rfl, good, ?_⟩
    rw [← Option.some.inj taken, serverReceive, received]

/-- What a client does with the first frame for it: it serves a request and takes a
response. -/
theorem deliverDown_taken (faithful : lib.Faithful) (sound : Sound lib names s) {i : Nat}
    {dangling : Bus → Bus} (disciplined : s.Disciplined lib (.deliverDown i dangling))
    (taken : step lib names s (.deliverDown i dangling) = some after) :
    ∃ (msg : Msg) (body : Bytes) (rest : List Bytes) (ctx : BusContext) (left : Buffer),
      JsonPacker.pack lib msg = .ok body ∧ s.down i = frameOf body :: rest ∧
      ToClient names s i msg ∧
      let opened : Bus := { s with
        down := Function.update s.down i rest
        clients := Function.update s.clients i
          { s.clients i with context := ctx, input_buffer_ := left } }
      (msg.is_request_ = false → Harmless opened i { msg with src := none } dangling) ∧
      after = if msg.is_request_ then clientServe lib opened i { msg with src := none }
        else clientFill opened i { msg with src := none } dangling := by
  simp only [step] at taken
  split at taken
  · contradiction
  · cases queue : s.down i with
    | nil =>
      rw [queue] at taken
      contradiction
    | cons frame rest =>
      rw [queue] at taken
      obtain ⟨msg, body, packed, rfl, good⟩ :=
        sound.downward i frame (queue ▸ List.mem_cons_self)
      obtain ⟨ctx, left, received, _, _⟩ := receive_frame faithful packed good.whole
        (disciplined.1 (frameOf body) (by rw [queue]; rfl)) (sound.clientIdle i).1
        (sound.clientIdle i).2
      refine ⟨msg, body, rest, ctx, left, packed, rfl, good,
        fun response => disciplined.harmless queue received response, ?_⟩
      rw [← Option.some.inj taken, clientReceive, received]

/-! ## How many deliveries there are -/

/-- The deliveries that a frame to the server, or from it, still stands for. -/
def hops (lib : JsonLibrary) : Nat ⊕ Nat → Bytes → Nat
  | .inl _, frame => if (opened lib frame).any (·.is_request_) then 4 else 2
  | .inr _, frame => if (opened lib frame).any (·.is_request_) then 3 else 1

/-- All frames under way. -/
def underWay (s : Bus) : Nat ⊕ Nat → List Bytes := Sum.elim s.up s.down

/-- At most so many deliveries are still to come. -/
def Owes (lib : JsonLibrary) (s : Bus) (bound : Nat) : Prop :=
  Within (hops lib) s.underWay bound

/-- A request on its way to the server has four deliveries before it, and a response two. -/
theorem hops_up (faithful : lib.Faithful) (i : Nat) {msg : Msg} {body : Bytes}
    (packed : JsonPacker.pack lib msg = .ok body) :
    hops lib (.inl i) (frameOf body) = if msg.is_request_ then 4 else 2 := by
  rw [hops, opened_frameOf faithful packed, Option.any_some]
  rfl

/-- On its way to a client each has one less. -/
theorem hops_down (faithful : lib.Faithful) (i : Nat) {msg : Msg} {body : Bytes}
    (packed : JsonPacker.pack lib msg = .ok body) :
    hops lib (.inr i) (frameOf body) = if msg.is_request_ then 3 else 1 := by
  rw [hops, opened_frameOf faithful packed, Option.any_some]
  rfl

/-- A message to the server adds what it stands for, or nothing. -/
theorem Owes.sendUp (faithful : lib.Faithful) {bound : Nat} (owes : Owes lib s bound) (i : Nat)
    (msg : Msg) :
    Within (hops lib) (Sum.elim (send lib s.up i msg) s.down)
      (bound + if msg.is_request_ then 4 else 2) := by
  obtain ⟨body, packed, sent⟩ | ⟨_, same⟩ := send_cases lib s.up i msg
  · have added := Within.add owes (.inl i) (frameOf body)
    rw [hops_up faithful i packed] at added
    rw [sent, ← Sum.update_elim_inl]
    exact added
  · rw [same]
    exact Within.mono owes (Nat.le_add_right _ _)

/-- Sending to a client adds the deliveries of one frame. -/
theorem Owes.sendDown (faithful : lib.Faithful) {bound : Nat} (owes : Owes lib s bound) (i : Nat)
    (msg : Msg) :
    Within (hops lib) (Sum.elim s.up (send lib s.down i msg))
      (bound + if msg.is_request_ then 3 else 1) := by
  obtain ⟨body, packed, sent⟩ | ⟨_, same⟩ := send_cases lib s.down i msg
  · have added := Within.add owes (.inr i) (frameOf body)
    rw [hops_down faithful i packed] at added
    rw [sent, ← Sum.update_elim_inr]
    exact added
  · rw [same]
    exact Within.mono owes (Nat.le_add_right _ _)

/-- What the server sends for a message takes one delivery less than the message. -/
theorem serverHandle_owes (faithful : lib.Faithful) {bound : Nat} (owes : Owes lib s bound)
    (i : Nat) (msg : Msg) :
    Owes lib (serverHandle lib s i msg) (bound + if msg.is_request_ then 3 else 1) := by
  change Within (hops lib) (Sum.elim s.up (serverHandle lib s i msg).down) _
  rw [serverHandle_down]
  cases sends : (BusServer.handleMessage s.connections_ (msg.setSrc i)).2 with
  | none => exact Within.mono owes (Nat.le_add_right _ _)
  | some sent =>
    obtain ⟨conn, out⟩ := sent
    have less : (if out.is_request_ then 3 else 1) ≤ if msg.is_request_ then 3 else 1 := by
      by_cases request : msg.is_request_ = true
      · rw [if_pos request]
        split <;> omega
      · have same : (msg.setSrc i).is_request_ = false := Bool.eq_false_iff.mpr request
        rw [BusServer.handleMessage, same, if_neg Bool.false_ne_true] at sends
        obtain ⟨_, _, same⟩ := Option.map_eq_some_iff.mp sends
        obtain ⟨_, rfl⟩ := Prod.mk.inj same
        exact Nat.le_refl _
    exact Within.mono (owes.sendDown faithful conn out) (Nat.add_le_add_left less bound)

/-- A client that serves a request sends a response. -/
theorem clientServe_owes (faithful : lib.Faithful) {bound : Nat} (owes : Owes lib s bound)
    (i : Nat) (msg : Msg) : Owes lib (clientServe lib s i msg) (bound + 2) := by
  have sent := owes.sendUp faithful i (BusService.serveMsg (s.clients i).methods_ msg)
  have response : (BusService.serveMsg (s.clients i).methods_ msg).is_request_ = false :=
    (BusService.serveWith_fields (s.clients i).methods_[msg.method_]? msg).2.2.2.1
  rw [response, if_neg Bool.false_ne_true] at sent
  exact sent

/-- A response that is taken sends nothing. -/
theorem clientFill_owes {bound : Nat} (owes : Owes lib s bound) {i : Nat} {msg : Msg}
    {dangling : Bus → Bus} (harmless : Harmless s i msg dangling) :
    Owes lib (clientFill s i msg dangling) bound := by
  obtain ⟨_, same⟩ | ⟨_, _, same⟩ := clientFill_cases harmless
  · rw [same]
    exact owes
  · rw [same]
    exact owes

/-- A call sends a request. -/
theorem invoke_owes (faithful : lib.Faithful) {bound : Nat} (owes : Owes lib s bound) (i : Nat)
    (method : Bytes) (input : In) (address : Nat) :
    Owes lib (invoke lib s i method input address) (bound + 4) := by
  have sent := owes.sendUp faithful i ((s.clients i).invoker_.acall method input address).2
  refine Within.mono sent (Nat.add_le_add_left ?_ bound)
  split <;> omega

/-- The event delivers a frame. The others are calls of the interface of a client. -/
def Event.delivers : Event → Bool
  | .deliverUp _ => true
  | .deliverDown _ _ => true
  | .start _ _ => false
  | .addMethod _ _ _ _ => false
  | .acall _ _ _ _ _ => false

/-- A call may add four deliveries, and each delivery is one of those that were to come. -/
theorem step_owes (faithful : lib.Faithful) (sound : Sound lib names s) {bound : Nat}
    (owes : Owes lib s bound) {event : Event} (disciplined : s.Disciplined lib event)
    (taken : step lib names s event = some after) :
    if event.delivers then ∃ left, left + 1 ≤ bound ∧ Owes lib after left
    else Owes lib after (bound + 4) := by
  cases event with
  | start i address =>
    simp only [step] at taken
    split at taken
    · contradiction
    · obtain rfl := Option.some.inj taken
      exact invoke_owes faithful owes i _ _ address
  | addMethod i name func address =>
    simp only [step] at taken
    split at taken
    · contradiction
    · split at taken
      · obtain rfl := Option.some.inj taken
        exact Within.mono owes (Nat.le_add_right _ _)
      next methods_ _ =>
        obtain rfl := Option.some.inj taken
        have same : Owes lib { s with
            clients := Function.update s.clients i { s.clients i with methods_ := methods_ } }
            bound := owes
        exact invoke_owes faithful same i _ _ address
  | acall i provider method input address =>
    simp only [step] at taken
    split at taken
    · contradiction
    · obtain rfl := Option.some.inj taken
      let call : Call := ⟨i, (s.clients i).invoker_.next_id_, provider, method, input⟩
      have same : Owes lib
          { s with results := Function.update s.results address (some ⟨.fresh, call, []⟩) }
          bound := owes
      exact invoke_owes faithful same i _ _ address
  | deliverUp i =>
    obtain ⟨msg, body, rest, ctx, left, packed, queue, _, rfl⟩ :=
      deliverUp_taken faithful sound disciplined taken
    obtain ⟨fewer, less, within⟩ := Within.take owes (show s.underWay (.inl i) = _ from queue)
    rw [hops_up faithful i packed] at less
    rw [underWay, Sum.update_elim_inl] at within
    refine ⟨fewer + if msg.is_request_ then 3 else 1, ?_, ?_⟩
    · split at less
      next request =>
        rw [if_pos request]
        omega
      next notRequest =>
        rw [if_neg notRequest]
        omega
    · refine serverHandle_owes faithful ?_ i { msg with src := none }
      exact within
  | deliverDown i dangling =>
    obtain ⟨msg, body, rest, ctx, left, packed, queue, _, harmless, rfl⟩ :=
      deliverDown_taken faithful sound disciplined taken
    obtain ⟨fewer, less, within⟩ := Within.take owes (show s.underWay (.inr i) = _ from queue)
    rw [hops_down faithful i packed] at less
    rw [underWay, Sum.update_elim_inr] at within
    dsimp only
    split at less
    next request =>
      rw [if_pos request]
      refine ⟨fewer + 2, by omega, clientServe_owes faithful ?_ i { msg with src := none }⟩
      exact within
    next notRequest =>
      rw [if_neg notRequest]
      refine ⟨fewer, less, clientFill_owes ?_ (harmless (Bool.eq_false_iff.mpr notRequest))⟩
      exact within

/-- In no order of disciplined events do the clients get the bus to deliver more than four
frames for each of their calls. -/
theorem deliveries_bounded (lib : JsonLibrary) (faithful : lib.Faithful) (names : Nat → Bytes)
    (naming : Naming names) (events : List Event) (final : Bus)
    (run : Run (Guarded (Disciplined lib) (Accepts (step lib names))) (fresh names) events final)
    (few : ∀ i, final.issued i < 2 ^ 32) :
    events.countP Event.delivers ≤ 4 * events.countP fun event => !event.delivers := by
  have kept := run.history (fun history s => (∀ i, s.issued i < 2 ^ 32) → Sound lib names s ∧
    ∃ left, Owes lib s left ∧ left + history.countP Event.delivers ≤
      4 * history.countP fun event => !event.delivers) ?_
    (fun _ => ⟨fresh_sound lib names, 0, ?_, Nat.le_refl _⟩)
  · obtain ⟨_, left, _, counted⟩ := kept few
    omega
  · intro history before after event kept taken few
    have fewer : ∀ i, before.issued i < 2 ^ 32 := fun i =>
      Nat.lt_of_le_of_lt (step_counts taken.1 taken.2 i).1 (few i)
    obtain ⟨sound, left, owes, counted⟩ := kept fewer
    refine ⟨step_sound faithful naming sound fewer taken.1 taken.2, ?_⟩
    have stepped := step_owes faithful sound owes taken.1 taken.2
    rw [List.countP_append, List.countP_append, List.countP_singleton, List.countP_singleton]
    cases delivery : event.delivers with
    | true =>
      rw [delivery, if_pos rfl] at stepped
      obtain ⟨fewer, less, owes⟩ := stepped
      exact ⟨fewer, owes, by simp; omega⟩
    | false =>
      rw [delivery, if_neg Bool.false_ne_true] at stepped
      exact ⟨left + 4, stepped, by simp; omega⟩
  · have nothing : (fresh names).underWay = fun _ => [] := by
      funext i
      cases i <;> rfl
    rw [Owes, nothing]
    exact within_empty _

/-! ## What is not dropped -/

/-- The server knows where the message goes: it answers it itself, or the client it is for
has registered. -/
def Routed (connections_ : BusRouter.Connections) (msg : Msg) : Prop :=
  if msg.is_request_ then
    BusServer.IsLocal msg ∨ (BusRouter.find connections_ msg.method_provider_).isSome
  else (BusRouter.find connections_ msg.caller_).isSome

/-- The message can be packed. -/
def Packs (lib : JsonLibrary) (msg : Msg) : Prop := ∃ body, JsonPacker.pack lib msg = .ok body

/-- The event drops no message: the request of a call can be packed, the server knows
where the message that is delivered to it goes, and the answer of a client that is asked
can be packed. -/
def Undropped (lib : JsonLibrary) (names : Nat → Bytes) (s : Bus) : Event → Prop
  | .start _ _ => True
  | .addMethod _ _ _ _ => True
  | .acall i provider method input address =>
    Packs lib ((s.clients i).invoker_.acall (names provider ++ slash :: method) input address).2
  | .deliverUp i =>
    ∀ frame ∈ (s.up i).head?, ∀ msg ∈ opened lib frame, Routed s.connections_ msg
  | .deliverDown i _ =>
    ∀ frame ∈ (s.down i).head?, ∀ msg ∈ opened lib frame, msg.is_request_ = true →
      Packs lib (BusService.serveMsg (s.clients i).methods_ msg)

/-- The frame bears a message of the call. -/
def Bears (lib : JsonLibrary) (names : Nat → Bytes) (held : Held) (frame : Bytes) : Prop :=
  ∃ msg ∈ opened lib frame, Matches names held msg

/-- No client has stopped, and the call of a result that has not come yet is kept by its
caller and under way. -/
structure Pursued (lib : JsonLibrary) (names : Nat → Bytes) (s : Bus) : Prop where
  running : ∀ i, (s.clients i).stopped = false
  waits : ∀ address held, s.results address = some held → held.ok_ = false →
    (s.clients held.call.client).invoker_.waitings_[held.call.id]? = some address
  pending : ∀ address held, s.results address = some held → held.ok_ = false →
    ∃ i, ∃ frame ∈ s.underWay i, Bears lib names held frame

/-- No call has been made. -/
theorem fresh_pursued (lib : JsonLibrary) (names : Nat → Bytes) :
    Pursued lib names (fresh names) where
  running _ := rfl
  waits _ _ alive := by contradiction
  pending _ _ alive := by contradiction

/-- A message whose method has no slash is read back as it is, but for where it comes from. -/
theorem reread_whole {msg : Msg} (whole : slash ∉ msg.method_) :
    JsonPacker.reread msg = { msg with src := none } :=
  Msg.ext_fields rfl rfl rfl rfl ((JsonPacker.reread_method msg).mpr whole) rfl rfl

/-- The frame of a message of a call bears it. -/
theorem bears_frameOf (faithful : lib.Faithful) {held : Held} {msg : Msg} {body : Bytes}
    (packed : JsonPacker.pack lib msg = .ok body) (own : Matches names held msg) :
    Bears lib names held (frameOf body) :=
  ⟨JsonPacker.reread msg, opened_frameOf faithful packed, own⟩

/-- A call places a result that is under way, and keeps the others. -/
theorem Pursued.invoke (faithful : lib.Faithful) {i : Nat} {method : Bytes} {input : In}
    {address : Nat} {results : Nat → Option Held} (few : s.issued i < 2 ^ 32)
    (placed : ∀ other held, results other = some held → s.results other = some held ∨
      other = address ∧ held.call.client = i ∧ held.call.id = (s.clients i).invoker_.next_id_ ∧
        Packs lib ((s.clients i).invoker_.acall method input address).2)
    (sound : Sound lib names s) (pursued : Pursued lib names s) :
    Pursued lib names (Bus.invoke lib { s with results := results } i method input address) where
  running := (Function.forall_update_iff s.clients (fun _ client => client.stopped = false)).mpr
    ⟨pursued.running i, fun j _ => pursued.running j⟩
  waits := by
    intro other held alive unfilled
    simp only [Bus.invoke]
    rcases placed other held alive with present | ⟨rfl, client, id, _⟩
    · have kept := pursued.waits other held present unfilled
      by_cases here : held.call.client = i
      · obtain ⟨count, less, numbered⟩ := sound.calls other held present
        rw [here] at less kept ⊢
        rw [Function.update_self]
        simp only [BusInvoker.acall]
        rw [ExtTreeMap.getElem?_insert]
        split
        next same =>
          have next_ := LawfulEqCmp.eq_of_compare same
          rw [(sound.invokers i).2, numbered] at next_
          exact absurd (idOf_injective few (less.trans few) next_) (Nat.ne_of_gt less)
        next => exact kept
      · rwa [Function.update_of_ne here]
    · rw [client, id, Function.update_self]
      exact ExtTreeMap.getElem?_insert_self
  pending := by
    intro other held alive unfilled
    rcases placed other held alive with present | ⟨rfl, client, id, body, packed⟩
    · obtain ⟨j, frame, queued, bears⟩ := pursued.pending other held present unfilled
      refine ⟨j, frame, ?_, bears⟩
      cases j with
      | inl j => exact send_keeps lib s.up i _ queued
      | inr j => exact queued
    · obtain ⟨sameId, caller, _⟩ :=
        BusInvoker.acall_fields (s.clients i).invoker_ method input other
      refine ⟨.inl i, frameOf body, send_adds s.up i packed, bears_frameOf faithful packed ?_⟩
      exact ⟨caller.trans ((sound.invokers i).1.trans (congrArg names client.symm)),
        sameId.trans id.symm⟩

/-- A frame that is not the first one stays where it is. -/
theorem rest_keeps {ι : Type} [DecidableEq ι] {queues : ι → List Bytes} {i j : ι}
    {first frame : Bytes}
    {rest : List Bytes} (queue : queues i = first :: rest) (queued : frame ∈ queues j)
    (other : j = i → frame ≠ first) : frame ∈ Function.update queues i rest j := by
  by_cases here : j = i
  · subst here
    rw [queue] at queued
    rw [Function.update_self]
    exact (List.mem_cons.mp queued).resolve_left (other rfl)
  · rwa [Function.update_of_ne here]

/-- The bus while a message is handled: a result that has not come yet is that of the
call of the message, or its call is under way. -/
structure Handling (lib : JsonLibrary) (names : Nat → Bytes) (s : Bus) (msg : Msg) : Prop where
  running : ∀ i, (s.clients i).stopped = false
  waits : ∀ address held, s.results address = some held → held.ok_ = false →
    (s.clients held.call.client).invoker_.waitings_[held.call.id]? = some address
  pending : ∀ address held, s.results address = some held → held.ok_ = false →
    Matches names held msg ∨ ∃ i, ∃ frame ∈ s.underWay i, Bears lib names held frame

/-- A frame that is taken bears its message, and the others stay under way. -/
theorem Pursued.took (faithful : lib.Faithful) (pursued : Pursued lib names s) {j : Nat ⊕ Nat}
    {msg : Msg} {body : Bytes} {rest : List Bytes} (packed : JsonPacker.pack lib msg = .ok body)
    (queue : s.underWay j = frameOf body :: rest) {address : Nat} {held : Held}
    (alive : s.results address = some held) (unfilled : held.ok_ = false) :
    Matches names held msg ∨
      ∃ i, ∃ frame ∈ Function.update s.underWay j rest i, Bears lib names held frame := by
  obtain ⟨i, frame, queued, bears⟩ := pursued.pending address held alive unfilled
  by_cases first : i = j ∧ frame = frameOf body
  · obtain ⟨rfl, rfl⟩ := first
    obtain ⟨read, inside, own⟩ := bears
    rw [opened_frameOf faithful packed, Option.mem_some_iff] at inside
    subst inside
    exact .inl own
  · refine .inr ⟨i, frame, rest_keeps queue queued ?_, bears⟩
    exact fun here same => first ⟨here, same⟩

/-- The server passes on a message of a call that it knows the way of. -/
theorem serverHandle_forwards (faithful : lib.Faithful) (naming : Naming names) {i : Nat}
    {msg : Msg} {body : Bytes} (packed : JsonPacker.pack lib msg = .ok body)
    (good : FromClient names s i msg) (routed : Routed s.connections_ msg) {address : Nat}
    {held : Held} (alive : s.results address = some held) (own : Matches names held msg) :
    ∃ conn, ∃ frame ∈ (serverHandle lib s i { msg with src := none }).down conn,
      Bears lib names held frame := by
  have forwards : ∃ conn, (BusServer.handleMessage s.connections_ (msg.setSrc i)).2 =
      some (conn, msg.setSrc i) := by
    unfold Routed at routed
    unfold BusServer.handleMessage
    by_cases request : msg.is_request_ = true
    · have remote : ¬ BusServer.IsLocal msg := fun isLocal =>
        local_unanswered naming (good.asks request) isLocal alive own
      rw [if_pos request] at routed
      obtain ⟨conn, found⟩ := Option.isSome_iff_exists.mp (routed.resolve_left remote)
      rw [if_pos (show (msg.setSrc i).is_request_ = true from request),
        BusServer.handleRequestMessage,
        if_neg (show ¬ BusServer.IsLocal (msg.setSrc i) from remote)]
      refine ⟨conn, ?_⟩
      change Option.map _ (BusRouter.find s.connections_ msg.method_provider_) = _
      rw [found]
      rfl
    · rw [if_neg request] at routed
      obtain ⟨conn, found⟩ := Option.isSome_iff_exists.mp routed
      rw [if_neg (show ¬ (msg.setSrc i).is_request_ = true from request)]
      refine ⟨conn, ?_⟩
      change Option.map _ (BusRouter.find s.connections_ msg.caller_) = _
      rw [found]
      rfl
  obtain ⟨conn, sends⟩ := forwards
  have repacked := (pack_src lib msg (some i)).trans packed
  refine ⟨conn, frameOf body, ?_, bears_frameOf faithful packed own⟩
  rw [serverHandle_down]
  change frameOf body ∈ (BusServer.handleMessage s.connections_ (msg.setSrc i)).2.elim s.down
    (fun sent => send lib s.down sent.1 sent.2) conn
  rw [sends]
  exact send_adds s.down conn repacked

/-- A result that has not come when a response was taken was there before, its call is
another one than that of the response, and it is still waited for. -/
theorem clientFill_unfilled {i : Nat} {msg : Msg} {address : Nat} {held : Held}
    {dangling : Bus → Bus} (harmless : Harmless s i msg dangling)
    (waits : ∀ address held, s.results address = some held → held.ok_ = false →
      (s.clients held.call.client).invoker_.waitings_[held.call.id]? = some address)
    (alive : (clientFill s i msg dangling).results address = some held)
    (unfilled : held.ok_ = false) :
    s.results address = some held ∧ (held.call.client = i → held.call.id ≠ msg.id_) ∧
      ((clientFill s i msg dangling).clients held.call.client).invoker_.waitings_[held.call.id]? =
        some address := by
  obtain ⟨kept, same⟩ | ⟨filled_, kept, same⟩ := clientFill_cases harmless
  · rw [same] at alive ⊢
    have waiting := waits address held alive unfilled
    refine ⟨alive, ?_, waiting⟩
    rintro rfl same
    rw [same, kept] at waiting
    contradiction
  · rw [same] at alive ⊢
    obtain ⟨before, present, _, ⟨rfl, rfl⟩ | ⟨differs, rfl⟩⟩ := filled_results alive
    · exact absurd unfilled (by simp [Held.fill, Result.fill])
    · have waiting := waits address held present unfilled
      have another : held.call.client = i → held.call.id ≠ msg.id_ := by
        rintro rfl same
        rw [same, kept] at waiting
        exact differs (Option.some.inj waiting).symm
      refine ⟨present, another, ?_⟩
      dsimp only [filled]
      by_cases here : held.call.client = i
      · rw [here] at waiting ⊢
        rw [Function.update_self, ExtTreeMap.getElem?_erase, if_neg]
        · exact waiting
        · exact fun same => another here (LawfulEqCmp.eq_of_compare same).symm
      · rwa [Function.update_of_ne here]

/-- The server passes on a frame that bears a call, or answers it. -/
theorem serverHandle_pursued (faithful : lib.Faithful) (naming : Naming names) {i : Nat}
    {msg : Msg} {body : Bytes} (packed : JsonPacker.pack lib msg = .ok body)
    (good : FromClient names s i msg) (routed : Routed s.connections_ msg)
    (handling : Handling lib names s msg) :
    Pursued lib names (serverHandle lib s i { msg with src := none }) := by
  refine ⟨handling.running, handling.waits, ?_⟩
  intro address held alive unfilled
  rcases handling.pending address held alive unfilled with own | ⟨j, frame, queued, bears⟩
  · obtain ⟨conn, frame, queued, bears⟩ :=
      serverHandle_forwards faithful naming packed good routed alive own
    exact ⟨.inr conn, frame, queued, bears⟩
  · refine ⟨j, frame, ?_, bears⟩
    cases j with
    | inl j => exact queued
    | inr j => exact serverHandle_keeps lib s i _ queued

/-- A client that serves a request sends the response. -/
theorem clientServe_pursued (faithful : lib.Faithful) {i : Nat} {msg : Msg}
    (packs : Packs lib (BusService.serveMsg (s.clients i).methods_ msg))
    (handling : Handling lib names s msg) : Pursued lib names (clientServe lib s i msg) := by
  refine ⟨handling.running, handling.waits, ?_⟩
  intro address held alive unfilled
  rcases handling.pending address held alive unfilled with own | ⟨j, frame, queued, bears⟩
  · obtain ⟨answer, packed⟩ := packs
    obtain ⟨_, id, caller, _⟩ :=
      BusService.serveWith_fields (s.clients i).methods_[msg.method_]? msg
    refine ⟨.inl i, frameOf answer, send_adds s.up i packed, bears_frameOf faithful packed ?_⟩
    exact ⟨caller.trans own.1, id.trans own.2⟩
  · refine ⟨j, frame, ?_, bears⟩
    cases j with
    | inl j => exact send_keeps lib s.up i _ queued
    | inr j => exact queued

/-- A response that arrives fills the result of its call. -/
theorem clientFill_pursued (naming : Naming names) {i : Nat} {msg : Msg}
    (own : msg.caller_ = names i) (handling : Handling lib names s msg) {dangling : Bus → Bus}
    (harmless : Harmless s i msg dangling) : Pursued lib names (clientFill s i msg dangling) := by
  have unfilled_ {address : Nat} {held : Held}
      (alive : (clientFill s i msg dangling).results address = some held)
      (unfilled : held.ok_ = false) :=
    clientFill_unfilled harmless handling.waits alive unfilled
  refine ⟨?_, fun address held alive unfilled => (unfilled_ alive unfilled).2.2, ?_⟩
  · obtain ⟨_, same⟩ | ⟨_, _, same⟩ := clientFill_cases harmless
    · rw [same]
      exact handling.running
    · rw [same]
      exact (Function.forall_update_iff s.clients (fun _ client => client.stopped = false)).mpr
        ⟨handling.running i, fun j _ => handling.running j⟩
  · intro address held alive unfilled
    obtain ⟨present, another, _⟩ := unfilled_ alive unfilled
    rcases handling.pending address held present unfilled with same | under_way
    · have here : held.call.client = i := naming.injective (same.1.symm.trans own)
      exact absurd same.2.symm (another here)
    · have kept : (clientFill s i msg dangling).underWay = s.underWay := by
        obtain ⟨_, same⟩ | ⟨_, _, same⟩ := clientFill_cases harmless
        · rw [same]
        · rw [same]
          rfl
      rw [kept]
      exact under_way

/-- Calls stay pursued when the server handles a frame. -/
theorem deliverUp_pursued (faithful : lib.Faithful) (naming : Naming names)
    (sound : Sound lib names s) (pursued : Pursued lib names s) {i : Nat}
    (disciplined : s.Disciplined lib (.deliverUp i))
    (undropped : s.Undropped lib names (.deliverUp i))
    (taken : step lib names s (.deliverUp i) = some after) : Pursued lib names after := by
  obtain ⟨msg, body, rest, ctx, left, packed, queue, good, rfl⟩ :=
    deliverUp_taken faithful sound disciplined taken
  have routed := undropped (frameOf body) (by rw [queue]; rfl) (JsonPacker.reread msg)
    (opened_frameOf faithful packed)
  rw [reread_whole good.whole] at routed
  refine serverHandle_pursued faithful naming packed (good.grows (.same rfl rfl rfl)) routed
    ⟨pursued.running, pursued.waits, ?_⟩
  intro address held alive unfilled
  have took := pursued.took faithful packed (show s.underWay (.inl i) = _ from queue) alive unfilled
  rw [underWay, Sum.update_elim_inl] at took
  exact took

/-- Calls stay pursued when a client handles a frame. -/
theorem deliverDown_pursued (faithful : lib.Faithful) (naming : Naming names)
    (sound : Sound lib names s) (pursued : Pursued lib names s) {i : Nat}
    {dangling : Bus → Bus} (disciplined : s.Disciplined lib (.deliverDown i dangling))
    (undropped : s.Undropped lib names (.deliverDown i dangling))
    (taken : step lib names s (.deliverDown i dangling) = some after) :
    Pursued lib names after := by
  obtain ⟨msg, body, rest, ctx, left, packed, queue, good, harmless, rfl⟩ :=
    deliverDown_taken faithful sound disciplined taken
  have invokers : ∀ j, (Function.update s.clients i
      { s.clients i with context := ctx, input_buffer_ := left } j).invoker_ =
        (s.clients j).invoker_ :=
    (Function.forall_update_iff s.clients
      (fun j client => client.invoker_ = (s.clients j).invoker_)).mpr ⟨rfl, fun _ _ => rfl⟩
  have handling : Handling lib names { s with
      down := Function.update s.down i rest
      clients := Function.update s.clients i
        { s.clients i with context := ctx, input_buffer_ := left } } { msg with src := none } := by
    refine ⟨?_, ?_, ?_⟩
    · exact (Function.forall_update_iff s.clients (fun _ client => client.stopped = false)).mpr
        ⟨pursued.running i, fun j _ => pursued.running j⟩
    · intro address held alive unfilled
      rw [invokers]
      exact pursued.waits address held alive unfilled
    · intro address held alive unfilled
      have took := pursued.took faithful packed (show s.underWay (.inr i) = _ from queue) alive
        unfilled
      rw [underWay, Sum.update_elim_inr] at took
      exact took
  dsimp only
  split
  next request =>
    have packs := undropped (frameOf body) (by rw [queue]; rfl) (JsonPacker.reread msg)
      (opened_frameOf faithful packed) request
    rw [reread_whole good.whole] at packs
    refine clientServe_pursued faithful ?_ handling
    simp only [Function.update_self]
    exact packs
  next response =>
    have harmless := harmless (Bool.eq_false_iff.mpr response)
    refine clientFill_pursued naming ?_ handling harmless
    exact good.own (Bool.eq_false_iff.mpr response)

/-- Every event that drops no message keeps the calls pursued. -/
theorem step_pursued (faithful : lib.Faithful) (naming : Naming names) (sound : Sound lib names s)
    (few : ∀ i, s.issued i < 2 ^ 32) (pursued : Pursued lib names s) {event : Event}
    (undropped : s.Undropped lib names event) (disciplined : s.Disciplined lib event)
    (taken : step lib names s event = some after) : Pursued lib names after := by
  cases event with
  | start i address =>
    simp only [step] at taken
    split at taken
    · contradiction
    · obtain rfl := Option.some.inj taken
      exact pursued.invoke faithful (few i) (fun _ _ alive => .inl alive) sound
  | addMethod i name func address =>
    simp only [step] at taken
    split at taken
    · contradiction
    · split at taken
      · obtain rfl := Option.some.inj taken
        exact pursued
      next methods_ _ =>
        obtain rfl := Option.some.inj taken
        have grown : Pursued lib names { s with
            clients := Function.update s.clients i { s.clients i with methods_ := methods_ } } := by
          have invokers : ∀ j, (Function.update s.clients i
              { s.clients i with methods_ := methods_ } j).invoker_ = (s.clients j).invoker_ :=
            (Function.forall_update_iff s.clients
              (fun j client => client.invoker_ = (s.clients j).invoker_)).mpr
              ⟨rfl, fun _ _ => rfl⟩
          refine ⟨?_, ?_, pursued.pending⟩
          · exact (Function.forall_update_iff s.clients
              (fun _ client => client.stopped = false)).mpr
              ⟨pursued.running i, fun j _ => pursued.running j⟩
          · intro address held alive unfilled
            rw [invokers]
            exact pursued.waits address held alive unfilled
        exact Pursued.invoke (s := { s with
            clients := Function.update s.clients i { s.clients i with methods_ := methods_ } })
          faithful (few i) (fun _ _ alive => .inl alive) (sound.methods i methods_) grown
  | acall i provider method input address =>
    simp only [step] at taken
    split at taken
    · contradiction
    · obtain rfl := Option.some.inj taken
      refine pursued.invoke faithful (few i) ?_ sound
      intro other held alive
      by_cases here : other = address
      · subst here
        rw [Function.update_self] at alive
        obtain rfl := Option.some.inj alive
        exact .inr ⟨rfl, rfl, rfl, undropped⟩
      · rw [Function.update_of_ne here] at alive
        exact .inl alive
  | deliverUp i => exact deliverUp_pursued faithful naming sound pursued disciplined undropped taken
  | deliverDown i dangling =>
    exact deliverDown_pursued faithful naming sound pursued disciplined undropped taken

/-- The bus is sound and its calls are pursued after every run that drops no message. -/
theorem run_pursued (faithful : lib.Faithful) (naming : Naming names) {events : List Event}
    {final : Bus}
    (run : Run (Guarded (Undropped lib names)
      (Guarded (Disciplined lib) (Accepts (step lib names)))) (fresh names) events final)
    (few : ∀ i, final.issued i < 2 ^ 32) : Sound lib names final ∧ Pursued lib names final := by
  refine run.preserves
    (fun s => (∀ i, s.issued i < 2 ^ 32) → Sound lib names s ∧ Pursued lib names s)
    (fun before after event kept taken few => ?_)
    (fun _ => ⟨fresh_sound lib names, fresh_pursued lib names⟩) few
  obtain ⟨undropped, disciplined, taken⟩ := taken
  have fewer : ∀ i, before.issued i < 2 ^ 32 := fun i =>
    Nat.lt_of_le_of_lt (step_counts disciplined taken i).1 (few i)
  obtain ⟨sound, pursued⟩ := kept fewer
  exact ⟨step_sound faithful naming sound fewer disciplined taken,
    step_pursued faithful naming sound fewer pursued undropped disciplined taken⟩

/-- No call is lost. After a run that dropped no message, a result has come, once, with
what its provider answered, or a frame can be delivered. So when no delivery is possible any
more, every call has returned. -/
theorem calls_returned (lib : JsonLibrary) (faithful : lib.Faithful) (names : Nat → Bytes)
    (naming : Naming names) (events : List Event) (final : Bus)
    (run : Run (Guarded (Undropped lib names)
      (Guarded (Disciplined lib) (Accepts (step lib names)))) (fresh names) events final)
    (few : ∀ i, final.issued i < 2 ^ 32) (address : Nat) (held : Held)
    (alive : final.results address = some held) :
    (held.ok_ = true ∧ held.fills = [(names held.call.client, held.call.id)] ∧
      ∃ served ∈ final.served, Answers names served held.call ∧
        held.out_.values_ = (expected served.found held.call.input).values_) ∨
      ∃ event, event.delivers = true ∧ (step lib names final event).isSome = true := by
  obtain ⟨sound, pursued⟩ := run_pursued faithful naming run few
  rcases sound.correct address held alive with unfilled | returned
  · obtain ⟨i, frame, queued, _⟩ := pursued.pending address held alive unfilled.1
    refine .inr ?_
    cases i with
    | inl i =>
      obtain ⟨first, rest, queue⟩ := List.exists_cons_of_ne_nil (List.ne_nil_of_mem queued)
      refine ⟨.deliverUp i, rfl, ?_⟩
      change final.up i = _ at queue
      simp only [step, queue, Option.isSome_some]
    | inr i =>
      obtain ⟨first, rest, queue⟩ := List.exists_cons_of_ne_nil (List.ne_nil_of_mem queued)
      refine ⟨.deliverDown i id, rfl, ?_⟩
      change final.down i = _ at queue
      simp only [step, queue, pursued.running i, Bool.false_eq_true, if_false, Option.isSome_some]
  · exact .inl returned

/-- A client calls a method of another one. -/
def oneCall : List Event := [.acall 1 0 (text "m") .empty 1]

/-- The call has been made, and nothing has been delivered. -/
theorem oneCall_run :
    ∃ final held, Run (Guarded (Undropped .canonical clientName)
        (Guarded (Disciplined .canonical) (Accepts (step .canonical clientName))))
        (fresh clientName) oneCall final ∧
      (∀ i, final.issued i < 2 ^ 32) ∧ final.results 1 = some held ∧ held.ok_ = false := by
  have built : (((((Msg.fresh.setId 1).setCaller (clientName 1)).setRequest true).setMethod
      (clientName 0 ++ slash :: text "m"))).Built :=
    (((Msg.Built.fresh.setId 1).setCaller (by decide)).setRequest true).setMethod (by decide)
  have packs : Undropped .canonical clientName (fresh clientName)
      (.acall 1 0 (text "m") .empty 1) :=
    JsonPacker.pack_encoded JsonLibrary.canonical_faithful built.encoded
  have untracked : (fresh clientName).Disciplined .canonical (.acall 1 0 (text "m") .empty 1) := by
    intro j id kept
    exact absurd (kept.symm.trans ExtTreeMap.getElem?_empty) (by simp)
  cases taken : step .canonical clientName (fresh clientName) (.acall 1 0 (text "m") .empty 1) with
  | none => cases taken
  | some final =>
    refine ⟨final, ⟨.fresh, ⟨1, 1, 0, text "m", .empty⟩, []⟩,
      .next ⟨packs, untracked, taken⟩ (.done final), ?_, ?_, rfl⟩
    · intro i
      have one : final.issued i ≤ 0 + 1 := (step_counts untracked taken i).2
      omega
    · obtain rfl := Option.some.inj taken
      rfl

/-- A call that has just been made. -/
theorem one_call_bounded :
    oneCall.countP Event.delivers ≤ 4 * oneCall.countP fun event => !event.delivers := by
  obtain ⟨final, _, run, few, _⟩ := oneCall_run
  have admitted : Run (Guarded (Disciplined .canonical) (Accepts (step .canonical clientName)))
      (fresh clientName) oneCall final := by
    cases run with
    | next taken rest =>
      cases rest with
      | done => exact .next taken.2 (.done _)
  exact deliveries_bounded .canonical JsonLibrary.canonical_faithful clientName clientName_naming
    oneCall final admitted few

/-- A call has just been made: its request can be delivered. -/
theorem first_request_deliverable :
    ∃ final, Run (Guarded (Undropped .canonical clientName)
        (Guarded (Disciplined .canonical) (Accepts (step .canonical clientName))))
        (fresh clientName) oneCall final ∧
      ∃ event, event.delivers = true ∧ (step .canonical clientName final event).isSome = true := by
  obtain ⟨final, held, run, few, alive, unfilled⟩ := oneCall_run
  refine ⟨final, run, ?_⟩
  exact (calls_returned .canonical JsonLibrary.canonical_faithful clientName clientName_naming _
    final run few 1 held alive).resolve_left fun returned =>
      Bool.noConfusion (unfilled.symm.trans returned.1)

end Cppboot.Bus
