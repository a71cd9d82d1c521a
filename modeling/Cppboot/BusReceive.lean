import Mathlib.Data.List.TakeDrop
import Cppboot.BusStream
import Cppboot.Polling

/-!
# Receiving bus messages

A read appends to the input buffer of the connection and calls the receive
callback once, and the callback of the server and that of the client call
`Parse` once. Nothing calls them again for a frame that stays in the buffer, so a
read that completes two frames strands the second one until the next read, and
the last frames for good when no read follows.

Every message is handled, once and in order, exactly when each frame has enough
reads: as many, ending at or after its last byte, as there are frames from it on.
-/

namespace Cppboot

open Incremental

/-- `Unpack` into a new message. -/
def JsonPacker.unpackNew (lib : JsonLibrary) (data : Bytes) : Option Msg :=
  match JsonPacker.unpack lib data Msg.fresh with
  | (.okStatus, msg) => some msg
  | (.failed _ _, _) => none

/-- A completed read: append to the input buffer, then parse once into a new
message. -/
def receive (lib : JsonLibrary) (ctx : BusContext) (buf : Buffer) (data : Bytes) :
    ParseResult Msg × BusContext × Buffer :=
  ctx.parse (JsonPacker.unpackNew lib) (buf.append data)

/-- The receiving side of a connection, with the messages that were passed to
`HandleMessage`. -/
structure Inbox where
  context : BusContext
  input_buffer_ : Buffer
  handled : List Msg
  stopped : Bool

namespace Inbox

def fresh : Inbox := ⟨.fresh, .fresh, [], false⟩

/-- A read on a connection of the server, with `BusServer::OnReceive`. Its `Stop`
does nothing, and the message remembers the connection. -/
def serverRead (lib : JsonLibrary) (conn : Nat) (inbox : Inbox) (data : Bytes) : Inbox :=
  match receive lib inbox.context inbox.input_buffer_ data with
  | (.kBad, ctx, buf) => { inbox with context := ctx, input_buffer_ := buf }
  | (.kGood msg, ctx, buf) =>
    { inbox with
      context := ctx
      input_buffer_ := buf
      handled := inbox.handled ++ [msg.setSrc conn] }
  | (.kContinue, ctx, buf) => { inbox with context := ctx, input_buffer_ := buf }

/-- A read on the transport of a client, with `OnTransportReadCallback`. Its
`Stop` closes the transport, and then no read follows. -/
def clientRead (lib : JsonLibrary) (inbox : Inbox) (data : Bytes) : Inbox :=
  if inbox.stopped then inbox
  else
    match receive lib inbox.context inbox.input_buffer_ data with
    | (.kBad, ctx, buf) =>
      { inbox with context := ctx, input_buffer_ := buf, stopped := true }
    | (.kGood msg, ctx, buf) =>
      { inbox with
        context := ctx
        input_buffer_ := buf
        handled := inbox.handled ++ [msg] }
    | (.kContinue, ctx, buf) => { inbox with context := ctx, input_buffer_ := buf }

/-- The results of the calls of `Parse` over some reads. -/
def results (lib : JsonLibrary) (inbox : Inbox) (reads : List Bytes) : List (Option Msg) :=
  (poll (BusContext.decode (JsonPacker.unpackNew lib)) inbox.context inbox.input_buffer_.str
    reads).1

/-- One read in terms of the decoder: `Parse` waits, rejects a body or returns a
message. -/
theorem receive_cases (lib : JsonLibrary) (inbox : Inbox) (data : Bytes) (reads : List Bytes) :
    (∃ ctx buf, receive lib inbox.context inbox.input_buffer_ data = (.kContinue, ctx, buf) ∧
      ∀ handled stopped, results lib inbox (data :: reads) =
        results lib ⟨ctx, buf, handled, stopped⟩ reads) ∨
    (∃ ctx buf, receive lib inbox.context inbox.input_buffer_ data = (.kBad, ctx, buf) ∧
      ∀ handled stopped, results lib inbox (data :: reads) =
        none :: results lib ⟨ctx, buf, handled, stopped⟩ reads) ∨
    (∃ msg ctx buf, receive lib inbox.context inbox.input_buffer_ data = (.kGood msg, ctx, buf) ∧
      ∀ handled stopped, results lib inbox (data :: reads) =
        some msg :: results lib ⟨ctx, buf, handled, stopped⟩ reads) := by
  have decoded := BusContext.parse_decodes (JsonPacker.unpackNew lib) inbox.context
    (inbox.input_buffer_.append data)
  rw [Buffer.append_str] at decoded
  unfold results
  rw [poll, ← decoded]
  rcases called : receive lib inbox.context inbox.input_buffer_ data with ⟨result, ctx, buf⟩
  change inbox.context.parse _ _ = _ at called
  rw [called]
  cases result with
  | kContinue => exact .inl ⟨ctx, buf, rfl, fun _ _ => rfl⟩
  | kBad => exact .inr (.inl ⟨ctx, buf, rfl, fun _ _ => rfl⟩)
  | kGood msg => exact .inr (.inr ⟨msg, ctx, buf, rfl, fun _ _ => rfl⟩)

/-- The server handles the messages among the results. -/
theorem serverRead_handled (lib : JsonLibrary) (conn : Nat) (inbox : Inbox) (reads : List Bytes) :
    (reads.foldl (serverRead lib conn) inbox).handled =
      inbox.handled ++ (inbox.results lib reads).filterMap
        (·.map fun msg => msg.setSrc conn) := by
  induction reads generalizing inbox with
  | nil => exact (List.append_nil _).symm
  | cons data reads inductionHypothesis =>
    rw [List.foldl_cons, inductionHypothesis]
    unfold serverRead
    rcases receive_cases lib inbox data reads with ⟨ctx, buf, called, later⟩ |
      ⟨ctx, buf, called, later⟩ | ⟨msg, ctx, buf, called, later⟩
    · rw [called, later inbox.handled inbox.stopped]
    · rw [called, later inbox.handled inbox.stopped]
      simp
    · rw [called, later (inbox.handled ++ [msg.setSrc conn]) inbox.stopped]
      simp

/-- The client handles the results, as long as every one is a message. -/
theorem clientRead_handled (lib : JsonLibrary) (inbox : Inbox) (reads : List Bytes)
    (running : inbox.stopped = false) (good : ∀ result ∈ inbox.results lib reads, result ≠ none) :
    (reads.foldl (clientRead lib) inbox).handled =
      inbox.handled ++ (inbox.results lib reads).filterMap id := by
  induction reads generalizing inbox with
  | nil => exact (List.append_nil _).symm
  | cons data reads inductionHypothesis =>
    rw [List.foldl_cons]
    have runs : clientRead lib inbox data =
        match receive lib inbox.context inbox.input_buffer_ data with
        | (.kBad, ctx, buf) =>
          { inbox with context := ctx, input_buffer_ := buf, stopped := true }
        | (.kGood msg, ctx, buf) =>
          { inbox with
            context := ctx
            input_buffer_ := buf
            handled := inbox.handled ++ [msg] }
        | (.kContinue, ctx, buf) => { inbox with context := ctx, input_buffer_ := buf } := by
      rw [clientRead, running]
      rfl
    rw [runs]
    rcases receive_cases lib inbox data reads with ⟨ctx, buf, called, later⟩ |
      ⟨ctx, buf, called, later⟩ | ⟨msg, ctx, buf, called, later⟩
    · rw [called, later inbox.handled inbox.stopped]
      rw [later inbox.handled inbox.stopped] at good
      exact inductionHypothesis _ running good
    · rw [later inbox.handled inbox.stopped] at good
      exact absurd rfl (good none (by simp))
    · rw [called, later (inbox.handled ++ [msg]) inbox.stopped]
      rw [later (inbox.handled ++ [msg]) inbox.stopped] at good
      refine (inductionHypothesis ⟨ctx, buf, inbox.handled ++ [msg], inbox.stopped⟩ running
        fun result member => good result (List.mem_cons_of_mem _ member)).trans ?_
      simp

/-- Between frames, the frame of a packed message that fits is decoded to the
message that is read back. -/
theorem frame_decodes {lib : JsonLibrary} (faithful : lib.Faithful) {msg : Msg} {body : Bytes}
    (packed : JsonPacker.pack lib msg = .ok body) (fits : body.length + 1 < 2 ^ 32) :
    Decodes (BusContext.decode (JsonPacker.unpackNew lib)) (fun ctx => ctx.state_ = .kHeader)
      (frameOf body) (some (JsonPacker.reread msg)) := by
  intro ctx idle more
  have exact_ := (BusContext.headerOf_length body).2.mpr fits
  have emits := BusContext.decode_frame (JsonPacker.unpackNew lib) idle
    (BusContext.headerOf body) rfl ((body ++ [0]) ++ more)
    (by rw [List.length_append]; omega)
  rw [exact_, List.take_left, List.drop_left, JsonPacker.unpackNew,
    JsonPacker.unpack_body faithful packed] at emits
  refine ⟨{ ctx with header_ := BusContext.headerOf body }, idle, ?_⟩
  rw [frameOf_eq, List.append_assoc]
  exact emits

/-- The frames of packed messages, each with the message that is read back. -/
theorem frame_units {lib : JsonLibrary} (faithful : lib.Faithful) {msgs : List Msg}
    {bodies : List Bytes}
    (packed : List.Forall₂ (fun msg body => JsonPacker.pack lib msg = .ok body) msgs bodies)
    (fit : ∀ body ∈ bodies, body.length + 1 < 2 ^ 32) :
    ∃ units : List (Bytes × Option Msg), units.map Prod.fst = bodies.map frameOf ∧
      units.map Prod.snd = msgs.map (fun msg => some (JsonPacker.reread msg)) ∧
      ∀ unit ∈ units, Decodes (BusContext.decode (JsonPacker.unpackNew lib))
        (fun ctx => ctx.state_ = .kHeader) unit.1 unit.2 := by
  induction packed with
  | nil => exact ⟨[], rfl, rfl, by simp⟩
  | @cons msg body msgs bodies first rest inductionHypothesis =>
    obtain ⟨units, frames, reread, decodes⟩ :=
      inductionHypothesis (fun body member => fit body (by simp [member]))
    refine ⟨(frameOf body, some (JsonPacker.reread msg)) :: units, ?_, ?_, ?_⟩
    · rw [List.map_cons, List.map_cons, frames]
    · rw [List.map_cons, List.map_cons, reread]
    · intro unit member
      rcases List.mem_cons.mp member with rfl | member
      · exact frame_decodes faithful first (fit body (by simp))
      · exact decodes unit member

/-- A context between frames waits for input. -/
theorem idle_waits (lib : JsonLibrary) (ctx : BusContext) (idle : ctx.state_ = .kHeader) :
    ∃ after left, ctx.decode (JsonPacker.unpackNew lib) [] = .wait after left := by
  unfold BusContext.decode
  simp only [idle]
  exact ⟨_, _, rfl⟩

/-- The messages that were handled are the first ones, in order; and they are all
of them exactly when the frames are paced by the reads. -/
theorem handled_front {lib : JsonLibrary} (faithful : lib.Faithful) {msgs : List Msg}
    {bodies : List Bytes}
    (packed : List.Forall₂ (fun msg body => JsonPacker.pack lib msg = .ok body) msgs bodies)
    (fit : ∀ body ∈ bodies, body.length + 1 < 2 ^ 32) (conn : Nat) (reads : List Bytes)
    (sent : reads.flatten = BusContext.framesOf bodies) :
    ∃ count, (reads.foldl (serverRead lib conn) fresh).handled =
        (msgs.map fun msg => (JsonPacker.reread msg).setSrc conn).take count ∧
      (reads.foldl (clientRead lib) fresh).handled = (msgs.map JsonPacker.reread).take count ∧
      (msgs.length ≤ count ↔ Pacing.Paced (ends 0 (bodies.map frameOf)) (ends 0 reads)) := by
  obtain ⟨units, frames, reread, decodes⟩ := frame_units faithful packed fit
  have resumable := BusContext.decode_resumable (JsonPacker.unpackNew lib)
  have stream : reads.flatten = (units.map Prod.fst).flatten := by
    rw [frames, sent]
    rfl
  have served := poll_serves resumable (idle_waits lib) reads units decodes BusContext.fresh
    BusContext.fresh [] [] 0 rfl (fun _ => rfl) stream
  have complete := poll_complete_iff resumable (idle_waits lib) reads units decodes
    BusContext.fresh rfl stream
  rw [reread] at served complete
  rw [frames] at complete
  generalize units.length - _ = count at served
  have polled : fresh.results lib reads =
      (msgs.take count).map fun msg => some (JsonPacker.reread msg) := by
    rw [List.map_take]
    exact served
  refine ⟨count, ?_, ?_, ?_⟩
  · rw [serverRead_handled, polled, List.filterMap_map, ← List.map_take]
    exact congrFun List.filterMap_eq_map _
  · rw [clientRead_handled lib fresh reads rfl, polled, List.filterMap_map, ← List.map_take]
    · exact congrFun List.filterMap_eq_map _
    · rw [polled]
      intro result member
      obtain ⟨msg, _, rfl⟩ := List.mem_map.mp member
      exact Option.some_ne_none _
  · rw [← complete, served, List.take_eq_self_iff, List.length_map]

/-- Every message is passed to `HandleMessage` exactly once and in order, by the
server and by the client, exactly when the frames are paced by the reads. -/
theorem messages_handled_iff (lib : JsonLibrary) (faithful : lib.Faithful) (msgs : List Msg)
    (bodies : List Bytes)
    (packed : List.Forall₂ (fun msg body => JsonPacker.pack lib msg = .ok body) msgs bodies)
    (fit : ∀ body ∈ bodies, body.length + 1 < 2 ^ 32) (conn : Nat) (reads : List Bytes)
    (sent : reads.flatten = BusContext.framesOf bodies) :
    ((reads.foldl (serverRead lib conn) fresh).handled =
        msgs.map (fun msg => (JsonPacker.reread msg).setSrc conn) ∧
      (reads.foldl (clientRead lib) fresh).handled = msgs.map JsonPacker.reread) ↔
    Pacing.Paced (ends 0 (bodies.map frameOf)) (ends 0 reads) := by
  obtain ⟨count, server, client, all⟩ := handled_front faithful packed fit conn reads sent
  rw [server, client, ← all, List.take_eq_self_iff, List.take_eq_self_iff, List.length_map,
    List.length_map, and_self]

/-- The frame of a new message has a body that fits. -/
theorem fresh_message_fits {body : Bytes}
    (packed : JsonPacker.pack .canonical Msg.fresh = .ok body) : body.length + 1 < 2 ^ 32 := by
  rw [JsonPacker.pack_canonical packed]
  decide

/-- A request with a parameter. -/
def parameterMessage : Msg :=
  (Msg.fresh.setRequest true).setParam (text "k") (text "v")

/-- The first of two frames arrives in two reads, the second of which ends inside of the
other frame. Both are handled. -/
theorem split_frame_handled :
    ∃ first second, JsonPacker.pack .canonical parameterMessage = .ok first ∧
      JsonPacker.pack .canonical Msg.fresh = .ok second ∧
      ([(frameOf first).take 5, (frameOf first).drop 5 ++ (frameOf second).take 3,
          (frameOf second).drop 3].foldl (clientRead .canonical) fresh).handled =
        [JsonPacker.reread parameterMessage, JsonPacker.reread Msg.fresh] := by
  have built : parameterMessage.Built := (Msg.Built.fresh.setRequest true).setParam
    (by decide) (by decide)
  obtain ⟨first, one⟩ := JsonPacker.pack_encoded JsonLibrary.canonical_faithful built.encoded
  obtain ⟨second, two⟩ := JsonPacker.pack_encoded JsonLibrary.canonical_faithful
    Msg.Built.fresh.encoded
  refine ⟨first, second, one, two, ?_⟩
  have fits : first.length + 1 < 2 ^ 32 := by
    rw [JsonPacker.pack_canonical one]
    decide +kernel
  have long (body : Bytes) : 8 ≤ (frameOf body).length := by
    rw [frameOf_eq]
    simp [MsgHeader.toBytes]
    omega
  have first_long := long first
  have second_long := long second
  have paced : Pacing.Paced (ends 0 [frameOf first, frameOf second])
      (ends 0 [(frameOf first).take 5, (frameOf first).drop 5 ++ (frameOf second).take 3,
        (frameOf second).drop 3]) := by
    intro front job back split
    simp only [ends] at split
    simp only [ends, List.length_append, List.length_take, List.length_drop, List.countP_cons,
      List.countP_nil, decide_eq_true_eq]
    cases front with
    | nil =>
      obtain ⟨rfl, rfl⟩ := List.cons.inj split
      have second_read : 0 + (frameOf first).length ≤ 0 + min 5 (frameOf first).length +
          ((frameOf first).length - 5 + min 3 (frameOf second).length) := by omega
      rw [if_pos second_read, if_pos (second_read.trans (Nat.le_add_right _ _))]
      simp only [List.length_singleton]
      omega
    | cons _ front =>
      cases front with
      | nil =>
        obtain ⟨rfl, rest⟩ := List.cons.inj split
        obtain ⟨rfl, rfl⟩ := List.cons.inj rest
        rw [if_pos (c := _ ≤ _ + ((frameOf second).length - 3)) (by omega)]
        simp only [List.length_nil]
        omega
      | cons _ front => cases front <;> cases (List.cons.inj (List.cons.inj split).2).2
  have sent : [(frameOf first).take 5, (frameOf first).drop 5 ++ (frameOf second).take 3,
      (frameOf second).drop 3].flatten = BusContext.framesOf [first, second] := by
    simp only [BusContext.framesOf, List.map_cons, List.map_nil, List.flatten_cons,
      List.flatten_nil, List.append_nil, List.append_assoc, List.take_append_drop]
    rw [← List.append_assoc, List.take_append_drop]
  exact ((messages_handled_iff .canonical JsonLibrary.canonical_faithful
    [parameterMessage, Msg.fresh] [first, second] (.cons one (.cons two .nil))
    (by simpa using ⟨fits, fresh_message_fits two⟩) 0
    [(frameOf first).take 5, (frameOf first).drop 5 ++ (frameOf second).take 3,
      (frameOf second).drop 3] sent).mpr paced).2

/-- Of two frames that arrive in one read, the second is not handled. -/
theorem coalesced_frames_stranded :
    JsonLibrary.canonical.Faithful ∧
      ∃ body, JsonPacker.pack .canonical Msg.fresh = .ok body ∧
        ([frameOf body ++ frameOf body].foldl (serverRead .canonical 0) fresh).handled ≠
          [(JsonPacker.reread Msg.fresh).setSrc 0, (JsonPacker.reread Msg.fresh).setSrc 0] ∧
        ([frameOf body ++ frameOf body].foldl (clientRead .canonical) fresh).handled ≠
          [JsonPacker.reread Msg.fresh, JsonPacker.reread Msg.fresh] := by
  obtain ⟨body, packed⟩ := JsonPacker.pack_encoded JsonLibrary.canonical_faithful
    Msg.Built.fresh.encoded
  refine ⟨JsonLibrary.canonical_faithful, body, packed, ?_⟩
  obtain ⟨count, server, client, all⟩ := handled_front JsonLibrary.canonical_faithful
    (.cons packed (.cons packed .nil)) (by simpa using fresh_message_fits packed) 0
    [frameOf body ++ frameOf body] (by simp [BusContext.framesOf])
  have missing : ¬ 2 ≤ count := by
    intro enough
    have needed := all.mp enough [] _ _ rfl
    have single := List.countP_le_length (p := fun moment => decide
      (0 + (frameOf body).length ≤ moment)) (l := ends 0 [frameOf body ++ frameOf body])
    simp only [ends_length, List.length_map, List.length_cons, List.length_nil] at needed single
    omega
  rw [server, client]
  refine ⟨fun both => missing ?_, fun both => missing ?_⟩
  · have length := congrArg List.length both
    simp at length
    omega
  · have length := congrArg List.length both
    simp at length
    omega

end Inbox

end Cppboot
