import Cppboot.BusSystem

/-!
# The messages of the bus at any time

What holds of the bus between events. Every frame under way carries a message
that belongs to a call some client made. If the result of that call is alive, a
request asks what the call asks, and a response carries what the provider
answered when the request reached it. The router knows connections by the names
of their clients only, and the addresses an invoker keeps are those of its own
calls or of results that are gone.
-/

namespace Cppboot.Bus

open Std

/-- The names of the clients are distinct, not empty, hold no slash and are not
the name the server answers to. -/
structure Naming (names : Nat → Bytes) : Prop where
  injective : Function.Injective names
  named : ∀ i, names i ≠ []
  unslashed : ∀ i, slash ∉ names i
  notManager : ∀ i, names i ≠ text "SvcMgr"

/-- The identifier of the call a client makes after so many others. -/
def idOf (count : Nat) : UInt32 := UInt32.ofNat (count + 1)

/-- The next call has the next identifier. -/
theorem idOf_succ (count : Nat) : idOf count + 1 = idOf (count + 1) := by
  unfold idOf
  rw [UInt32.ofNat_add (count + 1) 1]
  rfl

/-- Identifiers repeat only after as many calls as there are words. -/
theorem idOf_injective {one other : Nat} (few : one < 2 ^ 32) (fewer : other < 2 ^ 32)
    (same : idOf one = idOf other) : one = other := by
  have words := congrArg UInt32.toNat same
  simp only [idOf, UInt32.toNat_ofNat'] at words
  omega

section Messages

variable (names : Nat → Bytes) (s : Bus)

/-- The message belongs to the call of the result. -/
def Matches (held : Held) (msg : Msg) : Prop :=
  msg.caller_ = names held.call.client ∧ msg.id_ = held.call.id

/-- The message belongs to a call that some client made. -/
def Issued (msg : Msg) : Prop :=
  ∃ i count, msg.caller_ = names i ∧ count < s.issued i ∧ msg.id_ = idOf count

/-- The request was served for this call. -/
def Answers (served : Served) (call : Call) : Prop :=
  served.caller = names call.client ∧ served.id = call.id ∧ served.provider = call.provider ∧
    served.method = call.method

/-- What a call is to return: what the method that was found returns on the
entries of the input with a non-empty key, or that there is no such method. -/
def expected (found : Option MethodFunc) (input : In) : Params :=
  BusService.answer found none input.named

/-- If the call of a live result made this request, it asks what the call asks. -/
def AsksFor (msg : Msg) : Prop :=
  ∀ address held, s.results address = some held → Matches names held msg →
    msg.method_provider_ = names held.call.provider ∧ msg.method_ = held.call.method ∧
      msg.params_ = held.call.input.named

/-- If the call of a live result gets this response, it carries what the provider
answered. -/
def Replies (msg : Msg) : Prop :=
  ∀ address held, s.results address = some held → Matches names held msg →
    ∃ served ∈ s.served, Answers names served held.call ∧
      msg.params_ = expected served.found held.call.input

/-- A message on its way from a client to the server. -/
structure FromClient (i : Nat) (msg : Msg) : Prop where
  whole : slash ∉ msg.method_
  issued : Issued names s msg
  own : msg.is_request_ = true → msg.caller_ = names i
  asks : msg.is_request_ = true → AsksFor names s msg
  registers : msg.is_request_ = true → BusServer.IsLocal msg →
    msg.method_ = text "RegisterService" →
    In.get ⟨some i, msg.params_.values_⟩ (text "ServiceName") = names i
  replies : msg.is_request_ = false → Replies names s msg

/-- A message on its way from the server to a client. -/
structure ToClient (i : Nat) (msg : Msg) : Prop where
  whole : slash ∉ msg.method_
  issued : Issued names s msg
  provided : msg.is_request_ = true → msg.method_provider_ = names i
  asks : msg.is_request_ = true → AsksFor names s msg
  own : msg.is_request_ = false → msg.caller_ = names i
  replies : msg.is_request_ = false → Replies names s msg

/-- The result is as it was made, or one response was written to it: the response
to its call, with what the provider answered. -/
def Correct (held : Held) : Prop :=
  (held.ok_ = false ∧ held.out_ = .empty ∧ held.fills = []) ∨
    (held.ok_ = true ∧ held.fills = [(names held.call.client, held.call.id)] ∧
      ∃ served ∈ s.served, Answers names served held.call ∧
        held.out_.values_ = (expected served.found held.call.input).values_)

end Messages

/-- The frame carries a message with the property. -/
def Carries (lib : JsonLibrary) (Good : Msg → Prop) (frame : Bytes) : Prop :=
  ∃ msg body, JsonPacker.pack lib msg = .ok body ∧ frame = frameOf body ∧ Good msg

/-- What holds of the system at all times. -/
structure Sound (lib : JsonLibrary) (names : Nat → Bytes) (s : Bus) : Prop where
  serverIdle : ∀ i, (s.contexts i).state_ = .kHeader ∧ (s.buffers i).str = []
  clientIdle : ∀ i, (s.clients i).context.state_ = .kHeader ∧
    (s.clients i).input_buffer_.str = []
  upward : ∀ i, ∀ frame ∈ s.up i, Carries lib (FromClient names s i) frame
  downward : ∀ i, ∀ frame ∈ s.down i, Carries lib (ToClient names s i) frame
  routes : ∀ name conn, BusRouter.find s.connections_ name = some conn → names conn = name
  invokers : ∀ i, (s.clients i).invoker_.name_ = names i ∧
    (s.clients i).invoker_.next_id_ = idOf (s.issued i)
  waiting : ∀ (i : Nat) (id : UInt32) (address : Nat) (held : Held),
    (s.clients i).invoker_.waitings_[id]? = some address → s.results address = some held →
    held.call.client = i ∧ held.call.id = id ∧ held.ok_ = false ∧ held.out_ = .empty ∧
      held.fills = []
  calls : ∀ address held, s.results address = some held →
    ∃ count < s.issued held.call.client, held.call.id = idOf count
  correct : ∀ address held, s.results address = some held → Correct names s held

/-- At the start nothing is under way and nothing is waited for. -/
theorem fresh_sound (lib : JsonLibrary) (names : Nat → Bytes) : Sound lib names (fresh names) where
  serverIdle _ := ⟨rfl, Buffer.fresh_str⟩
  clientIdle _ := ⟨rfl, Buffer.fresh_str⟩
  upward _ _ member := by contradiction
  downward _ _ member := by contradiction
  routes name conn found := by
    rw [BusRouter.find, fresh, ExtTreeMap.getElem?_empty] at found
    contradiction
  invokers _ := ⟨rfl, rfl⟩
  waiting _ _ _ _ _ alive := by contradiction
  calls _ _ alive := by contradiction
  correct _ _ alive := by contradiction

/-- How a step changes what messages refer to: more calls, more served requests,
and no result whose call an earlier message belongs to, other than those that
were there. -/
structure Grows (names : Nat → Bytes) (s after : Bus) : Prop where
  issued : ∀ i, s.issued i ≤ after.issued i
  served : ∀ served ∈ s.served, served ∈ after.served
  results : ∀ address held, after.results address = some held →
    (∃ before, s.results address = some before ∧ before.call = held.call) ∨
      ∀ msg, Issued names s msg → ¬ Matches names held msg

section Growing

variable {names : Nat → Bytes} {s after : Bus}

/-- What was issued stays issued. -/
theorem Issued.grows {msg : Msg} (issued : Issued names s msg) (grows : Grows names s after) :
    Issued names after msg := by
  obtain ⟨i, count, caller, counted, id⟩ := issued
  exact ⟨i, count, caller, Nat.lt_of_lt_of_le counted (grows.issued i), id⟩

/-- A request still asks for its own call's provider, method and input. -/
theorem AsksFor.grows {msg : Msg} (asks : AsksFor names s msg) (issued : Issued names s msg)
    (grows : Grows names s after) : AsksFor names after msg := by
  intro address held alive own
  rcases grows.results address held alive with ⟨before, present, same⟩ | new
  · rw [← same]
    refine asks address before present ?_
    rw [Matches, same]
    exact own
  · exact absurd own (new msg issued)

/-- A response still replies with what was found for its own call. -/
theorem Replies.grows {msg : Msg} (replies : Replies names s msg) (issued : Issued names s msg)
    (grows : Grows names s after) : Replies names after msg := by
  intro address held alive own
  rcases grows.results address held alive with ⟨before, present, same⟩ | new
  · obtain ⟨served, logged, answers, params⟩ := replies address before present (by
      rw [Matches, same]
      exact own)
    rw [same] at answers params
    exact ⟨served, grows.served served logged, answers, params⟩
  · exact absurd own (new msg issued)

/-- A message under way to the server stays a good one. -/
theorem FromClient.grows {i : Nat} {msg : Msg} (good : FromClient names s i msg)
    (grows : Grows names s after) : FromClient names after i msg where
  whole := good.whole
  issued := good.issued.grows grows
  own := good.own
  asks request := (good.asks request).grows good.issued grows
  registers := good.registers
  replies response := (good.replies response).grows good.issued grows

/-- A message under way to a client stays a good one. -/
theorem ToClient.grows {i : Nat} {msg : Msg} (good : ToClient names s i msg)
    (grows : Grows names s after) : ToClient names after i msg where
  whole := good.whole
  issued := good.issued.grows grows
  provided := good.provided
  asks request := (good.asks request).grows good.issued grows
  own := good.own
  replies response := (good.replies response).grows good.issued grows

/-- Where a message came from does not matter. -/
theorem FromClient.unsourced {i : Nat} {msg : Msg} (good : FromClient names s i msg) :
    FromClient names s i { msg with src := none } :=
  ⟨good.whole, good.issued, good.own, good.asks, good.registers, good.replies⟩

theorem ToClient.unsourced {i : Nat} {msg : Msg} (good : ToClient names s i msg) :
    ToClient names s i { msg with src := none } :=
  ⟨good.whole, good.issued, good.provided, good.asks, good.own, good.replies⟩

/-- A frame that carries a good message carries one that is good in a weaker sense. -/
theorem Carries.imp {lib : JsonLibrary} {Good Better : Msg → Prop} {frame : Bytes}
    (carries : Carries lib Good frame) (better : ∀ msg, Good msg → Better msg) :
    Carries lib Better frame := by
  obtain ⟨msg, body, packed, framed, good⟩ := carries
  exact ⟨msg, body, packed, framed, better msg good⟩

/-- A correct result stays correct. -/
theorem Correct.grows {held : Held} (correct : Correct names s held)
    (grows : Grows names s after) : Correct names after held := by
  rcases correct with unfilled | ⟨filled, fills, served, logged, answers, out⟩
  · exact .inl unfilled
  · exact .inr ⟨filled, fills, served, grows.served served logged, answers, out⟩

/-- A step that leaves the results, the counters and the served requests alone. -/
theorem Grows.same (results : after.results = s.results) (issued : after.issued = s.issued)
    (served : after.served = s.served) : Grows names s after where
  issued i := by rw [issued]
  served _ logged := by rwa [served]
  results address held alive := .inl ⟨held, by rw [← results, alive], rfl⟩

end Growing

/-- Sending a good message on a connection keeps the queues good. -/
theorem send_carries {lib : JsonLibrary} {queues : Nat → List Bytes} {Good : Nat → Msg → Prop}
    (carried : ∀ i, ∀ frame ∈ queues i, Carries lib (Good i) frame) {conn : Nat} {msg : Msg}
    (good : Good conn msg) :
    ∀ i, ∀ frame ∈ send lib queues conn msg i, Carries lib (Good i) frame := by
  intro i frame member
  unfold send at member
  cases packed : JsonPacker.pack lib msg with
  | error what =>
    rw [packed] at member
    exact carried i frame member
  | ok body =>
    rw [packed] at member
    dsimp only at member
    by_cases here : i = conn
    · subst here
      rw [Function.update_self, List.mem_append, List.mem_singleton] at member
      rcases member with queued | rfl
      · exact carried i frame queued
      · exact ⟨msg, body, packed, rfl, good⟩
    · rw [Function.update_of_ne here] at member
      exact carried i frame member

/-- A frame that is short enough is read as the message it carries. -/
theorem receive_frame {lib : JsonLibrary} (faithful : lib.Faithful) {msg : Msg} {body : Bytes}
    (packed : JsonPacker.pack lib msg = .ok body) (whole : slash ∉ msg.method_)
    (short : (frameOf body).length < MsgHeader.size + 2 ^ 32) {ctx : BusContext} {buf : Buffer}
    (idle : ctx.state_ = .kHeader) (empty : buf.str = []) :
    ∃ (after : BusContext) (left : Buffer),
      receive lib ctx buf (frameOf body) = (.kGood { msg with src := none }, after, left) ∧
      after.state_ = .kHeader ∧ left.str = [] := by
  have fits : body.length + 1 < 2 ^ 32 := by
    rw [frameOf_eq, List.length_append, MsgHeader.toBytes_length, List.length_append,
      List.length_singleton] at short
    omega
  obtain ⟨after, again, emits⟩ := Inbox.frame_decodes faithful packed fits ctx idle []
  have decoded := BusContext.parse_decodes (JsonPacker.unpackNew lib) ctx
    (buf.append (frameOf body))
  have reread : JsonPacker.reread msg = { msg with src := none } :=
    Msg.ext_fields rfl rfl rfl rfl ((JsonPacker.reread_method msg).mpr whole) rfl rfl
  rw [Buffer.append_str, empty, List.nil_append] at decoded
  rw [List.append_nil, ← decoded, reread] at emits
  rcases called : ctx.parse (JsonPacker.unpackNew lib) (buf.append (frameOf body)) with
    ⟨result, final, left⟩
  rw [called] at emits
  cases result with
  | kContinue => contradiction
  | kBad => cases emits
  | kGood msg =>
    simp only [BusContext.outcome, Incremental.Outcome.emit.injEq, Option.some.injEq] at emits
    obtain ⟨rfl, rfl, nothing⟩ := emits
    exact ⟨final, left, called, again, nothing⟩

end Cppboot.Bus
