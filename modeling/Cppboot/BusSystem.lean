import Cppboot.BusEndpoints
import Cppboot.Runs

/-!
# The bus as a system

One server and its clients, with a connection for each client. Each connection
delivers the frames that were sent on it one by one and in order, every frame as
one read; across connections deliveries happen in any order. An event is a call
of the interface of a client or the delivery of one frame.

Memory holds the results that calls wait for. `Start` and `AddMethod` make a call
with a result of their own, which is gone when they return, while the invoker
keeps its address. When the response comes it is written to that address. If
another result has been placed there it is written to that one. Otherwise nothing
is alive there, and the write through the dangling pointer may do anything: the
event of the delivery says what, and it may leave any bus whatever.

Each result carries the call it was made for and the responses that were written
to it, and the system the requests that reached a provider with the method found
for them. No operation reads these records.
-/

namespace Cppboot

/-- The call that a result was made for. The provider is a client. -/
structure Call where
  client : Nat
  id : UInt32
  provider : Nat
  method : Bytes
  input : In

/-- A result in memory with its call and the caller and identifier of every
response that was written to it. -/
structure Held extends Result where
  call : Call
  fills : List (Bytes × UInt32)

/-- Write a response to a result. -/
def Held.fill (held : Held) (msg : Msg) : Held :=
  { held with
    toResult := held.toResult.fill msg
    fills := held.fills ++ [(msg.caller_, msg.id_)] }

/-- A request that reached its provider, and the method that was found for it. -/
structure Served where
  caller : Bytes
  id : UInt32
  provider : Nat
  method : Bytes
  found : Option MethodFunc

/-- A client: its methods, its invoker, and the reading side of its transport. -/
structure BusClient where
  methods_ : BusService.Methods
  invoker_ : BusInvoker
  context : BusContext
  input_buffer_ : Buffer
  stopped : Bool

def BusClient.create (name : Bytes) : BusClient := ⟨∅, .create name, .fresh, .fresh, false⟩

/-- The server with the contexts and input buffers of its connections, the
clients, the frames under way to and from the server, and memory. -/
structure Bus where
  clients : Nat → BusClient
  connections_ : BusRouter.Connections
  contexts : Nat → BusContext
  buffers : Nat → Buffer
  up : Nat → List Bytes
  down : Nat → List Bytes
  results : Nat → Option Held
  issued : Nat → Nat
  served : List Served

namespace Bus

/-- A call of the interface of a client, or the delivery of one frame. The address
is where the result of the call lies. A delivery to a client comes with what a write
through a dangling pointer would do in it. -/
inductive Event where
  | start (i : Nat) (address : Nat)
  | addMethod (i : Nat) (name : Bytes) (func : MethodFunc) (address : Nat)
  | acall (i : Nat) (provider : Nat) (method : Bytes) (input : In) (address : Nat)
  | deliverUp (i : Nat)
  | deliverDown (i : Nat) (dangling : Bus → Bus)

def fresh (names : Nat → Bytes) : Bus where
  clients i := .create (names i)
  connections_ := ∅
  contexts _ := .fresh
  buffers _ := .fresh
  up _ := []
  down _ := []
  results _ := none
  issued _ := 0
  served := []

/-- `SendMessageToConnection`. A message that cannot be packed is not sent. -/
def send (lib : JsonLibrary) (queues : Nat → List Bytes) (conn : Nat) (msg : Msg) :
    Nat → List Bytes :=
  match JsonPacker.pack lib msg with
  | .ok body => Function.update queues conn (queues conn ++ [frameOf body])
  | .error _ => queues

/-- A call of the invoker of a client, which counts as issued. -/
def invoke (lib : JsonLibrary) (s : Bus) (i : Nat) (method : Bytes) (input : In)
    (address : Nat) : Bus :=
  let called := (s.clients i).invoker_.acall method input address
  { s with
    clients := Function.update s.clients i { s.clients i with invoker_ := called.1 }
    up := send lib s.up i called.2
    issued := Function.update s.issued i (s.issued i + 1) }

/-- `HandleMessage` of the server for a message from a connection. -/
def serverHandle (lib : JsonLibrary) (s : Bus) (i : Nat) (msg : Msg) : Bus :=
  let handled := BusServer.handleMessage s.connections_ (msg.setSrc i)
  { s with
    connections_ := handled.1
    down :=
      match handled.2 with
      | some (conn, msg) => send lib s.down conn msg
      | none => s.down }

/-- A read on a connection of the server. -/
def serverReceive (lib : JsonLibrary) (s : Bus) (i : Nat) (frame : Bytes) : Bus :=
  match receive lib (s.contexts i) (s.buffers i) frame with
  | (result, ctx, buf) =>
    let s := { s with
      contexts := Function.update s.contexts i ctx
      buffers := Function.update s.buffers i buf }
    match result with
    | .kGood msg => serverHandle lib s i msg
    | .kBad => s
    | .kContinue => s

/-- `HandleRequestMessage` of a client. -/
def clientServe (lib : JsonLibrary) (s : Bus) (i : Nat) (msg : Msg) : Bus :=
  { s with
    up := send lib s.up i (BusService.serveMsg (s.clients i).methods_ msg)
    served := s.served ++
      [⟨msg.caller_, msg.id_, i, msg.method_, (s.clients i).methods_[msg.method_]?⟩] }

/-- `HandleResponseMessage` of the invoker of a client. Where no result is alive
the pointer dangles. -/
def clientFill (s : Bus) (i : Nat) (msg : Msg) (dangling : Bus → Bus) : Bus :=
  let handled := (s.clients i).invoker_.handleResponseMessage msg
  let s := { s with
    clients := Function.update s.clients i { s.clients i with invoker_ := handled.1 } }
  match handled.2 with
  | some address =>
    match s.results address with
    | some held => { s with results := Function.update s.results address (some (held.fill msg)) }
    | none => dangling s
  | none => s

/-- A read on the transport of a client. -/
def clientReceive (lib : JsonLibrary) (s : Bus) (i : Nat) (frame : Bytes)
    (dangling : Bus → Bus) : Bus :=
  match receive lib (s.clients i).context (s.clients i).input_buffer_ frame with
  | (result, ctx, buf) =>
    let client := { s.clients i with context := ctx, input_buffer_ := buf }
    match result with
    | .kGood msg =>
      let s := { s with clients := Function.update s.clients i client }
      if msg.is_request_ then clientServe lib s i msg else clientFill s i msg dangling
    | .kBad => { s with clients := Function.update s.clients i { client with stopped := true } }
    | .kContinue => { s with clients := Function.update s.clients i client }

/-- A result is placed where no other is alive. The method of a call names one of
the clients, and its own name holds no slash. -/
def step (lib : JsonLibrary) (names : Nat → Bytes) (s : Bus) : Event → Option Bus
  | .start i address =>
    if (s.results address).isSome then none
    else some (invoke lib s i (text "RegisterService")
      (In.empty.set (text "ServiceName") (names i)) address)
  | .addMethod i name func address =>
    if (s.results address).isSome then none
    else
      match BusService.addMethod (s.clients i).methods_ name func with
      | none => some s
      | some methods_ =>
        let s := { s with
          clients := Function.update s.clients i { s.clients i with methods_ := methods_ } }
        some (invoke lib s i (text "SvcMgr/AddMethod") (In.empty.set (text "MethodName") name)
          address)
  | .acall i provider method input address =>
    if (s.results address).isSome ∨ slash ∈ method then none
    else
      let call : Call := ⟨i, (s.clients i).invoker_.next_id_, provider, method, input⟩
      let s := { s with results := Function.update s.results address (some ⟨.fresh, call, []⟩) }
      some (invoke lib s i (names provider ++ slash :: method) input address)
  | .deliverUp i =>
    match s.up i with
    | [] => none
    | frame :: rest =>
      some (serverReceive lib { s with up := Function.update s.up i rest } i frame)
  | .deliverDown i dangling =>
    if (s.clients i).stopped then none
    else
      match s.down i with
      | [] => none
      | frame :: rest =>
        some (clientReceive lib { s with down := Function.update s.down i rest } i frame dangling)

/-- The frame that comes next for a client is a response to a call whose result is
gone. -/
def Strays (lib : JsonLibrary) (s : Bus) (i : Nat) : Prop :=
  ∃ frame ∈ (s.down i).head?, ∃ msg address,
    (receive lib (s.clients i).context (s.clients i).input_buffer_ frame).1 = .kGood msg ∧
      msg.is_request_ = false ∧ (s.clients i).invoker_.waitings_[msg.id_]? = some address ∧
      s.results address = none

/-- No invoker still keeps the address of a result that is gone where a call
places its result. A frame that is delivered was not too long for its header. And if
it is a response to a call whose result is gone, what is written there happens to
change nothing. -/
def Disciplined (lib : JsonLibrary) (s : Bus) : Event → Prop
  | .acall _ _ _ _ address =>
    ∀ (j : Nat) (id : UInt32), (s.clients j).invoker_.waitings_[id]? ≠ some address
  | .deliverUp i => ∀ frame ∈ (s.up i).head?, frame.length < MsgHeader.size + 2 ^ 32
  | .deliverDown i dangling =>
    (∀ frame ∈ (s.down i).head?, frame.length < MsgHeader.size + 2 ^ 32) ∧
      (Strays lib s i → dangling = id)
  | .start _ _ => True
  | .addMethod _ _ _ _ => True

end Bus

end Cppboot
