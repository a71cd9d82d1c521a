import Cppboot.BusMessages

/-!
# What the events of the bus preserve

A call of an invoker takes an identifier that no message belongs to. The server
passes messages on to the client with the name they carry, and answers requests
without a provider to the client that made them. A client answers a request it is
the provider of, and writes a response to the address it keeps under its
identifier. Each of these keeps the bus sound.
-/

namespace Cppboot.Bus

open Std

section Steps

variable {lib : JsonLibrary} {names : Nat → Bytes} {s : Bus}

/-- Changes that calls do not see: contexts between frames, empty input buffers,
frames taken off and methods added. -/
theorem Sound.refresh (sound : Sound lib names s) {after : Bus}
    (serverIdle : ∀ i, (after.contexts i).state_ = .kHeader ∧ (after.buffers i).str = [])
    (clientIdle : ∀ i, (after.clients i).context.state_ = .kHeader ∧
      (after.clients i).input_buffer_.str = [])
    (up : ∀ i, ∀ frame ∈ after.up i, frame ∈ s.up i)
    (down : ∀ i, ∀ frame ∈ after.down i, frame ∈ s.down i)
    (connections_ : after.connections_ = s.connections_)
    (invokers : ∀ i, (after.clients i).invoker_ = (s.clients i).invoker_)
    (results : after.results = s.results) (issued : after.issued = s.issued)
    (served : after.served = s.served) : Sound lib names after := by
  have grows : Grows names s after := .same results issued served
  refine ⟨serverIdle, clientIdle, ?_, ?_, ?_, ?_, ?_, ?_, ?_⟩
  · exact fun i frame queued =>
      (sound.upward i frame (up i frame queued)).imp fun _ good => good.grows grows
  · exact fun i frame queued =>
      (sound.downward i frame (down i frame queued)).imp fun _ good => good.grows grows
  · rw [connections_]
    exact sound.routes
  · intro i
    rw [invokers, issued]
    exact sound.invokers i
  · intro i id address held kept alive
    rw [invokers] at kept
    rw [results] at alive
    exact sound.waiting i id address held kept alive
  · rw [results, issued]
    exact sound.calls
  · intro address held alive
    rw [results] at alive
    exact (sound.correct address held alive).grows grows

theorem Sound.methods (sound : Sound lib names s) (i : Nat) (methods_ : BusService.Methods) :
    Sound lib names { s with
      clients := Function.update s.clients i { s.clients i with methods_ := methods_ } } := by
  refine sound.refresh sound.serverIdle ?_ (fun _ _ queued => queued) (fun _ _ queued => queued)
    rfl ?_ rfl rfl rfl
  · exact (Function.forall_update_iff s.clients
      (fun _ client => client.context.state_ = .kHeader ∧ client.input_buffer_.str = [])).mpr
      ⟨sound.clientIdle i, fun j _ => sound.clientIdle j⟩
  · exact (Function.forall_update_iff s.clients
      (fun j client => client.invoker_ = (s.clients j).invoker_)).mpr ⟨rfl, fun _ _ => rfl⟩

/-- A result that a call places: as new, with the call the request asks for. -/
structure Places (names : Nat → Bytes) (s : Bus) (i : Nat) (request : Msg) (held : Held) :
    Prop where
  unfilled : held.toResult = .fresh ∧ held.fills = []
  client : held.call.client = i
  id : held.call.id = (s.clients i).invoker_.next_id_
  provider : request.method_provider_ = names held.call.provider
  method : request.method_ = held.call.method
  params : request.params_ = held.call.input.named

/-- A call of an invoker that the interface of a client makes. The results may
hold one more than before: the result of this call, where there was none. -/
structure Invocation (names : Nat → Bytes) (s : Bus) (i : Nat) (method : Bytes) (input : In)
    (address : Nat) (results : Nat → Option Held) : Prop where
  few : s.issued i < 2 ^ 32
  whole : slash ∉ (Msg.fresh.setMethod method).method_
  registers : BusServer.IsLocal (Msg.fresh.setMethod method) →
    (Msg.fresh.setMethod method).method_ = text "RegisterService" →
    In.get ⟨some i, input.named.values_⟩ (text "ServiceName") = names i
  free : s.results address = none
  placed : ∀ other held, results other = some held → s.results other = some held ∨
    other = address ∧ Places names s i ((s.clients i).invoker_.acall method input address).2 held ∧
      ∀ (j : Nat) (id : UInt32), (s.clients j).invoker_.waitings_[id]? ≠ some address

section Invoking

variable {i : Nat} {method : Bytes} {input : In} {address : Nat} {results : Nat → Option Held}

/-- An identifier that was given out before is not the one of this call. -/
theorem Invocation.distinct (invocation : Invocation names s i method input address results)
    (sound : Sound lib names s) {count : Nat} (less : count < s.issued i) :
    idOf count ≠ (s.clients i).invoker_.next_id_ := by
  intro same
  rw [(sound.invokers i).2] at same
  have few := invocation.few
  exact absurd (idOf_injective (by omega) few same) (by omega)

/-- Counting one more call of a client takes back no call. -/
theorem count_grows (issued : Nat → Nat) (i j : Nat) :
    issued j ≤ Function.update issued i (issued i + 1) j :=
  (Function.forall_update_iff issued (fun j count => issued j ≤ count)).mpr
    ⟨Nat.le_succ _, fun _ _ => Nat.le_refl _⟩ j

/-- No message belongs to the new call yet. -/
theorem Invocation.grows (invocation : Invocation names s i method input address results)
    (naming : Naming names) (sound : Sound lib names s) :
    Grows names s (invoke lib { s with results := results } i method input address) := by
  refine ⟨count_grows s.issued i, fun _ logged => logged, ?_⟩
  intro other held alive
  rcases invocation.placed other held alive with present | ⟨_, places, _⟩
  · exact .inl ⟨held, present, rfl⟩
  · refine .inr ?_
    rintro msg ⟨j, count, from_, less, numbered⟩ ⟨sameCaller, sameId⟩
    obtain rfl : j = i := naming.injective (by rw [← from_, sameCaller, places.client])
    exact invocation.distinct sound less (by rw [← numbered, sameId, places.id])

/-- The request of the call is a good message. It belongs to the new call only,
since every other result has an identifier that was given out before. -/
theorem Invocation.request (invocation : Invocation names s i method input address results)
    (naming : Naming names) (sound : Sound lib names s) :
    FromClient names (invoke lib { s with results := results } i method input address) i
      ((s.clients i).invoker_.acall method input address).2 := by
  obtain ⟨id, caller, request, method_, provider, params⟩ :=
    BusInvoker.acall_fields (s.clients i).invoker_ method input address
  rw [(sound.invokers i).1] at caller
  refine ⟨by rw [method_]; exact invocation.whole, ?_, fun _ => caller, ?_, ?_, ?_⟩
  · refine ⟨i, s.issued i, caller, ?_, by rw [id, (sound.invokers i).2]⟩
    change s.issued i < Function.update s.issued i (s.issued i + 1) i
    rw [Function.update_self]
    exact Nat.lt_succ_self _
  · intro _ other held alive own
    rcases invocation.placed other held alive with present | ⟨_, places, _⟩
    · obtain ⟨count, less, numbered⟩ := sound.calls other held present
      have same : held.call.client = i := naming.injective (by rw [← own.1, caller])
      rw [same] at less
      exact absurd (by rw [← numbered, ← own.2, id]) (invocation.distinct sound less)
    · exact ⟨places.provider, places.method, places.params⟩
  · intro _ isLocal register
    rw [params]
    refine invocation.registers ?_ (by rw [← method_, register])
    rw [BusServer.IsLocal, ← provider]
    exact isLocal
  · intro response
    rw [request] at response
    contradiction

/-- The addresses that are kept are those of live results of the same call, or of
results that are gone. -/
theorem Invocation.waiting (invocation : Invocation names s i method input address results)
    (sound : Sound lib names s) (j : Nat) (id : UInt32) (kept : Nat) (held : Held)
    (found : ((invoke lib { s with results := results } i method input
      address).clients j).invoker_.waitings_[id]? = some kept)
    (alive : results kept = some held) :
    held.call.client = j ∧ held.call.id = id ∧ held.ok_ = false ∧ held.out_ = .empty ∧
      held.fills = [] := by
  have earlier : (s.clients j).invoker_.waitings_[id]? = some kept →
      held.call.client = j ∧ held.call.id = id ∧ held.ok_ = false ∧ held.out_ = .empty ∧
        held.fills = [] := by
    intro before
    rcases invocation.placed kept held alive with present | ⟨rfl, _, untracked⟩
    · exact sound.waiting j id kept held before present
    · exact absurd before (untracked j id)
  simp only [invoke] at found
  by_cases here : j = i
  · subst here
    rw [Function.update_self] at found
    simp only [BusInvoker.acall] at found
    rw [ExtTreeMap.getElem?_insert] at found
    split at found
    next same =>
      obtain rfl := LawfulEqCmp.eq_of_compare same
      obtain rfl := Option.some.inj found
      rcases invocation.placed address held alive with present | ⟨_, places, _⟩
      · rw [invocation.free] at present
        contradiction
      · obtain ⟨⟨ok_, out_⟩, call, fills⟩ := held
        obtain ⟨⟨new, none⟩, client, id, _, _, _⟩ := places
        cases new
        exact ⟨client, id, rfl, rfl, none⟩
    next => exact earlier found
  · rw [Function.update_of_ne here] at found
    exact earlier found

/-- A call of an invoker keeps the system sound. -/
theorem Sound.invoke (invocation : Invocation names s i method input address results)
    (naming : Naming names) (sound : Sound lib names s) :
    Sound lib names (invoke lib { s with results := results } i method input address) := by
  have grows := invocation.grows naming sound
  refine ⟨sound.serverIdle, ?_, ?_, ?_, sound.routes, ?_, invocation.waiting sound, ?_, ?_⟩
  · exact (Function.forall_update_iff s.clients
      (fun _ client => client.context.state_ = .kHeader ∧ client.input_buffer_.str = [])).mpr
      ⟨sound.clientIdle i, fun j _ => sound.clientIdle j⟩
  · refine send_carries ?_ (invocation.request naming sound)
    exact fun j frame queued => (sound.upward j frame queued).imp fun _ good => good.grows grows
  · exact fun j frame queued => (sound.downward j frame queued).imp fun _ good => good.grows grows
  · intro j
    simp only [Bus.invoke]
    by_cases here : j = i
    · subst here
      rw [Function.update_self, Function.update_self]
      exact ⟨(sound.invokers j).1, by rw [← idOf_succ, ← (sound.invokers j).2]; rfl⟩
    · rw [Function.update_of_ne here, Function.update_of_ne here]
      exact sound.invokers j
  · intro other held alive
    rcases invocation.placed other held alive with present | ⟨_, places, _⟩
    · obtain ⟨count, less, numbered⟩ := sound.calls other held present
      exact ⟨count, Nat.lt_of_lt_of_le less (count_grows s.issued i _), numbered⟩
    · refine ⟨s.issued i, ?_, by rw [places.id, (sound.invokers i).2]⟩
      rw [places.client]
      simp only [Bus.invoke, Function.update_self]
      exact Nat.lt_succ_self _
  · intro other held alive
    rcases invocation.placed other held alive with present | ⟨_, places, _⟩
    · exact (sound.correct other held present).grows grows
    · obtain ⟨⟨ok_, out_⟩, call, fills⟩ := held
      obtain ⟨⟨new, none⟩, _, _, _, _, _⟩ := places
      cases new
      exact .inl ⟨rfl, rfl, none⟩

end Invoking

section Serving

variable {i : Nat} {msg : Msg}

/-- The server registers a client under its own name only. -/
theorem localMethod_routes (sound : Sound lib names s) (good : FromClient names s i msg)
    (request : msg.is_request_ = true) (isLocal : BusServer.IsLocal msg) (name : Bytes)
    (conn : Nat)
    (found : BusRouter.find (BusServer.localMethod s.connections_ (msg.setSrc i)).1 name =
      some conn) : names conn = name := by
  unfold BusServer.localMethod at found
  split at found
  next register =>
    have registered := good.registers request isLocal register
    rw [In.copy_empty] at found
    change ((s.connections_.insert (In.get ⟨some i, msg.params_.values_⟩ (text "ServiceName"))
      (some i))[name]?).join = some conn at found
    rw [registered, ExtTreeMap.getElem?_insert] at found
    split at found
    next same =>
      rw [← LawfulEqCmp.eq_of_compare same, ← Option.some.inj found]
    next => exact sound.routes name conn found
  next => exact sound.routes name conn found

/-- No call of a live result makes a request that the server answers itself: its
provider would have to be a client without a name or with the name of the
server. -/
theorem local_unanswered (naming : Naming names) (asks : AsksFor names s msg)
    (isLocal : BusServer.IsLocal msg) {address : Nat} {held : Held}
    (alive : s.results address = some held) : ¬ Matches names held msg := by
  intro own
  obtain ⟨provider, _, _⟩ := asks address held alive own
  rcases isLocal with unnamed | manager
  · exact naming.named _ (provider.symm.trans unnamed)
  · exact naming.notManager _ (provider.symm.trans manager)

/-- What the server sends is a good message on the connection it is sent on: an
answer of its own to the client that asked, a request to the client with the name
of its provider, a response to the client with the name of its caller. -/
theorem handleMessage_sends (naming : Naming names) (sound : Sound lib names s)
    (good : FromClient names s i msg) {conn : Nat} {out : Msg}
    (sends : (BusServer.handleMessage s.connections_ (msg.setSrc i)).2 = some (conn, out)) :
    ToClient names s conn out := by
  unfold BusServer.handleMessage at sends
  split at sends
  next request =>
    unfold BusServer.handleRequestMessage at sends
    split at sends
    next isLocal =>
      obtain ⟨rfl, rfl⟩ := Prod.mk.inj (Option.some.inj sends)
      obtain ⟨_, id, caller, response, method⟩ := BusService.serveWith_fields
        (BusServer.localMethod s.connections_ (msg.setSrc i)).2 (msg.setSrc i)
      obtain ⟨client, count, from_, less, numbered⟩ := good.issued
      refine ⟨by rw [method]; exact List.not_mem_nil,
        ⟨client, count, caller.trans from_, less, id.trans numbered⟩, ?_, ?_, ?_, ?_⟩
      · exact fun asked => absurd (response.symm.trans asked) (by decide)
      · exact fun asked => absurd (response.symm.trans asked) (by decide)
      · exact fun _ => caller.trans (good.own request)
      · intro _ address held alive own
        refine absurd ?_ (local_unanswered naming (good.asks request) isLocal alive)
        exact ⟨caller.symm.trans own.1, id.symm.trans own.2⟩
    next =>
      obtain ⟨other, found, same⟩ := Option.map_eq_some_iff.mp sends
      obtain ⟨rfl, rfl⟩ := Prod.mk.inj same
      refine ⟨good.whole, good.issued, fun _ => (sound.routes _ _ found).symm, good.asks, ?_, ?_⟩
      · exact fun response => absurd (request.symm.trans response) (by decide)
      · exact fun response => absurd (request.symm.trans response) (by decide)
  next notRequest =>
    have response : msg.is_request_ = false := Bool.eq_false_iff.mpr notRequest
    obtain ⟨other, found, same⟩ := Option.map_eq_some_iff.mp sends
    obtain ⟨rfl, rfl⟩ := Prod.mk.inj same
    refine ⟨good.whole, good.issued, fun request => absurd request notRequest,
      fun request => absurd request notRequest, fun _ => (sound.routes _ _ found).symm,
      good.replies⟩

/-- The router knows connections by the names of their clients only. -/
theorem handleMessage_routes (sound : Sound lib names s) (good : FromClient names s i msg)
    (name : Bytes) (conn : Nat)
    (found : BusRouter.find (BusServer.handleMessage s.connections_ (msg.setSrc i)).1 name =
      some conn) : names conn = name := by
  unfold BusServer.handleMessage at found
  split at found
  next request =>
    unfold BusServer.handleRequestMessage at found
    split at found
    next isLocal => exact localMethod_routes sound good request isLocal name conn found
    next => exact sound.routes name conn found
  next => exact sound.routes name conn found

theorem Sound.serverHandle (naming : Naming names) (sound : Sound lib names s)
    (good : FromClient names s i msg) : Sound lib names (serverHandle lib s i msg) := by
  have grows : Grows names s (Bus.serverHandle lib s i msg) := .same rfl rfl rfl
  refine ⟨sound.serverIdle, sound.clientIdle, ?_, ?_, handleMessage_routes sound good,
    sound.invokers, sound.waiting, sound.calls, sound.correct⟩
  · exact fun j frame queued => (sound.upward j frame queued).imp fun _ good => good.grows grows
  · have kept : ∀ j, ∀ frame ∈ s.down j, Carries lib
        (ToClient names (Bus.serverHandle lib s i msg) j) frame :=
      fun j frame queued => (sound.downward j frame queued).imp fun _ good => good.grows grows
    intro j frame queued
    cases sends : (BusServer.handleMessage s.connections_ (msg.setSrc i)).2 with
    | none =>
      simp only [Bus.serverHandle, sends] at queued
      exact kept j frame queued
    | some sent =>
      simp only [Bus.serverHandle, sends] at queued
      exact send_carries kept ((handleMessage_sends naming sound good sends).grows grows) j frame
        queued

/-- The answer of a client is good: the request asks what its call asks, and the
client is the provider it names. -/
theorem serveMsg_replies (naming : Naming names) (good : ToClient names s i msg)
    (request : msg.is_request_ = true) :
    FromClient names (clientServe lib s i { msg with src := none }) i
      (BusService.serveMsg (s.clients i).methods_ { msg with src := none }) := by
  obtain ⟨params, id, caller, response, method⟩ := BusService.serveWith_fields
    (s.clients i).methods_[msg.method_]? { msg with src := none }
  obtain ⟨client, count, from_, less, numbered⟩ := good.issued
  refine ⟨?_, ⟨client, count, caller.trans from_, less, id.trans numbered⟩, ?_, ?_, ?_, ?_⟩
  · exact fun member => List.not_mem_nil (method ▸ member)
  · exact fun asked => absurd (response.symm.trans asked) (by decide)
  · exact fun asked => absurd (response.symm.trans asked) (by decide)
  · exact fun asked => absurd (response.symm.trans asked) (by decide)
  · intro _ address held alive own
    obtain ⟨sameCaller, sameId⟩ : Matches names held msg :=
      ⟨caller.symm.trans own.1, id.symm.trans own.2⟩
    obtain ⟨provider, asked, input⟩ := good.asks request address held alive ⟨sameCaller, sameId⟩
    have here : i = held.call.provider :=
      naming.injective ((good.provided request).symm.trans provider)
    refine ⟨⟨msg.caller_, msg.id_, i, msg.method_, (s.clients i).methods_[msg.method_]?⟩, ?_,
      ⟨sameCaller, sameId, here, asked⟩, ?_⟩
    · exact List.mem_append_right _ (List.mem_singleton_self _)
    · rw [expected, ← input]
      exact params

/-- A client that serves a request logs it and sends the answer. -/
theorem Sound.clientServe (naming : Naming names) (sound : Sound lib names s)
    (good : ToClient names s i msg) (request : msg.is_request_ = true) :
    Sound lib names (clientServe lib s i { msg with src := none }) := by
  have grows : Grows names s (Bus.clientServe lib s i { msg with src := none }) :=
    ⟨fun _ => Nat.le_refl _, fun _ logged => List.mem_append_left _ logged,
      fun _ held alive => .inl ⟨held, alive, rfl⟩⟩
  refine ⟨sound.serverIdle, sound.clientIdle, ?_, ?_, sound.routes, sound.invokers,
    sound.waiting, sound.calls, ?_⟩
  · refine send_carries ?_ (serveMsg_replies naming good request)
    exact fun j frame queued => (sound.upward j frame queued).imp fun _ good => good.grows grows
  · exact fun j frame queued => (sound.downward j frame queued).imp fun _ good => good.grows grows
  · exact fun address held alive => (sound.correct address held alive).grows grows

/-- A response to a client that keeps an address under its identifier. -/
def filled (s : Bus) (i : Nat) (msg : Msg) (address : Nat) : Bus :=
  { s with
    clients := Function.update s.clients i { s.clients i with
      invoker_ := { (s.clients i).invoker_ with
        waitings_ := (s.clients i).invoker_.waitings_.erase msg.id_ } }
    results := Function.update s.results address
      ((s.results address).map fun held => held.fill msg) }

/-- A result after a response is one that was there before, with the same call,
and unless the response was written to it nothing has changed. -/
theorem filled_results {address other : Nat} {held : Held}
    (alive : (filled s i msg address).results other = some held) :
    ∃ before, s.results other = some before ∧ before.call = held.call ∧
      (other = address ∧ held = before.fill msg ∨ other ≠ address ∧ held = before) := by
  simp only [filled] at alive
  by_cases here : other = address
  · subst here
    rw [Function.update_self] at alive
    obtain ⟨before, present, rfl⟩ := Option.map_eq_some_iff.mp alive
    exact ⟨before, present, rfl, .inl ⟨rfl, rfl⟩⟩
  · rw [Function.update_of_ne here] at alive
    exact ⟨held, alive, rfl, .inr ⟨here, rfl⟩⟩

/-- The addresses kept after a response were kept before, under an identifier
other than that of the response. -/
theorem filled_waitings {address j kept : Nat} {id : UInt32}
    (found : ((filled s i msg address).clients j).invoker_.waitings_[id]? = some kept) :
    (s.clients j).invoker_.waitings_[id]? = some kept ∧ (j = i → id ≠ msg.id_) := by
  simp only [filled] at found
  by_cases here : j = i
  · subst here
    rw [Function.update_self] at found
    simp only at found
    rw [ExtTreeMap.getElem?_erase] at found
    split at found
    next => contradiction
    next differs =>
      refine ⟨found, fun _ same => differs ?_⟩
      rw [same]
      exact ReflCmp.compare_self
  · rw [Function.update_of_ne here] at found
    exact ⟨found, fun same => absurd same here⟩

/-- A response that is written to a live result is the response to its call, and
the only one. -/
theorem Sound.filled (sound : Sound lib names s) (good : ToClient names s i msg)
    (response : msg.is_request_ = false) {address : Nat}
    (kept : (s.clients i).invoker_.waitings_[msg.id_]? = some address) :
    Sound lib names (filled s i msg address) := by
  have grows : Grows names s (Bus.filled s i msg address) := by
    refine ⟨fun _ => Nat.le_refl _, fun _ logged => logged, fun other held alive => ?_⟩
    obtain ⟨before, present, same, _⟩ := filled_results alive
    exact .inl ⟨before, present, same⟩
  refine ⟨sound.serverIdle, ?_, ?_, ?_, sound.routes, ?_, ?_, ?_, ?_⟩
  · exact (Function.forall_update_iff s.clients
      (fun _ client => client.context.state_ = .kHeader ∧ client.input_buffer_.str = [])).mpr
      ⟨sound.clientIdle i, fun j _ => sound.clientIdle j⟩
  · exact fun j frame queued => (sound.upward j frame queued).imp fun _ good => good.grows grows
  · exact fun j frame queued => (sound.downward j frame queued).imp fun _ good => good.grows grows
  · exact (Function.forall_update_iff s.clients (fun j client => client.invoker_.name_ = names j ∧
      client.invoker_.next_id_ = idOf (s.issued j))).mpr
      ⟨sound.invokers i, fun j _ => sound.invokers j⟩
  · intro j id other held found alive
    obtain ⟨before, present, _, change⟩ := filled_results alive
    obtain ⟨found, differs⟩ := filled_waitings found
    have old := sound.waiting j id other before found present
    rcases change with ⟨rfl, _⟩ | ⟨_, rfl⟩
    · obtain ⟨client, sameId, _⟩ := sound.waiting i msg.id_ other before kept present
      exact absurd (old.2.1.symm.trans sameId) (differs (old.1.symm.trans client))
    · exact old
  · intro other held alive
    obtain ⟨before, present, same, _⟩ := filled_results alive
    rw [← same]
    exact sound.calls other before present
  · intro other held alive
    obtain ⟨before, present, _, ⟨rfl, rfl⟩ | ⟨_, rfl⟩⟩ := filled_results alive
    · obtain ⟨client, sameId, _, out, none⟩ := sound.waiting i msg.id_ other before kept present
      have own : Matches names before msg := ⟨by rw [client]; exact good.own response, sameId.symm⟩
      obtain ⟨served, logged, answers, params⟩ := good.replies response other before present own
      refine .inr ⟨rfl, ?_, served, logged, answers, ?_⟩
      · simp only [Held.fill, none, List.nil_append]
        rw [own.1, own.2]
      · simp only [Held.fill, Result.fill, out, In.empty]
        rw [In.copy_empty, params]
    · exact sound.correct other held present

/-- What is written through a dangling pointer may be anything that changes nothing. -/
def Harmless (s : Bus) (i : Nat) (msg : Msg) (dangling : Bus → Bus) : Prop :=
  ∀ address, (s.clients i).invoker_.waitings_[msg.id_]? = some address →
    s.results address = none → dangling = id

/-- A response is taken: nothing waits for it, or it is written to its address. -/
theorem clientFill_cases {dangling : Bus → Bus} (harmless : Harmless s i msg dangling) :
    ((s.clients i).invoker_.waitings_[msg.id_]? = none ∧ clientFill s i msg dangling = s) ∨
      ∃ address, (s.clients i).invoker_.waitings_[msg.id_]? = some address ∧
        clientFill s i msg dangling = filled s i msg address := by
  unfold clientFill BusInvoker.handleResponseMessage
  cases kept : (s.clients i).invoker_.waitings_[msg.id_]? with
  | none =>
    refine .inl ⟨rfl, ?_⟩
    have same : Function.update s.clients i { s.clients i with
        invoker_ := (s.clients i).invoker_ } = s.clients := Function.update_eq_self i s.clients
    dsimp only
    rw [same]
  | some address =>
    refine .inr ⟨address, rfl, ?_⟩
    unfold filled
    cases alive : s.results address with
    | some held => simp only [alive, Option.map_some]
    | none =>
      have unchanged : Function.update s.results address none = s.results := by
        rw [← alive]
        exact Function.update_eq_self address s.results
      simp only [alive, Option.map_none, unchanged, harmless address kept alive, id_eq]

theorem Sound.clientFill (sound : Sound lib names s) (good : ToClient names s i msg)
    (response : msg.is_request_ = false) {dangling : Bus → Bus}
    (harmless : Harmless s i msg dangling) : Sound lib names (clientFill s i msg dangling) := by
  obtain ⟨_, same⟩ | ⟨address, kept, same⟩ := clientFill_cases harmless
  · rw [same]
    exact sound
  · rw [same]
    exact sound.filled good response kept

end Serving

end Steps

end Cppboot.Bus
