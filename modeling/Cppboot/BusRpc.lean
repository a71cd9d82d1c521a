import Cppboot.BusCalls

/-!
# Calls over the bus

Along every run in which no call places its result at an address that some
invoker still keeps, no delivered frame was too long for its header and no write
through a dangling pointer changes anything, every result stays as it was made or
holds what its own call returned.

Where a call does place its result at such an address, the response to the
registration of the client is written to it. Where no result is placed there the
response is written through a dangling pointer, and any bus may follow.
-/

namespace Cppboot.Bus

open Std Runs

variable {lib : JsonLibrary} {names : Nat → Bytes} {s after : Bus}

/-- The server makes no calls. -/
theorem serverReceive_issued (i : Nat) (frame : Bytes) :
    (serverReceive lib s i frame).issued = s.issued := by
  unfold serverReceive
  rcases receive lib (s.contexts i) (s.buffers i) frame with ⟨result, ctx, buf⟩
  cases result <;> rfl

/-- A write through a dangling pointer that the discipline admits changes nothing. -/
theorem Disciplined.harmless {i : Nat} {dangling : Bus → Bus} {frame : Bytes}
    {rest : List Bytes} {msg : Msg} {ctx : BusContext} {left : Buffer}
    (disciplined : s.Disciplined lib (.deliverDown i dangling)) (queue : s.down i = frame :: rest)
    (received : receive lib (s.clients i).context (s.clients i).input_buffer_ frame =
      (.kGood msg, ctx, left))
    (response : msg.is_request_ = false) :
    Harmless { s with
      down := Function.update s.down i rest
      clients := Function.update s.clients i
        { s.clients i with context := ctx, input_buffer_ := left } } i msg dangling := by
  intro address kept gone
  simp only [Function.update_self] at kept
  exact disciplined.2 ⟨frame, by rw [queue]; rfl, msg, address, by rw [received], response, kept,
    gone⟩

/-- A response that does no harm leaves the number of calls as it is. -/
theorem clientFill_issued {i : Nat} {msg : Msg} {dangling : Bus → Bus}
    (harmless : Harmless s i msg dangling) : (clientFill s i msg dangling).issued = s.issued := by
  obtain ⟨_, same⟩ | ⟨_, _, same⟩ := clientFill_cases harmless
  · rw [same]
  · rw [same]
    rfl

/-- A delivery to a client makes no call. -/
theorem deliverDown_issued {i : Nat} {dangling : Bus → Bus}
    (disciplined : s.Disciplined lib (.deliverDown i dangling))
    (taken : step lib names s (.deliverDown i dangling) = some after) :
    after.issued = s.issued := by
  simp only [step] at taken
  split at taken
  · contradiction
  · cases queue : s.down i with
    | nil =>
      rw [queue] at taken
      contradiction
    | cons frame rest =>
      rw [queue] at taken
      obtain rfl := Option.some.inj taken
      unfold clientReceive
      rcases received : receive lib (s.clients i).context (s.clients i).input_buffer_ frame with
        ⟨result, ctx, left⟩
      cases result with
      | kGood msg =>
        dsimp only
        split
        next => rfl
        next response =>
          exact clientFill_issued
            (disciplined.harmless queue received (Bool.eq_false_iff.mpr response))
      | _ => rfl

/-- An event makes one call or none. -/
theorem step_issued {event : Event} (disciplined : s.Disciplined lib event)
    (taken : step lib names s event = some after) :
    after.issued = s.issued ∨ ∃ i, after.issued = Function.update s.issued i (s.issued i + 1) := by
  cases event with
  | start i address =>
    simp only [step] at taken
    split at taken
    · contradiction
    · obtain rfl := Option.some.inj taken
      exact .inr ⟨i, rfl⟩
  | addMethod i name func address =>
    simp only [step] at taken
    split at taken
    · contradiction
    · split at taken
      · obtain rfl := Option.some.inj taken
        exact .inl rfl
      · obtain rfl := Option.some.inj taken
        exact .inr ⟨i, rfl⟩
  | acall i provider method input address =>
    simp only [step] at taken
    split at taken
    · contradiction
    · obtain rfl := Option.some.inj taken
      exact .inr ⟨i, rfl⟩
  | deliverUp i =>
    simp only [step] at taken
    split at taken
    · contradiction
    · obtain rfl := Option.some.inj taken
      exact .inl (serverReceive_issued i _)
  | deliverDown i dangling => exact .inl (deliverDown_issued disciplined taken)

/-- An event makes at most one call for each client, and takes none back. -/
theorem step_counts {event : Event} (disciplined : s.Disciplined lib event)
    (taken : step lib names s event = some after) (i : Nat) :
    s.issued i ≤ after.issued i ∧ after.issued i ≤ s.issued i + 1 := by
  rcases step_issued disciplined taken with same | ⟨j, one⟩
  · rw [same]
    exact ⟨Nat.le_refl _, Nat.le_succ _⟩
  · rw [one]
    refine ⟨count_grows s.issued j i, ?_⟩
    by_cases here : i = j
    · subst here
      rw [Function.update_self]
    · rw [Function.update_of_ne here]
      exact Nat.le_succ _

/-- A client makes no more calls than there are events. -/
theorem run_counts {events : List Event} {final : Bus}
    (run : Run (Guarded (Disciplined lib) (Accepts (step lib names))) (fresh names) events final)
    (i : Nat) : final.issued i ≤ events.length := by
  refine run.history (fun history s => s.issued i ≤ history.length)
    (fun history before after event counted taken => ?_) (Nat.le_refl _)
  have one := (step_counts taken.1 taken.2 i).2
  rw [List.length_append, List.length_singleton]
  omega

/-- Starting a client keeps the bus sound: its result is new. -/
theorem start_sound (naming : Naming names) (sound : Sound lib names s) {i address : Nat}
    (few : s.issued i < 2 ^ 32)
    (taken : step lib names s (.start i address) = some after) : Sound lib names after := by
  simp only [step] at taken
  split at taken
  · contradiction
  next free =>
    obtain rfl := Option.some.inj taken
    have invocation : Invocation names s i (text "RegisterService")
        (In.empty.set (text "ServiceName") (names i)) address s.results := by
      refine ⟨few, by decide, ?_, by simpa using free,
        fun _ _ alive => .inl alive⟩
      intro _ _
      rw [In.get_named _ _ (by decide), In.get_set]
    exact sound.invoke invocation naming

/-- Adding a method keeps the bus sound: only the service of the client changes. -/
theorem addMethod_sound (naming : Naming names) (sound : Sound lib names s) {i address : Nat}
    {name : Bytes} {func : MethodFunc} (few : s.issued i < 2 ^ 32)
    (taken : step lib names s (.addMethod i name func address) = some after) :
    Sound lib names after := by
  simp only [step] at taken
  split at taken
  · contradiction
  next free =>
    cases added : BusService.addMethod (s.clients i).methods_ name func with
    | none =>
      rw [added] at taken
      obtain rfl := Option.some.inj taken
      exact sound
    | some methods_ =>
      rw [added] at taken
      obtain rfl := Option.some.inj taken
      have invocation : Invocation names { s with
            clients := Function.update s.clients i { s.clients i with methods_ := methods_ } }
          i (text "SvcMgr/AddMethod") (In.empty.set (text "MethodName") name) address
          s.results := by
        refine ⟨few, by decide, ?_,
          by simpa using free, fun _ _ alive => .inl alive⟩
        intro _ register
        exact absurd register (by decide)
      exact (sound.methods i methods_).invoke invocation naming

/-- A call keeps the bus sound, because its result is placed where no invoker still points. -/
theorem acall_sound (naming : Naming names) (sound : Sound lib names s) {i provider address : Nat}
    {method : Bytes} {input : In} (few : s.issued i < 2 ^ 32)
    (disciplined : s.Disciplined lib (.acall i provider method input address))
    (taken : step lib names s (.acall i provider method input address) = some after) :
    Sound lib names after := by
  simp only [step] at taken
  split at taken
  · contradiction
  next admitted =>
    obtain rfl := Option.some.inj taken
    obtain ⟨occupied, unslashed⟩ := not_or.mp admitted
    obtain ⟨cutProvider, cutMethod⟩ := Msg.setMethod_provider (naming.unslashed provider) method
    obtain ⟨_, _, _, method_, provider_, params⟩ := BusInvoker.acall_fields (s.clients i).invoker_
      (names provider ++ slash :: method) input address
    have invocation : Invocation names s i (names provider ++ slash :: method) input address
        (Function.update s.results address (some
          ⟨.fresh, ⟨i, (s.clients i).invoker_.next_id_, provider, method, input⟩, []⟩)) := by
      refine ⟨few, by rw [cutMethod]; exact unslashed, ?_,
        by simpa using occupied, ?_⟩
      · rintro (unnamed | manager) _
        · exact absurd (cutProvider.symm.trans unnamed) (naming.named provider)
        · exact absurd (cutProvider.symm.trans manager) (naming.notManager provider)
      · intro other held alive
        by_cases here : other = address
        · subst here
          rw [Function.update_self] at alive
          obtain rfl := Option.some.inj alive
          exact .inr ⟨rfl, ⟨⟨rfl, rfl⟩, rfl, rfl, provider_.trans cutProvider,
            method_.trans cutMethod, params⟩, disciplined⟩
        · rw [Function.update_of_ne here] at alive
          exact .inl alive
    exact sound.invoke invocation naming

/-- What the server does with a frame keeps the bus sound: it is passed on, or answered. -/
theorem deliverUp_sound (faithful : lib.Faithful) (naming : Naming names)
    (sound : Sound lib names s) {i : Nat} (disciplined : s.Disciplined lib (.deliverUp i))
    (taken : step lib names s (.deliverUp i) = some after) : Sound lib names after := by
  cases queue : s.up i with
  | nil =>
    simp only [step, queue] at taken
    contradiction
  | cons frame rest =>
    simp only [step, queue] at taken
    obtain rfl := Option.some.inj taken
    obtain ⟨msg, body, packed, rfl, good⟩ := sound.upward i frame (by rw [queue]; simp)
    obtain ⟨ctx, left, received, idle, empty⟩ := receive_frame faithful packed good.whole
      (disciplined (frameOf body) (by rw [queue]; rfl)) (sound.serverIdle i).1
      (sound.serverIdle i).2
    have taken : Sound lib names { s with
        up := Function.update s.up i rest
        contexts := Function.update s.contexts i ctx
        buffers := Function.update s.buffers i left } := by
      refine sound.refresh ?_ sound.clientIdle ?_ (fun _ _ queued => queued) rfl (fun _ => rfl)
        rfl rfl rfl
      · intro j
        by_cases here : j = i
        · subst here
          simp only [Function.update_self]
          exact ⟨idle, empty⟩
        · simp only [Function.update_of_ne here]
          exact sound.serverIdle j
      · exact (Function.forall_update_iff s.up
          (fun j frames => ∀ frame ∈ frames, frame ∈ s.up j)).mpr
          ⟨fun frame queued => by rw [queue]; exact List.mem_cons_of_mem _ queued,
            fun _ _ _ queued => queued⟩
    unfold serverReceive
    rw [received]
    exact taken.serverHandle naming (good.unsourced.grows (.same rfl rfl rfl))

/-- What a client does with a frame keeps the bus sound: it serves a request, or fills the
result of the call that the response answers. -/
theorem deliverDown_sound (faithful : lib.Faithful) (naming : Naming names)
    (sound : Sound lib names s) {i : Nat} {dangling : Bus → Bus}
    (disciplined : s.Disciplined lib (.deliverDown i dangling))
    (taken : step lib names s (.deliverDown i dangling) = some after) : Sound lib names after := by
  simp only [step] at taken
  split at taken
  · contradiction
  · cases queue : s.down i with
    | nil =>
      rw [queue] at taken
      contradiction
    | cons frame rest =>
      rw [queue] at taken
      obtain rfl := Option.some.inj taken
      obtain ⟨msg, body, packed, rfl, good⟩ := sound.downward i frame (by rw [queue]; simp)
      obtain ⟨ctx, left, received, idle, empty⟩ := receive_frame faithful packed good.whole
        (disciplined.1 (frameOf body) (by rw [queue]; rfl)) (sound.clientIdle i).1
        (sound.clientIdle i).2
      have taken : Sound lib names { s with
          down := Function.update s.down i rest
          clients := Function.update s.clients i
            { s.clients i with context := ctx, input_buffer_ := left } } := by
        refine sound.refresh sound.serverIdle ?_ (fun _ _ queued => queued) ?_ rfl ?_ rfl rfl rfl
        · exact (Function.forall_update_iff s.clients
            (fun _ client => client.context.state_ = .kHeader ∧ client.input_buffer_.str = [])).mpr
            ⟨⟨idle, empty⟩, fun j _ => sound.clientIdle j⟩
        · exact (Function.forall_update_iff s.down
            (fun j frames => ∀ frame ∈ frames, frame ∈ s.down j)).mpr
            ⟨fun frame queued => by rw [queue]; exact List.mem_cons_of_mem _ queued,
              fun _ _ _ queued => queued⟩
        · exact (Function.forall_update_iff s.clients
            (fun j client => client.invoker_ = (s.clients j).invoker_)).mpr ⟨rfl, fun _ _ => rfl⟩
      unfold clientReceive
      rw [received]
      dsimp only
      split
      next request =>
        exact taken.clientServe naming (good.grows (.same rfl rfl rfl)) request
      next notRequest =>
        exact taken.clientFill (good.unsourced.grows (.same rfl rfl rfl))
          (Bool.eq_false_iff.mpr notRequest)
          (disciplined.harmless queue received (Bool.eq_false_iff.mpr notRequest))

/-- Every disciplined event keeps the bus sound. -/
theorem step_sound (faithful : lib.Faithful) (naming : Naming names) (sound : Sound lib names s)
    (few : ∀ i, s.issued i < 2 ^ 32) {event : Event} (disciplined : s.Disciplined lib event)
    (taken : step lib names s event = some after) : Sound lib names after := by
  cases event with
  | start i address => exact start_sound naming sound (few i) taken
  | addMethod i name func address => exact addMethod_sound naming sound (few i) taken
  | acall i provider method input address =>
    exact acall_sound naming sound (few i) disciplined taken
  | deliverUp i => exact deliverUp_sound faithful naming sound disciplined taken
  | deliverDown i dangling => exact deliverDown_sound faithful naming sound disciplined taken

/-- The bus is sound after every disciplined run with fewer calls of each client
than there are identifiers. -/
theorem run_sound (faithful : lib.Faithful) (naming : Naming names) {events : List Event}
    {final : Bus}
    (run : Run (Guarded (Disciplined lib) (Accepts (step lib names))) (fresh names) events final)
    (few : ∀ i, final.issued i < 2 ^ 32) : Sound lib names final := by
  refine run.preserves (fun s => (∀ i, s.issued i < 2 ^ 32) → Sound lib names s)
    (fun before after event kept taken few => ?_) (fun _ => fresh_sound lib names) few
  have fewer : ∀ i, before.issued i < 2 ^ 32 := fun i =>
    Nat.lt_of_le_of_lt (step_counts taken.1 taken.2 i).1 (few i)
  exact step_sound faithful naming (kept fewer) fewer taken.1 taken.2

/-- Every result is as it was made, or exactly one response was written to it: the
response to its own call, with what the method of the provider returned when the
request reached it, or that there was no such method. -/
theorem results_correct (lib : JsonLibrary) (faithful : lib.Faithful) (names : Nat → Bytes)
    (naming : Naming names) (events : List Event) (final : Bus)
    (run : Run (Guarded (Disciplined lib) (Accepts (step lib names))) (fresh names) events final)
    (few : ∀ i, final.issued i < 2 ^ 32) (address : Nat) (held : Held)
    (alive : final.results address = some held) :
    (held.ok_ = false ∧ held.out_ = .empty ∧ held.fills = []) ∨
      (held.ok_ = true ∧ held.fills = [(names held.call.client, held.call.id)] ∧
        ∃ served ∈ final.served, Answers names served held.call ∧
          held.out_.values_ = (expected served.found held.call.input).values_) :=
  (run_sound faithful naming run few).correct address held alive

/-- Without the discipline on such writes nothing can be said: where the response to
a call whose result is gone comes next, any bus may follow. -/
theorem Strays.anything {i : Nat} (strays : Strays lib s i)
    (running : (s.clients i).stopped = false) (any : Bus) :
    step lib names s (.deliverDown i fun _ => any) = some any := by
  obtain ⟨frame, first, msg, address, read, response, kept, gone⟩ := strays
  obtain ⟨rest, queue⟩ := List.head?_eq_some_iff.mp (Option.mem_def.mp first)
  rcases received : receive lib (s.clients i).context (s.clients i).input_buffer_ frame with
    ⟨result, ctx, left⟩
  rw [received] at read
  obtain rfl : result = .kGood msg := read
  simp only [step, running, Bool.false_eq_true, if_false, queue, clientReceive, received, response,
    clientFill, Function.update_self, BusInvoker.handleResponseMessage, kept, gone]

/-- The client with a number is named by it. -/
def clientName (i : Nat) : Bytes := byte 'c' :: Decimal.numeral i

/-- Names with a number behind a letter are allowed. -/
theorem clientName_naming : Naming clientName where
  injective := by
    intro one other same
    have digits := congrArg Decimal.value (List.cons.inj same).2
    rwa [Decimal.value_numeral, Decimal.value_numeral] at digits
  named i := by simp [clientName]
  unslashed i := by
    intro member
    rcases List.mem_cons.mp member with letter | digit
    · exact absurd letter (by decide)
    · exact absurd (Decimal.numeral_digits i slash digit) (by decide)
  notManager i := by
    intro same
    exact absurd (List.cons.inj same).1 (by decide)

/-- The delivery of a frame that was not too long. -/
def ShortDelivery (s : Bus) : Event → Prop
  | .deliverUp i =>
    ((s.up i).head?.all fun frame => decide (frame.length < MsgHeader.size + 2 ^ 32)) = true
  | .deliverDown i _ =>
    ((s.down i).head?.all fun frame => decide (frame.length < MsgHeader.size + 2 ^ 32)) = true
  | .start _ _ => True
  | .addMethod _ _ _ _ => True
  | .acall _ _ _ _ _ => False

instance (s : Bus) (event : Event) : Decidable (s.ShortDelivery event) := by
  cases event <;> unfold ShortDelivery <;> infer_instance

/-- No write through a dangling pointer changes anything in the event. -/
def Event.Sparing : Event → Prop
  | .deliverDown _ dangling => dangling = id
  | .deliverUp _ => True
  | .start _ _ => True
  | .addMethod _ _ _ _ => True
  | .acall _ _ _ _ _ => True

/-- An event that places no result and writes nothing through a dangling pointer is disciplined
when its frame is short. -/
theorem ShortDelivery.disciplined (lib : JsonLibrary) (s : Bus) {event : Event}
    (sparing : event.Sparing) (short : s.ShortDelivery event) : s.Disciplined lib event := by
  cases event with
  | deliverUp i =>
    intro frame first
    simpa [ShortDelivery, Option.mem_def.mp first] using short
  | deliverDown i dangling =>
    refine ⟨fun frame first => ?_, fun _ => sparing⟩
    simpa [ShortDelivery, Option.mem_def.mp first] using short
  | start i address => trivial
  | addMethod i name func address => trivial
  | acall i provider method input address => exact short.elim

/-- A client calls a method that the provider does not have. Both register before
the request reaches the provider. -/
def unknownMethod : List Event :=
  [.start 0 0, .start 1 2, .deliverUp 0, .deliverUp 1, .deliverUp 1, .deliverDown 0 id,
    .deliverDown 0 id, .deliverUp 0, .deliverDown 1 id, .deliverDown 1 id]

/-- All events of the run behind its first call are of that kind. -/
theorem unknownMethod_sparing : ∀ event ∈ unknownMethod, event.Sparing := by
  simp [unknownMethod, Event.Sparing]

/-- The caller is told that there is no such method, once. -/
theorem unknown_method_reported :
    ∃ final held, Run (Guarded (Disciplined .canonical) (Accepts (step .canonical clientName)))
        (fresh clientName) (.acall 1 0 (text "m") .empty 1 :: unknownMethod) final ∧
      final.results 1 = some held ∧ held.ok_ = true ∧
      held.fills = [(clientName held.call.client, held.call.id)] := by
  have observed : ((step .canonical clientName (fresh clientName)
      (.acall 1 0 (text "m") .empty 1)).bind fun called =>
        (execute (restrict ShortDelivery (step .canonical clientName)) called unknownMethod).bind
          fun final => (final.results 1).map fun held => held.ok_) = some true := by
    decide +kernel
  obtain ⟨called, taken, observed⟩ := Option.bind_eq_some_iff.mp observed
  obtain ⟨final, executed, alive⟩ := Option.bind_eq_some_iff.mp observed
  obtain ⟨held, present, filled⟩ := Option.map_eq_some_iff.mp alive
  have untracked : (fresh clientName).Disciplined .canonical (.acall 1 0 (text "m") .empty 1) := by
    intro j id kept
    exact absurd (kept.symm.trans ExtTreeMap.getElem?_empty) (by simp)
  have run := Run.next (And.intro untracked taken)
    ((restrict_run _ _ _ _ _ executed).admittedAmong fun s event member =>
      ShortDelivery.disciplined .canonical s (unknownMethod_sparing event member))
  have few : ∀ i, final.issued i < 2 ^ 32 := fun i =>
    Nat.lt_of_le_of_lt (run_counts run i) (by decide)
  have once := (results_correct .canonical JsonLibrary.canonical_faithful clientName
    clientName_naming _ final run few 1 held present).resolve_left
    fun unfilled => Bool.noConfusion (filled.symm.trans unfilled.1)
  exact ⟨final, held, run, present, filled, once.2.1⟩

/-- A client registers, then places the result of a call where the result of the
registration was. -/
def reusedAddress : List Event :=
  [.start 0 7, .acall 0 0 (text "m") .empty 7, .deliverUp 0, .deliverDown 0 id]

/-- The response to the registration is written to the result of the call, which
then counts as returned and is empty. -/
theorem reused_address_filled :
    Naming clientName ∧ JsonLibrary.canonical.Faithful ∧
      ∃ final held, Run (Accepts (step .canonical clientName)) (fresh clientName) reusedAddress
          final ∧
        final.results 7 = some held ∧ held.call.id = 2 ∧ held.ok_ = true ∧
        held.fills = [(clientName 0, 1)] ∧ held.out_.values_.isEmpty = true := by
  have observed : (execute (step .canonical clientName) (fresh clientName) reusedAddress).bind
      (fun final => (final.results 7).map fun held => decide (held.call.id = 2 ∧ held.ok_ = true ∧
        held.fills = [(clientName 0, 1)] ∧ held.out_.values_.isEmpty = true)) = some true := by
    decide +kernel
  obtain ⟨final, executed, alive⟩ := Option.bind_eq_some_iff.mp observed
  obtain ⟨held, present, same⟩ := Option.map_eq_some_iff.mp alive
  exact ⟨clientName_naming, JsonLibrary.canonical_faithful, final, held,
    execute_run _ _ _ _ executed, present, of_decide_eq_true same⟩

end Cppboot.Bus
