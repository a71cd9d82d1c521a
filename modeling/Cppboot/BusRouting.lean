import Cppboot.BusServing

/-!
# Where the server sends messages

The router as a function of what the server has heard. A name belongs to the
connection that registered it last, and the empty name is free again when a
connection that once came up goes down.

A request is answered or passed on exactly when it is for the server itself or
some connection has registered under the name of its provider; otherwise it is
dropped without a word. A response goes back to the connection its request came
from exactly when that connection was the last to register the name of the
caller, since only the name is carried along.
-/

namespace Cppboot.BusServer

open Std Runs

def Happening.isUp (conn : Nat) : Happening → Bool
  | .up other => other == conn
  | .down _ => false
  | .message _ _ => false

/-- The connection a name belongs to, by what was heard, the latest first. -/
def holder (name : Bytes) : List Happening → Option Nat
  | [] => none
  | .up _ :: earlier => holder name earlier
  | .down conn :: earlier =>
    if name = [] ∧ earlier.any (·.isUp conn) then none else holder name earlier
  | .message conn msg :: earlier =>
    if Registers msg ∧ serviceName msg = name then some conn else holder name earlier

/-- A name other than the empty one belongs to somebody as soon as it was
registered. -/
theorem holder_isSome {name : Bytes} (named : name ≠ []) (heard : List Happening) :
    (holder name heard).isSome ↔
      ∃ conn msg, .message conn msg ∈ heard ∧ Registers msg ∧ serviceName msg = name := by
  induction heard with
  | nil => simp [holder]
  | cons happening earlier inductionHypothesis =>
    cases happening with
    | up conn =>
      rw [holder, inductionHypothesis]
      simp
    | down conn =>
      rw [holder, if_neg fun empty => named empty.1, inductionHypothesis]
      simp
    | message conn msg =>
      rw [holder]
      split
      next registers => exact iff_of_true rfl ⟨conn, msg, by simp, registers⟩
      next other =>
        rw [inductionHypothesis]
        constructor
        · rintro ⟨owner, registration, before, registers⟩
          exact ⟨owner, registration, List.mem_cons_of_mem _ before, registers⟩
        · rintro ⟨owner, registration, member, registers⟩
          rcases List.mem_cons.mp member with same | before
          · cases same
            exact absurd registers other
          · exact ⟨owner, registration, before, registers⟩

namespace Serving

/-- The router and the contexts as functions of what was heard. -/
structure Recorded (s : Serving) : Prop where
  unnamed : s.Unnamed
  known : ∀ conn, (s.conns conn).context_.isSome = s.heard.any (·.isUp conn)
  routed : ∀ name : Bytes, s.connections_[name]? = (holder name s.heard).map some

/-- At the start nothing was heard. -/
theorem fresh_recorded : fresh.Recorded where
  unnamed := by
    intro conn ctx present
    simp [fresh, Conn.fresh] at present
  known conn := rfl
  routed name := by simp [fresh, holder]

/-- Every step keeps the record of what was heard true. -/
theorem Recorded.step {lib : JsonLibrary} {s after : Serving} {event : Event}
    (recorded : s.Recorded) (stepped : step lib s event = some after) : after.Recorded := by
  refine ⟨recorded.unnamed.step stepped, ?_, ?_⟩
  · intro other
    have known := recorded.known other
    obtain ⟨conn, -, rfl⟩ | ⟨conn, -, rfl⟩ |
      ⟨conn, data, ctx, context, buf, -, present, -, rfl⟩ := step_cases stepped
    · by_cases same : other = conn
      · subst same
        simp [Happening.isUp]
      · simp [Function.update_of_ne same, Happening.isUp, known, Ne.symm same]
    · by_cases same : other = conn
      · subst same
        simpa [Happening.isUp] using known
      · simpa [Function.update_of_ne same, Happening.isUp] using known
    · have unchanged : ((s.incoming lib conn data).elim s.heard fun msg =>
          Happening.message conn msg :: s.heard).any (·.isUp other) =
            s.heard.any (·.isUp other) := by
        cases s.incoming lib conn data <;> simp [Happening.isUp]
      by_cases same : other = conn
      · subst same
        rw [present] at known
        simpa [unchanged] using known
      · simpa [Function.update_of_ne same, unchanged] using known
  · intro name
    have routed := recorded.routed name
    obtain ⟨conn, -, rfl⟩ | ⟨conn, -, rfl⟩ |
      ⟨conn, data, ctx, context, buf, -, present, -, rfl⟩ := step_cases stepped
    · exact routed
    · dsimp only
      rw [removed_getElem? recorded.unnamed, recorded.known, holder]
      split
      next => rfl
      next => exact routed
    · cases s.incoming lib conn data with
      | none => exact routed
      | some msg =>
        dsimp only [Option.elim_some]
        rw [holder]
        by_cases registers : Registers msg
        · simp only [registers, if_true, true_and, ExtTreeMap.getElem?_insert,
            LawfulEqCmp.compare_eq_iff_eq]
          split
          next => rfl
          next => exact routed
        · simpa [registers] using routed

/-- In every state that is reached the entries follow from what was heard. -/
theorem run_recorded {lib : JsonLibrary} {events : List Event} {final : Serving}
    (run : Run (Accepts (step lib)) fresh events final) : final.Recorded :=
  run.preserves Recorded (fun _ _ _ recorded stepped => recorded.step stepped) fresh_recorded

/-- The lookup of a name in the router. -/
theorem Recorded.find {s : Serving} (recorded : s.Recorded) (name : Bytes) :
    BusRouter.find s.connections_ name = holder name s.heard := by
  rw [BusRouter.find, recorded.routed]
  cases holder name s.heard <;> rfl

/-- A response to a request: it carries the identifier and the caller along. -/
def Answers (resp req : Msg) : Prop :=
  resp.is_request_ = false ∧ resp.id_ = req.id_ ∧ resp.caller_ = req.caller_

/-- Whatever a provider serves for a request answers it. -/
theorem serveWith_answers (found : Option MethodFunc) (req : Msg) :
    Answers (BusService.serveWith found req) req := by
  obtain ⟨_, id, caller, response, _⟩ := BusService.serveWith_fields found req
  exact ⟨response, id, caller⟩

/-- A response is passed on to the connection its caller's name belongs to. -/
theorem Recorded.sends_response {s : Serving} (recorded : s.Recorded) (conn : Nat) {resp : Msg}
    (response : resp.is_request_ = false) :
    s.sends conn resp = (holder resp.caller_ s.heard).map fun owner =>
      (owner, resp.setSrc conn) := by
  have cut : handleMessage s.connections_ (resp.setSrc conn) =
      handleResponseMessage s.connections_ (resp.setSrc conn) := by
    apply if_neg
    rw [Msg.setSrc, response]
    simp
  rw [sends, cut, handleResponseMessage]
  dsimp only
  rw [recorded.find]
  rfl

/-- A request for the server itself is answered on its connection. -/
theorem sends_local (s : Serving) (conn : Nat) {req : Msg} (request : req.is_request_ = true)
    (mine : IsLocal req) :
    ∃ found, s.sends conn req = some (conn, BusService.serveWith found (req.setSrc conn)) := by
  have cut : handleMessage s.connections_ (req.setSrc conn) =
      handleRequestMessage s.connections_ (req.setSrc conn) := if_pos request
  refine ⟨(localMethod s.connections_ (req.setSrc conn)).2, ?_⟩
  rw [sends, cut, handleRequestMessage, if_pos (show IsLocal (req.setSrc conn) from mine)]
  rfl

/-- Any other request is passed on to the connection its provider's name belongs
to. -/
theorem Recorded.sends_request {s : Serving} (recorded : s.Recorded) (conn : Nat) {req : Msg}
    (request : req.is_request_ = true) (other : ¬ IsLocal req) :
    s.sends conn req = (holder req.method_provider_ s.heard).map fun owner =>
      (owner, req.setSrc conn) := by
  have cut : handleMessage s.connections_ (req.setSrc conn) =
      handleRequestMessage s.connections_ (req.setSrc conn) := if_pos request
  rw [sends, cut, handleRequestMessage, if_neg (show ¬ IsLocal (req.setSrc conn) from other)]
  dsimp only
  rw [recorded.find]
  rfl

/-- Every response to a request, from whatever connection, is sent on this
connection and on no other. -/
def Returns (s : Serving) (conn : Nat) (req : Msg) : Prop :=
  ∀ provider resp, Answers resp req → s.sends provider resp = some (conn, resp.setSrc provider)

/-- At every moment of a run, the responses to a request that was received on a
connection are sent back on it exactly when the name of the caller belongs to it:
it was the last to register that name, and the name, if it is empty, was not
freed since. -/
theorem response_returns_iff (lib : JsonLibrary) (events : List Event) (final : Serving)
    (run : Run (Accepts (step lib)) fresh events final) (conn : Nat) (req : Msg) :
    final.Returns conn req ↔ holder req.caller_ final.heard = some conn := by
  have sent (provider : Nat) (resp : Msg) (answers : Answers resp req) :
      final.sends provider resp = some (conn, resp.setSrc provider) ↔
        holder req.caller_ final.heard = some conn := by
    obtain ⟨response, _, caller⟩ := answers
    rw [(run_recorded run).sends_response provider response, caller]
    cases holder req.caller_ final.heard with
    | none => simp
    | some owner => simp
  constructor
  · intro returns
    have answers := serveWith_answers none req
    exact (sent 0 _ answers).mp (returns 0 _ answers)
  · intro held provider resp answers
    exact (sent provider resp answers).mpr held

/-- The request of a client for a method. -/
def request (name method : Bytes) : Msg := ((BusInvoker.create name).acall method .empty 0).2

/-- The server has heard a request on this connection with this caller and
provider. -/
def heardRequest (s : Serving) (conn : Nat) (caller provider : Bytes) : Option Msg :=
  s.heard.findSome? fun happening =>
    match happening with
    | .message other msg =>
      if other = conn ∧ msg.is_request_ = true ∧ msg.caller_ = caller ∧
        msg.method_provider_ = provider then some msg else none
    | .up _ => none
    | .down _ => none

theorem heardRequest_mem {s : Serving} {conn : Nat} {caller provider : Bytes} {req : Msg}
    (found : s.heardRequest conn caller provider = some req) :
    .message conn req ∈ s.heard ∧ req.is_request_ = true ∧ req.caller_ = caller ∧
      req.method_provider_ = provider := by
  obtain ⟨happening, member, chosen⟩ := List.exists_of_findSome?_eq_some found
  cases happening with
  | up other => cases chosen
  | down other => cases chosen
  | message other msg =>
    simp only [Option.ite_none_right_eq_some, Option.some.injEq] at chosen
    obtain ⟨⟨rfl, fields⟩, rfl⟩ := chosen
    exact ⟨member, fields⟩

/-- What an execution shows of a request that the server has heard. -/
theorem executed_request {lib : JsonLibrary} {events : List Event} {conn : Nat}
    {caller provider : Bytes} (shows : Serving → Msg → Bool)
    (observed : (execute (step lib) fresh events).bind (fun final =>
      (final.heardRequest conn caller provider).map (shows final)) = some true) :
    ∃ final req, Run (Accepts (step lib)) fresh events final ∧ .message conn req ∈ final.heard ∧
      req.is_request_ = true ∧ shows final req = true := by
  obtain ⟨final, executed, observed⟩ := Option.bind_eq_some_iff.mp observed
  obtain ⟨req, found, seen⟩ := Option.map_eq_some_iff.mp observed
  obtain ⟨heard, isRequest, _⟩ := heardRequest_mem found
  exact ⟨final, req, execute_run _ _ _ _ executed, heard, isRequest, seen⟩

/-- A caller and a provider register, and the caller asks the provider. -/
def asked : List Event :=
  [.connected 0, .connected 2, .received 2 (frameFor (registration (text "p"))),
    .received 0 (frameFor (registration (text "a"))),
    .received 0 (frameFor (request (text "a") (text "p/m")))]

/-- Before the answer comes, another connection registers under the caller's
name. -/
def askedThenRenamed : List Event :=
  asked ++ [.connected 1, .received 1 (frameFor (registration (text "a")))]

/-- The answer would go back to the caller. -/
theorem asked_response_returns :
    ∃ final req, Run (Accepts (step .canonical)) fresh asked final ∧
      .message 0 req ∈ final.heard ∧ req.is_request_ = true ∧ final.Returns 0 req := by
  have observed : (execute (step .canonical) fresh asked).bind (fun final =>
      (final.heardRequest 0 (text "a") (text "p")).map fun req =>
        decide (holder req.caller_ final.heard = some 0)) = some true := by
    decide +kernel
  obtain ⟨final, req, run, heard, isRequest, seen⟩ := executed_request _ observed
  have returns := (response_returns_iff .canonical asked final run 0 req).mpr
    (of_decide_eq_true seen)
  exact ⟨final, req, run, heard, isRequest, returns⟩

/-- The answer goes to the connection that took the name over, while the caller
is still connected. -/
theorem renamed_response_misrouted :
    ∃ final req, Run (Accepts (step .canonical)) fresh askedThenRenamed final ∧
      .message 0 req ∈ final.heard ∧ req.is_request_ = true ∧
      (final.conns 0).state_ = .kConnected ∧ (final.sends 0 req).map Prod.fst = some 2 ∧
      (final.sends 2 (BusService.serveWith none req)).map Prod.fst = some 1 ∧
      ¬ final.Returns 0 req := by
  have observed : (execute (step .canonical) fresh askedThenRenamed).bind (fun final =>
      (final.heardRequest 0 (text "a") (text "p")).map fun req =>
        decide ((final.conns 0).state_ = .kConnected ∧
          (final.sends 0 req).map Prod.fst = some 2 ∧
          (final.sends 2 (BusService.serveWith none req)).map Prod.fst = some 1)) =
        some true := by
    decide +kernel
  obtain ⟨final, req, run, heard, isRequest, seen⟩ := executed_request _ observed
  obtain ⟨connected, forwarded, misrouted⟩ := of_decide_eq_true seen
  refine ⟨final, req, run, heard, isRequest, connected, forwarded, misrouted, ?_⟩
  intro returns
  rw [returns 2 _ (serveWith_answers none req)] at misrouted
  exact Nat.zero_ne_one (Option.some.inj misrouted)

/-- Exactly one message is sent for a request: a response on its connection, or
the request itself to the connection that is registered for its provider. -/
def Accounted (s : Serving) (conn : Nat) (req : Msg) : Prop :=
  ∃ target msg, s.sends conn req = some (target, msg) ∧
    (target = conn ∧ Answers msg req ∨
      msg = req.setSrc conn ∧ s.connections_[req.method_provider_]? = some (some target))

/-- A request is answered or passed on exactly when it is for the server itself
or its provider's name was registered at some time. -/
theorem request_accounted_iff (lib : JsonLibrary) (events : List Event) (final : Serving)
    (run : Run (Accepts (step lib)) fresh events final) (conn : Nat) (req : Msg)
    (request : req.is_request_ = true) :
    final.Accounted conn req ↔
      IsLocal req ∨ ∃ owner msg, .message owner msg ∈ final.heard ∧ Registers msg ∧
        serviceName msg = req.method_provider_ := by
  have recorded := run_recorded run
  by_cases mine : IsLocal req
  · refine iff_of_true ?_ (.inl mine)
    obtain ⟨found, answered⟩ := final.sends_local conn request mine
    exact ⟨conn, _, answered, .inl ⟨rfl, serveWith_answers found (req.setSrc conn)⟩⟩
  · have named : req.method_provider_ ≠ [] := fun empty => mine (.inl empty)
    rw [← holder_isSome named, or_iff_right mine, Accounted,
      recorded.sends_request conn request mine, recorded.routed]
    cases holder req.method_provider_ final.heard with
    | none => simp
    | some owner => simp

/-- The request to a registered provider is passed on. -/
theorem asked_request_accounted :
    ∃ final req, Run (Accepts (step .canonical)) fresh asked final ∧
      .message 0 req ∈ final.heard ∧ ¬ IsLocal req ∧ final.Accounted 0 req := by
  have observed : (execute (step .canonical) fresh asked).bind (fun final =>
      (final.heardRequest 0 (text "a") (text "p")).map fun req =>
        decide ((holder req.method_provider_ final.heard).isSome ∧ ¬ IsLocal req)) = some true := by
    decide +kernel
  obtain ⟨final, req, run, heard, isRequest, seen⟩ := executed_request _ observed
  obtain ⟨held, other⟩ := of_decide_eq_true seen
  have named : req.method_provider_ ≠ [] := fun empty => other (.inl empty)
  have accounted := (request_accounted_iff .canonical asked final run 0 req isRequest).mpr
    (.inr ((holder_isSome named final.heard).mp held))
  exact ⟨final, req, run, heard, other, accounted⟩

/-- Nothing is sent for a request to a provider that nobody registered. -/
theorem unknown_provider_dropped :
    ∃ final req, Run (Accepts (step .canonical)) fresh [.connected 0] final ∧
      final.incoming .canonical 0 (frameFor (request (text "a") (text "x/m"))) = some req ∧
      req.is_request_ = true ∧ final.sends 0 req = none ∧ ¬ final.Accounted 0 req := by
  have observed : (execute (step .canonical) fresh [.connected 0]).bind (fun final =>
      (final.incoming .canonical 0 (frameFor (request (text "a") (text "x/m")))).map fun req =>
        decide (req.is_request_ = true ∧ (final.sends 0 req).isNone)) = some true := by
    decide +kernel
  obtain ⟨final, executed, observed⟩ := Option.bind_eq_some_iff.mp observed
  obtain ⟨req, received, seen⟩ := Option.map_eq_some_iff.mp observed
  obtain ⟨isRequest, silent⟩ := of_decide_eq_true seen
  have nothing := Option.isNone_iff_eq_none.mp silent
  refine ⟨final, req, execute_run _ _ _ _ executed, received, isRequest, nothing, ?_⟩
  rintro ⟨target, msg, sent, _⟩
  rw [nothing] at sent
  exact Option.some_ne_none _ sent.symm

end Serving

end Cppboot.BusServer
