import Mathlib.Logic.Function.Basic
import Cppboot.BusReceive

/-!
# The endpoints of the bus

What the invoker, the service, the router and the server do with one call or one
message. The invoker gives a call the next identifier, remembers where its result
is to be written and writes a request. A service looks a method up, applies it
and writes a response with the identifier and the caller of the request. The
server answers requests without a provider itself, among them the registration of
a client under its name, and forwards other requests by provider and responses by
caller.

Messages that are sent are returned. A result is known by its address.
-/

namespace Cppboot

open Std

/-- A connection, as a pointer that may be null. -/
abbrev ConnPtr := Option Nat

/-- The input of a method. Unlike the parameters of a message it takes any key. -/
structure In where
  conn : ConnPtr
  values_ : ExtTreeMap Bytes Bytes

namespace In

def empty : In := ⟨none, ∅⟩

def get (input : In) (key : Bytes) : Bytes := input.values_.getD key []

def set (input : In) (key value : Bytes) : In :=
  { input with values_ := input.values_.insert key value }

/-- The loop that copies the parameters of a message. -/
def copy (input : In) (params : Params) : In :=
  params.values_.toList.foldl (fun input i => input.set i.1 i.2) input

/-- Copying into an empty input gives the parameters as they are. -/
theorem copy_empty (conn : ConnPtr) (params : Params) :
    copy ⟨conn, ∅⟩ params = ⟨conn, params.values_⟩ := by
  have inserts (entries : List (Bytes × Bytes)) (input : In) :
      entries.foldl (fun input i => input.set i.1 i.2) input =
        { input with values_ := input.values_.insertMany entries } := by
    induction entries generalizing input with
    | nil => rfl
    | cons i entries inductionHypothesis =>
      rw [List.foldl_cons, inductionHypothesis]
      exact congrArg (In.mk input.conn) ExtTreeMap.insertMany_cons.symm
  rw [copy, inserts]
  refine congrArg (In.mk conn) (ExtTreeMap.ext_getElem? fun key => ?_)
  cases found : params.values_[key]? with
  | some value =>
    exact ExtTreeMap.getElem?_insertMany_list_of_mem ReflCmp.compare_self
      ExtTreeMap.distinct_keys_toList (ExtTreeMap.mem_toList_iff_getElem?_eq_some.mpr found)
  | none =>
    have unlisted : (params.values_.toList.map Prod.fst).contains key = false := by
      rw [Bool.eq_false_iff]
      intro present
      rw [List.contains_iff_mem, List.mem_map] at present
      obtain ⟨⟨other, value⟩, listed, rfl⟩ := present
      rw [ExtTreeMap.mem_toList_iff_getElem?_eq_some, found] at listed
      contradiction
    rw [ExtTreeMap.getElem?_insertMany_list_of_contains_eq_false unlisted]
    exact ExtTreeMap.getElem?_empty

/-- The entries with a non-empty key. -/
def named (input : In) : Params := Params.named ⟨input.values_⟩

/-- What was set is what is read under that key. -/
theorem get_set (input : In) (key value : Bytes) : (input.set key value).get key = value :=
  ExtTreeMap.getD_insert_self

/-- Leaving out the empty key does not change what is read under another key. -/
theorem get_named (input : In) (conn : ConnPtr) {key : Bytes} (keyed : key ≠ []) :
    get ⟨conn, input.named.values_⟩ key = input.get key := by
  unfold get
  rw [ExtTreeMap.getD_eq_getD_getElem?, ExtTreeMap.getD_eq_getD_getElem?, named,
    Params.named_getElem?, if_neg keyed]

end In

/-- The output of a method. -/
abbrev Out := In

/-- A method: what it leaves in an empty output. -/
abbrev MethodFunc := In → Out

/-- What a call waits for. -/
structure Result where
  ok_ : Bool
  out_ : Out

namespace Result

def fresh : Result := ⟨false, .empty⟩

/-- The writes of `HandleResponseMessage` through the pointer it found. -/
def fill (result : Result) (msg : Msg) : Result := ⟨true, result.out_.copy msg.params_⟩

end Result

namespace BusService

/-- The methods of a service, by name. -/
abbrev Methods := ExtTreeMap Bytes MethodFunc

/-- A name that is taken is refused. -/
def addMethod (methods_ : Methods) (name : Bytes) (func : MethodFunc) : Option Methods :=
  if methods_.contains name then none else some (methods_.insert name func)

/-- `ServeMsg` with the method that was found for the request. -/
def serveWith (found : Option MethodFunc) (req : Msg) : Msg :=
  let resp : Msg :=
    match found with
    | some func =>
      let out := func (In.copy ⟨req.src, ∅⟩ req.params_)
      out.values_.toList.foldl (fun resp i => resp.setParam i.1 i.2) Msg.fresh
    | none => Msg.fresh.setParam (text "return") (text "not found")
  ((resp.setId req.id_).setCaller req.caller_).setRequest false

def serveMsg (methods_ : Methods) (req : Msg) : Msg := serveWith methods_[req.method_]? req

/-- The answer to parameters from a connection: what the method returns for them,
or that there is no such method. -/
def answer (found : Option MethodFunc) (conn : ConnPtr) (params : Params) : Params :=
  match found with
  | some func => (func ⟨conn, params.values_⟩).named
  | none => Params.empty.set (text "return") (text "not found")

/-- A response carries the answer, the identifier and the caller of its request,
and names no method. -/
theorem serveWith_fields (found : Option MethodFunc) (req : Msg) :
    (serveWith found req).params_ = answer found req.src req.params_ ∧
      (serveWith found req).id_ = req.id_ ∧ (serveWith found req).caller_ = req.caller_ ∧
      (serveWith found req).is_request_ = false ∧ (serveWith found req).method_ = [] := by
  cases found with
  | none => exact ⟨rfl, rfl, rfl, rfl, rfl⟩
  | some func =>
    obtain ⟨_, _, _, _, method, _, params⟩ := JsonPacker.setParams_fields
      (func (In.copy ⟨req.src, ∅⟩ req.params_)).values_.toList Msg.fresh
    refine ⟨?_, rfl, rfl, rfl, method⟩
    rw [answer, In.named, ← Params.foldl_set_toList, ← In.copy_empty req.src req.params_]
    exact params

end BusService

/-- The calling side of a client. Where a result is to be written is kept until
the response is there, whatever becomes of the result. -/
structure BusInvoker where
  name_ : Bytes
  next_id_ : UInt32
  waitings_ : ExtTreeMap UInt32 Nat

namespace BusInvoker

def create (name : Bytes) : BusInvoker := ⟨name, 1, ∅⟩

/-- `ACall` with a result, and the request it writes. -/
def acall (invoker : BusInvoker) (method : Bytes) (input : In) (result : Nat) : BusInvoker × Msg :=
  let msg := (((Msg.fresh.setId invoker.next_id_).setCaller invoker.name_).setRequest
    true).setMethod method
  let msg := input.values_.toList.foldl (fun msg i => msg.setParam i.1 i.2) msg
  ({ invoker with
    next_id_ := invoker.next_id_ + 1
    waitings_ := invoker.waitings_.insert invoker.next_id_ result }, msg)

/-- The address a response is written to, if some call waits for it. -/
def handleResponseMessage (invoker : BusInvoker) (msg : Msg) : BusInvoker × Option Nat :=
  match invoker.waitings_[msg.id_]? with
  | some result => ({ invoker with waitings_ := invoker.waitings_.erase msg.id_ }, some result)
  | none => (invoker, none)

/-- The request of a call. The text of the method is cut at its first slash. -/
theorem acall_fields (invoker : BusInvoker) (method : Bytes) (input : In) (result : Nat) :
    let msg := (invoker.acall method input result).2
    msg.id_ = invoker.next_id_ ∧ msg.caller_ = invoker.name_ ∧ msg.is_request_ = true ∧
      msg.method_ = (Msg.fresh.setMethod method).method_ ∧
      msg.method_provider_ = (Msg.fresh.setMethod method).method_provider_ ∧
      msg.params_ = input.named := by
  have cut : ∀ base : Msg, base.method_provider_ = [] →
      (base.setMethod method).id_ = base.id_ ∧ (base.setMethod method).caller_ = base.caller_ ∧
      (base.setMethod method).is_request_ = base.is_request_ ∧
      (base.setMethod method).method_ = (Msg.fresh.setMethod method).method_ ∧
      (base.setMethod method).method_provider_ = (Msg.fresh.setMethod method).method_provider_ ∧
      (base.setMethod method).params_ = base.params_ := by
    intro base unprovided
    unfold Msg.setMethod
    split
    · exact ⟨rfl, rfl, rfl, rfl, rfl, rfl⟩
    · exact ⟨rfl, rfl, rfl, rfl, unprovided, rfl⟩
  obtain ⟨id, caller, request, method_, provider, params⟩ := cut
    (((Msg.fresh.setId invoker.next_id_).setCaller invoker.name_).setRequest true) rfl
  obtain ⟨_, sameId, sameRequest, sameCaller, sameMethod, sameProvider, set⟩ :=
    JsonPacker.setParams_fields input.values_.toList ((((Msg.fresh.setId
      invoker.next_id_).setCaller invoker.name_).setRequest true).setMethod method)
  refine ⟨sameId.trans id, sameCaller.trans caller, sameRequest.trans request,
    sameMethod.trans method_, sameProvider.trans provider, set.trans ?_⟩
  rw [params, In.named, ← Params.foldl_set_toList]
  rfl

end BusInvoker

namespace BusRouter

/-- The connections by the name they registered. -/
abbrev Connections := ExtTreeMap Bytes ConnPtr

def find (connections_ : Connections) (name : Bytes) : ConnPtr := connections_[name]?.join

end BusRouter

namespace BusServer

/-- The server answers this request itself. -/
def IsLocal (req : Msg) : Prop :=
  req.method_provider_ = [] ∨ req.method_provider_ = text "SvcMgr"

instance (req : Msg) : Decidable (IsLocal req) := inferInstanceAs (Decidable (_ ∨ _))

/-- The methods of the local service change the router, so they are not in its
table: the one method registers the connection of its input under a name. -/
def localMethod (connections_ : BusRouter.Connections) (req : Msg) :
    BusRouter.Connections × Option MethodFunc :=
  if req.method_ = text "RegisterService" then
    let input := In.copy ⟨req.src, ∅⟩ req.params_
    (connections_.insert (input.get (text "ServiceName")) input.conn, some fun _ => .empty)
  else (connections_, none)

/-- The router afterwards, and the message that is sent with its connection. -/
def handleRequestMessage (connections_ : BusRouter.Connections) (req : Msg) :
    BusRouter.Connections × Option (Nat × Msg) :=
  if IsLocal req then
    let (connections_, found) := localMethod connections_ req
    (connections_, req.src.map fun conn => (conn, BusService.serveWith found req))
  else
    (connections_, (BusRouter.find connections_ req.method_provider_).map fun conn => (conn, req))

def handleResponseMessage (connections_ : BusRouter.Connections) (msg : Msg) :
    BusRouter.Connections × Option (Nat × Msg) :=
  (connections_, (BusRouter.find connections_ msg.caller_).map fun conn => (conn, msg))

/-- A request goes to the provider that it names, a response to its caller. -/
def handleMessage (connections_ : BusRouter.Connections) (msg : Msg) :
    BusRouter.Connections × Option (Nat × Msg) :=
  if msg.is_request_ then handleRequestMessage connections_ msg
  else handleResponseMessage connections_ msg

end BusServer

end Cppboot
