import Mathlib.Data.List.Basic
import Cppboot.Json
import Cppboot.Status

/-!
# Bus messages and their packing

A message as the bus builds and reads it, and the packer that turns it into a
JSON document and back. `Pack` writes every field under its own key. `Unpack`
rebuilds the message through the setters, and the setter of the method cuts its
argument at the first slash: what stands before the slash becomes the provider.
The provider is then overwritten with the one in the document, but the method is
not put together again. So a message survives the trip exactly when its method
holds no slash.
-/

namespace Cppboot

open Std

/-- The parameters of a message, ordered by key. -/
structure Params where
  values_ : ExtTreeMap Bytes Bytes

namespace Params

def empty : Params := ⟨∅⟩

/-- An empty key is ignored. -/
def set (params : Params) (key value : Bytes) : Params :=
  if key.isEmpty then params else ⟨params.values_.insert key value⟩

/-- The value under a key, or the empty string. -/
def get (params : Params) (key : Bytes) : Bytes :=
  if key.isEmpty then [] else params.values_.getD key []

/-- An entry without a key is not stored. -/
theorem set_empty (params : Params) (value : Bytes) : params.set [] value = params := rfl

theorem set_key (params : Params) {key : Bytes} (value : Bytes) (named : key ≠ []) :
    params.set key value = ⟨params.values_.insert key value⟩ := by
  unfold set
  rw [if_neg (by simpa using named)]

/-- The entry under the empty key is never touched. -/
theorem set_unnamed (params : Params) (key value : Bytes) :
    (params.set key value).values_[([] : Bytes)]? = params.values_[([] : Bytes)]? := by
  by_cases named : key = []
  · rw [named, set_empty]
  · rw [set_key _ _ named, ExtTreeMap.getElem?_insert, if_neg]
    rw [LawfulEqCmp.compare_eq_iff_eq]
    exact named

/-- The entries with a non-empty key. -/
def named (params : Params) : Params := ⟨params.values_.erase []⟩

/-- Only the entry without a key is left out. -/
theorem named_getElem? (params : Params) (key : Bytes) :
    params.named.values_[key]? = if key = [] then none else params.values_[key]? := by
  refine Eq.trans ExtTreeMap.getElem?_erase ?_
  simp only [LawfulEqCmp.compare_eq_iff_eq]
  simp only [eq_comm]

/-- Where there is no such entry, nothing is left out. -/
theorem named_eq_self {params : Params} (keyed : params.values_[([] : Bytes)]? = none) :
    params.named = params := by
  refine congrArg Params.mk (ExtTreeMap.ext_getElem? fun key => ?_)
  refine Eq.trans (named_getElem? params key) ?_
  split
  next same => rw [same, keyed]
  next => rfl

/-- Setting parameters one after the other inserts those that have a key. -/
theorem foldl_set (entries : List (Bytes × Bytes)) (params : Params) :
    entries.foldl (fun params i => params.set i.1 i.2) params =
      ⟨params.values_.insertMany (entries.filter fun i => !i.1.isEmpty)⟩ := by
  induction entries generalizing params with
  | nil => rfl
  | cons i entries inductionHypothesis =>
    obtain ⟨key, value⟩ := i
    rw [List.foldl_cons, inductionHypothesis, List.filter_cons]
    by_cases unnamed : key = []
    · simp [unnamed, set]
    · simp [unnamed, set, ExtTreeMap.insertMany_cons]

/-- Copying all parameters into an empty map gives those with a non-empty key. -/
theorem foldl_set_toList (params : Params) :
    params.values_.toList.foldl (fun params i => params.set i.1 i.2) empty = params.named := by
  rw [foldl_set]
  refine congrArg Params.mk (ExtTreeMap.ext_getElem? fun key => ?_)
  have distinct : (params.values_.toList.filter fun i => !i.1.isEmpty).Pairwise
      (fun a b => ¬ compare a.1 b.1 = .eq) :=
    ExtTreeMap.distinct_keys_toList.filter _
  refine Eq.trans ?_ (named_getElem? params key).symm
  by_cases held : key ≠ [] ∧ ∃ value, params.values_[key]? = some value
  · obtain ⟨keyed, value, found⟩ := held
    have listed : (key, value) ∈ params.values_.toList.filter fun i => !i.1.isEmpty := by
      rw [List.mem_filter, ExtTreeMap.mem_toList_iff_getElem?_eq_some]
      exact ⟨found, by simpa using keyed⟩
    rw [if_neg keyed, found]
    exact ExtTreeMap.getElem?_insertMany_list_of_mem ReflCmp.compare_self distinct listed
  · have unlisted : ((params.values_.toList.filter fun i => !i.1.isEmpty).map
        Prod.fst).contains key = false := by
      rw [Bool.eq_false_iff]
      intro present
      rw [List.contains_iff_mem, List.mem_map] at present
      obtain ⟨⟨other, value⟩, listed, rfl⟩ := present
      rw [List.mem_filter, ExtTreeMap.mem_toList_iff_getElem?_eq_some] at listed
      exact held ⟨by simpa using listed.2, value, listed.1⟩
    rw [ExtTreeMap.getElem?_insertMany_list_of_contains_eq_false unlisted]
    refine Eq.trans ExtTreeMap.getElem?_empty ?_
    split
    next => rfl
    next keyed =>
      cases found : params.values_[key]? with
      | none => rfl
      | some value => exact absurd ⟨keyed, value, found⟩ held

end Params

/-- The byte that separates the provider from the method. -/
def slash : UInt8 := byte '/'

/-- A message. Its parameters are private and set one by one, so none of them has
an empty key. -/
structure Msg where
  src : Option Nat
  id_ : UInt32
  is_request_ : Bool
  caller_ : Bytes
  method_ : Bytes
  method_provider_ : Bytes
  params_ : Params
  keyed : params_.values_[([] : Bytes)]? = none

namespace Msg

/-- A new message. -/
def fresh : Msg where
  src := none
  id_ := 0
  is_request_ := true
  caller_ := []
  method_ := []
  method_provider_ := []
  params_ := .empty
  keyed := ExtTreeMap.getElem?_empty

def setRequest (msg : Msg) (b : Bool) : Msg := { msg with is_request_ := b }
def setCaller (msg : Msg) (caller : Bytes) : Msg := { msg with caller_ := caller }
def setMethodProvider (msg : Msg) (mp : Bytes) : Msg := { msg with method_provider_ := mp }
def setId (msg : Msg) (id : UInt32) : Msg := { msg with id_ := id }

/-- Remember the connection the message came from. -/
def setSrc (msg : Msg) (conn : Nat) : Msg := { msg with src := some conn }

/-- A method with a slash names its provider too. Only the first slash separates. -/
def setMethod (msg : Msg) (method : Bytes) : Msg :=
  if slash ∈ method then
    { msg with
      method_provider_ := method.takeWhile (· != slash)
      method_ := (method.dropWhile (· != slash)).tail }
  else { msg with method_ := method }

/-- A text that begins with a provider and a slash is cut behind the provider. -/
theorem setMethod_provider {provider : Bytes} (unslashed : slash ∉ provider) (method : Bytes) :
    (fresh.setMethod (provider ++ slash :: method)).method_provider_ = provider ∧
      (fresh.setMethod (provider ++ slash :: method)).method_ = method := by
  have differs : ∀ b ∈ provider, (b != slash) = true := by
    intro b member
    rw [bne_iff_ne]
    rintro rfl
    exact unslashed member
  unfold setMethod
  rw [if_pos (by simp)]
  dsimp only
  rw [List.takeWhile_append_of_pos differs, List.dropWhile_append_of_pos differs]
  simp

def setParam (msg : Msg) (key value : Bytes) : Msg :=
  { msg with
    params_ := msg.params_.set key value
    keyed := by rw [Params.set_unnamed, msg.keyed] }

def param (msg : Msg) (key : Bytes) : Bytes := msg.params_.get key

/-- Two messages are the same when their fields are. -/
theorem ext_fields {msg other : Msg} (src : msg.src = other.src) (id : msg.id_ = other.id_)
    (request : msg.is_request_ = other.is_request_) (caller : msg.caller_ = other.caller_)
    (method : msg.method_ = other.method_)
    (provider : msg.method_provider_ = other.method_provider_)
    (params : msg.params_ = other.params_) : msg = other := by
  cases msg
  cases other
  simp_all

end Msg

namespace JsonPacker

/-- The loop over the parameters. -/
def packParams (params : Params) : Throws Json :=
  params.values_.toList.foldlM (fun param i => do
    let p ← Json.null.assign (text "t") (.string i.1)
    let p ← p.assign (text "v") (.string i.2)
    param.pushBack p) Json.null

/-- `JsonPacker::Pack`: the text of the document of a message. -/
def pack (lib : JsonLibrary) (msg : Msg) : Throws Bytes := do
  let root ← Json.null.assign (text "id") (.number_unsigned msg.id_.toNat)
  let root ← root.assign (text "method") (.string msg.method_)
  let root ← root.assign (text "is_req") (.boolean msg.is_request_)
  let root ← root.assign (text "caller") (.string msg.caller_)
  let root ← root.assign (text "method_provider") (.string msg.method_provider_)
  let param ← packParams msg.params_
  let root ← root.assign (text "param") param
  lib.dump root

/-- A computation on the message that is being filled. An exception keeps what
has been set before it. -/
abbrev Filling := ExceptT Bytes (StateM Msg)

/-- The body of the `try` block of `Unpack`. -/
def fill (lib : JsonLibrary) (data : Bytes) : Filling Unit := do
  let root ← liftExcept (lib.parse data)
  let id ← liftExcept (root.member (text "id") >>= Json.getUInt32)
  modify (·.setId id)
  let method ← liftExcept (root.member (text "method") >>= Json.getString)
  modify (·.setMethod method)
  let request ← liftExcept (root.member (text "is_req") >>= Json.getBool)
  modify (·.setRequest request)
  let caller ← liftExcept (root.member (text "caller") >>= Json.getString)
  modify (·.setCaller caller)
  let provider ← liftExcept (root.member (text "method_provider") >>= Json.getString)
  modify (·.setMethodProvider provider)
  let param ← liftExcept (root.member (text "param"))
  param.elements.forM fun i => do
    let t ← liftExcept (i.member (text "t") >>= Json.getString)
    let v ← liftExcept (i.member (text "v") >>= Json.getString)
    modify (·.setParam t v)

/-- `JsonPacker::Unpack`: a message filled from a document, and what went wrong. -/
def unpack (lib : JsonLibrary) (data : Bytes) (msg : Msg) : Status × Msg :=
  match (fill lib data).run.run msg with
  | (.ok _, msg) => (.okStatus, msg)
  | (.error what, msg) => (.invalidArgumentError what, msg)

/-- The document of one parameter. -/
def entry (i : Bytes × Bytes) : Json :=
  .object [(text "t", .string i.1), (text "v", .string i.2)]

/-- The document of the parameters. Without any it stays null. -/
def paramDocument (params : Params) : Json :=
  match params.values_.toList with
  | [] => .null
  | entries => .array (entries.map entry)

/-- The document of a message, with its members in key order. -/
def document (msg : Msg) : Json :=
  .object [
    (text "caller", .string msg.caller_),
    (text "id", .number_unsigned msg.id_.toNat),
    (text "is_req", .boolean msg.is_request_),
    (text "method", .string msg.method_),
    (text "method_provider", .string msg.method_provider_),
    (text "param", paramDocument msg.params_)]

/-- Each turn of the loop appends the document of one parameter. -/
theorem packParams_array (entries : List (Bytes × Bytes)) (items : List Json) :
    entries.foldlM (fun param i => do
      let p ← Json.null.assign (text "t") (.string i.1)
      let p ← p.assign (text "v") (.string i.2)
      param.pushBack p) (Json.array items) = .ok (.array (items ++ entries.map entry)) := by
  induction entries generalizing items with
  | nil => simp [pure, Except.pure]
  | cons i entries inductionHypothesis =>
    rw [List.foldlM_cons]
    refine Eq.trans (inductionHypothesis (items ++ [entry i])) ?_
    simp

/-- Packing the parameters makes their document. -/
theorem packParams_eq (params : Params) : packParams params = .ok (paramDocument params) := by
  unfold packParams paramDocument
  cases params.values_.toList with
  | nil => rfl
  | cons i entries =>
    rw [List.foldlM_cons]
    exact packParams_array entries [entry i]

/-- Packing serialises the document. -/
theorem pack_eq (lib : JsonLibrary) (msg : Msg) : pack lib msg = lib.dump (document msg) := by
  unfold pack
  rw [packParams_eq]
  rfl

/-- What the loop over the parameters of a document does to the message. -/
theorem fill_entries (entries : List (Bytes × Bytes)) (msg : Msg) :
    ((entries.map entry).forM fun i => (do
      let t ← liftExcept (i.member (text "t") >>= Json.getString)
      let v ← liftExcept (i.member (text "v") >>= Json.getString)
      modify (·.setParam t v) : Filling Unit)).run.run msg =
      (.ok (), entries.foldl (fun msg i => msg.setParam i.1 i.2) msg) := by
  induction entries generalizing msg with
  | nil => rfl
  | cons i entries inductionHypothesis => exact inductionHypothesis (msg.setParam i.1 i.2)

/-- A loop over the document of the parameters visits their entries. -/
theorem elements_paramDocument (params : Params) :
    (paramDocument params).elements = params.values_.toList.map entry := by
  unfold paramDocument
  cases params.values_.toList <;> rfl

/-- Reading the document of a message calls the setters in this order. -/
theorem fill_document (lib : JsonLibrary) (data : Bytes) (msg into : Msg)
    (read : lib.parse data = .ok (document msg)) :
    (fill lib data).run.run into =
      (.ok (), msg.params_.values_.toList.foldl (fun msg i => msg.setParam i.1 i.2)
        (((((into.setId msg.id_).setMethod msg.method_).setRequest msg.is_request_).setCaller
          msg.caller_).setMethodProvider msg.method_provider_)) := by
  have loop := fill_entries msg.params_.values_.toList
  rw [← elements_paramDocument] at loop
  unfold fill
  rw [read]
  refine Eq.trans ?_ (loop _)
  rw [← UInt32.ofNat_toNat (x := msg.id_)]
  rfl

/-- Setting parameters changes the parameters and nothing else. -/
theorem setParams_fields (entries : List (Bytes × Bytes)) (msg : Msg) :
    let after := entries.foldl (fun msg i => msg.setParam i.1 i.2) msg
    after.src = msg.src ∧ after.id_ = msg.id_ ∧ after.is_request_ = msg.is_request_ ∧
      after.caller_ = msg.caller_ ∧ after.method_ = msg.method_ ∧
      after.method_provider_ = msg.method_provider_ ∧
      after.params_ = entries.foldl (fun params i => params.set i.1 i.2) msg.params_ := by
  induction entries generalizing msg with
  | nil => exact ⟨rfl, rfl, rfl, rfl, rfl, rfl, rfl⟩
  | cons i entries inductionHypothesis => exact inductionHypothesis (msg.setParam i.1 i.2)

/-- The message that is read back: the method is cut at its first slash. -/
def reread (msg : Msg) : Msg :=
  { msg with src := none, method_ := (Msg.fresh.setMethod msg.method_).method_ }

/-- What `Unpack` does with a document that was made from a message. -/
theorem unpack_document {lib : JsonLibrary} {data : Bytes} {msg : Msg}
    (read : lib.parse data = .ok (document msg)) :
    unpack lib data Msg.fresh = (.okStatus, reread msg) := by
  unfold unpack
  rw [fill_document lib data msg Msg.fresh read]
  dsimp only
  refine congrArg (Prod.mk Status.okStatus) ?_
  obtain ⟨src, id, request, caller, method, provider, params⟩ :=
    setParams_fields msg.params_.values_.toList
      (((((Msg.fresh.setId msg.id_).setMethod msg.method_).setRequest msg.is_request_).setCaller
        msg.caller_).setMethodProvider msg.method_provider_)
  have cut : ((Msg.fresh.setId msg.id_).setMethod msg.method_).src = none ∧
      ((Msg.fresh.setId msg.id_).setMethod msg.method_).id_ = msg.id_ ∧
      ((Msg.fresh.setId msg.id_).setMethod msg.method_).method_ =
        (Msg.fresh.setMethod msg.method_).method_ ∧
      ((Msg.fresh.setId msg.id_).setMethod msg.method_).params_ = .empty := by
    unfold Msg.setMethod
    split <;> exact ⟨rfl, rfl, rfl, rfl⟩
  have refilled : msg.params_.values_.toList.foldl (fun params i => params.set i.1 i.2)
      ((Msg.fresh.setId msg.id_).setMethod msg.method_).params_ = msg.params_ := by
    rw [cut.2.2.2, Params.foldl_set_toList, Params.named_eq_self msg.keyed]
  exact Msg.ext_fields (src.trans cut.1) (id.trans cut.2.1) request caller
    (method.trans cut.2.2.1) provider (params.trans refilled)

end JsonPacker

end Cppboot
