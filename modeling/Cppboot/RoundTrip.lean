import Mathlib.Data.List.TakeWhile
import Cppboot.JsonText
import Cppboot.Message

/-!
# The round trip of a packed message

A message whose strings are UTF-8 can always be packed, since its document is
one the JSON library serialises. Unpacking then finds the same document and
rebuilds the message, up to the cut of its method. The same holds when a NUL byte
follows the packed text, as it does in a frame.
-/

namespace Cppboot

open Std

namespace Msg

/-- Every string of the message is UTF-8. -/
structure Encoded (msg : Msg) : Prop where
  caller : Utf8.valid msg.caller_ = true
  method : Utf8.valid msg.method_ = true
  provider : Utf8.valid msg.method_provider_ = true
  params : ∀ entry ∈ msg.params_.values_.toList,
    Utf8.valid entry.1 = true ∧ Utf8.valid entry.2 = true

/-- The messages that can be built with the setters on UTF-8 strings. -/
inductive Built : Msg → Prop
  | fresh : Built fresh
  | setId {msg : Msg} (built : Built msg) (id : UInt32) : Built (msg.setId id)
  | setRequest {msg : Msg} (built : Built msg) (b : Bool) : Built (msg.setRequest b)
  | setCaller {msg : Msg} (built : Built msg) {caller : Bytes}
      (valid : Utf8.valid caller = true) : Built (msg.setCaller caller)
  | setMethod {msg : Msg} (built : Built msg) {method : Bytes}
      (valid : Utf8.valid method = true) : Built (msg.setMethod method)
  | setMethodProvider {msg : Msg} (built : Built msg) {mp : Bytes}
      (valid : Utf8.valid mp = true) : Built (msg.setMethodProvider mp)
  | setParam {msg : Msg} (built : Built msg) {key value : Bytes}
      (keyValid : Utf8.valid key = true) (valid : Utf8.valid value = true) :
      Built (msg.setParam key value)

/-- A text with a slash is what stands before it, the slash and the rest. -/
theorem split_slash {method : Bytes} (present : slash ∈ method) :
    method = method.takeWhile (· != slash) ++ slash ::
      (method.dropWhile (· != slash)).tail := by
  have parts := List.takeWhile_append_dropWhile (p := (· != slash)) (l := method)
  cases rest : method.dropWhile (· != slash) with
  | nil =>
    have all := List.dropWhile_eq_nil_iff.1 rest slash present
    simp at all
  | cons b tail =>
    have stop : (b != slash) = false := by
      have head := List.head?_dropWhile_not (· != slash) method
      rw [rest] at head
      simpa using head
    have same : b = slash := by simpa using stop
    rw [rest, same] at parts
    exact parts.symm

/-- Both parts of a method that is cut at a slash are UTF-8. -/
theorem cut_valid {method : Bytes} (valid : Utf8.valid method = true)
    (present : slash ∈ method) :
    Utf8.valid (method.takeWhile (· != slash)) = true ∧
      Utf8.valid (method.dropWhile (· != slash)).tail = true := by
  rw [split_slash present, Utf8.valid_cut _ _ _ (by decide), Bool.and_eq_true] at valid
  exact valid

/-- Setting a method of UTF-8 keeps a message encoded. -/
theorem Encoded.setMethod {msg : Msg} (encoded : msg.Encoded) {method : Bytes}
    (valid : Utf8.valid method = true) : (msg.setMethod method).Encoded := by
  unfold Msg.setMethod
  split
  next present =>
    obtain ⟨provider, rest⟩ := cut_valid valid present
    exact ⟨encoded.caller, rest, provider, encoded.params⟩
  next => exact ⟨encoded.caller, valid, encoded.provider, encoded.params⟩

/-- Setting a parameter of UTF-8 keeps a message encoded. -/
theorem Encoded.setParam {msg : Msg} (encoded : msg.Encoded) {key value : Bytes}
    (keyValid : Utf8.valid key = true) (valid : Utf8.valid value = true) :
    (msg.setParam key value).Encoded := by
  refine ⟨encoded.caller, encoded.method, encoded.provider, ?_⟩
  intro entry listed
  by_cases unnamed : key = []
  · rw [unnamed] at listed
    exact encoded.params entry listed
  · change entry ∈ (msg.params_.set key value).values_.toList at listed
    rw [Params.set_key _ _ unnamed, ExtTreeMap.mem_toList_iff_getElem?_eq_some,
      ExtTreeMap.getElem?_insert] at listed
    split at listed
    next same =>
      rw [← LawfulEqCmp.eq_of_compare same, ← Option.some.inj listed]
      exact ⟨keyValid, valid⟩
    next =>
      exact encoded.params entry (ExtTreeMap.mem_toList_iff_getElem?_eq_some.mpr listed)

/-- A built message has UTF-8 strings only, and no connection. -/
theorem Built.encoded {msg : Msg} (built : msg.Built) : msg.Encoded := by
  induction built with
  | fresh =>
    refine ⟨rfl, rfl, rfl, ?_⟩
    intro entry listed
    rw [show Msg.fresh.params_.values_.toList = [] from rfl] at listed
    contradiction
  | setId _ _ encoded => exact ⟨encoded.caller, encoded.method, encoded.provider, encoded.params⟩
  | setRequest _ _ encoded =>
    exact ⟨encoded.caller, encoded.method, encoded.provider, encoded.params⟩
  | setCaller _ valid encoded => exact ⟨valid, encoded.method, encoded.provider, encoded.params⟩
  | setMethod _ valid encoded => exact encoded.setMethod valid
  | setMethodProvider _ valid encoded =>
    exact ⟨encoded.caller, encoded.method, valid, encoded.params⟩
  | setParam _ keyValid valid encoded => exact encoded.setParam keyValid valid

end Msg

namespace JsonPacker

theorem entry_plain (i : Bytes × Bytes) : (entry i).Plain := by
  refine .object _ ?_ (by simp only [List.map_cons, List.map_nil]; decide)
  intro member listed
  rcases List.mem_pair.mp listed with rfl | rfl <;> exact .string _

theorem paramDocument_plain (params : Params) : (paramDocument params).Plain := by
  unfold paramDocument
  split
  · exact .null
  · refine .array _ ?_
    intro item listed
    obtain ⟨i, _, rfl⟩ := List.mem_map.mp listed
    exact entry_plain i

/-- The document of every message is one the library reads back. -/
theorem document_plain (msg : Msg) : (document msg).Plain := by
  refine .object _ ?_ (by simp only [List.map_cons, List.map_nil]; decide)
  simp only [List.forall_mem_cons]
  exact ⟨.string _, .number _ (Nat.lt_of_lt_of_le msg.id_.toNat_lt (by decide)), .boolean _,
    .string _, .string _, paramDocument_plain _, by simp⟩

/-- The document of parameters of UTF-8 is encoded. -/
theorem paramDocument_encoded {params : Params}
    (valid : ∀ entry ∈ params.values_.toList,
      Utf8.valid entry.1 = true ∧ Utf8.valid entry.2 = true) :
    (paramDocument params).Encoded := by
  unfold paramDocument
  split
  · exact .null
  · refine .array _ ?_
    intro item listed
    obtain ⟨i, present, rfl⟩ := List.mem_map.mp listed
    obtain ⟨keyValid, valueValid⟩ := valid i present
    refine .object _ ?_ ?_
    · intro member listed
      rcases List.mem_pair.mp listed with rfl | rfl <;> rfl
    · intro member listed
      rcases List.mem_pair.mp listed with rfl | rfl
      · exact .string _ keyValid
      · exact .string _ valueValid

/-- The document of a message with UTF-8 strings can be serialised. -/
theorem document_encoded {msg : Msg} (encoded : msg.Encoded) : (document msg).Encoded := by
  refine .object _ ?_ ?_
  · simp only [List.forall_mem_cons]
    exact ⟨by decide +kernel, by decide +kernel, by decide +kernel, by decide +kernel,
      by decide +kernel, by decide +kernel, by simp⟩
  · simp only [List.forall_mem_cons]
    exact ⟨.string _ encoded.caller, .number_unsigned _, .boolean _, .string _ encoded.method,
      .string _ encoded.provider, paramDocument_encoded encoded.params, by simp⟩

/-- A message with UTF-8 strings is packed. -/
theorem pack_encoded {lib : JsonLibrary} (faithful : lib.Faithful) {msg : Msg}
    (encoded : msg.Encoded) : ∃ data, pack lib msg = .ok data := by
  rw [pack_eq]
  exact faithful.dumps _ (document_plain msg) (document_encoded encoded)

/-- Unpacking a packed message gives the message with its method cut. -/
theorem unpack_packed {lib : JsonLibrary} (faithful : lib.Faithful) {msg : Msg} {data : Bytes}
    (packed : pack lib msg = .ok data) :
    unpack lib data Msg.fresh = (.okStatus, reread msg) := by
  rw [pack_eq] at packed
  exact unpack_document (faithful.parses _ _ (document_plain msg) packed)

/-- The same with the NUL byte that ends the body of a frame. -/
theorem unpack_body {lib : JsonLibrary} (faithful : lib.Faithful) {msg : Msg} {data : Bytes}
    (packed : pack lib msg = .ok data) :
    unpack lib (data ++ [0]) Msg.fresh = (.okStatus, reread msg) := by
  rw [pack_eq] at packed
  exact unpack_document (faithful.endsAtNul _ _ (document_plain msg) packed)

/-- The text that the canonical library writes. -/
theorem pack_canonical {msg : Msg} {data : Bytes} (packed : pack .canonical msg = .ok data) :
    data = JsonText.textOf (document msg) := by
  rw [pack_eq, JsonLibrary.canonical_dump] at packed
  exact JsonText.dump_ok packed

/-- The text of a message is at least as long as the value of any parameter. -/
theorem canonical_length {msg : Msg} {data : Bytes} (packed : pack .canonical msg = .ok data)
    {i : Bytes × Bytes} (listed : i ∈ msg.params_.values_.toList) : i.2.length ≤ data.length := by
  have params : paramDocument msg.params_ = .array (msg.params_.values_.toList.map entry) := by
    unfold paramDocument
    split
    next none => rw [none] at listed; contradiction
    next => rfl
  have value : i.2.length ≤ (JsonText.textOf (entry i)).length :=
    (JsonText.length_string i.2).trans
      (JsonText.length_member (text "v", .string i.2) (.tail _ (.head _)))
  have item : (JsonText.textOf (entry i)).length ≤
      (JsonText.textOf (paramDocument msg.params_)).length := by
    rw [params]
    exact JsonText.length_item (List.mem_map_of_mem listed)
  have member : (JsonText.textOf (paramDocument msg.params_)).length ≤
      (JsonText.textOf (document msg)).length :=
    JsonText.length_member (text "param", paramDocument msg.params_)
      (.tail _ (.tail _ (.tail _ (.tail _ (.tail _ (.head _))))))
  rw [pack_canonical packed]
  exact value.trans (item.trans member)

/-- Reading back leaves the method as it is exactly when it holds no slash: the
cut leaves something shorter. -/
theorem reread_method (msg : Msg) : (reread msg).method_ = msg.method_ ↔ slash ∉ msg.method_ := by
  unfold reread Msg.setMethod
  split
  next present =>
    have parts := congrArg List.length (Msg.split_slash present)
    rw [List.length_append, List.length_cons] at parts
    refine ⟨fun same => ?_, fun absent => absurd present absent⟩
    have length := congrArg List.length same
    dsimp only at length
    omega
  next absent => exact ⟨fun _ => absent, fun _ => rfl⟩

/-- Packing and unpacking gives back the message that was packed exactly when its
method holds no slash. -/
theorem unpack_pack (lib : JsonLibrary) (faithful : lib.Faithful) (msg : Msg)
    (built : msg.Built) :
    (∃ data after, pack lib msg = .ok data ∧ unpack lib data Msg.fresh = (.okStatus, after) ∧
      after.id_ = msg.id_ ∧ after.is_request_ = msg.is_request_ ∧ after.caller_ = msg.caller_ ∧
      after.method_ = msg.method_ ∧ after.method_provider_ = msg.method_provider_ ∧
      after.params_ = msg.params_) ↔ slash ∉ msg.method_ := by
  obtain ⟨data, packed⟩ := pack_encoded faithful built.encoded
  have unpacked := unpack_packed faithful packed
  constructor
  · rintro ⟨other, after, same, read, _, _, _, method, _, _⟩
    rw [packed] at same
    cases same
    rw [unpacked] at read
    cases read
    exact (reread_method msg).mp method
  · intro absent
    exact ⟨data, reread msg, packed, unpacked, rfl, rfl, rfl, (reread_method msg).mpr absent,
      rfl, rfl⟩

/-- A request with a provider and a parameter survives. -/
theorem request_survives :
    ∃ data after, pack .canonical ((Msg.fresh.setMethod (text "svc/foo")).setParam
        (text "k") (text "v")) = .ok data ∧
      unpack .canonical data Msg.fresh = (.okStatus, after) ∧ after.method_ = text "foo" := by
  have built : ((Msg.fresh.setMethod (text "svc/foo")).setParam (text "k") (text "v")).Built :=
    ((Msg.Built.fresh.setMethod (by decide +kernel)).setParam (by decide +kernel)
      (by decide +kernel))
  obtain ⟨data, after, packed, read, _, _, _, method, _, _⟩ :=
    (unpack_pack .canonical JsonLibrary.canonical_faithful _ built).mpr (by decide)
  exact ⟨data, after, packed, read, method⟩

/-- A method with two slashes loses what stands between them. -/
theorem nested_method_cut :
    JsonLibrary.canonical.Faithful ∧ (Msg.fresh.setMethod (text "a/b/c")).Built ∧
      ¬ ∃ data after, pack .canonical (Msg.fresh.setMethod (text "a/b/c")) = .ok data ∧
        unpack .canonical data Msg.fresh = (.okStatus, after) ∧
        after.id_ = (Msg.fresh.setMethod (text "a/b/c")).id_ ∧
        after.is_request_ = (Msg.fresh.setMethod (text "a/b/c")).is_request_ ∧
        after.caller_ = (Msg.fresh.setMethod (text "a/b/c")).caller_ ∧
        after.method_ = (Msg.fresh.setMethod (text "a/b/c")).method_ ∧
        after.method_provider_ = (Msg.fresh.setMethod (text "a/b/c")).method_provider_ ∧
        after.params_ = (Msg.fresh.setMethod (text "a/b/c")).params_ := by
  refine ⟨JsonLibrary.canonical_faithful, Msg.Built.fresh.setMethod (by decide), ?_⟩
  rintro ⟨data, after, packed, read, _, _, _, method, _, _⟩
  rw [unpack_packed JsonLibrary.canonical_faithful packed] at read
  cases read
  exact absurd ((reread_method _).mp method) (by decide)

end JsonPacker

end Cppboot
