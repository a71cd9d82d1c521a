import Cppboot.JsonReadBack

/-!
# Reading and writing again

What the parser returns is encoded, its numbers are in range and its members are in order,
because the tokens are. So a document that was read can be written, and writing the value
that is read back from there writes the same text.
-/

namespace Cppboot

namespace Json

/-- The values that the parser returns. -/
inductive Parsed : Json → Prop
  | null : Parsed .null
  | boolean (value : Bool) : Parsed (.boolean value)
  | number_unsigned (value : Nat) (bounded : value < 2 ^ 64) : Parsed (.number_unsigned value)
  | number_integer (value : Int) (low : -2 ^ 63 ≤ value) (high : value ≤ 0) :
    Parsed (.number_integer value)
  | number_float (value : Float) : Parsed (.number_float value)
  | string (value : Bytes) (valid : Utf8.valid value = true) : Parsed (.string value)
  | array (items : List Json) (parsed : ∀ item ∈ items, Parsed item) : Parsed (.array items)
  | object (members : List (Bytes × Json)) (keys : ∀ entry ∈ members, Utf8.valid entry.1 = true)
      (parsed : ∀ entry ∈ members, Parsed entry.2)
      (ordered : (members.map Prod.fst).Pairwise (compare · · = .lt)) : Parsed (.object members)

/-- What is inserted is the new member, and the others were there. -/
theorem insertMember_mem {key : Bytes} {value : Json} {members : List (Bytes × Json)}
    {entry : Bytes × Json} (member : entry ∈ insertMember key value members) :
    entry = (key, value) ∨ entry ∈ members := by
  induction members with
  | nil => exact Or.inl (List.mem_singleton.mp member)
  | cons first members inductionHypothesis =>
    obtain ⟨other, held⟩ := first
    rw [insertMember] at member
    split at member
    · exact List.mem_cons.mp member
    · rcases List.mem_cons.mp member with same | rest
      · exact Or.inl same
      · exact Or.inr (List.mem_cons_of_mem _ rest)
    · rcases List.mem_cons.mp member with same | rest
      · exact Or.inr (same ▸ List.mem_cons_self)
      · rcases inductionHypothesis rest with same | rest
        · exact Or.inl same
        · exact Or.inr (List.mem_cons_of_mem _ rest)

/-- Members stay in the order of their keys. -/
theorem insertMember_ordered (key : Bytes) (value : Json) {members : List (Bytes × Json)}
    (ordered : (members.map Prod.fst).Pairwise (compare · · = .lt)) :
    ((insertMember key value members).map Prod.fst).Pairwise (compare · · = .lt) := by
  induction members with
  | nil => exact List.pairwise_singleton _ key
  | cons first members inductionHypothesis =>
    obtain ⟨other, held⟩ := first
    obtain ⟨front, rest⟩ := List.pairwise_cons.mp ordered
    rw [insertMember]
    split
    next before =>
      refine List.pairwise_cons.mpr ⟨?_, ordered⟩
      intro later member
      rcases List.mem_cons.mp member with rfl | member
      · exact before
      · exact Std.TransCmp.lt_trans before (front later member)
    next same =>
      refine List.pairwise_cons.mpr ⟨?_, rest⟩
      intro later member
      exact Std.TransCmp.lt_of_eq_of_lt same (front later member)
    next behind =>
      refine List.pairwise_cons.mpr ⟨?_, inductionHypothesis rest⟩
      intro later member
      obtain ⟨entry, present, rfl⟩ := List.mem_map.mp member
      rcases insertMember_mem present with rfl | present
      · exact Std.OrientedCmp.gt_iff_lt.mp behind
      · exact front entry.1 (List.mem_map_of_mem present)

/-- The parts of an open phrase were parsed. -/
def PhraseParsed : JsonPhrase → Prop
  | .value => True
  | .items items => ∀ item ∈ items, item.Parsed
  | .members members => Parsed (.object members)

/-- A member that was read joins those before it. -/
theorem Parsed.insert {members : List (Bytes × Json)} (parsed : Parsed (.object members))
    {key : Bytes} (valid : Utf8.valid key = true) {held : Json} (held_parsed : held.Parsed) :
    Parsed (.object (insertMember key held members)) := by
  cases parsed with
  | object _ keys others ordered =>
    refine .object _ ?_ ?_ (insertMember_ordered key held ordered)
    · intro entry member
      rcases insertMember_mem member with rfl | member
      · exact valid
      · exact keys entry member
    · intro entry member
      rcases insertMember_mem member with rfl | member
      · exact held_parsed
      · exact others entry member

/-- Sound tokens spell values that are encoded, in range and in order. -/
theorem spelled_parsed {phrase : JsonPhrase} {tokens : List JsonToken} {value : Json}
    (spelled : Spells phrase tokens value) (sound : ∀ token ∈ tokens, token.Sound)
    (begun : PhraseParsed phrase) : value.Parsed := by
  induction spelled with
  | literal_null => exact .null
  | literal_true => exact .boolean true
  | literal_false => exact .boolean false
  | value_unsigned number => exact .number_unsigned number (sound _ List.mem_cons_self)
  | value_integer number =>
    obtain ⟨low, high⟩ := sound _ List.mem_cons_self
    exact .number_integer number low high
  | value_float number _ => exact .number_float number
  | value_string s => exact .string s (sound _ List.mem_cons_self)
  | empty_array => exact .array [] fun _ nothing => absurd nothing List.not_mem_nil
  | array _ _ first rest =>
    have item := first (fun token member => sound token (by simp [member])) trivial
    refine rest (fun token member => sound token (by simp [member])) ?_
    intro other member
    rw [List.mem_singleton.mp member]
    exact item
  | end_array items => exact .array items begun
  | next_item _ _ first rest =>
    have item := first (fun token member => sound token (by simp [member])) trivial
    refine rest (fun token member => sound token (by simp [member])) ?_
    intro other member
    rcases List.mem_append.mp member with member | member
    · exact begun other member
    · rw [List.mem_singleton.mp member]
      exact item
  | empty_object =>
    exact .object [] (fun _ nothing => absurd nothing List.not_mem_nil)
      (fun _ nothing => absurd nothing List.not_mem_nil) .nil
  | @object name _ _ _ _ _ _ first rest =>
    have key : Utf8.valid name = true := sound (.value_string name) (by simp)
    have held := first (fun token member => sound token (by simp [member])) trivial
    have empty : Parsed (.object []) :=
      .object [] (fun _ nothing => absurd nothing List.not_mem_nil)
        (fun _ nothing => absurd nothing List.not_mem_nil) .nil
    exact rest (fun token member => sound token (by simp [member])) (empty.insert key held)
  | end_object members => exact begun
  | @next_member _ name _ _ _ _ _ _ first rest =>
    have key : Utf8.valid name = true := sound (.value_string name) (by simp)
    have held := first (fun token member => sound token (by simp [member])) trivial
    exact rest (fun token member => sound token (by simp [member]))
      (Parsed.insert begun key held)

end Json

/-- Every token that is scanned is sound. -/
theorem JsonParser.Scans.sound {strtof : Bytes → Float} {lx behind : JsonLexer}
    {tokens : List JsonToken} (scans : JsonParser.Scans strtof lx tokens behind) :
    ∀ token ∈ tokens, token.Sound := by
  induction scans with
  | nil lx =>
    intro token nothing
    cases nothing
  | @cons lx _ _ _ inductionHypothesis =>
    intro token member
    rcases List.mem_cons.mp member with rfl | member
    · exact (lx.scan_advances strtof).sound
    · exact inductionHypothesis token member

/-- The parser returns such values only. -/
theorem JsonParser.accepted_parsed {strtof : Bytes → Float} {input : Bytes} {value : Json}
    (accepted : JsonParser.parse strtof input = .ok value) : value.Parsed := by
  obtain ⟨tokens, lx, scans, spelled⟩ := JsonParser.accepted_spells strtof accepted
  exact Json.spelled_parsed spelled
    (fun token member => scans.sound token (List.mem_append_left _ member)) trivial

namespace Json

mutual

/-- No number in the value is a floating point number. -/
def integral : Json → Bool
  | .number_float _ => false
  | .array items => integralItems items
  | .object members => integralMembers members
  | _ => true

def integralItems : List Json → Bool
  | [] => true
  | item :: items => item.integral && integralItems items

def integralEntry : Bytes × Json → Bool
  | (_, held) => held.integral

def integralMembers : List (Bytes × Json) → Bool
  | [] => true
  | entry :: members => integralEntry entry && integralMembers members

end

/-- What was parsed holds UTF-8 strings only. -/
theorem Parsed.encoded {value : Json} (parsed : value.Parsed) : value.Encoded := by
  induction parsed with
  | null => exact .null
  | boolean value => exact .boolean value
  | number_unsigned value _ => exact .number_unsigned value
  | number_integer value _ _ => exact .number_integer value
  | number_float value => exact .number_float value
  | string value valid => exact .string value valid
  | array items _ inductionHypothesis => exact .array items inductionHypothesis
  | object members keys _ _ inductionHypothesis => exact .object members keys inductionHypothesis

/-- If all items are integral each of them is. -/
theorem integralItems_mem {items : List Json} (all : integralItems items = true) :
    ∀ item ∈ items, item.integral = true := by
  induction items with
  | nil =>
    intro item nothing
    cases nothing
  | cons first items inductionHypothesis =>
    obtain ⟨one, others⟩ := Bool.and_eq_true_iff.mp all
    exact List.forall_mem_cons.mpr ⟨one, inductionHypothesis others⟩

/-- If all members are integral each of them is. -/
theorem integralMembers_mem {members : List (Bytes × Json)}
    (all : integralMembers members = true) : ∀ entry ∈ members, entry.2.integral = true := by
  induction members with
  | nil =>
    intro entry nothing
    cases nothing
  | cons first members inductionHypothesis =>
    obtain ⟨key, held⟩ := first
    obtain ⟨one, others⟩ := Bool.and_eq_true_iff.mp all
    exact List.forall_mem_cons.mpr ⟨one, inductionHypothesis others⟩

/-- What the parser returns can be stored, unless there is a floating point number in it. -/
theorem Parsed.storable {value : Json} (parsed : value.Parsed) (whole : value.integral = true) :
    value.Storable := by
  induction parsed with
  | null => exact .null
  | boolean value => exact .boolean value
  | number_unsigned value bounded => exact .number_unsigned value bounded
  | number_integer value low high => exact .number_integer value low (by omega)
  | number_float value => cases whole
  | string value _ => exact .string value
  | array items _ inductionHypothesis =>
    have all := integralItems_mem whole
    exact .array items fun item member => inductionHypothesis item member (all item member)
  | object members _ _ ordered inductionHypothesis =>
    have all := integralMembers_mem whole
    exact .object members
      (fun entry member => inductionHypothesis entry member (all entry member)) ordered

end Json

namespace JsonWriter

variable (toChars : Float → Bytes) (strtof : Bytes → Float) (spacing : Spacing)

mutual

/-- The value that is read back is written as the value was. -/
theorem dump_normal (current_indent : Nat) (value : Json) :
    dump toChars spacing current_indent value.normal =
      dump toChars spacing current_indent value := by
  match value with
  | .null | .boolean _ | .number_unsigned _ | .number_float _ | .string _ | .array []
  | .object [] => rfl
  | .number_integer number =>
    rw [Json.normal]
    split
    · rfl
    next positive =>
      have same : (number.natAbs : Int) = number := by omega
      rw [dump, dump, same]
  | .array (item :: items) =>
    rw [Json.normal, Json.normalItems, dump, dump, dump_normal _ item, dumpItems_normal _ items]
  | .object (entry :: members) =>
    rw [Json.normal, Json.normalMembers, dump, dump, dumpMember_normal _ entry,
      dumpMembers_normal _ members]

/-- Items are written like their normal forms. -/
theorem dumpItems_normal (new_indent : Nat) (items : List Json) :
    dumpItems toChars spacing new_indent (Json.normalItems items) =
      dumpItems toChars spacing new_indent items := by
  match items with
  | [] => rfl
  | item :: items =>
    rw [Json.normalItems, dumpItems, dumpItems, dump_normal _ item, dumpItems_normal _ items]

/-- A member is written like its normal form. -/
theorem dumpMember_normal (new_indent : Nat) (entry : Bytes × Json) :
    dumpMember toChars spacing new_indent (Json.normalEntry entry) =
      dumpMember toChars spacing new_indent entry := by
  match entry with
  | (key, held) => rw [Json.normalEntry, dumpMember, dumpMember, dump_normal _ held]

/-- Members are written like their normal forms. -/
theorem dumpMembers_normal (new_indent : Nat) (members : List (Bytes × Json)) :
    dumpMembers toChars spacing new_indent (Json.normalMembers members) =
      dumpMembers toChars spacing new_indent members := by
  match members with
  | [] => rfl
  | entry :: members =>
    rw [Json.normalMembers, dumpMembers, dumpMembers, dumpMember_normal _ entry,
      dumpMembers_normal _ members]

end

/-- A document that was read can be written. If it has no floating point numbers, then the
text is read back as the document, and written from there it is the same text. -/
theorem reformatted {input : Bytes} {value : Json}
    (accepted : JsonParser.parse strtof input = .ok value) :
    ∃ document, dump toChars spacing 0 value = .ok document ∧ (value.integral = true →
      JsonParser.parse strtof document = .ok value.normal ∧
        dump toChars spacing 0 value.normal = .ok document) := by
  have parsed := JsonParser.accepted_parsed accepted
  have possible := dump_isOk toChars spacing 0 value
  rw [JsonText.utf8_of_encoded value parsed.encoded] at possible
  cases done : dump toChars spacing 0 value with
  | error what =>
    rw [done] at possible
    cases possible
  | ok document =>
    refine ⟨document, rfl, fun whole => ⟨?_, ?_⟩⟩
    · have read := parse_dump strtof (parsed.storable whole) done (Or.inl rfl)
      rwa [List.append_nil] at read
    · rw [dump_normal, done]

/-- A zero with a sign loses it, and nothing else changes. -/
theorem zeros_reformatted : ∃ document,
    dump (fun _ => []) .two 0 (.array [.number_integer 0, .number_unsigned 0]) =
      .ok document ∧
      (Json.integral (.array [.number_integer 0, .number_unsigned 0]) = true →
        JsonParser.parse (fun _ => 0) document =
          .ok (Json.normal (.array [.number_integer 0, .number_unsigned 0])) ∧
        dump (fun _ => []) .two 0
          (Json.normal (.array [.number_integer 0, .number_unsigned 0])) = .ok document) := by
  have accepted : JsonParser.parse (fun _ => 0) (text "[-0, 0]") =
      .ok (.array [.number_integer 0, .number_unsigned 0]) := by rfl
  exact reformatted (fun _ => []) (fun _ => 0) .two accepted

end JsonWriter

end Cppboot
