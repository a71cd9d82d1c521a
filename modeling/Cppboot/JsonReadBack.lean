import Cppboot.JsonReads

/-!
# What is written is read back

Whatever the layout is, the text of a value is spelled by tokens that stand for the value,
and so the parser reads it back. Only one thing is not told from the text: a signed number
that is not negative is read as an unsigned one.

The values that the parser returns can be written again, and so the message packer may rely
on the library.
-/

namespace Cppboot

namespace Json

/-- Values that can be stored: the numbers fit their types and are no floating point
numbers, and members are in the order of their keys. -/
inductive Storable : Json → Prop
  | null : Storable .null
  | boolean (value : Bool) : Storable (.boolean value)
  | number_unsigned (value : Nat) (bounded : value < 2 ^ 64) : Storable (.number_unsigned value)
  | number_integer (value : Int) (low : -2 ^ 63 ≤ value) (high : value < 2 ^ 63) :
    Storable (.number_integer value)
  | string (value : Bytes) : Storable (.string value)
  | array (items : List Json) (storable : ∀ item ∈ items, Storable item) : Storable (.array items)
  | object (members : List (Bytes × Json)) (storable : ∀ entry ∈ members, Storable entry.2)
      (ordered : (members.map Prod.fst).Pairwise (compare · · = .lt)) : Storable (.object members)

mutual

/-- The value as it is read back. -/
def normal : Json → Json
  | .number_integer value =>
    if value < 0 then .number_integer value else .number_unsigned value.natAbs
  | .array items => .array (normalItems items)
  | .object members => .object (normalMembers members)
  | value => value

def normalItems : List Json → List Json
  | [] => []
  | item :: items => item.normal :: normalItems items

def normalEntry : Bytes × Json → Bytes × Json
  | (key, held) => (key, held.normal)

def normalMembers : List (Bytes × Json) → List (Bytes × Json)
  | [] => []
  | entry :: members => normalEntry entry :: normalMembers members

end

/-- A member whose key comes behind all others is put at the end. -/
theorem insertMember_last {key : Bytes} {members : List (Bytes × Json)}
    (behind : ∀ entry ∈ members, compare entry.1 key = .lt) (value : Json) :
    insertMember key value members = members ++ [(key, value)] := by
  induction members with
  | nil => rfl
  | cons entry members inductionHypothesis =>
    obtain ⟨other, held⟩ := entry
    have later : compare key other = .gt :=
      Std.OrientedCmp.gt_iff_lt.mpr (behind (other, held) List.mem_cons_self)
    rw [insertMember, later]
    dsimp only
    rw [inductionHypothesis fun entry member => behind entry (List.mem_cons_of_mem _ member)]
    rfl

end Json

namespace JsonWriter

open Decimal JsonLexer

variable {toChars : Float → Bytes} (strtof : Bytes → Float) {spacing : Spacing}

/-! ## The parts of a text -/

/-- Between tokens there are only a line break and blanks. -/
theorem Spacing.line_blank (spacing : Spacing) (indent : Nat) :
    ∀ c ∈ spacing.line indent, JsonLexer.isBlank c = true := by
  intro c member
  cases spacing with
  | compact => cases member
  | pretty step bounded =>
    rcases List.mem_cons.mp member with rfl | member
    · rfl
    · rw [List.eq_of_mem_replicate member]
      rfl

/-- Behind a colon there are only blanks. -/
theorem Spacing.gap_blank (spacing : Spacing) : ∀ c ∈ spacing.gap, JsonLexer.isBlank c = true := by
  intro c member
  cases spacing with
  | compact => cases member
  | pretty step bounded =>
    have blank : c = byte ' ' := List.mem_singleton.mp member
    rw [blank]
    rfl

/-- A string that is written is UTF-8, and is its escapes between quotation marks. -/
theorem dumpString_ok {s written : Bytes} (done : dumpString s = .ok written) :
    Utf8.valid s = true ∧ written = byte '"' :: (s.flatMap JsonText.escape ++ [byte '"']) := by
  have spelled : Written (Utf8.valid s) (s.flatMap JsonText.escape) (dumpEscaped 0 0 0 0 s) :=
    dumpEscaped_written (Or.inl rfl) (Nat.zero_le _) 0 0 s
  unfold dumpString at done
  cases formed : Utf8.valid s with
  | true =>
    rw [formed] at spelled
    have ok : dumpEscaped 0 0 0 0 s = .ok (s.flatMap JsonText.escape) := spelled
    rw [ok] at done
    exact ⟨rfl, (Except.ok.inj done).symm⟩
  | false =>
    rw [formed] at spelled
    obtain ⟨what, failed⟩ : ∃ what, dumpEscaped 0 0 0 0 s = .error what := spelled
    rw [failed] at done
    cases done

/-- Of two parts in sequence both were written. -/
theorem bind_ok {first other : Throws Bytes} {join : Bytes → Bytes → Bytes} {written : Bytes}
    (done : (do
      let one ← first
      let two ← other
      Except.ok (join one two)) = Except.ok written) :
    ∃ one two, first = .ok one ∧ other = .ok two ∧ written = join one two := by
  cases first with
  | error what => cases done
  | ok one =>
    cases other with
    | error what => cases done
    | ok two => exact ⟨one, two, rfl, rfl, (Except.ok.inj done).symm⟩

/-- What begins with this character begins with no blank. -/
theorem begins_plain {c : UInt8} (plain : JsonLexer.isBlank c = false) (rest : Bytes) :
    ∀ b, (c :: rest).head? = some b → JsonLexer.isBlank b = false := by
  intro b first
  rw [← Option.some.inj first]
  exact plain

/-- A number ends in front of blanks and the end of a container. -/
theorem numberEnds_closing {blanks : Bytes}
    (blank : ∀ c ∈ blanks, JsonLexer.isBlank c = true) {c : UInt8}
    (closing : c = byte ']' ∨ c = byte '}') (rest : Bytes) : NumberEnds (blanks ++ c :: rest) := by
  intro b first
  cases blanks with
  | nil =>
    obtain rfl : c = b := Option.some.inj first
    rcases closing with rfl | rfl
    · exact ⟨rfl, rfl⟩
    · exact ⟨rfl, rfl⟩
  | cons d blanks =>
    obtain rfl : d = b := Option.some.inj first
    have one := blank d List.mem_cons_self
    simp only [JsonLexer.isBlank, Bool.or_eq_true, decide_eq_true_eq] at one
    rcases one with ((rfl | rfl) | rfl) | rfl
    · exact ⟨rfl, rfl⟩
    · exact ⟨rfl, rfl⟩
    · exact ⟨rfl, rfl⟩
    · exact ⟨rfl, rfl⟩

/-- What is written behind the first item or member begins with a comma, if it is anything. -/
def Separated (written : Bytes) : Prop := written = [] ∨ ∃ more, written = byte ',' :: more

/-- What is written of more items is nothing, or begins with a comma. -/
theorem dumpItems_separated {new_indent : Nat} {items : List Json} {written : Bytes}
    (done : dumpItems toChars spacing new_indent items = .ok written) : Separated written := by
  cases items with
  | nil => exact Or.inl (Except.ok.inj done).symm
  | cons item items =>
    rw [dumpItems] at done
    obtain ⟨_, _, _, _, rfl⟩ := bind_ok done
    exact Or.inr ⟨_, rfl⟩

/-- What is written of more members is nothing, or begins with a comma. -/
theorem dumpMembers_separated {new_indent : Nat} {members : List (Bytes × Json)} {written : Bytes}
    (done : dumpMembers toChars spacing new_indent members = .ok written) : Separated written := by
  cases members with
  | nil => exact Or.inl (Except.ok.inj done).symm
  | cons entry members =>
    rw [dumpMembers] at done
    obtain ⟨_, _, _, _, rfl⟩ := bind_ok done
    exact Or.inr ⟨_, rfl⟩

theorem Separated.ends {written rest : Bytes} (separated : Separated written)
    (ends : NumberEnds rest) : NumberEnds (written ++ rest) := by
  rcases separated with rfl | ⟨more, rfl⟩
  · exact ends
  · intro c first
    obtain rfl : byte ',' = c := Option.some.inj first
    exact ⟨rfl, rfl⟩

/-! ## Reading what was written -/

/-- Behind blanks the text is spelled by tokens of the value. -/
def Reads (strtof : Bytes → Float) (written : Bytes) (value : Json) : Prop :=
  ∀ blanks rest, (∀ c ∈ blanks, JsonLexer.isBlank c = true) → NumberEnds rest →
    ∃ tokens, JsonParser.Yields strtof (blanks ++ (written ++ rest)) tokens rest ∧
      Spells .value tokens value

/-- A text that is one token. -/
theorem Reads.one {written : Bytes} {token : JsonToken} {value : Json}
    (begins : ∀ rest b, (written ++ rest).head? = some b → JsonLexer.isBlank b = false)
    (makes : ∀ rest, NumberEnds rest → Makes strtof (written ++ rest) token rest)
    (spelled : Spells .value [token] value) : Reads strtof written value := by
  intro blanks rest blank ends
  exact ⟨[token], JsonParser.yields_token blank (begins rest) (makes rest ends), spelled⟩

/-- An integer of the range is read back as the number that it is. -/
theorem dumpInteger_reads {x : Int} (low : -2 ^ 63 ≤ x) (high : x < 2 ^ 64) :
    Reads strtof (dumpInteger numberBuffer x)
      (if x < 0 then .number_integer x else .number_unsigned x.natAbs) := by
  have room : numberBuffer ≠ [] := List.cons_ne_nil _ _
  rw [dumpInteger_numeral room]
  split
  next negative =>
    have same : -(x.natAbs : Int) = x := by omega
    apply Reads.one
    · intro rest b first
      exact begins_plain rfl _ b first
    · intro rest ends
      exact negative_makes strtof (by omega : 0 < x.natAbs) (by omega) ends
    · rw [same]
      exact .value_integer x
  next positive =>
    apply Reads.one
    · intro rest b first
      obtain ⟨c, digits, _, lead, digit, _⟩ := scan_numeral
        (fun c nothing => nomatch nothing : NumberEnds []) x.natAbs
      rw [lead] at first
      obtain rfl : c = b := Option.some.inj first
      exact digit_unblank digit
    · intro rest ends
      exact unsigned_makes strtof (by omega : x.natAbs < 2 ^ 64) ends
    · exact .value_unsigned x.natAbs

mutual

/-- The tokens of the text stand for the value. -/
theorem dump_reads {value : Json} (storable : value.Storable) (current_indent : Nat)
    {written : Bytes} (done : dump toChars spacing current_indent value = .ok written) :
    Reads strtof written value.normal := by
  match value, storable with
  | .null, _ =>
    rw [← Except.ok.inj done]
    exact .one strtof (fun rest => begins_plain rfl _)
      (fun rest _ => literal_null_makes strtof rest) .literal_null
  | .boolean true, _ =>
    rw [← Except.ok.inj done]
    exact .one strtof (fun rest => begins_plain rfl _)
      (fun rest _ => literal_true_makes strtof rest) .literal_true
  | .boolean false, _ =>
    rw [← Except.ok.inj done]
    exact .one strtof (fun rest => begins_plain rfl _)
      (fun rest _ => literal_false_makes strtof rest) .literal_false
  | .number_unsigned number, .number_unsigned _ bounded =>
    rw [← Except.ok.inj done]
    have read := dumpInteger_reads strtof (x := (number : Int)) (by omega) (by omega)
    rwa [if_neg (by omega), Int.natAbs_natCast] at read
  | .number_integer number, .number_integer _ low high =>
    rw [← Except.ok.inj done]
    exact dumpInteger_reads strtof low (by omega)
  | .string s, _ =>
    obtain ⟨formed, rfl⟩ := dumpString_ok done
    refine .one strtof (fun rest => begins_plain rfl _) (fun rest _ => ?_) (.value_string s)
    rw [List.cons_append, List.append_assoc]
    exact string_makes strtof formed rest
  | .array [], _ =>
    rw [← Except.ok.inj done]
    intro blanks rest blank _
    exact ⟨_, (JsonParser.yields_token blank (begins_plain rfl _)
      (begin_array_makes strtof (byte ']' :: rest))).append
      (JsonParser.yields_plain (begins_plain rfl _) (end_array_makes strtof rest)), .empty_array⟩
  | .array (item :: items), .array _ storable =>
    rw [dump] at done
    obtain ⟨first, others, dumped, dumpedOthers, rfl⟩ := bind_ok done
    intro blanks rest blank _
    have closing := spacing.line_blank current_indent
    have ends := (dumpItems_separated dumpedOthers).ends
      (numberEnds_closing closing (Or.inl rfl) rest)
    obtain ⟨tokens, read, spelled⟩ := dump_reads
      (storable item List.mem_cons_self) _ dumped _ _ (spacing.line_blank _) ends
    obtain ⟨more, readMore, spelledMore⟩ := dumpItems_reads
      (fun item member => storable item (List.mem_cons_of_mem _ member)) _ dumpedOthers
      [item.normal] closing rest
    have opened := JsonParser.yields_token blank (begins_plain rfl _)
      (begin_array_makes strtof (spacing.line (spacing.newIndent current_indent) ++
        (first ++ (others ++ (spacing.line current_indent ++ byte ']' :: rest)))))
    refine ⟨_, ?_, .array spelled spelledMore⟩
    have whole := opened.append (read.append readMore)
    simp only [List.cons_append, List.append_assoc, List.nil_append] at whole ⊢
    exact whole
  | .object [], _ =>
    rw [← Except.ok.inj done]
    intro blanks rest blank _
    exact ⟨_, (JsonParser.yields_token blank (begins_plain rfl _)
      (begin_object_makes strtof (byte '}' :: rest))).append
      (JsonParser.yields_plain (begins_plain rfl _) (end_object_makes strtof rest)), .empty_object⟩
  | .object ((key, held) :: members), .object _ storable ordered =>
    rw [dump] at done
    obtain ⟨first, others, dumped, dumpedOthers, rfl⟩ := bind_ok done
    intro blanks rest blank _
    have closing := spacing.line_blank current_indent
    have ends := (dumpMembers_separated dumpedOthers).ends
      (numberEnds_closing closing (Or.inr rfl) rest)
    obtain ⟨tokens, read, spelled⟩ := dumpMember_reads
      (storable (key, held) List.mem_cons_self) _ dumped (spacing.line_blank _) ends
    obtain ⟨more, readMore, spelledMore⟩ := dumpMembers_reads
      (fun entry member => storable entry (List.mem_cons_of_mem _ member)) _ dumpedOthers
      [(key, held.normal)] ordered closing rest
    have opened := JsonParser.yields_token blank (begins_plain rfl _)
      (begin_object_makes strtof (spacing.line (spacing.newIndent current_indent) ++
        (first ++ (others ++ (spacing.line current_indent ++ byte '}' :: rest)))))
    refine ⟨_, ?_, .object spelled spelledMore⟩
    have whole := opened.append (read.append readMore)
    simp only [List.cons_append, List.append_assoc, List.nil_append] at whole ⊢
    exact whole

/-- The items behind those that were read, up to the end of the array. -/
theorem dumpItems_reads {items : List Json} (storable : ∀ item ∈ items, item.Storable)
    (new_indent : Nat) {written : Bytes}
    (done : dumpItems toChars spacing new_indent items = .ok written) (read : List Json)
    {blanks : Bytes} (blank : ∀ c ∈ blanks, JsonLexer.isBlank c = true) (rest : Bytes) :
    ∃ tokens, JsonParser.Yields strtof (written ++ (blanks ++ byte ']' :: rest)) tokens rest ∧
      Spells (.items read) tokens (.array (read ++ Json.normalItems items)) := by
  match items with
  | [] =>
    rw [← Except.ok.inj done, Json.normalItems, List.append_nil, List.nil_append]
    exact ⟨_, JsonParser.yields_token blank (begins_plain rfl _) (end_array_makes strtof rest),
      .end_array read⟩
  | item :: items =>
    rw [dumpItems] at done
    obtain ⟨first, others, dumped, dumpedOthers, rfl⟩ := bind_ok done
    have ends := (dumpItems_separated dumpedOthers).ends
      (numberEnds_closing blank (Or.inl rfl) rest)
    obtain ⟨tokens, readFirst, spelled⟩ := dump_reads
      (storable item List.mem_cons_self) _ dumped _ _ (spacing.line_blank _) ends
    obtain ⟨more, readMore, spelledMore⟩ := dumpItems_reads
      (fun item member => storable item (List.mem_cons_of_mem _ member)) _ dumpedOthers
      (read ++ [item.normal]) blank rest
    have comma := JsonParser.yields_plain (begins_plain rfl _)
      (value_separator_makes strtof (spacing.line new_indent ++
        (first ++ (others ++ (blanks ++ byte ']' :: rest)))))
    rw [List.append_assoc] at spelledMore
    refine ⟨_, ?_, .next_item spelled spelledMore⟩
    have whole := comma.append (readFirst.append readMore)
    simp only [List.cons_append, List.append_assoc, List.nil_append] at whole ⊢
    exact whole

/-- A member: its key, a colon and its value. -/
theorem dumpMember_reads {entry : Bytes × Json} (storable : entry.2.Storable) (new_indent : Nat)
    {written : Bytes} (done : dumpMember toChars spacing new_indent entry = .ok written)
    {blanks rest : Bytes} (blank : ∀ c ∈ blanks, JsonLexer.isBlank c = true)
    (ends : NumberEnds rest) :
    ∃ tokens, JsonParser.Yields strtof (blanks ++ (written ++ rest))
        (.value_string entry.1 :: .name_separator :: tokens) rest ∧
      Spells .value tokens entry.2.normal := by
  match entry with
  | (key, held) =>
    rw [dumpMember] at done
    obtain ⟨name, value, named, dumped, rfl⟩ := bind_ok done
    obtain ⟨formed, rfl⟩ := dumpString_ok named
    obtain ⟨tokens, read, spelled⟩ := dump_reads storable _ dumped _ _
      spacing.gap_blank ends
    have keyRead := JsonParser.yields_token blank (begins_plain rfl _)
      (string_makes strtof formed (byte ':' :: (spacing.gap ++ (value ++ rest))))
    have colon := JsonParser.yields_plain (begins_plain rfl _)
      (name_separator_makes strtof (spacing.gap ++ (value ++ rest)))
    refine ⟨tokens, ?_, spelled⟩
    have whole := keyRead.append (colon.append read)
    simp only [List.cons_append, List.append_assoc, List.nil_append] at whole ⊢
    exact whole

/-- The members behind those that were read, up to the end of the object. -/
theorem dumpMembers_reads {members : List (Bytes × Json)}
    (storable : ∀ entry ∈ members, entry.2.Storable) (new_indent : Nat) {written : Bytes}
    (done : dumpMembers toChars spacing new_indent members = .ok written)
    (read : List (Bytes × Json))
    (ordered : (read.map Prod.fst ++ members.map Prod.fst).Pairwise (compare · · = .lt))
    {blanks : Bytes} (blank : ∀ c ∈ blanks, JsonLexer.isBlank c = true) (rest : Bytes) :
    ∃ tokens, JsonParser.Yields strtof (written ++ (blanks ++ byte '}' :: rest)) tokens rest ∧
      Spells (.members read) tokens (.object (read ++ Json.normalMembers members)) := by
  match members with
  | [] =>
    rw [← Except.ok.inj done, Json.normalMembers, List.append_nil, List.nil_append]
    exact ⟨_, JsonParser.yields_token blank (begins_plain rfl _) (end_object_makes strtof rest),
      .end_object read⟩
  | (key, held) :: members =>
    rw [dumpMembers] at done
    obtain ⟨first, others, dumped, dumpedOthers, rfl⟩ := bind_ok done
    have ends := (dumpMembers_separated dumpedOthers).ends
      (numberEnds_closing blank (Or.inr rfl) rest)
    obtain ⟨tokens, readFirst, spelled⟩ := dumpMember_reads
      (storable (key, held) List.mem_cons_self) _ dumped (spacing.line_blank _) ends
    have last : Json.insertMember key held.normal read =
        read ++ [(key, held.normal)] := by
      apply Json.insertMember_last
      intro before member
      exact (List.pairwise_append.mp ordered).2.2 before.1 (List.mem_map_of_mem member) key
        List.mem_cons_self
    have orderedMore : ((read ++ [(key, held.normal)]).map Prod.fst ++
        members.map Prod.fst).Pairwise (compare · · = .lt) := by
      rw [List.map_append, List.append_assoc]
      exact ordered
    obtain ⟨more, readMore, spelledMore⟩ := dumpMembers_reads
      (fun entry member => storable entry (List.mem_cons_of_mem _ member)) _ dumpedOthers
      (read ++ [(key, held.normal)]) orderedMore blank rest
    have comma := JsonParser.yields_plain (begins_plain rfl _)
      (value_separator_makes strtof (spacing.line new_indent ++
        (first ++ (others ++ (blanks ++ byte '}' :: rest)))))
    rw [List.append_assoc, ← last] at spelledMore
    refine ⟨_, ?_, .next_member spelled spelledMore⟩
    have whole := comma.append (readFirst.append readMore)
    simp only [List.cons_append, List.append_assoc, List.nil_append] at whole ⊢
    exact whole

end

/-- What is written begins with no byte order mark. -/
theorem dump_lead {value : Json} (storable : value.Storable) {current_indent : Nat}
    {written : Bytes} (done : dump toChars spacing current_indent value = .ok written) :
    ∃ c more, written = c :: more ∧ c ≠ 0xEF := by
  have integer (x : Int) : ∃ c more, dumpInteger numberBuffer x = c :: more ∧ c ≠ 0xEF := by
    have room : numberBuffer ≠ [] := List.cons_ne_nil _ _
    rw [dumpInteger_numeral room]
    split
    · exact ⟨_, _, rfl, by decide⟩
    · cases digits : numeral x.natAbs with
      | nil => exact absurd digits (numeral_ne_nil _)
      | cons c more =>
        have digit := numeral_digits x.natAbs c (by rw [digits]; exact List.mem_cons_self)
        refine ⟨c, more, rfl, ?_⟩
        rintro rfl
        cases digit
  match value, storable with
  | .null, _ | .boolean true, _ | .boolean false, _ | .array [], _ | .object [], _ =>
    rw [← Except.ok.inj done]
    exact ⟨_, _, rfl, by decide⟩
  | .number_unsigned number, _ =>
    rw [← Except.ok.inj done]
    exact integer number
  | .number_integer number, _ =>
    rw [← Except.ok.inj done]
    exact integer number
  | .string s, _ =>
    obtain ⟨_, rfl⟩ := dumpString_ok done
    exact ⟨_, _, rfl, by decide⟩
  | .array (item :: items), _ =>
    rw [dump] at done
    obtain ⟨_, _, _, _, rfl⟩ := bind_ok done
    exact ⟨_, _, rfl, by decide⟩
  | .object (entry :: members), _ =>
    rw [dump] at done
    obtain ⟨_, _, _, _, rfl⟩ := bind_ok done
    exact ⟨_, _, rfl, by decide⟩

/-- The text of a value is read back, also in front of a NUL byte. -/
theorem parse_dump {value : Json} (storable : value.Storable) {document : Bytes}
    (done : dump toChars spacing 0 value = .ok document) {rest : Bytes}
    (ending : rest = [] ∨ ∃ more, rest = 0 :: more) :
    JsonParser.parse strtof (document ++ rest) = .ok value.normal := by
  have ends : NumberEnds rest := by
    rcases ending with rfl | ⟨more, rfl⟩
    · intro c first
      cases first
    · intro c first
      obtain rfl : 0 = c := Option.some.inj first
      exact ⟨rfl, rfl⟩
  have last : ∃ after, JsonParser.Yields strtof rest [.end_of_input] after := by
    rcases ending with rfl | ⟨more, rfl⟩
    · exact ⟨_, JsonParser.yields_plain (fun c first => by cases first) (end_makes strtof)⟩
    · exact ⟨_, JsonParser.yields_plain (begins_plain rfl _) (nul_makes strtof more)⟩
  obtain ⟨after, last⟩ := last
  obtain ⟨tokens, read, spelled⟩ := dump_reads strtof storable 0 done [] rest
    (fun c nothing => by cases nothing) ends
  obtain ⟨c, more, lead, plain⟩ := dump_lead storable done
  have opened : (JsonLexer.start (document ++ rest)).Opened := by
    refine Or.inr ?_
    change (document ++ rest).head? ≠ some 0xEF
    rw [lead]
    exact fun same => plain (Option.some.inj same)
  obtain ⟨behind, scans, _⟩ := (read.append last) _ opened rfl
  exact JsonParser.spelled_accepted strtof scans spelled

/-- A value that can be stored is written if all its strings and keys are UTF-8, and then
the text is read back as the value; otherwise an exception is raised. -/
theorem dump_read_back (toChars : Float → Bytes) (strtof : Bytes → Float) (spacing : Spacing)
    {value : Json} (storable : value.Storable) :
    match dump toChars spacing 0 value with
    | .ok document => JsonText.utf8 value = true ∧
      JsonParser.parse strtof document = .ok value.normal
    | .error _ => JsonText.utf8 value = false := by
  have possible := dump_isOk toChars spacing 0 value
  split
  next document done =>
    rw [done] at possible
    have read := parse_dump strtof storable done (Or.inl rfl)
    rw [List.append_nil] at read
    exact ⟨possible.symm, read⟩
  next what failed =>
    rw [failed] at possible
    exact possible.symm

/-- An object with a signed number and a string that is escaped. -/
def nested : Json :=
  .object [(text "a", .array [.number_integer (-3), .number_integer 4]), (text "b", .string [0x22])]

/-- The document can be stored. -/
theorem nested_storable : nested.Storable := by
  refine .object _ ?_ ?_
  · refine List.forall_mem_cons.mpr ⟨.array _ ?_, List.forall_mem_singleton.mpr (.string _)⟩
    exact List.forall_mem_cons.mpr ⟨.number_integer _ (by decide) (by decide),
      List.forall_mem_singleton.mpr (.number_integer _ (by decide) (by decide))⟩
  · exact List.pairwise_pair.mpr rfl

/-- The object is read back from the text with line breaks. -/
theorem nested_read_back :
    match dump (fun _ => []) .two 0 nested with
    | .ok document => JsonText.utf8 nested = true ∧
      JsonParser.parse (fun _ => 0) document = .ok nested.normal
    | .error _ => JsonText.utf8 nested = false :=
  dump_read_back (fun _ => []) (fun _ => 0) .two nested_storable

end JsonWriter

/-! ## What the packer relies on -/

namespace Json

mutual

/-- What the packer stores is read back as it is. -/
theorem Plain.normal {value : Json} (plain : value.Plain) :
    value.Storable ∧ value.normal = value := by
  match value, plain with
  | .null, _ => exact ⟨.null, rfl⟩
  | .boolean value, _ => exact ⟨.boolean value, rfl⟩
  | .number_unsigned value, .number _ bounded => exact ⟨.number_unsigned value bounded, rfl⟩
  | .string value, _ => exact ⟨.string value, rfl⟩
  | .array items, .array _ plain =>
    obtain ⟨storable, same⟩ := plainItems_normal plain
    exact ⟨.array items storable, congrArg Json.array same⟩
  | .object members, .object _ plain ordered =>
    obtain ⟨storable, same⟩ := plainMembers_normal plain
    exact ⟨.object members storable ordered, congrArg Json.object same⟩

/-- Plain items are in normal form. -/
theorem plainItems_normal {items : List Json} (plain : ∀ item ∈ items, item.Plain) :
    (∀ item ∈ items, item.Storable) ∧ normalItems items = items := by
  match items with
  | [] => exact ⟨fun _ nothing => absurd nothing List.not_mem_nil, rfl⟩
  | item :: items =>
    obtain ⟨storable, same⟩ := (plain item List.mem_cons_self).normal
    obtain ⟨others, sameOthers⟩ := plainItems_normal
      fun item member => plain item (List.mem_cons_of_mem _ member)
    refine ⟨List.forall_mem_cons.mpr ⟨storable, others⟩, ?_⟩
    rw [normalItems, same, sameOthers]

/-- Plain members are in normal form. -/
theorem plainMembers_normal {members : List (Bytes × Json)}
    (plain : ∀ entry ∈ members, entry.2.Plain) :
    (∀ entry ∈ members, entry.2.Storable) ∧ normalMembers members = members := by
  match members with
  | [] => exact ⟨fun _ nothing => absurd nothing List.not_mem_nil, rfl⟩
  | (key, held) :: members =>
    obtain ⟨storable, same⟩ := (plain (key, held) List.mem_cons_self).normal
    obtain ⟨others, sameOthers⟩ := plainMembers_normal
      fun entry member => plain entry (List.mem_cons_of_mem _ member)
    refine ⟨List.forall_mem_cons.mpr ⟨storable, others⟩, ?_⟩
    rw [normalMembers, normalEntry, same, sameOthers]

end

end Json

/-- The library of the repository. -/
def JsonLibrary.bundled (toChars : Float → Bytes) (strtof : Bytes → Float) : JsonLibrary where
  dump := JsonWriter.dump toChars .compact 0
  parse := JsonParser.parse strtof

/-- The library does what the packer relies on. -/
theorem JsonLibrary.bundled_faithful (toChars : Float → Bytes) (strtof : Bytes → Float) :
    (JsonLibrary.bundled toChars strtof).Faithful where
  dumps value _ encoded := by
    have possible := JsonWriter.dump_isOk toChars .compact 0 value
    rw [JsonText.utf8_of_encoded value encoded] at possible
    change ∃ document, JsonWriter.dump toChars .compact 0 value = .ok document
    cases done : JsonWriter.dump toChars .compact 0 value with
    | ok document => exact ⟨document, rfl⟩
    | error what =>
      rw [done] at possible
      cases possible
  parses value document plain done := by
    obtain ⟨storable, same⟩ := plain.normal
    have read := JsonWriter.parse_dump strtof storable done (Or.inl rfl)
    rwa [List.append_nil, same] at read
  endsAtNul value document plain done := by
    obtain ⟨storable, same⟩ := plain.normal
    have read := JsonWriter.parse_dump strtof storable done (Or.inr ⟨[], rfl⟩)
    rwa [same] at read

end Cppboot
