import Cppboot.JsonGrammar

/-!
# The parser of the JSON library

The parser is one loop over the tokens, with a stack that says for each open container
whether it is an array. What it builds is kept beside it, as the stack of the containers
that are open; both stacks are part of the state here, and so are the assertions that they
fit together.

No assertion fails. Every turn reads a token, so the loop ends on every text, and when it
ends with a value the tokens it has read spell that value.
-/

namespace Cppboot

/-- The parser in front of a turn of its loop. -/
structure JsonParser where
  last_token : JsonToken
  m_lexer : JsonLexer
  states : List Bool
  skip_to_state_evaluation : Bool
  sax : JsonDom

namespace JsonParser

/-- How a part of a turn ends: with the next turn, behind a value, with the end of the loop,
an exception or an assertion that fails. -/
inductive Outcome where
  | proceeds (p : JsonParser)
  | completes (p : JsonParser)
  | returns (p : JsonParser)
  | throws (what : Bytes)
  | fails

/-- The characters of the token, control characters as `<U+XXXX>`. -/
def tokenString (p : JsonParser) : Bytes :=
  p.m_lexer.token_string.flatMap fun c =>
    if c ≤ 0x1F then text "<U+00" ++ JsonLexer.hexBytes c ++ text ">" else [c]

/-- What was read last, and what was expected instead. -/
def exceptionMessage (p : JsonParser) (expected : Option Bytes) (context : Bytes) : Bytes :=
  text "syntax error while parsing " ++ context ++ text " - " ++
    (match p.last_token with
      | .parse_error error_message =>
        error_message ++ text "; last read: '" ++ p.tokenString ++ text "'"
      | token => text "unexpected " ++ token.typeName) ++
    (match expected with
      | none => []
      | some token => text "; expected " ++ token)

/-- `parse_error::create(101, ..)`. -/
def errorText (p : JsonParser) (expected : Option Bytes) (context : Bytes) : Bytes :=
  text "[json.exception.parse_error.101] parse error at line " ++
    Decimal.numeral (p.m_lexer.position.lines_read + 1) ++ text ", column " ++
    Decimal.numeral p.m_lexer.position.chars_read_current_line ++ text ": " ++
    p.exceptionMessage expected context

/-- The parser stops with that error. -/
def parseError (p : JsonParser) (expected : Option Bytes) (context : Bytes) : Outcome :=
  .throws (p.errorText expected context)

/-- A value is complete when it has been built. -/
def built (p : JsonParser) : Option JsonDom → Outcome
  | none => .fails
  | some sax => .completes { p with sax := sax }

variable (strtof : Bytes → Float)

def getToken (p : JsonParser) : JsonParser :=
  { p with last_token := (p.m_lexer.scan strtof).1, m_lexer := (p.m_lexer.scan strtof).2 }

/-- A key was read, and its separator and a token of the value follow. -/
def parseKey (p : JsonParser) (states : List Bool) : Outcome :=
  match p.last_token with
  | .value_string name =>
    match p.sax.key name with
    | none => .fails
    | some sax =>
      let behind := { p with sax := sax }.getToken strtof
      match behind.last_token with
      | .name_separator => .proceeds ({ behind with states := states }.getToken strtof)
      | _ => behind.parseError (JsonToken.typeName .name_separator) (text "object separator")
  | _ => p.parseError (JsonToken.typeName (.value_string [])) (text "object key")

/-- The first half of a turn: the value that begins with the last token. -/
def value (p : JsonParser) : Outcome :=
  match p.last_token with
  | .begin_object =>
    match p.sax.startObject with
    | none => .fails
    | some sax =>
      let inside := { p with sax := sax }.getToken strtof
      match inside.last_token with
      | .end_object => inside.built inside.sax.endObject
      | _ => inside.parseKey strtof (false :: p.states)
  | .begin_array =>
    match p.sax.startArray with
    | none => .fails
    | some sax =>
      let inside := { p with sax := sax }.getToken strtof
      match inside.last_token with
      | .end_array => inside.built inside.sax.endArray
      | _ => .proceeds { inside with states := true :: p.states }
  | .value_float res =>
    if res.isFinite then p.built (p.sax.handleValue (.number_float res))
    else
      .throws (text "[json.exception.out_of_range.406] number overflow parsing '" ++
        p.tokenString ++ text "'")
  | .literal_false => p.built (p.sax.handleValue (.boolean false))
  | .literal_null => p.built (p.sax.handleValue .null)
  | .literal_true => p.built (p.sax.handleValue (.boolean true))
  | .value_integer value => p.built (p.sax.handleValue (.number_integer value))
  | .value_string value => p.built (p.sax.handleValue (.string value))
  | .value_unsigned value => p.built (p.sax.handleValue (.number_unsigned value))
  | .parse_error _ => p.parseError none (text "value")
  | .end_array | .end_object | .name_separator | .value_separator | .end_of_input =>
    p.parseError (text "'[', '\x7b', or a literal") (text "value")

/-- A container is closed, and the one around it goes on. -/
def closed (p : JsonParser) : Option JsonDom → Outcome
  | none => .fails
  | some sax =>
    .proceeds { p with sax := sax, states := p.states.tail, skip_to_state_evaluation := true }

/-- The second half of a turn: what follows a value in its container. -/
def evaluate (p : JsonParser) : Outcome :=
  match p.states with
  | [] => .returns p
  | true :: _ =>
    let behind := p.getToken strtof
    match behind.last_token with
    | .value_separator => .proceeds (behind.getToken strtof)
    | .end_array => behind.closed behind.sax.endArray
    | _ => behind.parseError (JsonToken.typeName .end_array) (text "array")
  | false :: _ =>
    let behind := p.getToken strtof
    match behind.last_token with
    | .value_separator => (behind.getToken strtof).parseKey strtof behind.states
    | .end_object => behind.closed behind.sax.endObject
    | _ => behind.parseError (JsonToken.typeName .end_object) (text "object")

/-- One turn of the loop. -/
def turn (p : JsonParser) : Outcome :=
  if p.skip_to_state_evaluation then
    { p with skip_to_state_evaluation := false }.evaluate strtof
  else
    match p.value strtof with
    | .completes behind => behind.evaluate strtof
    | other => other

/-- The loop, for so many turns. -/
def saxParseInternal : Nat → JsonParser → Option Outcome
  | 0, _ => none
  | fuel + 1, p =>
    match p.turn strtof with
    | .proceeds behind => saxParseInternal fuel behind
    | other => some other

/-- The parser that has read the first token. -/
def start (input : Bytes) : JsonParser :=
  JsonParser.getToken strtof ⟨.end_of_input, .start input, [], false, ⟨.null, []⟩⟩

/-- The loop, and that nothing follows the value. -/
def parseText (input : Bytes) : Option (Throws Json) :=
  match saxParseInternal strtof (2 * input.length + 2) (start strtof input) with
  | some (.returns p) =>
    match (p.getToken strtof).last_token with
    | .end_of_input => some (.ok p.sax.root)
    | _ =>
      some (.error
        ((p.getToken strtof).errorText (JsonToken.typeName .end_of_input) (text "value")))
  | some (.throws what) => some (.error what)
  | _ => none

/-! ## Tokens one by one -/

/-- The scanner reads these tokens, and then stands there. -/
inductive Scans : JsonLexer → List JsonToken → JsonLexer → Prop
  | nil (lx : JsonLexer) : Scans lx [] lx
  | cons {lx behind : JsonLexer} {tokens : List JsonToken}
      (others : Scans (lx.scan strtof).2 tokens behind) :
    Scans lx ((lx.scan strtof).1 :: tokens) behind

theorem Scans.append {lx middle behind : JsonLexer} {front tokens : List JsonToken}
    (first : Scans strtof lx front middle) (others : Scans strtof middle tokens behind) :
    Scans strtof lx (front ++ tokens) behind := by
  induction first with
  | nil => exact others
  | cons _ inductionHypothesis => exact .cons (inductionHypothesis others)

/-- The next token, and the others behind it. -/
theorem Scans.token {lx behind : JsonLexer} {token : JsonToken} {tokens : List JsonToken}
    (scanned : (lx.scan strtof).1 = token)
    (others : Scans strtof (lx.scan strtof).2 tokens behind) :
    Scans strtof lx (token :: tokens) behind :=
  scanned ▸ .cons others

/-! ## What a turn can do -/

/-- The state fits together: the loop remembers the kinds of the containers that are open,
and an object has the key of its value. -/
structure Fits (p : JsonParser) : Prop where
  kinds : p.states = p.sax.ref_stack.map OpenJson.isArray
  keyed : p.sax.Keyed

/-- A key was read in an object that is open. -/
theorem parseKey_cases (p : JsonParser) (states : List Bool) {members : List (Bytes × Json)}
    {last : Option Bytes} {stack : List OpenJson}
    (top : p.sax.ref_stack = .object members last :: stack) :
    (∃ q name, p.parseKey strtof states = .proceeds q ∧ p.last_token = .value_string name ∧
      Scans strtof p.m_lexer [.name_separator, q.last_token] q.m_lexer ∧
      q.sax = ⟨p.sax.root, .object members (some name) :: stack⟩ ∧ q.states = states ∧
      q.skip_to_state_evaluation = p.skip_to_state_evaluation) ∨
      ∃ what, p.parseKey strtof states = .throws what := by
  unfold parseKey
  split
  next name token =>
    have found : p.sax.key name = some ⟨p.sax.root, .object members (some name) :: stack⟩ := by
      rw [JsonDom.key, top]
    rw [found]
    dsimp only
    split
    next separator =>
      exact Or.inl ⟨_, name, rfl, token, .token strtof separator (.cons (.nil _)), rfl, rfl, rfl⟩
    · exact Or.inr ⟨_, rfl⟩
  · exact Or.inr ⟨_, rfl⟩

/-- A value begins: it is complete, a container is opened, or there is an error. -/
theorem value_cases (p : JsonParser) (keyed : p.sax.Keyed) :
    (∃ q tokens v, p.value strtof = .completes q ∧ Scans strtof p.m_lexer tokens q.m_lexer ∧
      Spells .value (p.last_token :: tokens) v ∧ p.sax.handleValue v = some q.sax ∧
      q.states = p.states ∧ q.skip_to_state_evaluation = p.skip_to_state_evaluation) ∨
    (∃ q tokens open_, p.value strtof = .proceeds q ∧
      OpenJson.Opens (p.last_token :: tokens) open_ ∧
      Scans strtof p.m_lexer (tokens ++ [q.last_token]) q.m_lexer ∧
      q.sax = ⟨p.sax.root, open_ :: p.sax.ref_stack⟩ ∧ q.states = open_.isArray :: p.states ∧
      q.skip_to_state_evaluation = p.skip_to_state_evaluation) ∨
    ∃ what, p.value strtof = .throws what := by
  have scalar {token : JsonToken} {v : Json} (spelled : Spells .value [token] v)
      (same : p.value strtof = p.built (p.sax.handleValue v)) :
      ∃ q tokens v, p.value strtof = .completes q ∧ Scans strtof p.m_lexer tokens q.m_lexer ∧
        Spells .value (token :: tokens) v ∧ p.sax.handleValue v = some q.sax ∧
        q.states = p.states ∧ q.skip_to_state_evaluation = p.skip_to_state_evaluation := by
    obtain ⟨sax, done⟩ := p.sax.handleValue_some keyed v
    rw [done] at same
    exact ⟨{ p with sax := sax }, [], v, same, .nil _, spelled, done, rfl, rfl⟩
  cases token : p.last_token with
  | literal_null =>
    exact Or.inl (scalar .literal_null (by rw [value, token]))
  | literal_true =>
    exact Or.inl (scalar .literal_true (by rw [value, token]))
  | literal_false =>
    exact Or.inl (scalar .literal_false (by rw [value, token]))
  | value_unsigned number =>
    exact Or.inl (scalar (.value_unsigned number) (by rw [value, token]))
  | value_integer number =>
    exact Or.inl (scalar (.value_integer number) (by rw [value, token]))
  | value_string s =>
    exact Or.inl (scalar (.value_string s) (by rw [value, token]))
  | value_float res =>
    by_cases finite : res.isFinite = true
    · have same : p.value strtof = p.built (p.sax.handleValue (.number_float res)) := by
        rw [value, token]
        exact if_pos finite
      exact Or.inl (scalar (.value_float res finite) same)
    · exact Or.inr (Or.inr ⟨_, by rw [value, token]; exact if_neg finite⟩)
  | begin_array =>
    obtain ⟨sax, done⟩ := p.sax.handleValue_some keyed (.array [])
    rw [value, token]
    dsimp only
    rw [JsonDom.startArray_some done]
    dsimp only
    split
    next last =>
      refine Or.inl ⟨{ p.getToken strtof with sax := sax }, [.end_array], .array [], ?_,
        .token strtof last (.nil _), .empty_array, done, rfl, rfl⟩
      change built _ (p.sax.handleValue (.array [])) = _
      rw [done]
      rfl
    · exact Or.inr (Or.inl ⟨_, [], .array [], rfl, .array, .cons (.nil _), rfl, rfl, rfl⟩)
  | begin_object =>
    obtain ⟨sax, done⟩ := p.sax.handleValue_some keyed (.object [])
    rw [value, token]
    dsimp only
    rw [JsonDom.startObject_some done]
    dsimp only
    split
    next last =>
      refine Or.inl ⟨{ p.getToken strtof with sax := sax }, [.end_object], .object [], ?_,
        .token strtof last (.nil _), .empty_object, done, rfl, rfl⟩
      change built _ (p.sax.handleValue (.object [])) = _
      rw [done]
      rfl
    · rcases parseKey_cases strtof
        (({ p with sax := ⟨p.sax.root, .object [] none :: p.sax.ref_stack⟩ } : JsonParser).getToken
          strtof) (false :: p.states) rfl with
        ⟨q, name, parsed, seen, others, sax, states, skip⟩ | ⟨what, thrown⟩
      · refine Or.inr (Or.inl ⟨q, [.value_string name, .name_separator], .object [] (some name),
          parsed, .object name, .token strtof seen others, sax, states, skip⟩)
      · exact Or.inr (Or.inr ⟨what, thrown⟩)
  | parse_error message => exact Or.inr (Or.inr ⟨_, by rw [value, token]; rfl⟩)
  | end_array => exact Or.inr (Or.inr ⟨_, by rw [value, token]; rfl⟩)
  | end_object => exact Or.inr (Or.inr ⟨_, by rw [value, token]; rfl⟩)
  | name_separator => exact Or.inr (Or.inr ⟨_, by rw [value, token]; rfl⟩)
  | value_separator => exact Or.inr (Or.inr ⟨_, by rw [value, token]; rfl⟩)
  | end_of_input => exact Or.inr (Or.inr ⟨_, by rw [value, token]; rfl⟩)

/-- Behind a value in a container: another one begins, the container is closed, or there is
an error. -/
theorem evaluate_cases (p : JsonParser) (fits : p.Fits) {open_ : OpenJson} {stack : List OpenJson}
    (top : p.sax.ref_stack = open_ :: stack) :
    (∃ q separator after, p.evaluate strtof = .proceeds q ∧ open_.Continues separator after ∧
      Scans strtof p.m_lexer (separator ++ [q.last_token]) q.m_lexer ∧
      q.sax = ⟨p.sax.root, after :: stack⟩ ∧ q.states = p.states ∧
      q.skip_to_state_evaluation = p.skip_to_state_evaluation) ∨
    (∃ q v, p.evaluate strtof = .proceeds q ∧ open_.Closes q.last_token v ∧
      Scans strtof p.m_lexer [q.last_token] q.m_lexer ∧
      (⟨p.sax.root, stack⟩ : JsonDom).handleValue v = some q.sax ∧ q.states = p.states.tail ∧
      q.skip_to_state_evaluation = true) ∨
    ∃ what, p.evaluate strtof = .throws what := by
  have around : (⟨p.sax.root, stack⟩ : JsonDom).Keyed := by
    intro other member
    apply fits.keyed
    rw [top]
    exact List.mem_cons_of_mem _ member
  have kinds := fits.kinds
  rw [top] at kinds
  cases open_ with
  | array items =>
    change p.states = true :: stack.map OpenJson.isArray at kinds
    rw [evaluate, kinds]
    dsimp only
    split
    next separator =>
      exact Or.inl ⟨_, _, _, rfl, .array items, .token strtof separator (.cons (.nil _)),
        congrArg (JsonDom.mk _) top, kinds, rfl⟩
    next last =>
      obtain ⟨sax, done⟩ := JsonDom.handleValue_some _ around (.array items)
      refine Or.inr (Or.inl ⟨{ p.getToken strtof with
        sax := sax, states := p.states.tail, skip_to_state_evaluation := true }, .array items, ?_,
        ?_, .cons (.nil _), done, kinds ▸ rfl, rfl⟩)
      · have ended : (p.getToken strtof).sax.endArray = some sax := by
          change p.sax.endArray = some sax
          rw [JsonDom.endArray, top]
          exact done
        rw [ended]
        rfl
      · exact last ▸ .array items
    · exact Or.inr (Or.inr ⟨_, rfl⟩)
  | object members held =>
    change p.states = false :: stack.map OpenJson.isArray at kinds
    rw [evaluate, kinds]
    dsimp only
    split
    next separator =>
      rcases parseKey_cases strtof ((p.getToken strtof).getToken strtof)
        (false :: stack.map OpenJson.isArray) top with
        ⟨q, name, parsed, seen, others, sax, states, skip⟩ | ⟨what, thrown⟩
      · refine Or.inl ⟨q, _, _, ?_, .object members held name,
          .token strtof separator (.token strtof seen others), sax, states, skip⟩
        rw [← parsed]
        exact congrArg (parseKey strtof _) kinds
      · refine Or.inr (Or.inr ⟨what, ?_⟩)
        rw [← thrown]
        exact congrArg (parseKey strtof _) kinds
    next last =>
      obtain ⟨sax, done⟩ := JsonDom.handleValue_some _ around (.object members)
      refine Or.inr (Or.inl ⟨{ p.getToken strtof with
        sax := sax, states := p.states.tail, skip_to_state_evaluation := true }, .object members,
        ?_, ?_, .cons (.nil _), done, kinds ▸ rfl, rfl⟩)
      · have ended : (p.getToken strtof).sax.endObject = some sax := by
          change p.sax.endObject = some sax
          rw [JsonDom.endObject, top]
          exact done
        rw [ended]
        rfl
      · exact last ▸ .object members held
    · exact Or.inr (Or.inr ⟨_, rfl⟩)

/-! ## Runs of the loop -/

/-- What follows the values that are built completes the containers that are open. -/
inductive Completes : JsonDom → List JsonToken → Json → Prop
  | root (document : Json) : Completes ⟨document, []⟩ [] document
  | close {root v document : Json} {open_ : OpenJson} {stack : List OpenJson} {after : JsonDom}
      {first others : List JsonToken} (spelled : Spells open_.phrase first v)
      (handled : (⟨root, stack⟩ : JsonDom).handleValue v = some after)
      (rest : Completes after others document) :
    Completes ⟨root, open_ :: stack⟩ (first ++ others) document

/-- A value begins, and what follows it completes the containers that are open. -/
inductive Begins (dom : JsonDom) : List JsonToken → Json → Prop
  | value {v document : Json} {after : JsonDom} {first others : List JsonToken}
      (spelled : Spells .value first v) (handled : dom.handleValue v = some after)
      (rest : Completes after others document) : Begins dom (first ++ others) document

section

variable {root document : Json} {open_ : OpenJson} {stack : List OpenJson}
  {tokens : List JsonToken}

/-- The first value of a container, which is open. -/
theorem Begins.first_value (keyed : open_.Keyed)
    (begins : Begins ⟨root, open_ :: stack⟩ tokens document) :
    ∃ first second others v w after, tokens = first ++ (second ++ others) ∧
      Spells .value first v ∧ Spells (open_.put v).phrase second w ∧
      (⟨root, stack⟩ : JsonDom).handleValue w = some after ∧ Completes after others document := by
  obtain ⟨spelled, handled, rest⟩ := begins
  rename_i v after first others
  have done : (⟨root, open_ :: stack⟩ : JsonDom).handleValue v =
      some ⟨root, open_.put v :: stack⟩ := by
    match open_, keyed with
    | .array items, _ => rfl
    | .object members (some name), _ => rfl
  obtain rfl := Option.some.inj (done.symm.trans handled)
  cases rest with
  | close closing finished others =>
    exact ⟨first, _, _, v, _, _, rfl, spelled, closing, finished, others⟩

/-- Where nothing is open, what begins is the whole value. -/
theorem Begins.spells (begins : Begins ⟨root, []⟩ tokens document) :
    Spells .value tokens document := by
  obtain ⟨spelled, handled, rest⟩ := begins
  cases handled
  cases rest
  rw [List.append_nil]
  exact spelled

/-- A container is a value that begins. -/
theorem Begins.opened {opening : List JsonToken} (opens : OpenJson.Opens opening open_)
    (begins : Begins ⟨root, open_ :: stack⟩ tokens document) :
    Begins ⟨root, stack⟩ (opening ++ tokens) document := by
  obtain ⟨first, second, others, v, w, after, rfl, spelled, closing, handled, rest⟩ :=
    begins.first_value opens.keyed
  rw [← List.append_assoc first, ← List.append_assoc]
  refine .value ?_ handled rest
  rw [← List.append_assoc]
  exact opens.spells spelled closing

/-- Behind a value in a container another one begins. -/
theorem Begins.continued {separator : List JsonToken} {held : OpenJson}
    (continued : OpenJson.Continues held separator open_)
    (begins : Begins ⟨root, open_ :: stack⟩ tokens document) :
    Completes ⟨root, held :: stack⟩ (separator ++ tokens) document := by
  obtain ⟨first, second, others, v, w, after, rfl, spelled, closing, handled, rest⟩ :=
    begins.first_value continued.keyed.1
  rw [← List.append_assoc first, ← List.append_assoc]
  refine .close ?_ handled rest
  rw [← List.append_assoc]
  exact continued.spells spelled closing

end

/-- From one state to another the tokens complete what is open, behind a value or in front
of one. -/
def Derives (p q : JsonParser) : Prop :=
  if p.skip_to_state_evaluation = true then
    ∃ tokens, Scans strtof p.m_lexer tokens q.m_lexer ∧ Completes p.sax tokens q.sax.root
  else
    ∃ tokens, Scans strtof p.m_lexer tokens q.m_lexer ∧
      Begins p.sax (p.last_token :: tokens) q.sax.root

/-- How much there is to read, as a bound for the turns to come: a token that was read
counts unless it is the end of the text. -/
def pending (p : JsonParser) : Nat :=
  2 * p.m_lexer.ia.length +
    if p.skip_to_state_evaluation = true then 1
    else match p.last_token with
      | .end_of_input => 0
      | _ => 1

theorem pending_live {p : JsonParser} (live : p.last_token ≠ .end_of_input) :
    p.pending = 2 * p.m_lexer.ia.length + 1 := by
  unfold pending
  split
  · rfl
  · split
    next last => exact absurd last live
    · rfl

/-- What a part of a turn may come to: the next turn has less to read, and what is derived
from there is derived from here. No assertion fails. -/
inductive Leads (left : Nat) (derived : JsonParser → Prop) : Outcome → Prop
  | proceeds {q : JsonParser} (fits : q.Fits) (fewer : q.pending < left)
      (derives : ∀ r, Derives strtof q r → derived r) : Leads left derived (.proceeds q)
  | returns {q : JsonParser} (derives : derived q) : Leads left derived (.returns q)
  | throws (what : Bytes) : Leads left derived (.throws what)

/-- Behind tokens that are not the end of the text there is less to read. -/
theorem Scans.pending {lx behind : JsonLexer} {tokens : List JsonToken} {last : JsonToken}
    (scans : Scans strtof lx (tokens ++ [last]) behind) (inside : .end_of_input ∉ tokens) :
    behind.ia.length < lx.ia.length ∨ last = .end_of_input ∧ behind.ia.length ≤ lx.ia.length := by
  induction tokens generalizing lx with
  | nil =>
    cases scans with
    | cons others =>
      cases others
      exact (lx.scan_advances strtof).reads
  | cons token tokens inductionHypothesis =>
    rw [List.cons_append] at scans
    cases scans with
    | cons others =>
      have reads := (lx.scan_advances strtof).reads
      have first : (lx.scan strtof).1 ≠ .end_of_input := fun same =>
        inside (same ▸ List.mem_cons_self ..)
      have shorter := reads.resolve_right fun ended => first ended.1
      rcases inductionHypothesis others fun member => inside (List.mem_cons_of_mem _ member) with
        fewer | ⟨_, fewer⟩
      · exact Or.inl (fewer.trans shorter)
      · exact Or.inl (fewer.trans_lt shorter)

theorem pending_lt {p q : JsonParser} {tokens : List JsonToken}
    (scans : Scans strtof p.m_lexer (tokens ++ [q.last_token]) q.m_lexer)
    (inside : .end_of_input ∉ tokens) (between : q.skip_to_state_evaluation = false) :
    q.pending < 2 * p.m_lexer.ia.length + 1 := by
  unfold JsonParser.pending
  rw [between]
  rcases Scans.pending strtof scans inside with fewer | ⟨last, fewer⟩
  · split
    · omega
    · split
      · omega
      · omega
  · rw [last]
    simp only [Bool.false_eq_true, if_false]
    omega

variable {p q : JsonParser}

/-- The second half of a turn. -/
theorem evaluate_leads (fits : p.Fits) (between : p.skip_to_state_evaluation = false) :
    Leads strtof (2 * p.m_lexer.ia.length + 1)
      (fun r => ∃ tokens, Scans strtof p.m_lexer tokens r.m_lexer ∧
        Completes p.sax tokens r.sax.root) (p.evaluate strtof) := by
  obtain ⟨kinds, keyed⟩ := fits
  cases top : p.sax.ref_stack with
  | nil =>
    rw [top] at kinds
    have done : p.evaluate strtof = .returns p := by
      rw [evaluate, kinds]
      rfl
    rw [done]
    refine .returns ⟨[], .nil _, ?_⟩
    have same : p.sax = ⟨p.sax.root, []⟩ := congrArg (JsonDom.mk _) top
    rw [same]
    exact .root _
  | cons open_ stack =>
    have same : p.sax = ⟨p.sax.root, open_ :: stack⟩ := congrArg (JsonDom.mk _) top
    have around : (⟨p.sax.root, stack⟩ : JsonDom).Keyed := by
      intro other member
      apply keyed
      rw [top]
      exact List.mem_cons_of_mem _ member
    rw [top] at kinds
    rcases evaluate_cases strtof p ⟨top ▸ kinds, keyed⟩ top with
      ⟨q, separator, after, proceeds, continued, scans, sax, states, skip⟩ |
      ⟨q, v, proceeds, closes, scans, handled, states, skip⟩ | ⟨what, thrown⟩
    · rw [proceeds]
      obtain ⟨waits, kind⟩ := continued.keyed
      have inside : .end_of_input ∉ separator := by
        cases continued with
        | array items => simp
        | object members last name => simp
      refine .proceeds ⟨?_, ?_⟩ (pending_lt strtof scans inside (skip.trans between)) ?_
      · rw [states, sax, kinds]
        exact congrArg (· :: _) kind.symm
      · rw [sax]
        intro other member
        rcases List.mem_cons.mp member with rfl | below
        · exact waits
        · exact around other below
      · intro r derives
        rw [Derives, skip, between, if_neg Bool.false_ne_true] at derives
        obtain ⟨tokens, others, begins⟩ := derives
        rw [sax] at begins
        rw [same]
        refine ⟨separator ++ (q.last_token :: tokens), ?_, begins.continued continued⟩
        have whole := scans.append strtof others
        rwa [List.append_assoc] at whole
    · rw [proceeds]
      have ended : q.last_token ≠ .end_of_input := by
        intro last
        rw [last] at closes
        cases closes
      have one : Scans strtof p.m_lexer ([] ++ [q.last_token]) q.m_lexer := scans
      have fewer := (Scans.pending strtof one List.not_mem_nil).resolve_right
        fun last => ended last.1
      obtain ⟨waits, kept⟩ := JsonDom.handleValue_keeps around handled
      refine .proceeds ⟨?_, waits⟩ ?_ ?_
      · rw [states, kinds, kept]
        rfl
      · rw [JsonParser.pending, skip, if_pos rfl]
        omega
      · intro r derives
        rw [Derives, skip, if_pos rfl] at derives
        obtain ⟨tokens, others, rest⟩ := derives
        rw [same]
        exact ⟨q.last_token :: tokens, scans.append strtof others,
          .close closes.spells handled rest⟩
    · rw [thrown]
      exact .throws what

theorem Leads.mono {left more : Nat} {derived implied : JsonParser → Prop} {outcome : Outcome}
    (leads : Leads strtof left derived outcome) (fewer : left ≤ more)
    (implies : ∀ r, derived r → implied r) : Leads strtof more implied outcome := by
  cases leads with
  | proceeds fits less derives =>
    exact .proceeds fits (less.trans_le fewer) fun r derived => implies r (derives r derived)
  | returns derives => exact .returns (implies _ derives)
  | throws what => exact .throws what

theorem Scans.fewer {lx behind : JsonLexer} {tokens : List JsonToken}
    (scans : Scans strtof lx tokens behind) : behind.ia.length ≤ lx.ia.length := by
  induction scans with
  | nil => exact Nat.le_refl _
  | @cons lx behind tokens _ inductionHypothesis =>
    rcases (lx.scan_advances strtof).reads with less | ⟨_, less⟩
    · exact inductionHypothesis.trans (Nat.le_of_lt less)
    · exact inductionHypothesis.trans less

/-- A turn. -/
theorem turn_leads (fits : p.Fits) : Leads strtof p.pending (Derives strtof p) (p.turn strtof) := by
  cases skip : p.skip_to_state_evaluation with
  | true =>
    have whole : p.pending = 2 * p.m_lexer.ia.length + 1 := by
      rw [JsonParser.pending, skip, if_pos rfl]
    have derived : Derives strtof p = fun r => ∃ tokens, Scans strtof p.m_lexer tokens r.m_lexer ∧
        Completes p.sax tokens r.sax.root := by
      funext r
      rw [Derives, skip, if_pos rfl]
    rw [turn, skip, if_pos rfl, whole, derived]
    have behind : ({ p with skip_to_state_evaluation := false } : JsonParser).Fits :=
      ⟨fits.kinds, fits.keyed⟩
    exact evaluate_leads strtof behind rfl
  | false =>
    rw [turn, skip, if_neg Bool.false_ne_true]
    rcases value_cases strtof p fits.keyed with
      ⟨q, tokens, v, done, scans, spelled, handled, states, between⟩ |
      ⟨q, tokens, open_, done, opens, scans, sax, states, between⟩ | ⟨what, thrown⟩
    · rw [done]
      obtain ⟨kept, kinds⟩ := JsonDom.handleValue_keeps fits.keyed handled
      have behind : q.Fits := ⟨(states.trans fits.kinds).trans kinds.symm, kept⟩
      have live : p.last_token ≠ .end_of_input := fun last => spelled.live (congrArg some last)
      refine (evaluate_leads strtof behind (between.trans skip)).mono strtof ?_ ?_
      · have fewer := scans.fewer strtof
        rw [pending_live live]
        omega
      · rintro r ⟨others, rest, completes⟩
        rw [Derives, skip, if_neg Bool.false_ne_true]
        exact ⟨tokens ++ others, scans.append strtof rest, .value spelled handled completes⟩
    · rw [done]
      have inside : .end_of_input ∉ p.last_token :: tokens := by
        generalize p.last_token :: tokens = opening at opens
        cases opens with
        | array => simp
        | object name => simp
      have live : p.last_token ≠ .end_of_input := fun last => inside (last ▸ List.mem_cons_self ..)
      have fewer := pending_lt strtof scans (fun member => inside (List.mem_cons_of_mem _ member))
        (between.trans skip)
      refine .proceeds ⟨?_, ?_⟩ ?_ ?_
      · rw [states, sax, fits.kinds]
        rfl
      · rw [sax]
        intro other member
        rcases List.mem_cons.mp member with rfl | below
        · exact opens.keyed
        · exact fits.keyed other below
      · rw [pending_live live]
        exact fewer
      · intro r derives
        rw [Derives, between, skip, if_neg Bool.false_ne_true] at derives
        rw [Derives, skip, if_neg Bool.false_ne_true]
        obtain ⟨others, rest, begins⟩ := derives
        rw [sax] at begins
        refine ⟨tokens ++ (q.last_token :: others), ?_, begins.opened opens⟩
        have whole := scans.append strtof rest
        rwa [List.append_assoc] at whole
    · rw [thrown]
      exact .throws what

/-- The loop ends, with what its tokens spell or an exception. -/
theorem saxParseInternal_ends {fuel : Nat} (fits : p.Fits) (enough : p.pending < fuel) :
    (∃ q, saxParseInternal strtof fuel p = some (.returns q) ∧ Derives strtof p q) ∨
      ∃ what, saxParseInternal strtof fuel p = some (.throws what) := by
  induction fuel generalizing p with
  | zero => exact absurd enough (Nat.not_lt_zero _)
  | succ fuel inductionHypothesis =>
    have leads := turn_leads strtof fits
    rw [saxParseInternal]
    cases ended : p.turn strtof with
    | proceeds q =>
      rw [ended] at leads
      cases leads with
      | proceeds behind fewer derives =>
        rcases inductionHypothesis behind (by omega) with ⟨r, ran, derived⟩ | thrown
        · exact Or.inl ⟨r, ran, derives r derived⟩
        · exact Or.inr thrown
    | returns q =>
      rw [ended] at leads
      cases leads with
      | returns derives => exact Or.inl ⟨q, rfl, derives⟩
    | throws what => exact Or.inr ⟨what, rfl⟩
    | completes q =>
      rw [ended] at leads
      cases leads
    | fails =>
      rw [ended] at leads
      cases leads

end JsonParser

end Cppboot
