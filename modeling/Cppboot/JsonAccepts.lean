import Cppboot.JsonParser

/-!
# The texts that the parser accepts

The loop reads whatever the grammar spells: in front of a phrase it comes to stand behind
it, with the value where it belongs. So the parser accepts a text exactly when its tokens
spell a value and nothing follows, and returns that value.
-/

namespace Cppboot.JsonParser

variable {p q : JsonParser} (strtof : Bytes → Float)

/-! ## Tokens that spell a value -/

/-- What the loop ends with in the second state it ends with in the first. -/
def Reaches (p q : JsonParser) : Prop :=
  ∀ fuel outcome, saxParseInternal strtof fuel q = some outcome →
    ∃ more, saxParseInternal strtof more p = some outcome

variable {strtof}

/-- What is reached from there is reached. -/
theorem Reaches.trans {r : JsonParser} (first : Reaches strtof p q) (second : Reaches strtof q r) :
    Reaches strtof p r := by
  intro fuel outcome ran
  obtain ⟨more, ended⟩ := second fuel outcome ran
  exact first more outcome ended

/-- One turn reaches the next state. -/
theorem Reaches.turn (proceeds : p.turn strtof = .proceeds q) : Reaches strtof p q := by
  intro fuel outcome ran
  refine ⟨fuel + 1, ?_⟩
  rw [saxParseInternal, proceeds]
  exact ran

/-- Two states with the same turn are as good as one. -/
theorem Reaches.same (same : p.turn strtof = q.turn strtof) : Reaches strtof p q := by
  intro fuel outcome ran
  cases fuel with
  | zero => cases ran
  | succ fuel =>
    refine ⟨fuel + 1, ?_⟩
    rw [saxParseInternal] at ran ⊢
    rw [same]
    exact ran

/-- Scanning tokens is scanning the first ones, and then the others. -/
theorem Scans.split {lx behind : JsonLexer} {front tokens : List JsonToken}
    (scans : Scans strtof lx (front ++ tokens) behind) :
    ∃ middle, Scans strtof lx front middle ∧ Scans strtof middle tokens behind := by
  induction front generalizing lx with
  | nil => exact ⟨lx, .nil lx, scans⟩
  | cons token front inductionHypothesis =>
    rw [List.cons_append] at scans
    cases scans with
    | cons others =>
      obtain ⟨middle, first, rest⟩ := inductionHypothesis others
      exact ⟨middle, .cons first, rest⟩

/-- The first of the tokens is scanned first. -/
theorem Scans.uncons {lx behind : JsonLexer} {token : JsonToken} {tokens : List JsonToken}
    (scans : Scans strtof lx (token :: tokens) behind) :
    (lx.scan strtof).1 = token ∧ Scans strtof (lx.scan strtof).2 tokens behind := by
  cases scans with
  | cons others => exact ⟨rfl, others⟩

variable (strtof)

/-- Behind a value: the tokens were read, and the value is where it belongs. -/
def Stands (lx : JsonLexer) (states : List Bool) (sax : JsonDom) (q : JsonParser) : Prop :=
  q.m_lexer = lx ∧ q.states = states ∧ q.sax = sax ∧ q.skip_to_state_evaluation = true

/-- In front of a phrase the loop comes to stand behind it. -/
def Read : JsonPhrase → List JsonToken → Json → Prop
  | .value, tokens, v => ∀ (p : JsonParser) lx after rest, p.last_token :: rest = tokens →
      p.skip_to_state_evaluation = false → Scans strtof p.m_lexer rest lx →
      p.sax.handleValue v = some after →
      ∃ q, Reaches strtof p q ∧ Stands lx p.states after q
  | .items items, tokens, v => ∀ (p : JsonParser) root stack states lx after,
      p.sax = ⟨root, .array items :: stack⟩ → p.states = true :: states →
      p.skip_to_state_evaluation = true → Scans strtof p.m_lexer tokens lx →
      (⟨root, stack⟩ : JsonDom).handleValue v = some after →
      ∃ q, Reaches strtof p q ∧ Stands lx states after q
  | .members members, tokens, v => ∀ (p : JsonParser) last root stack states lx after,
      p.sax = ⟨root, .object members last :: stack⟩ → p.states = false :: states →
      p.skip_to_state_evaluation = true → Scans strtof p.m_lexer tokens lx →
      (⟨root, stack⟩ : JsonDom).handleValue v = some after →
      ∃ q, Reaches strtof p q ∧ Stands lx states after q

/-- A value that is complete in this turn. -/
theorem read_complete {after : JsonDom} {lx : JsonLexer}
    (skip : p.skip_to_state_evaluation = false) (sax : q.sax = after) (states : q.states = p.states)
    (lexer : q.m_lexer = lx) (between : q.skip_to_state_evaluation = false)
    (complete : p.value strtof = .completes q) :
    ∃ r, Reaches strtof p r ∧ Stands lx p.states after r := by
  refine ⟨{ q with skip_to_state_evaluation := true }, .same ?_, lexer, states, sax, rfl⟩
  have same : q = { q with skip_to_state_evaluation := false } := by
    rw [← between]
  rw [turn, skip, if_neg Bool.false_ne_true, complete, turn, if_pos rfl]
  exact congrArg (evaluate strtof) same

/-- A token that is a value by itself. -/
theorem read_scalar {token : JsonToken} {v : Json}
    (complete : ∀ p : JsonParser, p.last_token = token →
      p.value strtof = p.built (p.sax.handleValue v)) : Read strtof .value [token] v := by
  intro p lx after rest tokens skip scans handled
  obtain ⟨seen, rfl⟩ := List.cons.inj tokens
  cases scans
  refine read_complete strtof (q := { p with sax := after }) skip rfl rfl rfl skip ?_
  rw [complete p seen, handled]
  rfl

/-- An array is opened, and the token behind its bracket belongs to the first item. -/
theorem turn_begin_array {v : Json} {after : JsonDom} (handled : p.sax.handleValue v = some after)
    (skip : p.skip_to_state_evaluation = false)
    (seen : p.last_token = .begin_array) (item : (p.m_lexer.scan strtof).1 ≠ .end_array) :
    p.turn strtof = .proceeds { p.getToken strtof with
      sax := ⟨p.sax.root, .array [] :: p.sax.ref_stack⟩, states := true :: p.states } := by
  rw [turn, skip, if_neg Bool.false_ne_true, value, seen]
  dsimp only
  rw [JsonDom.startArray_some handled]
  dsimp only [getToken]
  split
  next behind complete =>
    split at complete
    next last => exact absurd last item
    · cases complete
  next other _ =>
    split
    next last => exact absurd last item
    · rfl

/-- A key, its separator and a token of the value are read. -/
theorem parseKey_reads {name : Bytes} {members : List (Bytes × Json)} {last : Option Bytes}
    {root : Json} {stack : List OpenJson} (states : List Bool)
    (top : p.sax = ⟨root, .object members last :: stack⟩) (seen : p.last_token = .value_string name)
    (separator : (p.m_lexer.scan strtof).1 = .name_separator) :
    p.parseKey strtof states = .proceeds
      { (p.getToken strtof).getToken strtof with
        sax := ⟨root, .object members (some name) :: stack⟩, states := states } := by
  have keyed : p.sax.key name = some ⟨root, .object members (some name) :: stack⟩ := by
    rw [top]
    rfl
  rw [parseKey, seen]
  dsimp only
  rw [keyed]
  dsimp only [getToken]
  rw [separator]

/-- An object is opened with its first key. -/
theorem turn_begin_object {name : Bytes} {v : Json} {after : JsonDom}
    (handled : p.sax.handleValue v = some after) (skip : p.skip_to_state_evaluation = false)
    (seen : p.last_token = .begin_object)
    (key : (p.m_lexer.scan strtof).1 = .value_string name)
    (separator : ((p.m_lexer.scan strtof).2.scan strtof).1 = .name_separator) :
    p.turn strtof = .proceeds { ((p.getToken strtof).getToken strtof).getToken strtof with
      sax := ⟨p.sax.root, .object [] (some name) :: p.sax.ref_stack⟩
      states := false :: p.states } := by
  have parsed := parseKey_reads strtof
    (p := ({ p with sax := ⟨p.sax.root, .object [] none :: p.sax.ref_stack⟩ } :
      JsonParser).getToken strtof) (false :: p.states) rfl key separator
  rw [turn, skip, if_neg Bool.false_ne_true, value, seen]
  dsimp only
  rw [JsonDom.startObject_some handled]
  dsimp only [getToken] at parsed ⊢
  rw [key] at parsed ⊢
  dsimp only
  rw [parsed]

section

variable {root : Json} {items : List Json} {members : List (Bytes × Json)} {held : Option Bytes}
  {stack : List OpenJson} {states : List Bool}

/-- Behind an item the array goes on. -/
theorem turn_next_item (kinds : p.states = true :: states)
    (skip : p.skip_to_state_evaluation = true)
    (separator : (p.m_lexer.scan strtof).1 = .value_separator) :
    p.turn strtof = .proceeds { (p.getToken strtof).getToken strtof with
      skip_to_state_evaluation := false } := by
  rw [turn, skip, if_pos rfl, evaluate, kinds]
  dsimp only [getToken]
  rw [separator]
  dsimp only
  rw [← kinds]

/-- A closing bracket completes the array. -/
theorem turn_end_array {after : JsonDom} (top : p.sax = ⟨root, .array items :: stack⟩)
    (kinds : p.states = true :: states) (skip : p.skip_to_state_evaluation = true)
    (last : (p.m_lexer.scan strtof).1 = .end_array)
    (handled : (⟨root, stack⟩ : JsonDom).handleValue (.array items) = some after) :
    p.turn strtof = .proceeds { p.getToken strtof with
      sax := after, states := states, skip_to_state_evaluation := true } := by
  have ended : p.sax.endArray = some after := by
    rw [top]
    exact handled
  rw [turn, skip, if_pos rfl, evaluate, kinds]
  dsimp only [getToken]
  rw [last]
  dsimp only
  rw [ended]
  rfl

/-- Behind a member the object goes on with the next key. -/
theorem turn_next_member {name : Bytes} (top : p.sax = ⟨root, .object members held :: stack⟩)
    (kinds : p.states = false :: states) (skip : p.skip_to_state_evaluation = true)
    (comma : (p.m_lexer.scan strtof).1 = .value_separator)
    (key : ((p.m_lexer.scan strtof).2.scan strtof).1 = .value_string name)
    (separator : (((p.m_lexer.scan strtof).2.scan strtof).2.scan strtof).1 = .name_separator) :
    p.turn strtof = .proceeds
      { (((p.getToken strtof).getToken strtof).getToken strtof).getToken strtof with
        sax := ⟨root, .object members (some name) :: stack⟩
        skip_to_state_evaluation := false } := by
  have parsed := parseKey_reads strtof
    (p := ({ (p.getToken strtof).getToken strtof with
      skip_to_state_evaluation := false } : JsonParser)) p.states top key separator
  rw [turn, skip, if_pos rfl, evaluate, kinds]
  dsimp only [getToken] at parsed ⊢
  rw [comma]
  dsimp only
  rw [← kinds]
  exact parsed

/-- A closing brace completes the object. -/
theorem turn_end_object {after : JsonDom} (top : p.sax = ⟨root, .object members held :: stack⟩)
    (kinds : p.states = false :: states) (skip : p.skip_to_state_evaluation = true)
    (last : (p.m_lexer.scan strtof).1 = .end_object)
    (handled : (⟨root, stack⟩ : JsonDom).handleValue (.object members) = some after) :
    p.turn strtof = .proceeds { p.getToken strtof with
      sax := after, states := states, skip_to_state_evaluation := true } := by
  have ended : p.sax.endObject = some after := by
    rw [top]
    exact handled
  rw [turn, skip, if_pos rfl, evaluate, kinds]
  dsimp only [getToken]
  rw [last]
  dsimp only
  rw [ended]
  rfl

end

/-- Whatever a phrase spells is read, by induction on the phrase. -/
theorem spells_read {phrase : JsonPhrase} {tokens : List JsonToken} {v : Json}
    (spelled : Spells phrase tokens v) : Read strtof phrase tokens v := by
  induction spelled with
  | literal_null => exact read_scalar strtof fun p seen => by rw [value, seen]
  | literal_true => exact read_scalar strtof fun p seen => by rw [value, seen]
  | literal_false => exact read_scalar strtof fun p seen => by rw [value, seen]
  | value_unsigned number => exact read_scalar strtof fun p seen => by rw [value, seen]
  | value_integer number => exact read_scalar strtof fun p seen => by rw [value, seen]
  | value_string s => exact read_scalar strtof fun p seen => by rw [value, seen]
  | value_float number finite =>
    exact read_scalar strtof fun p seen => by
      rw [value, seen]
      exact if_pos finite
  | empty_array =>
    intro p lx after rest tokens skip scans handled
    obtain ⟨seen, rfl⟩ := List.cons.inj tokens
    obtain ⟨last, ended⟩ := scans.uncons
    cases ended
    refine read_complete strtof (q := { p.getToken strtof with sax := after }) skip rfl rfl rfl
      skip ?_
    rw [value, seen]
    dsimp only
    rw [JsonDom.startArray_some handled]
    dsimp only [getToken]
    rw [last]
    exact congrArg (built _) handled
  | empty_object =>
    intro p lx after rest tokens skip scans handled
    obtain ⟨seen, rfl⟩ := List.cons.inj tokens
    obtain ⟨last, ended⟩ := scans.uncons
    cases ended
    refine read_complete strtof (q := { p.getToken strtof with sax := after }) skip rfl rfl rfl
      skip ?_
    rw [value, seen]
    dsimp only
    rw [JsonDom.startObject_some handled]
    dsimp only [getToken]
    rw [last]
    exact congrArg (built _) handled
  | @array first others item document spelled rest readItem readRest =>
    intro p lx after tail tokens skip scans handled
    obtain ⟨token, front, rfl, inside⟩ := spelled.first
    obtain ⟨seen, rfl⟩ := List.cons.inj tokens
    obtain ⟨last, behind⟩ := scans.uncons
    obtain ⟨middle, itemRead, more⟩ := behind.split
    obtain ⟨q, reached, lexer, states, sax, between⟩ :=
      readItem { p.getToken strtof with
        sax := ⟨p.sax.root, .array [] :: p.sax.ref_stack⟩, states := true :: p.states } middle
        ⟨p.sax.root, .array [item] :: p.sax.ref_stack⟩ front (congrArg (· :: front) last) skip
        itemRead rfl
    obtain ⟨r, ended, stands⟩ :=
      readRest q _ _ p.states lx after sax states between (lexer ▸ more) handled
    exact ⟨r, (Reaches.turn (turn_begin_array strtof handled skip seen (last ▸ inside))).trans
      (reached.trans ended), stands⟩
  | @object name first others held document spelled rest readHeld readRest =>
    intro p lx after tail tokens skip scans handled
    obtain ⟨token, front, rfl, _⟩ := spelled.first
    obtain ⟨seen, rfl⟩ := List.cons.inj tokens
    obtain ⟨key, scans⟩ := scans.uncons
    obtain ⟨separator, scans⟩ := scans.uncons
    obtain ⟨last, behind⟩ := scans.uncons
    obtain ⟨middle, heldRead, more⟩ := behind.split
    obtain ⟨q, reached, lexer, states, sax, between⟩ :=
      readHeld
        { ((p.getToken strtof).getToken strtof).getToken strtof with
          sax := ⟨p.sax.root, .object [] (some name) :: p.sax.ref_stack⟩
          states := false :: p.states }
        middle ⟨p.sax.root, .object [(name, held)] (some name) :: p.sax.ref_stack⟩ front
        (congrArg (· :: front) last) skip heldRead rfl
    obtain ⟨r, ended, stands⟩ :=
      readRest q _ _ _ p.states lx after sax states between (lexer ▸ more) handled
    exact ⟨r, (Reaches.turn (turn_begin_object strtof handled skip seen key separator)).trans
      (reached.trans ended), stands⟩
  | end_array items =>
    intro p root stack states lx after top kinds skip scans handled
    obtain ⟨last, ended⟩ := scans.uncons
    cases ended
    exact ⟨_, .turn (turn_end_array strtof top kinds skip last handled), rfl, rfl, rfl, rfl⟩
  | @next_item items first others item document spelled rest readItem readRest =>
    intro p root stack states lx after top kinds skip scans handled
    obtain ⟨token, front, rfl, _⟩ := spelled.first
    obtain ⟨separator, scans⟩ := scans.uncons
    obtain ⟨last, behind⟩ := scans.uncons
    obtain ⟨middle, itemRead, more⟩ := behind.split
    obtain ⟨q, reached, lexer, kinds_, sax, between⟩ :=
      readItem { (p.getToken strtof).getToken strtof with skip_to_state_evaluation := false }
        middle ⟨root, .array (items ++ [item]) :: stack⟩ front (congrArg (· :: front) last) rfl
        itemRead (congrArg (JsonDom.handleValue · item) top)
    obtain ⟨r, ended, stands⟩ :=
      readRest q _ _ _ lx after sax (kinds_.trans kinds) between (lexer ▸ more) handled
    exact ⟨r, (Reaches.turn (turn_next_item strtof kinds skip separator)).trans
      (reached.trans ended), stands⟩
  | end_object members =>
    intro p held root stack states lx after top kinds skip scans handled
    obtain ⟨last, ended⟩ := scans.uncons
    cases ended
    exact ⟨_, .turn (turn_end_object strtof top kinds skip last handled), rfl, rfl, rfl, rfl⟩
  | @next_member members name first others value document spelled rest readHeld readRest =>
    intro p held root stack states lx after top kinds skip scans handled
    obtain ⟨token, front, rfl, _⟩ := spelled.first
    obtain ⟨comma, scans⟩ := scans.uncons
    obtain ⟨key, scans⟩ := scans.uncons
    obtain ⟨separator, scans⟩ := scans.uncons
    obtain ⟨last, behind⟩ := scans.uncons
    obtain ⟨middle, heldRead, more⟩ := behind.split
    obtain ⟨q, reached, lexer, kinds_, sax, between⟩ :=
      readHeld
        { (((p.getToken strtof).getToken strtof).getToken strtof).getToken strtof with
          sax := ⟨root, .object members (some name) :: stack⟩, skip_to_state_evaluation := false }
        middle ⟨root, .object (Json.insertMember name value members) (some name) :: stack⟩ front
        (congrArg (· :: front) last) rfl heldRead rfl
    obtain ⟨r, ended, stands⟩ :=
      readRest q _ _ _ _ lx after sax (kinds_.trans kinds) between (lexer ▸ more) handled
    exact ⟨r, (Reaches.turn (turn_next_member strtof top kinds skip comma key separator)).trans
      (reached.trans ended), stands⟩

/-! ## Texts -/

/-- More turns change nothing when the loop has ended. -/
theorem saxParseInternal_more {fuel more : Nat} {outcome : Outcome}
    (ran : saxParseInternal strtof fuel p = some outcome) (enough : fuel ≤ more) :
    saxParseInternal strtof more p = some outcome := by
  induction fuel generalizing p more with
  | zero => cases ran
  | succ fuel inductionHypothesis =>
    obtain ⟨more, rfl⟩ := Nat.exists_eq_add_of_lt enough
    rw [saxParseInternal] at ran ⊢
    cases ended : p.turn strtof with
    | proceeds q =>
      rw [ended] at ran
      exact inductionHypothesis ran (Nat.le_add_right _ _)
    | completes q =>
      rw [ended] at ran
      exact ran
    | returns q =>
      rw [ended] at ran
      exact ran
    | throws what =>
      rw [ended] at ran
      exact ran
    | fails =>
      rw [ended] at ran
      exact ran

/-- More turns do not change the outcome. -/
theorem saxParseInternal_unique {fuel more : Nat} {outcome other : Outcome}
    (ran : saxParseInternal strtof fuel p = some outcome)
    (again : saxParseInternal strtof more p = some other) : outcome = other := by
  have one := saxParseInternal_more strtof ran (Nat.le_max_left fuel more)
  have two := saxParseInternal_more strtof again (Nat.le_max_right fuel more)
  exact Option.some.inj (one.symm.trans two)

/-- At first no container is open. -/
theorem start_fits (input : Bytes) : (start strtof input).Fits :=
  ⟨rfl, fun _ member => by cases member⟩

/-- At most every character is a token, and there is the end. -/
theorem start_pending (input : Bytes) : (start strtof input).pending < 2 * input.length + 2 := by
  have fewer : (start strtof input).m_lexer.ia.length ≤ input.length := by
    rcases ((JsonLexer.start input).scan_advances strtof).reads with less | ⟨_, less⟩
    · exact Nat.le_of_lt less
    · exact less
  unfold JsonParser.pending
  split
  · omega
  · split <;> omega

/-- What the loop makes of a text: a value that its tokens spell, or an exception. -/
theorem start_ends (input : Bytes) :
    (∃ q tokens, saxParseInternal strtof (2 * input.length + 2) (start strtof input) =
        some (.returns q) ∧
      Scans strtof (.start input) tokens q.m_lexer ∧ Spells .value tokens q.sax.root) ∨
      ∃ what, saxParseInternal strtof (2 * input.length + 2) (start strtof input) =
        some (.throws what) := by
  rcases saxParseInternal_ends strtof (start_fits strtof input) (start_pending strtof input) with
    ⟨q, ran, tokens, scans, begins⟩ | thrown
  · exact Or.inl ⟨q, _, ran, .cons scans, Begins.spells begins⟩
  · exact Or.inr thrown

/-- The loop ends on every text, and no assertion fails. -/
theorem parseText_isSome (input : Bytes) : (parseText strtof input).isSome = true := by
  unfold parseText
  rcases start_ends strtof input with ⟨q, tokens, ran, _⟩ | ⟨what, ran⟩
  · rw [ran]
    dsimp only
    split
    · rfl
    · rfl
  · rw [ran]
    rfl

/-- `json::parse`. -/
def parse (input : Bytes) : Throws Json :=
  (parseText strtof input).get (parseText_isSome strtof input)

/-- The result of the loop is that of the parser. -/
theorem parse_of_text {input : Bytes} {result : Throws Json}
    (found : parseText strtof input = some result) : parse strtof input = result := by
  apply Option.some.inj
  rw [parse, Option.some_get]
  exact found

/-- What is accepted is spelled by its tokens. -/
theorem accepted_spells {input : Bytes} {document : Json}
    (accepted : parse strtof input = .ok document) : ∃ tokens lx,
      Scans strtof (.start input) (tokens ++ [.end_of_input]) lx ∧
        Spells .value tokens document := by
  rcases start_ends strtof input with ⟨q, tokens, ran, scans, spelled⟩ | ⟨what, ran⟩
  · by_cases last : (q.m_lexer.scan strtof).1 = .end_of_input
    · have whole : parseText strtof input = some (.ok q.sax.root) := by
        rw [parseText, ran]
        dsimp only [getToken]
        rw [last]
      obtain rfl := Except.ok.inj ((parse_of_text strtof whole).symm.trans accepted)
      exact ⟨tokens, _, scans.append strtof (.token strtof last (.nil _)), spelled⟩
    · have failed : ∃ what, parseText strtof input = some (.error what) := by
        rw [parseText, ran]
        dsimp only [getToken]
        split
        next ended => exact absurd ended last
        · exact ⟨_, rfl⟩
      obtain ⟨what, failed⟩ := failed
      cases (parse_of_text strtof failed).symm.trans accepted
  · have failed : parseText strtof input = some (.error what) := by
      rw [parseText, ran]
    cases (parse_of_text strtof failed).symm.trans accepted

/-- A text whose tokens spell a value is accepted. -/
theorem spelled_accepted {input : Bytes} {document : Json} {tokens : List JsonToken}
    {lx : JsonLexer} (scans : Scans strtof (.start input) (tokens ++ [.end_of_input]) lx)
    (spelled : Spells .value tokens document) : parse strtof input = .ok document := by
  obtain ⟨middle, front, behind⟩ := scans.split
  obtain ⟨last, _⟩ := behind.uncons
  obtain ⟨token, rest, rfl, _⟩ := spelled.first
  obtain ⟨seen, others⟩ := front.uncons
  obtain ⟨q, reached, rfl, states, sax, between⟩ := spells_read strtof spelled
    (start strtof input) middle ⟨document, []⟩ rest (congrArg (· :: rest) seen) rfl others rfl
  have done : saxParseInternal strtof 1 q =
      some (.returns { q with skip_to_state_evaluation := false }) := by
    have complete : q.states = [] := states
    rw [saxParseInternal, turn, between, if_pos rfl, evaluate, complete]
  obtain ⟨more, ran⟩ := reached 1 _ done
  rcases start_ends strtof input with ⟨other, tokens, ended, _⟩ | ⟨what, ended⟩
  · have same := saxParseInternal_unique strtof ended ran
    apply parse_of_text
    rw [parseText, ended, same]
    dsimp only [getToken]
    rw [last, sax]
  · cases saxParseInternal_unique strtof ended ran

/-- A text is accepted when its tokens spell a value and nothing follows, and no other text
is. -/
theorem parse_iff (input : Bytes) (document : Json) :
    parse strtof input = .ok document ↔ ∃ tokens lx,
      Scans strtof (.start input) (tokens ++ [.end_of_input]) lx ∧
        Spells .value tokens document := by
  constructor
  · exact accepted_spells strtof
  · rintro ⟨tokens, lx, scans, spelled⟩
    exact spelled_accepted strtof scans spelled

end Cppboot.JsonParser
