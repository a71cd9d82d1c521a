import Cppboot.UrlDecode

/-!
# The parameters of a query

The parser decodes the whole URI and takes it apart afterwards. So an ampersand or
an equals sign that was sent as an escape separates parameters all the same. A
query that has every byte of its keys and values escaped gives these keys and
values back exactly when no key has one of the two characters and no value has an
ampersand.
-/

namespace Cppboot.Http

open Std Incremental

namespace FormData

/-- The value of a key. An empty key has none, and neither has a key that is not
there: the result is empty then. -/
def get (form : FormData) (key : Bytes) : Bytes :=
  if key = [] then [] else (form.values_[key]?).getD []

end FormData

def Request.param (req : Request) (key : Bytes) : Bytes := req.params.get key

/-- A string with every byte written as a percent sign and two digits. -/
inductive Escaped : Bytes → Bytes → Prop
  | nil : Escaped [] []
  | cons {c high low : UInt8} {plain raw : Bytes} :
    hexDigit high = some (c.toNat / 16) → hexDigit low = some (c.toNat % 16) →
    Escaped plain raw → Escaped (c :: plain) (byte '%' :: high :: low :: raw)

abbrev Pair := Bytes × Bytes

/-- A key and its value, with an equals sign between them. -/
def spelled (pair : Pair) : Bytes := pair.1 ++ byte '=' :: pair.2

/-- Pairs with an ampersand between each two of them. -/
def joined : List Pair → Bytes
  | [] => []
  | pair :: pairs => spelled pair ++ pairs.flatMap fun other => byte '&' :: spelled other

/-- The second pair is the first with both its parts escaped. -/
def EscapedPair (pair raw : Pair) : Prop := Escaped pair.1 raw.1 ∧ Escaped pair.2 raw.2

/-- The pair can be told from the text around it. -/
def Undelimited (pair : Pair) : Prop :=
  byte '&' ∉ pair.1 ∧ byte '=' ∉ pair.1 ∧ byte '&' ∉ pair.2

/-- What is escaped is decoded, whatever follows it. -/
theorem Escaped.decoded {plain raw : Bytes} (escaped : Escaped plain raw) (out rest : Bytes) :
    urlDecodeFrom out (raw ++ rest) = urlDecodeFrom (out ++ plain) rest := by
  induction escaped generalizing out with
  | nil => rw [List.append_nil, List.nil_append]
  | @cons c high low plain raw first second _ inductionHypothesis =>
    have digits : TwoDigits (some (high, low)) := ⟨isHex_of_digit first, isHex_of_digit second⟩
    have value : c.toNat / 16 * 16 + c.toNat % 16 = c.toNat := by omega
    rw [List.cons_append, List.cons_append, List.cons_append, urlDecodeFrom, if_pos rfl,
      readHex_digits digits, first, second]
    dsimp only [Option.getD_some]
    rw [ofNat_emod, value, UInt8.ofNat_toNat, inductionHypothesis, List.append_assoc]
    rfl

/-- A pair is decoded. -/
theorem EscapedPair.decoded {pair raw : Pair} (escaped : EscapedPair pair raw)
    (out rest : Bytes) :
    urlDecodeFrom out (spelled raw ++ rest) = urlDecodeFrom (out ++ spelled pair) rest := by
  have sign : byte '=' ≠ byte '%' := by decide
  have other : byte '=' ≠ byte '+' := by decide
  rw [spelled, List.append_assoc, List.cons_append, escaped.1.decoded, urlDecodeFrom_other sign,
    if_neg other, escaped.2.decoded, spelled, List.append_assoc, List.append_assoc]
  rfl

/-- A query is decoded. -/
theorem joined_decoded {pairs raws : List Pair} (escaped : List.Forall₂ EscapedPair pairs raws)
    (out : Bytes) : urlDecodeFrom out (joined raws) = (true, out ++ joined pairs) := by
  have sign : byte '&' ≠ byte '%' := by decide
  have other : byte '&' ≠ byte '+' := by decide
  have others {pairs raws : List Pair} (escaped : List.Forall₂ EscapedPair pairs raws)
      (out : Bytes) :
      urlDecodeFrom out (raws.flatMap fun other => byte '&' :: spelled other) =
        (true, out ++ pairs.flatMap fun other => byte '&' :: spelled other) := by
    induction escaped generalizing out with
    | nil => rw [List.flatMap_nil, urlDecodeFrom, List.append_nil]
    | cons first _ inductionHypothesis =>
      rw [List.flatMap_cons, List.flatMap_cons, List.cons_append, urlDecodeFrom_other sign,
        if_neg other, first.decoded, inductionHypothesis]
      simp only [List.append_assoc, List.cons_append, List.nil_append]
  cases escaped with
  | nil => rw [joined, urlDecodeFrom, List.append_nil]
  | cons first rest => rw [joined, joined, first.decoded, others rest, List.append_assoc]

/-- Escaped text is made of percent signs and digits. -/
theorem Escaped.characters {plain raw : Bytes} (escaped : Escaped plain raw) :
    ∀ c ∈ raw, c = byte '%' ∨ isHex c = true := by
  induction escaped with
  | nil => exact fun c member => absurd member List.not_mem_nil
  | cons first second _ inductionHypothesis =>
    simp only [List.forall_mem_cons]
    exact ⟨.inl trivial, .inr (isHex_of_digit first), .inr (isHex_of_digit second),
      inductionHypothesis⟩

/-- A digit can stand in a URI. -/
theorem isHex_plain {c : UInt8} (hex : isHex c = true) : isCtl c = false ∧ c ≠ sp := by
  have all : ∀ c, isHex c = true → isCtl c = false ∧ c ≠ sp := every_byte (by decide +kernel)
  exact all c hex

/-- An escaped text can stand in a URI. -/
theorem Escaped.plain {plain raw : Bytes} (escaped : Escaped plain raw) :
    ∀ c ∈ raw, isCtl c = false ∧ c ≠ sp := by
  intro c member
  obtain rfl | hex := escaped.characters c member
  · decide +kernel
  · exact isHex_plain hex

/-- An escaped pair can stand in a URI. -/
theorem EscapedPair.plain {pair raw : Pair} (escaped : EscapedPair pair raw) :
    ∀ c ∈ spelled raw, isCtl c = false ∧ c ≠ sp := by
  intro c member
  rw [spelled, List.mem_append, List.mem_cons] at member
  obtain key | rfl | value := member
  · exact escaped.1.plain c key
  · decide
  · exact escaped.2.plain c value

/-- An escaped query can stand in a URI. -/
theorem joined_plain {pairs raws : List Pair} (escaped : List.Forall₂ EscapedPair pairs raws) :
    ∀ c ∈ joined raws, isCtl c = false ∧ c ≠ sp := by
  have each : ∀ raw ∈ raws, ∀ c ∈ spelled raw, isCtl c = false ∧ c ≠ sp := by
    induction escaped with
    | nil => exact fun raw member => absurd member List.not_mem_nil
    | cons first _ inductionHypothesis =>
      exact List.forall_mem_cons.mpr ⟨first.plain, inductionHypothesis⟩
  intro c member
  cases raws with
  | nil => exact absurd member List.not_mem_nil
  | cons raw raws =>
    rw [joined, List.mem_append, List.mem_flatMap] at member
    obtain first | ⟨other, listed, found⟩ := member
    · exact each raw List.mem_cons_self c first
    · obtain rfl | found := List.mem_cons.mp found
      · decide
      · exact each other (List.mem_cons_of_mem _ listed) c found

namespace FormData

/-- The parameter that a segment of a query spells. -/
def paramOf (segment : Bytes) : Pair :=
  (segment.takeWhile (· ≠ byte '='), (segment.dropWhile (· ≠ byte '=')).drop 1)

/-- A segment without an equals sign is a key without a value. -/
theorem paramOf_unseparated {segment : Bytes} (unseparated : byte '=' ∉ segment) :
    paramOf segment = (segment, []) := by
  have kept := kept_of_not_mem unseparated
  rw [paramOf, List.takeWhile_eq_self_iff.mpr kept, List.dropWhile_eq_nil_iff.mpr kept]
  rfl

/-- The pairs, entered one after the other. -/
def insertAll (form : FormData) (pairs : List Pair) : FormData :=
  ⟨pairs.foldl (fun values pair => values.insert pair.1 pair.2) form.values_⟩

/-- One parameter of a query is entered. -/
theorem parse_param (form : FormData) {query : Bytes}
    (nonempty : (getNextToken query (byte '&')).1 ≠ []) :
    form.parse query =
      (form.insertAll [paramOf (getNextToken query (byte '&')).1]).parse
        (getNextToken query (byte '&')).2 := by
  rw [FormData.parse]
  generalize getNextToken query (byte '&') = token at *
  dsimp only
  rw [dif_neg nonempty]
  by_cases separated : byte '=' ∈ token.1
  · rw [if_pos separated]
    rfl
  · rw [if_neg separated, paramOf_unseparated separated]
    rfl

/-- What a parameter without an ampersand enters. -/
theorem parse_token (form : FormData) {query : Bytes}
    (nonempty : (getNextToken query (byte '&')).1 ≠ []) :
    ∃ pair : Pair,
      form.parse query =
        FormData.parse ⟨form.values_.insert pair.1 pair.2⟩ (getNextToken query (byte '&')).2 ∧
      Undelimited pair ∧
      (spelled pair = (getNextToken query (byte '&')).1 ∨
        byte '=' ∉ (getNextToken query (byte '&')).1) := by
  have plain : byte '&' ∉ (getNextToken query (byte '&')).1 :=
    stop_not_mem_front query (byte '&')
  refine ⟨paramOf (getNextToken query (byte '&')).1, form.parse_param nonempty, ?_⟩
  generalize getNextToken query (byte '&') = token at *
  by_cases separated : byte '=' ∈ token.1
  · obtain ⟨key, value, split, unseparated⟩ := List.eq_append_cons_of_mem separated
    obtain ⟨front, behind⟩ := cut_at_stop unseparated value
    rw [split, List.mem_append, List.mem_cons, not_or, not_or] at plain
    have spells : paramOf token.1 = (key, value) := by
      rw [paramOf, split, front, behind]
    rw [spells]
    exact ⟨⟨plain.1, unseparated, plain.2.2⟩, .inl split.symm⟩
  · rw [paramOf_unseparated separated]
    exact ⟨⟨plain, separated, List.not_mem_nil⟩, .inr separated⟩

/-- Every entry can be told from the text around it. -/
def Separated (form : FormData) : Prop :=
  ∀ key value, form.values_[key]? = some value → Undelimited (key, value)

theorem empty_separated : FormData.empty.Separated := by
  intro key value found
  cases ExtTreeMap.getElem?_empty.symm.trans found

theorem Separated.insert {form : FormData} (separated : form.Separated) {pair : Pair}
    (undelimited : Undelimited pair) :
    FormData.Separated ⟨form.values_.insert pair.1 pair.2⟩ := by
  intro key value found
  simp only [ExtTreeMap.getElem?_insert, LawfulEqCmp.compare_eq_iff_eq] at found
  split at found
  next same =>
    cases found
    cases same
    exact undelimited
  next => exact separated key value found

/-- Whatever is read, what is entered has no delimiters. -/
theorem parse_separated {form : FormData} (separated : form.Separated) (query : Bytes) :
    (form.parse query).Separated := by
  induction length : query.length using Nat.strongRecOn generalizing form query with
  | _ size inductionHypothesis =>
    by_cases nonempty : (getNextToken query (byte '&')).1 = []
    · rw [FormData.parse, dif_pos nonempty]
      exact separated
    · obtain ⟨pair, entered, undelimited, _⟩ := form.parse_token nonempty
      rw [entered]
      exact inductionHypothesis _ (length ▸ getNextToken_shorter nonempty)
        (separated.insert undelimited) _ rfl

/-- The first token of a query is its first pair. -/
theorem getNextToken_joined {pair : Pair} (undelimited : Undelimited pair) (pairs : List Pair) :
    getNextToken (joined (pair :: pairs)) (byte '&') = (spelled pair, joined pairs) := by
  have plain : byte '&' ∉ spelled pair := by
    rw [spelled, List.mem_append, List.mem_cons, not_or, not_or]
    exact ⟨undelimited.1, by decide, undelimited.2.2⟩
  cases pairs with
  | nil =>
    have kept := kept_of_not_mem plain
    have whole : joined [pair] = spelled pair := List.append_nil _
    rw [getNextToken, whole, List.takeWhile_eq_self_iff.mpr kept,
      List.dropWhile_eq_nil_iff.mpr kept]
    rfl
  | cons next pairs =>
    obtain ⟨front, behind⟩ := cut_at_stop plain (joined (next :: pairs))
    have whole : joined (pair :: next :: pairs) =
        spelled pair ++ byte '&' :: joined (next :: pairs) := rfl
    rw [getNextToken, whole, front, behind]

/-- A query of pairs without delimiters enters these pairs. -/
theorem parse_joined (form : FormData) {pairs : List Pair}
    (undelimited : ∀ pair ∈ pairs, Undelimited pair) :
    form.parse (joined pairs) = form.insertAll pairs := by
  induction pairs generalizing form with
  | nil => exact form.parse_nil
  | cons pair pairs inductionHypothesis =>
    obtain ⟨first, others⟩ := List.forall_mem_cons.mp undelimited
    have token := getNextToken_joined first pairs
    have nonempty : (getNextToken (joined (pair :: pairs)) (byte '&')).1 ≠ [] := by
      rw [token]
      simp [spelled]
    obtain ⟨entry, entered, separated, found | absent⟩ := form.parse_token nonempty
    · rw [token, spelled, spelled] at found
      obtain ⟨key, value⟩ := same_cut separated.2.1 first.2.1 found
      rw [entered, token, inductionHypothesis _ others, key, value]
      rfl
    · rw [token] at absent
      exact absurd (by simp [spelled]) absent

/-- Distinct keys are found with their values. -/
theorem insertAll_lookup (form : FormData) {pairs : List Pair}
    (distinct : (pairs.map Prod.fst).Nodup) (key : Bytes) :
    (form.insertAll pairs).values_[key]? = (pairs.lookup key).or form.values_[key]? := by
  induction pairs generalizing form with
  | nil => rfl
  | cons pair pairs inductionHypothesis =>
    obtain ⟨fresh, distinct⟩ := List.nodup_cons.mp distinct
    have later := inductionHypothesis ⟨form.values_.insert pair.1 pair.2⟩ distinct
    simp only [ExtTreeMap.getElem?_insert, LawfulEqCmp.compare_eq_iff_eq] at later
    refine later.trans ?_
    rw [List.lookup_cons]
    by_cases same : key = pair.1
    · subst same
      have unlisted : pairs.lookup pair.1 = none := by
        rw [List.lookup_eq_none_iff]
        intro other member
        rw [bne_iff_ne]
        exact fun same => fresh (same ▸ List.mem_map_of_mem member)
      rw [unlisted]
      simp
    · have other : (key == pair.1) = false := by simpa using same
      rw [other, if_neg (Ne.symm same)]

/-- Of pairs with distinct keys each is found under its key. -/
theorem insertAll_empty {pairs : List Pair} (distinct : (pairs.map Prod.fst).Nodup)
    (key : Bytes) : (FormData.empty.insertAll pairs).values_[key]? = pairs.lookup key := by
  have absent : FormData.empty.values_[key]? = none := ExtTreeMap.getElem?_empty
  rw [insertAll_lookup _ distinct, absent, Option.or_none]

/-- A pair of a map is found under its key. -/
theorem lookup_member {pairs : List Pair} (distinct : (pairs.map Prod.fst).Nodup) {pair : Pair}
    (member : pair ∈ pairs) : pairs.lookup pair.1 = some pair.2 := by
  obtain ⟨earlier, later, rfl⟩ := List.append_of_mem member
  rw [List.map_append, List.map_cons, List.nodup_append] at distinct
  rw [List.lookup_eq_some_iff]
  refine ⟨earlier, later, rfl, fun other listed => ?_⟩
  rw [bne_iff_ne]
  exact (distinct.2.2 _ (List.mem_map_of_mem listed) _ List.mem_cons_self).symm

/-- The entries are those of a map exactly when nothing in it can be taken for a
delimiter. -/
theorem parse_joined_iff {pairs : List Pair} (distinct : (pairs.map Prod.fst).Nodup) :
    (∀ key, (FormData.empty.parse (joined pairs)).values_[key]? = pairs.lookup key) ↔
      ∀ pair ∈ pairs, Undelimited pair := by
  constructor
  · intro entered pair member
    have found := (entered pair.1).trans (lookup_member distinct member)
    exact parse_separated empty_separated _ pair.1 pair.2 found
  · intro undelimited key
    rw [parse_joined _ undelimited, insertAll_empty distinct]

end FormData

/-- The request for a query. -/
def queryRequest (query : Bytes) : Bytes :=
  text "GET /p?" ++ query ++ text " HTTP/1.0\r\n\r\n"

/-- The path is the one that was sent, every key without a NUL has its value, and
there is no other key. -/
def ParamsSurvive (pairs : List Pair) (req : Request) : Prop :=
  req.path = text "/p" ∧
    (∀ pair ∈ pairs, 0 ∉ pair.1 → req.param pair.1 = pair.2) ∧
    ∀ key ∈ req.params.values_, key ∈ pairs.map Prod.fst

/-- A URI is taken apart at its question mark. -/
theorem parseUri_cut {req : Request} {path query : Bytes} (plain : byte '?' ∉ path)
    (uri : req.uri = path ++ byte '?' :: query) :
    req.parseUri.path = path ∧ req.parseUri.params = req.params.parse query := by
  obtain ⟨front, behind⟩ := cut_at_stop plain query
  unfold Request.parseUri
  rw [uri, if_pos (by simp), front, behind]
  exact ⟨rfl, rfl⟩

/-- The request for an escaped query is accepted, and its query is taken apart in
its decoded form. -/
theorem parse_queryRequest {pairs raws : List Pair}
    (escaped : List.Forall₂ EscapedPair pairs raws) :
    ∃ parsed, Reading.fresh.parse (queryRequest (joined raws)) = some parsed ∧
      parsed.result = .good ∧ parsed.reading.req.path = text "/p" ∧
      parsed.reading.req.params = FormData.empty.parse (joined pairs) := by
  have plain : ∀ c ∈ text "/p?" ++ joined raws, isCtl c = false ∧ c ≠ sp := by
    intro c member
    obtain path | query := List.mem_append.mp member
    · have fixed : ∀ c ∈ text "/p?", isCtl c = false ∧ c ≠ sp := by decide +kernel
      exact fixed c path
    · exact joined_plain escaped c query
  have bytes : (getHead _ plain).bytes = queryRequest (joined raws) := by
    simp only [RequestHead.bytes, RequestHead.line, getHead, queryRequest, List.append_assoc]
    rfl
  have decoded : (urlDecode (text "/p?" ++ joined raws)).2 =
      text "/p" ++ byte '?' :: joined pairs := by
    have start : text "/p?" = [byte '/', byte 'p', byte '?'] := rfl
    simp only [start, List.cons_append, List.nil_append]
    rw [urlDecode, urlDecodeFrom_other (by decide), urlDecodeFrom_other (by decide),
      urlDecodeFrom_other (by decide), joined_decoded escaped]
    rfl
  have unmarked : byte '?' ∉ text "/p" := by decide
  refine ⟨_, bytes ▸ parse_head (getHead _ plain), rfl, ?_, ?_⟩
  · exact (parseUri_cut unmarked decoded).1
  · exact (parseUri_cut unmarked decoded).2

/-- Where the entries are those of the map, its keys have their values. -/
theorem paramsSurvive_of_entries {pairs : List Pair} {req : Request}
    (distinct : (pairs.map Prod.fst).Nodup) (named : ∀ pair ∈ pairs, pair.1 ≠ [])
    (path : req.path = text "/p")
    (entered : ∀ key, req.params.values_[key]? = pairs.lookup key) : ParamsSurvive pairs req := by
  refine ⟨path, fun pair member _ => ?_, fun key present => ?_⟩
  · rw [Request.param, FormData.get, if_neg (named pair member), entered,
      FormData.lookup_member distinct member]
    rfl
  · have found := ExtTreeMap.isSome_getElem?_iff_mem.mpr present
    obtain ⟨value, found⟩ := Option.isSome_iff_exists.mp found
    rw [entered, List.lookup_eq_some_iff] at found
    obtain ⟨earlier, later, rfl, _⟩ := found
    simp

/-- A map comes back from its escaped query exactly when none of its keys has an
ampersand or an equals sign and none of its values an ampersand.

Then its keys have their values and there are no others. Looking keys up does not
tell a missing key from one with an empty value; the keys with other values are
found only if they and their values have none of these characters. -/
theorem escaped_query_survives_iff {pairs raws : List Pair}
    (escaped : List.Forall₂ EscapedPair pairs raws) (distinct : (pairs.map Prod.fst).Nodup)
    (named : ∀ pair ∈ pairs, pair.1 ≠ []) :
    ∃ parsed, Reading.fresh.parse (queryRequest (joined raws)) = some parsed ∧
      parsed.result = .good ∧
      ((parsed.reading.req.path = text "/p" ∧
          ∀ key, parsed.reading.req.params.values_[key]? = pairs.lookup key) ↔
        ∀ pair ∈ pairs, Undelimited pair) ∧
      ((∀ pair ∈ pairs, Undelimited pair) → ParamsSurvive pairs parsed.reading.req) ∧
      (ParamsSurvive pairs parsed.reading.req →
        ∀ pair ∈ pairs, 0 ∉ pair.1 → pair.2 ≠ [] → Undelimited pair) := by
  obtain ⟨parsed, read, good, path, params⟩ := parse_queryRequest escaped
  have exact_entries := FormData.parse_joined_iff distinct
  rw [← params] at exact_entries
  refine ⟨parsed, read, good, ?_, ?_, ?_⟩
  · rw [and_iff_right path]
    exact exact_entries
  · intro undelimited
    exact paramsSurvive_of_entries distinct named path (exact_entries.mpr undelimited)
  · intro survive pair member visible valued
    have value := survive.2.1 pair member visible
    rw [Request.param, FormData.get, if_neg (named pair member), params] at value
    cases found : (FormData.empty.parse (joined pairs)).values_[pair.1]? with
    | none =>
      rw [found] at value
      exact absurd value.symm valued
    | some other =>
      rw [found] at value
      obtain rfl : other = pair.2 := value
      exact FormData.parse_separated FormData.empty_separated _ _ _ found

/-- An equals sign in a value does no harm. -/
theorem escaped_equals_survives :
    ∃ parsed, Reading.fresh.parse (queryRequest (text "%6B=%61%3D%62")) = some parsed ∧
      ParamsSurvive [(text "k", text "a=b")] parsed.reading.req := by
  have escaped : List.Forall₂ EscapedPair [(text "k", text "a=b")]
      [(text "%6B", text "%61%3D%62")] :=
    .cons ⟨.cons rfl rfl .nil, .cons rfl rfl (.cons rfl rfl (.cons rfl rfl .nil))⟩ .nil
  obtain ⟨parsed, read, _, _, survives, _⟩ := escaped_query_survives_iff escaped
    (by decide) (by decide)
  exact ⟨parsed, read, survives (by unfold Undelimited; decide)⟩

/-- An ampersand in a value cuts it and makes a parameter of what follows. -/
theorem escaped_ampersand_cuts :
    List.Forall₂ EscapedPair [(text "k", text "a&b=c")] [(text "%6B", text "%61%26%62%3D%63")] ∧
    ∃ parsed, Reading.fresh.parse (queryRequest (text "%6B=%61%26%62%3D%63")) = some parsed ∧
      parsed.reading.req.param (text "k") = text "a" ∧
      parsed.reading.req.param (text "b") = text "c" ∧
      ¬ ParamsSurvive [(text "k", text "a&b=c")] parsed.reading.req := by
  have escaped : List.Forall₂ EscapedPair [(text "k", text "a&b=c")]
      [(text "%6B", text "%61%26%62%3D%63")] :=
    .cons ⟨.cons rfl rfl .nil,
      .cons rfl rfl (.cons rfl rfl (.cons rfl rfl (.cons rfl rfl (.cons rfl rfl .nil))))⟩ .nil
  obtain ⟨parsed, read, _, _, params⟩ := parse_queryRequest escaped
  have taken : parsed.reading.req.params =
      FormData.empty.insertAll [(text "k", text "a"), (text "b", text "c")] := by
    rw [params, ← FormData.parse_joined]
    · rfl
    · unfold Undelimited
      decide
  have found (key : Bytes) (nonempty : key ≠ []) : parsed.reading.req.param key =
      ([(text "k", text "a"), (text "b", text "c")].lookup key).getD [] := by
    rw [Request.param, FormData.get, if_neg nonempty, taken, FormData.insertAll_empty]
    decide
  have first : parsed.reading.req.param (text "k") = text "a" :=
    (found (text "k") (by decide)).trans (by decide)
  refine ⟨escaped, parsed, read, first, ?_, ?_⟩
  · exact (found (text "b") (by decide)).trans (by decide)
  · rintro ⟨_, values, _⟩
    have whole := values _ List.mem_cons_self (by decide)
    exact absurd (first.symm.trans whole) (by decide)

end Cppboot.Http
