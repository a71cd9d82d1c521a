import Cppboot.LastWins
import Cppboot.QueryParams

/-!
# Forms as text

`FormData::Parse` takes a text apart at its ampersands and stops at the first
empty segment, which it takes for the end of the text. So the segments behind an
empty one are read only in the sense that the map may have their values already.

`FormData::Encode` writes the entries with `=` and `&` and escapes nothing. A form
comes back from its text exactly when none of its keys has one of the two
characters and none of its values an ampersand.
-/

namespace Cppboot.Http

open Std LastWins

namespace FormData

/-- The segments of a query between its ampersands. -/
def segments (query : Bytes) : List Bytes := query.splitOn (byte '&')

/-- The parameters of a query that are not empty. -/
def params (query : Bytes) : List Pair :=
  ((segments query).filter (· ≠ [])).map paramOf

/-- The parameters in front of the first empty one. -/
def frontParams (query : Bytes) : List Pair :=
  ((segments query).takeWhile (· ≠ [])).map paramOf

/-- The parameters behind the first empty one. -/
def skippedParams (query : Bytes) : List Pair :=
  (((segments query).dropWhile (· ≠ [])).filter (· ≠ [])).map paramOf

/-- Entering pairs, and more of them afterwards. -/
theorem insertAll_append (form : FormData) (pairs more : List Pair) :
    form.insertAll (pairs ++ more) = (form.insertAll pairs).insertAll more := by
  simp only [insertAll, List.foldl_append]

/-- The last value that was entered for a key is found. -/
theorem insertAll_last (form : FormData) (pairs : List Pair) (key : Bytes) :
    (form.insertAll pairs).values_[key]? = (lastValue pairs key).or form.values_[key]? :=
  getElem?_insertAll form.values_ pairs key

/-- More entries change nothing exactly when their last values are there already. -/
theorem insertAll_unchanged_iff (form : FormData) (pairs : List Pair) :
    form.insertAll pairs = form ↔
      ∀ key value, lastValue pairs key = some value → form.values_[key]? = some value := by
  constructor
  · intro unchanged key value last
    have found := form.insertAll_last pairs key
    rw [unchanged, last] at found
    exact found
  · intro present
    have same : (form.insertAll pairs).values_ = form.values_ := by
      apply ExtTreeMap.ext_getElem?
      intro key
      rw [insertAll_last]
      cases last : lastValue pairs key with
      | none => exact Option.none_or
      | some value => exact (present key value last).symm
    exact congrArg FormData.mk same

/-- A query is read up to its first empty segment.

Proof: by induction on the length of the query. The token is the first segment, and
the segments of what is left are the other ones; behind the last segment nothing is
left. -/
theorem parse_front (form : FormData) (query : Bytes) :
    form.parse query = form.insertAll (frontParams query) := by
  induction length : query.length using Nat.strongRecOn generalizing form query with
  | _ size inductionHypothesis =>
    have first : ∃ others, segments query = (getNextToken query (byte '&')).1 :: others ∧
        (others = segments (getNextToken query (byte '&')).2 ∨
          others = [] ∧ (getNextToken query (byte '&')).2 = []) := by
      by_cases cut : byte '&' ∈ query
      · obtain ⟨front, behind, rfl, plain⟩ := List.eq_append_cons_of_mem cut
        obtain ⟨token, rest⟩ := cut_at_stop plain behind
        refine ⟨segments behind, ?_, .inl ?_⟩
        · rw [getNextToken, token, segments, List.splitOn_append_cons_self,
            List.splitOn_eq_singleton plain]
          rfl
        · rw [getNextToken, rest]
      · have kept := kept_of_not_mem cut
        have token : getNextToken query (byte '&') = (query, []) := by
          rw [getNextToken, List.takeWhile_eq_self_iff.mpr kept,
            List.dropWhile_eq_nil_iff.mpr kept]
          rfl
        rw [token]
        refine ⟨[], ?_, .inr ⟨rfl, rfl⟩⟩
        exact List.splitOn_eq_singleton cut
    obtain ⟨others, split, rest⟩ := first
    by_cases nonempty : (getNextToken query (byte '&')).1 = []
    · rw [FormData.parse, dif_pos nonempty, frontParams, split, nonempty]
      rfl
    · have later : (form.insertAll [paramOf (getNextToken query (byte '&')).1]).parse
            (getNextToken query (byte '&')).2 =
          (form.insertAll [paramOf (getNextToken query (byte '&')).1]).insertAll
            ((others.takeWhile (· ≠ [])).map paramOf) := by
        obtain rfl | ⟨rfl, done⟩ := rest
        · exact inductionHypothesis _ (length ▸ getNextToken_shorter nonempty) _ _ rfl
        · rw [done, parse_nil]
          rfl
      rw [parse_param form nonempty, later, ← insertAll_append, frontParams, split,
        List.takeWhile_cons_of_pos (by simpa using nonempty)]
      rfl

/-- The parameters are those in front of the first empty segment and those behind it. -/
theorem params_split (query : Bytes) : params query = frontParams query ++ skippedParams query := by
  have front : ((segments query).takeWhile (· ≠ [])).filter (· ≠ []) =
      (segments query).takeWhile (· ≠ []) := by
    rw [List.filter_eq_self]
    intro segment member
    simpa using List.mem_takeWhile_imp member
  have parts : (segments query).takeWhile (· ≠ []) ++ (segments query).dropWhile (· ≠ []) =
      segments query := List.takeWhile_append_dropWhile
  rw [params, frontParams, skippedParams, ← List.map_append, ← front, ← List.filter_append, parts]

/-- Parsing enters every parameter that is not empty exactly when the map has the
last values of those behind the first empty one already: from a parameter in front
of it or, if there is none of that name, from before. -/
theorem parse_reads_all_iff (form : FormData) (query : Bytes) :
    form.parse query = form.insertAll (params query) ↔
      ∀ key value, lastValue (skippedParams query) key = some value →
        (lastValue (frontParams query) key).or form.values_[key]? = some value := by
  rw [parse_front, params_split, insertAll_append, eq_comm, insertAll_unchanged_iff]
  simp only [insertAll_last]

/-- A parameter behind two ampersands is not read. -/
theorem parameter_skipped :
    params (text "a=1&&b=2") = [(text "a", text "1"), (text "b", text "2")] ∧
    (FormData.empty.parse (text "a=1&&b=2")).values_[text "b"]? = none ∧
    FormData.empty.parse (text "a=1&&b=2") ≠
      FormData.empty.insertAll (params (text "a=1&&b=2")) := by
  have listed : params (text "a=1&&b=2") = [(text "a", text "1"), (text "b", text "2")] := by
    decide
  have lost : (FormData.empty.parse (text "a=1&&b=2")).values_[text "b"]? = none := by
    have front : frontParams (text "a=1&&b=2") = [(text "a", text "1")] := by decide
    have unlisted : lastValue [(text "a", text "1")] (text "b") = none := by decide
    rw [parse_front, insertAll_last, front, unlisted]
    exact ExtTreeMap.getElem?_empty
  refine ⟨listed, lost, fun same => ?_⟩
  have last : lastValue [(text "a", text "1"), (text "b", text "2")] (text "b") =
      some (text "2") := by decide
  rw [same, listed, insertAll_last, last] at lost
  cases lost

/-- `Set`: the key is a C string, and an empty one is ignored. -/
def set (form : FormData) (key value : Bytes) : FormData :=
  if cstr key = [] then form else ⟨form.values_.insert (cstr key) value⟩

/-- The calls of `Set`, one after the other. -/
def setAll (form : FormData) (calls : List Pair) : FormData :=
  calls.foldl (fun form call => form.set call.1 call.2) form

/-- The entries as text, with the flag that tells whether one was written before. -/
def encodeFrom (ss : Bytes) (add_delimiter : Bool) : List Pair → Bytes
  | [] => ss
  | i :: rest =>
    let ss := if add_delimiter then ss ++ text "&" else ss
    encodeFrom (ss ++ i.1 ++ text "=" ++ i.2) true rest

/-- The entries as text, in the order of their keys. -/
def encode (form : FormData) : Bytes := encodeFrom [] false form.values_.toList

/-- Behind the first pair every other one follows an ampersand. -/
theorem encodeFrom_more (ss : Bytes) (pairs : List Pair) :
    encodeFrom ss true pairs = ss ++ pairs.flatMap fun other => byte '&' :: spelled other := by
  induction pairs generalizing ss with
  | nil => rw [encodeFrom, List.flatMap_nil, List.append_nil]
  | cons pair pairs inductionHypothesis =>
    have ampersand : text "&" = [byte '&'] := rfl
    have sign : text "=" = [byte '='] := rfl
    rw [encodeFrom, inductionHypothesis, List.flatMap_cons, spelled, ampersand, sign]
    simp only [if_true, List.append_assoc, List.cons_append, List.nil_append]

/-- The encoding is the entries joined by ampersands. -/
theorem encode_eq (form : FormData) : form.encode = joined form.values_.toList := by
  rw [encode]
  cases form.values_.toList with
  | nil => rfl
  | cons pair pairs =>
    have sign : text "=" = [byte '='] := rfl
    rw [encodeFrom, encodeFrom_more, joined, spelled, sign]
    simp only [Bool.false_eq_true, if_false, List.append_assoc, List.cons_append,
      List.nil_append]

/-- The keys of a map are distinct. -/
theorem toList_distinct (form : FormData) : (form.values_.toList.map Prod.fst).Nodup := by
  rw [List.nodup_iff_pairwise_ne, List.pairwise_map]
  refine ExtTreeMap.distinct_keys_toList.imp ?_
  intro pair other distinct same
  exact distinct (LawfulEqCmp.compare_eq_iff_eq.mpr same)

/-- The entries of a map are found by its lookup. -/
theorem toList_lookup (form : FormData) (key : Bytes) :
    form.values_.toList.lookup key = form.values_[key]? := by
  cases found : form.values_[key]? with
  | some value =>
    have member := ExtTreeMap.mem_toList_iff_getElem?_eq_some.mpr found
    exact lookup_member form.toList_distinct member
  | none =>
    rw [List.lookup_eq_none_iff]
    intro pair member
    rw [bne_iff_ne]
    rintro rfl
    rw [ExtTreeMap.mem_toList_iff_getElem?_eq_some.mp member] at found
    cases found

/-- A form comes back from its text exactly when its entries have no delimiters. -/
theorem parse_encode_iff (form : FormData) :
    FormData.empty.parse form.encode = form ↔ form.Separated := by
  have exact_entries := parse_joined_iff form.toList_distinct
  simp only [toList_lookup] at exact_entries
  rw [encode_eq]
  constructor
  · intro same key value found
    have entries := exact_entries.mp (fun key => congrArg (·.values_[key]?) same)
    exact entries (key, value) (ExtTreeMap.mem_toList_iff_getElem?_eq_some.mpr found)
  · intro separated
    have entries : ∀ pair ∈ form.values_.toList, Undelimited pair := fun pair member =>
      separated pair.1 pair.2 (ExtTreeMap.mem_toList_iff_getElem?_eq_some.mp member)
    have same := ExtTreeMap.ext_getElem? (exact_entries.mpr entries)
    exact congrArg FormData.mk same

/-- The entries have keys that are C strings and not empty. -/
def Named (form : FormData) : Prop := ∀ key ∈ form.values_, key ≠ [] ∧ 0 ∉ key

/-- What is set has no entry without a name. -/
theorem setAll_named (calls : List Pair) : (FormData.empty.setAll calls).Named := by
  have step (form : FormData) (named : form.Named) (call : Pair) :
      (form.set call.1 call.2).Named := by
    unfold FormData.set
    split
    next => exact named
    next nonempty =>
      intro key member
      obtain same | present := ExtTreeMap.mem_insert.mp member
      · rw [← LawfulEqCmp.compare_eq_iff_eq.mp same]
        exact ⟨nonempty, stop_not_mem_front _ 0⟩
      · exact named key present
  have run (form : FormData) (named : form.Named) : (form.setAll calls).Named := by
    induction calls generalizing form with
    | nil => exact named
    | cons call calls inductionHypothesis => exact inductionHypothesis _ (step form named call)
  exact run _ fun key member => absurd member ExtTreeMap.not_mem_empty

/-- A form that was filled by `Set` comes back from its text exactly when none of
its keys has an ampersand or an equals sign and none of its values an ampersand.

`Get` then finds the same values. It does not tell a missing key from one with an
empty value; where it finds the same values, at least the entries with other values
have none of these characters. -/
theorem encoding_survives_iff (calls : List Pair) :
    (FormData.empty.parse (FormData.empty.setAll calls).encode = FormData.empty.setAll calls ↔
      (FormData.empty.setAll calls).Separated) ∧
    ((FormData.empty.setAll calls).Separated →
      ∀ key, (FormData.empty.parse (FormData.empty.setAll calls).encode).get key =
        (FormData.empty.setAll calls).get key) ∧
    ((∀ key, 0 ∉ key →
        (FormData.empty.parse (FormData.empty.setAll calls).encode).get key =
          (FormData.empty.setAll calls).get key) →
      ∀ key value, (FormData.empty.setAll calls).values_[key]? = some value → value ≠ [] →
        Undelimited (key, value)) := by
  have named := setAll_named calls
  generalize FormData.empty.setAll calls = form at *
  refine ⟨parse_encode_iff form, ?_, ?_⟩
  · intro separated key
    rw [(parse_encode_iff form).mpr separated]
  · intro same key value found valued
    obtain ⟨nonempty, plain⟩ := named key (by
      rw [← ExtTreeMap.isSome_getElem?_iff_mem, found]
      rfl)
    have value_same := same key plain
    rw [FormData.get, FormData.get, if_neg nonempty, if_neg nonempty, found] at value_same
    cases entered : (FormData.empty.parse form.encode).values_[key]? with
    | none =>
      rw [entered] at value_same
      exact absurd value_same.symm valued
    | some other =>
      rw [entered] at value_same
      obtain rfl : other = value := value_same
      exact parse_separated empty_separated _ key other entered

/-- An ampersand in a value cuts it. -/
theorem ampersand_in_value_cuts :
    (FormData.empty.setAll [(text "k", text "a&b")]).encode = text "k=a&b" ∧
    (FormData.empty.setAll [(text "k", text "a&b")]).get (text "k") = text "a&b" ∧
    (FormData.empty.parse (FormData.empty.setAll [(text "k", text "a&b")]).encode).get (text "k") =
      text "a" ∧
    ¬ (FormData.empty.setAll [(text "k", text "a&b")]).Separated := by
  have nonempty : text "k" ≠ [] := by decide
  have filled : FormData.empty.setAll [(text "k", text "a&b")] =
      FormData.empty.insertAll [(text "k", text "a&b")] := by
    have key : cstr (text "k") = text "k" := by decide
    rw [setAll, List.foldl_cons, FormData.set, key, if_neg nonempty]
    rfl
  have last : lastValue [(text "k", text "a&b")] (text "k") = some (text "a&b") := by
    decide
  have written : (FormData.empty.insertAll [(text "k", text "a&b")]).encode = text "k=a&b" := by
    have entries : (FormData.empty.insertAll [(text "k", text "a&b")]).values_.toList =
        [(text "k", text "a&b")] := rfl
    rw [encode, entries]
    decide
  rw [filled, written]
  refine ⟨rfl, ?_, ?_, ?_⟩
  · rw [FormData.get, if_neg nonempty, insertAll_last, last]
    rfl
  · have front : frontParams (text "k=a&b") = [(text "k", text "a"), (text "b", [])] := by
      decide
    have kept : lastValue [(text "k", text "a"), (text "b", [])] (text "k") = some (text "a") := by
      decide
    rw [FormData.get, if_neg nonempty, parse_front, front, insertAll_last, kept]
    rfl
  · intro separated
    have undelimited := separated (text "k") (text "a&b") (by
      rw [insertAll_last, last]
      rfl)
    exact undelimited.2.2 (by decide)

end FormData

end Cppboot.Http
