import Cppboot.FileServer
import Cppboot.Json
import Cppboot.LastWins

/-!
# Replies and their headers

`set_header` changes the first header of a name or adds one at the end, so the names
of the headers of a reply stay distinct and in the order in which they were first
set. The `Write` functions set the length and the type of what they write along with
it. What is sent is the line of the status, the headers in their order, a blank line
and the content.

`WriteJson` assigns the status before it serialises its value. When that throws, the
content and the headers are as before.
-/

namespace Cppboot.Http

open LastWins

/-- The number of a status. -/
def StatusType.number : StatusType → Nat
  | .ok => 200
  | .created => 201
  | .accepted => 202
  | .no_content => 204
  | .multiple_choices => 300
  | .moved_permanently => 301
  | .moved_temporarily => 302
  | .not_modified => 304
  | .bad_request => 400
  | .unauthorized => 401
  | .forbidden => 403
  | .not_found => 404
  | .internal_server_error => 500
  | .not_implemented => 501
  | .bad_gateway => 502
  | .service_unavailable => 503

/-- The line of a status. -/
def statusString : StatusType → Bytes
  | .ok => text "HTTP/1.0 200 OK\r\n"
  | .created => text "HTTP/1.0 201 Created\r\n"
  | .accepted => text "HTTP/1.0 202 Accepted\r\n"
  | .no_content => text "HTTP/1.0 204 No Content\r\n"
  | .multiple_choices => text "HTTP/1.0 300 Multiple Choices\r\n"
  | .moved_permanently => text "HTTP/1.0 301 Moved Permanently\r\n"
  | .moved_temporarily => text "HTTP/1.0 302 Moved Temporarily\r\n"
  | .not_modified => text "HTTP/1.0 304 Not Modified\r\n"
  | .bad_request => text "HTTP/1.0 400 Bad Request\r\n"
  | .unauthorized => text "HTTP/1.0 401 Unauthorized\r\n"
  | .forbidden => text "HTTP/1.0 403 Forbidden\r\n"
  | .not_found => text "HTTP/1.0 404 Not Found\r\n"
  | .internal_server_error => text "HTTP/1.0 500 Internal Server Error\r\n"
  | .not_implemented => text "HTTP/1.0 501 Not Implemented\r\n"
  | .bad_gateway => text "HTTP/1.0 502 Bad Gateway\r\n"
  | .service_unavailable => text "HTTP/1.0 503 Service Unavailable\r\n"

/-- The reason phrase of a line: what stands behind the number, up to the end of the line. -/
def phraseIn (line : Bytes) : Bytes := (line.drop 13).takeWhile (· ≠ byte '\r')

/-- The line of a status has its number and a phrase without control characters. -/
theorem statusString_number (status : StatusType) :
    ∃ phrase, (∀ c ∈ phrase, isCtl c = false) ∧
      statusString status =
        text "HTTP/1.0 " ++ Decimal.numeral status.number ++ text " " ++ phrase ++ text "\r\n" := by
  refine ⟨phraseIn (statusString status), ?_⟩
  cases status <;> decide +kernel

namespace Response

/-- The buffers that are sent for a header. -/
def headerBuffers (h : Header) : List Bytes := [h.name, text ": ", h.value, text "\r\n"]

/-- The buffers that are sent, one after the other. -/
def toBuffers (rep : Response) : List Bytes :=
  statusString rep.status :: rep.headers.flatMap headerBuffers ++ [text "\r\n", rep.content]

/-- A header as it is sent. -/
def headerLine (h : Header) : Bytes := h.name ++ text ": " ++ h.value ++ text "\r\n"

/-- What is sent. -/
theorem toBuffers_flatten (rep : Response) :
    rep.toBuffers.flatten = statusString rep.status ++ rep.headers.flatMap headerLine ++
      text "\r\n" ++ rep.content := by
  have lines (headers : List Header) :
      (headers.flatMap headerBuffers).flatten = headers.flatMap headerLine := by
    induction headers with
    | nil => rfl
    | cons h headers inductionHypothesis =>
      rw [List.flatMap_cons, List.flatten_append, inductionHypothesis, List.flatMap_cons]
      simp [headerBuffers, headerLine]
  rw [toBuffers, List.cons_append, List.flatten_cons, List.flatten_append, lines]
  simp

/-- What the `Write` functions do with the text they are given and its type. -/
def write (type : Bytes) (rep : Response) (code : StatusType) (body : Bytes) : Response :=
  let rep := { rep with status := code, content := body }
  (rep.setHeader (text "Content-Length") (Decimal.numeral rep.content.length)).setHeader
    (text "Content-Type") type

def writeText : Response → StatusType → Bytes → Response := write (text "text/plain")

def writeHtml : Response → StatusType → Bytes → Response := write (text "text/html")

/-- The reply when the function returns or throws. -/
def writeJson (lib : JsonLibrary) (rep : Response) (code : StatusType) (body : Json) :
    Throws Unit × Response :=
  match lib.dump body with
  | .ok document => (.ok (), write (text "application/json") rep code document)
  | .error what => (.error what, { rep with status := code })

/-- A new name comes last. -/
def enterName (names : List Bytes) (name : Bytes) : List Bytes :=
  if name ∈ names then names else names ++ [name]

/-- Setting a header enters its name. -/
theorem names_setHeaderIn (headers : List Header) (name value : Bytes) :
    (setHeaderIn name value headers).map Header.name =
      enterName (headers.map Header.name) name := by
  unfold enterName
  induction headers with
  | nil => rfl
  | cons i headers inductionHypothesis =>
    rw [setHeaderIn, List.map_cons]
    by_cases found : i.name = name
    · rw [if_pos found, if_pos (List.mem_cons.mpr (.inl found.symm))]
      rfl
    · rw [if_neg found, List.map_cons, inductionHypothesis]
      by_cases listed : name ∈ headers.map Header.name
      · rw [if_pos listed, if_pos (List.mem_cons_of_mem _ listed)]
      · have fresh : name ∉ i.name :: headers.map Header.name :=
          List.not_mem_cons_of_ne_of_not_mem (Ne.symm found) listed
        rw [if_neg listed, if_neg fresh]
        rfl

/-- Entering a name keeps names distinct. -/
theorem enterName_nodup {names : List Bytes} (distinct : names.Nodup) (name : Bytes) :
    (enterName names name).Nodup := by
  unfold enterName
  split
  next => exact distinct
  next fresh => exact List.nodup_append.mpr ⟨distinct, List.nodup_singleton _, by
    rintro a member b last rfl
    exact fresh (List.mem_singleton.mp last ▸ member)⟩

/-- Set headers, one after the other. -/
def setAll (headers : List Header) (sets : List (Bytes × Bytes)) : List Header :=
  sets.foldl (fun headers set => setHeaderIn set.1 set.2 headers) headers

/-- The value that was set last is found. -/
theorem valueIn_setAll (headers : List Header) (sets : List (Bytes × Bytes)) (name : Bytes) :
    valueIn (setAll headers sets) name = (lastValue sets name).or (valueIn headers name) := by
  induction sets using List.reverseRecOn with
  | nil => rfl
  | append_singleton sets set inductionHypothesis =>
    have last : setAll headers (sets ++ [set]) = setHeaderIn set.1 set.2 (setAll headers sets) :=
      List.foldl_append
    rw [last, valueIn_setHeaderIn, lastValue_concat]
    by_cases same : name = set.1
    · rw [if_pos same, if_pos (beq_iff_eq.mpr same)]
      rfl
    · rw [if_neg same, if_neg (mt beq_iff_eq.mp same)]
      exact inductionHypothesis

/-- The first header takes what is set for its name, and the others the rest. -/
theorem setAll_cons (i : Header) (headers : List Header) (sets : List (Bytes × Bytes)) :
    setAll (i :: headers) sets =
      ⟨i.name, (lastValue sets i.name).getD i.value⟩ ::
        setAll headers (sets.filter fun set => set.1 ≠ i.name) := by
  induction sets using List.reverseRecOn with
  | nil => rfl
  | append_singleton sets set inductionHypothesis =>
    have last (headers : List Header) : setAll headers (sets ++ [set]) =
      setHeaderIn set.1 set.2 (setAll headers sets) := List.foldl_append
    rw [last, inductionHypothesis, setHeaderIn, lastValue_concat, List.filter_append]
    by_cases same : i.name = set.1
    · rw [if_pos same, if_pos (beq_iff_eq.mpr same), List.filter_singleton,
        decide_eq_false (not_not.mpr same.symm), cond_false, List.append_nil]
      rfl
    · rw [if_neg same, if_neg (mt beq_iff_eq.mp same), List.filter_singleton,
        decide_eq_true (Ne.symm same), cond_true, setAll, setAll, List.foldl_append]
      rfl

/-- Headers are as before exactly when they had the values that were set last. -/
theorem setAll_unchanged_iff (headers : List Header) (sets : List (Bytes × Bytes)) :
    setAll headers sets = headers ↔
      ∀ name value, lastValue sets name = some value → valueIn headers name = some value := by
  constructor
  · intro unchanged name value last
    have found := valueIn_setAll headers sets name
    rw [unchanged, last] at found
    exact found
  · intro present
    induction headers generalizing sets with
    | nil =>
      cases sets with
      | nil => rfl
      | cons set sets =>
        cases last : lastValue (set :: sets) set.1 with
        | none => exact absurd rfl (lastValue_eq_none_iff.mp last set List.mem_cons_self)
        | some value => cases present set.1 value last
    | cons i headers inductionHypothesis =>
      have first : (lastValue sets i.name).getD i.value = i.value := by
        cases last : lastValue sets i.name with
        | none => rfl
        | some value =>
          have found := present i.name value last
          rw [valueIn, List.find?_cons_of_pos (by simp)] at found
          exact (Option.some.inj found).symm
      have others : setAll headers (sets.filter fun set => set.1 ≠ i.name) = headers := by
        apply inductionHypothesis
        intro name value last
        have apart : name ≠ i.name := by
          rintro rfl
          have nothing : lastValue (sets.filter fun set => set.1 ≠ i.name) i.name = none := by
            rw [lastValue_eq_none_iff]
            intro set member
            simpa using (List.mem_filter.mp member).2
          rw [nothing] at last
          cases last
        have kept : lastValue (sets.filter fun set => set.1 ≠ i.name) name = lastValue sets name :=
          lastValue_filter sets (fun key => decide (key ≠ i.name)) (decide_eq_true apart)
        have found := present name value (kept.symm.trans last)
        rwa [valueIn, List.find?_cons_of_neg (by simpa using apart.symm)] at found
      rw [setAll_cons, first, others]

/-- The names in the order in which they were set first. -/
def firstNames (sets : List (Bytes × Bytes)) : List Bytes :=
  sets.foldl (fun names set => enterName names set.1) []

/-- The names that were set, each where it was set first. -/
theorem names_setAll (sets : List (Bytes × Bytes)) :
    (setAll [] sets).map Header.name = firstNames sets := by
  induction sets using List.reverseRecOn with
  | nil => rfl
  | append_singleton sets set inductionHypothesis =>
    rw [setAll, firstNames, List.foldl_append, List.foldl_append, ← setAll, ← firstNames,
      ← inductionHypothesis]
    exact names_setHeaderIn _ _ _

/-- No name is there twice. -/
theorem firstNames_nodup (sets : List (Bytes × Bytes)) : (firstNames sets).Nodup := by
  induction sets using List.reverseRecOn with
  | nil => exact List.nodup_nil
  | append_singleton sets set inductionHypothesis =>
    rw [firstNames, List.foldl_append, ← firstNames]
    exact enterName_nodup inductionHypothesis _

/-- A header among others with distinct names is the only one with its name. -/
theorem filter_name {headers : List Header} (distinct : (headers.map Header.name).Nodup)
    {name value : Bytes} (found : valueIn headers name = some value) :
    headers.filter (fun i => i.name = name) = [⟨name, value⟩] := by
  induction headers with
  | nil => cases found
  | cons i headers inductionHypothesis =>
    rw [List.map_cons, List.nodup_cons] at distinct
    by_cases here : i.name = name
    · have others : headers.filter (fun i => i.name = name) = [] := by
        rw [List.filter_eq_nil_iff]
        intro other member same
        have listed := List.mem_map_of_mem (f := Header.name) member
        rw [of_decide_eq_true same, ← here] at listed
        exact distinct.1 listed
      rw [List.filter_cons_of_pos (by simpa using here), others]
      rw [valueIn, List.find?_cons_of_pos (by simpa using here)] at found
      rw [← here, ← Option.some.inj found]
    · rw [List.filter_cons_of_neg (by simpa using here)]
      apply inductionHypothesis distinct.2
      rwa [valueIn, List.find?_cons_of_neg (by simpa using here)] at found

/-- A call that changes a reply. -/
inductive Call where
  | setHeader (name value : Bytes)
  | writeText (code : StatusType) (body : Bytes)
  | writeHtml (code : StatusType) (body : Bytes)
  | writeJson (code : StatusType) (body : Json)

/-- What a call that writes is to write: the status, the type and the text. There is
nothing for other calls and for those that throw. -/
def Call.written (lib : JsonLibrary) : Call → Option (StatusType × Bytes × Bytes)
  | .setHeader _ _ => none
  | .writeText code body => some (code, text "text/plain", body)
  | .writeHtml code body => some (code, text "text/html", body)
  | .writeJson code body =>
    match lib.dump body with
    | .ok document => some (code, text "application/json", document)
    | .error _ => none

/-- The headers that a call sets. -/
def Call.sets (lib : JsonLibrary) (call : Call) : List (Bytes × Bytes) :=
  match call, call.written lib with
  | .setHeader name value, _ => [(name, value)]
  | _, some (_, type, body) =>
    [(text "Content-Length", Decimal.numeral body.length), (text "Content-Type", type)]
  | _, none => []

/-- The reply after a call. -/
def perform (lib : JsonLibrary) (rep : Response) : Call → Response
  | .setHeader name value => rep.setHeader name value
  | .writeText code body => rep.writeText code body
  | .writeHtml code body => rep.writeHtml code body
  | .writeJson code body => (rep.writeJson lib code body).2

/-- A reply after some calls. -/
def performAll (lib : JsonLibrary) (rep : Response) (calls : List Call) : Response :=
  calls.foldl (perform lib) rep

/-- The replies that calls start from: an empty one, whatever its status is, or a
stock reply. -/
inductive Start where
  | empty (status : StatusType)
  | stock (status : StatusType)

def Start.response : Start → Response
  | .empty status => ⟨status, [], []⟩
  | .stock status => stockReply status

/-- The headers that are set from the start. -/
def Start.sets : Start → List (Bytes × Bytes)
  | .empty _ => []
  | .stock status =>
    [(text "Content-Length", Decimal.numeral (stockText status).length),
      (text "Content-Type", text "text/html")]

/-- A call does to the headers what it sets, and what it writes becomes the content. -/
theorem perform_sets (lib : JsonLibrary) (rep : Response) (call : Call) :
    (rep.perform lib call).headers = setAll rep.headers (call.sets lib) ∧
      ∀ code type body, call.written lib = some (code, type, body) →
        (rep.perform lib call).status = code ∧ (rep.perform lib call).content = body ∧
          call.sets lib = [(text "Content-Length", Decimal.numeral body.length),
            (text "Content-Type", type)] := by
  cases call with
  | setHeader name value => exact ⟨rfl, fun _ _ _ written => by cases written⟩
  | writeText code body =>
    refine ⟨rfl, ?_⟩
    rintro _ _ _ ⟨⟩
    exact ⟨rfl, rfl, rfl⟩
  | writeHtml code body =>
    refine ⟨rfl, ?_⟩
    rintro _ _ _ ⟨⟩
    exact ⟨rfl, rfl, rfl⟩
  | writeJson code body =>
    simp only [perform, writeJson, Call.sets, Call.written]
    cases lib.dump body with
    | ok document =>
      refine ⟨rfl, ?_⟩
      rintro _ _ _ ⟨⟩
      exact ⟨rfl, rfl, rfl⟩
    | error what => exact ⟨rfl, fun _ _ _ written => by cases written⟩

theorem performAll_concat (lib : JsonLibrary) (rep : Response) (calls : List Call) (call : Call) :
    performAll lib rep (calls ++ [call]) = (performAll lib rep calls).perform lib call :=
  List.foldl_append

/-- The headers are those that were set, in the order of the calls. -/
theorem performAll_headers (lib : JsonLibrary) (start : Start) (calls : List Call) :
    (performAll lib start.response calls).headers =
      setAll [] (start.sets ++ calls.flatMap (Call.sets lib)) := by
  induction calls using List.reverseRecOn with
  | nil =>
    rw [List.flatMap_nil, List.append_nil]
    cases start <;> rfl
  | append_singleton calls call inductionHypothesis =>
    rw [performAll_concat, (perform_sets lib _ call).1, inductionHypothesis, List.flatMap_append,
      List.flatMap_singleton, ← List.append_assoc]
    exact List.foldl_append.symm

/-- The names of the headers are those that were set, each where it was set first. -/
theorem performAll_names (lib : JsonLibrary) (start : Start) (calls : List Call) :
    (performAll lib start.response calls).headers.map Header.name =
      firstNames (start.sets ++ calls.flatMap (Call.sets lib)) := by
  rw [performAll_headers, names_setAll]

/-- No two headers have the same name. -/
theorem performAll_distinct (lib : JsonLibrary) (start : Start) (calls : List Call) :
    ((performAll lib start.response calls).headers.map Header.name).Nodup := by
  rw [performAll_names]
  exact firstNames_nodup _

/-- A header has the value that was set last. -/
theorem performAll_header (lib : JsonLibrary) (start : Start) (calls : List Call) (name : Bytes) :
    (performAll lib start.response calls).header name =
      (lastValue (start.sets ++ calls.flatMap (Call.sets lib)) name).getD [] := by
  have found := valueIn_setAll [] (start.sets ++ calls.flatMap (Call.sets lib)) name
  rw [← performAll_headers] at found
  have nothing : valueIn [] name = none := rfl
  rw [header, ← valueIn, found, nothing, Option.or_none]

/-- After a call that writes there is one length and one type. -/
theorem perform_written (lib : JsonLibrary) (rep : Response) (call : Call) {code : StatusType}
    {type body : Bytes} (written : call.written lib = some (code, type, body))
    (distinct : ((rep.perform lib call).headers.map Header.name).Nodup) :
    (rep.perform lib call).headers.filter (fun i => i.name = text "Content-Length") =
        [⟨text "Content-Length", Decimal.numeral body.length⟩] ∧
      (rep.perform lib call).headers.filter (fun i => i.name = text "Content-Type") =
        [⟨text "Content-Type", type⟩] := by
  obtain ⟨headers, wrote⟩ := perform_sets lib rep call
  obtain ⟨_, _, sets⟩ := wrote code type body written
  rw [sets] at headers
  have value (name : Bytes) := valueIn_setAll rep.headers [(text "Content-Length",
    Decimal.numeral body.length), (text "Content-Type", type)] name
  rw [← headers] at value
  constructor
  · exact filter_name distinct ((value (text "Content-Length")).trans rfl)
  · exact filter_name distinct ((value (text "Content-Type")).trans rfl)

/-- Whatever is set and written, and in whatever order: the names of the headers are
distinct and stand in the order in which they were first set, and each has the value
that was set last. After a call that writes there is one length, that of the content,
and one type, that of the call, and the line of the status, every header once, a blank
line and the content are sent. -/
theorem headers_consistent (lib : JsonLibrary) (start : Start) (calls : List Call) :
    ((performAll lib start.response calls).headers.map Header.name).Nodup ∧
    (∀ name, (performAll lib start.response calls).header name =
      (lastValue (start.sets ++ calls.flatMap (Call.sets lib)) name).getD []) ∧
    (performAll lib start.response calls).headers.map Header.name =
      firstNames (start.sets ++ calls.flatMap (Call.sets lib)) ∧
    ∀ call code type body, call.written lib = some (code, type, body) →
      ∃ rep, rep = (performAll lib start.response calls).perform lib call ∧
        rep.content = body ∧
        rep.headers.filter (fun i => i.name = text "Content-Length") =
          [⟨text "Content-Length", Decimal.numeral rep.content.length⟩] ∧
        rep.headers.filter (fun i => i.name = text "Content-Type") =
          [⟨text "Content-Type", type⟩] ∧
        ∃ phrase, (∀ c ∈ phrase, isCtl c = false) ∧
          rep.toBuffers.flatten =
            text "HTTP/1.0 " ++ Decimal.numeral code.number ++ text " " ++ phrase ++
              text "\r\n" ++ rep.headers.flatMap headerLine ++ text "\r\n" ++ body := by
  refine ⟨performAll_distinct lib start calls, performAll_header lib start calls,
    performAll_names lib start calls, fun call code type body written => ?_⟩
  have distinct := performAll_distinct lib start (calls ++ [call])
  rw [performAll_concat] at distinct
  obtain ⟨status, content, _⟩ := (perform_sets lib _ call).2 code type body written
  obtain ⟨length, kind⟩ := perform_written lib _ call written distinct
  obtain ⟨phrase, plain, line⟩ := statusString_number code
  refine ⟨_, rfl, content, ?_, kind, phrase, plain, ?_⟩
  · rw [content]
    exact length
  · rw [toBuffers_flatten, status, line, content]

end Response

end Cppboot.Http
