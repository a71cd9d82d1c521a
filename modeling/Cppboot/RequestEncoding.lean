import Cppboot.HttpUrl
import Cppboot.RequestBody

/-!
# What the server reads of a request that the client wrote

The request line that a client writes carries the path and the query of its URL,
so the server finds them again, with the content behind the head. The headers
are another matter: the client writes four of its own and none of those that were
set, so a header that was set reaches the server only where it happens to be one
of the four.
-/

namespace Cppboot.Http

open Incremental TcpConnection

/-- A character that a path or a query may be written with. -/
def IsPlain (c : UInt8) : Prop :=
  isCtl c = false ∧ c ≠ sp ∧ c ≠ byte '%' ∧ c ≠ byte '+'

instance (c : UInt8) : Decidable (IsPlain c) := inferInstanceAs (Decidable (_ ∧ _ ∧ _ ∧ _))

/-- Decoding changes nothing where there is neither an escape nor a plus sign. -/
theorem urlDecodeFrom_plain (out : Bytes) {input : Bytes}
    (plain : ∀ c ∈ input, c ≠ byte '%' ∧ c ≠ byte '+') :
    urlDecodeFrom out input = (true, out ++ input) := by
  induction input generalizing out with
  | nil => rw [urlDecodeFrom, List.append_nil]
  | cons c rest inductionHypothesis =>
    obtain ⟨unescaped, unspaced⟩ := plain c List.mem_cons_self
    unfold urlDecodeFrom
    rw [if_neg unescaped, if_neg unspaced,
      inductionHypothesis _ fun other member => plain other (List.mem_cons_of_mem _ member),
      List.append_assoc, List.singleton_append]

/-- Nothing is read of an empty query. -/
theorem FormData.parse_nil (form : FormData) : form.parse [] = form := by
  rw [FormData.parse]
  exact dif_pos rfl

/-- The path and the query of a request line are found again. -/
theorem parseUri_target {r req : Request} (path_plain : byte '?' ∉ r.url.raw_path)
    (uri : req.uri = r.target) (params : req.params = .empty) :
    req.parseUri.path = r.url.raw_path ∧
      req.parseUri.params = FormData.empty.parse r.url.raw_query := by
  unfold Request.parseUri
  rw [uri, params]
  cases query : r.url.raw_query with
  | nil =>
    have target : r.target = r.url.raw_path := by simp [Request.target, query]
    rw [target, if_neg path_plain, FormData.parse_nil]
    exact ⟨rfl, rfl⟩
  | cons c more =>
    have target : r.target = r.url.raw_path ++ byte '?' :: (c :: more) := by
      have mark : text "?" = [byte '?'] := rfl
      simp [Request.target, query, mark]
    obtain ⟨front, behind⟩ := cut_at_stop path_plain (c :: more)
    rw [target, if_pos (by simp), front, behind]
    exact ⟨rfl, rfl⟩

namespace TcpConnection

/-- The server accepts what is written for a request, with the content behind the
head. -/
theorem Writable.parse_toBuffers {r : Request} (writable : Writable r) :
    Reading.fresh.parse r.toBuffers = some ⟨.good, r.content,
      Reading.accept ⟨.expecting_newline_3, writable.requestHead.request⟩ r.content⟩ := by
  rw [Request.toBuffers_eq, ← writable.requestHead_bytes, Reading.parse_eq, Reading.scan_head]
  rfl

/-- What the server makes of a request line without escapes. -/
theorem Writable.parsed {r : Request} (writable : Writable r)
    (path_plain : byte '?' ∉ r.url.raw_path)
    (unescaped : ∀ c ∈ r.target, c ≠ byte '%' ∧ c ≠ byte '+') :
    ∃ parsed, Reading.fresh.parse r.toBuffers = some parsed ∧ parsed.result = .good ∧
      parsed.reading.req.method = r.method ∧ parsed.reading.req.path = r.url.raw_path ∧
      parsed.reading.req.params = FormData.empty.parse r.url.raw_query ∧
      parsed.reading.req.content = r.content := by
  have decoded : (urlDecode r.target).2 = r.target := by
    rw [urlDecode, urlDecodeFrom_plain [] unescaped]
    rfl
  refine ⟨_, writable.parse_toBuffers, rfl, ?_, ?_, ?_, accept_content _ _⟩
  · unfold Reading.accept Request.parseUri
    dsimp only
    split <;> rfl
  · exact (parseUri_target path_plain decoded rfl).1
  · exact (parseUri_target path_plain decoded rfl).2

end TcpConnection

/-- A request line is written with the characters of its path and its query. -/
theorem target_plain {r : Request} (path_plain : ∀ c ∈ r.url.raw_path, IsPlain c)
    (query_plain : ∀ c ∈ r.url.raw_query, IsPlain c) : ∀ c ∈ r.target, IsPlain c := by
  intro c member
  unfold Request.target at member
  split at member
  · exact path_plain c member
  · rw [List.append_assoc, List.mem_append, List.mem_append] at member
    rcases member with path | mark | query
    · exact path_plain c path
    · rw [List.mem_singleton.mp mark]
      decide
    · exact query_plain c query

/-- A request for a URL with a scheme, a host, a path and perhaps a query reaches
the server in one block: the method and the content are the client's, the path is
that of the URL, and the parameters are those of its query. -/
theorem written_request_parsed (method scheme host path : Bytes) (query : Option Bytes)
    (content : Bytes) (method_nonempty : method ≠ [])
    (method_token : ∀ c ∈ method, isToken c = true) (scheme_nonempty : scheme ≠ [])
    (scheme_plain : byte ':' ∉ scheme) (host_nonempty : host ≠ [])
    (host_plain : ∀ c ∈ host, c ≠ byte '/' ∧ isCtl c = false)
    (path_plain : ∀ c ∈ path, IsPlain c) (query_plain : ∀ c ∈ query.getD [], IsPlain c) :
    ∃ req, Request.create method (scheme ++ text "://" ++ host ++ text "/" ++
        (path ++ query.elim [] fun query => text "?" ++ query)) = some req ∧
      ∃ parsed, Reading.fresh.parse { req with content := content }.toBuffers = some parsed ∧
      parsed.result = .good ∧ parsed.reading.req.method = method ∧
      parsed.reading.req.path = req.url.raw_path ∧
      parsed.reading.req.params = FormData.empty.parse req.url.raw_query ∧
      (byte '?' ∉ path → query = none → parsed.reading.req.params = .empty) ∧
      parsed.reading.req.content = content := by
  have slash_plain : IsPlain (byte '/') := by decide
  generalize spelled : (path ++ query.elim [] fun query => text "?" ++ query) = rest
  have rest_plain : ∀ c ∈ rest, IsPlain c := by
    intro c member
    rw [← spelled, List.mem_append] at member
    rcases member with member | member
    · exact path_plain c member
    · cases query with
      | none => cases member
      | some query =>
        rcases List.mem_append.mp member with mark | member
        · rw [List.mem_singleton.mp mark]
          decide
        · exact query_plain c member
  have cut : rest.takeWhile (· ≠ byte '?') ++ rest.dropWhile (· ≠ byte '?') = rest :=
    List.takeWhile_append_dropWhile
  have unmarked := stop_not_mem_front rest (byte '?')
  have parts := Url.create_parts scheme_nonempty scheme_plain host_nonempty
    (fun member => (host_plain _ member).1 rfl) unmarked (dropWhile_stop rest (byte '?'))
  rw [cut] at parts
  have path_chars : ∀ c ∈ byte '/' :: rest.takeWhile (· ≠ byte '?'), IsPlain c := by
    intro c member
    rcases List.mem_cons.mp member with rfl | member
    · exact slash_plain
    · exact rest_plain c ((List.takeWhile_prefix _).subset member)
  have query_chars : ∀ c ∈ (rest.dropWhile (· ≠ byte '?')).drop 1, IsPlain c := by
    intro c member
    exact rest_plain c ((List.dropWhile_suffix _).subset (List.mem_of_mem_drop member))
  obtain ⟨req, created, rfl, url, _⟩ := Request.create_fields method parts
  have path_kept : req.url.raw_path = byte '/' :: rest.takeWhile (· ≠ byte '?') := by rw [url]
  have query_kept : req.url.raw_query = (rest.dropWhile (· ≠ byte '?')).drop 1 := by rw [url]
  have target_chars : ∀ c ∈ ({ req with content := content } : Request).target, IsPlain c :=
    target_plain (path_kept ▸ path_chars) (query_kept ▸ query_chars)
  have writable : Writable { req with content := content } := by
    refine ⟨method_nonempty, method_token, ?_, ?_⟩
    · intro c member
      exact ⟨(target_chars c member).1, (target_chars c member).2.1⟩
    · intro c member
      rw [url] at member
      exact (host_plain c member).2
  have path_unmarked : byte '?' ∉ req.url.raw_path := by
    rw [path_kept]
    intro member
    rcases List.mem_cons.mp member with same | member
    · exact absurd same (by decide)
    · exact unmarked member
  obtain ⟨parsed, read, good, method_read, path_read, params_read, content_read⟩ :=
    writable.parsed path_unmarked fun c member => (target_chars c member).2.2
  refine ⟨req, created, parsed, read, good, method_read, path_read, params_read, ?_, content_read⟩
  rintro absent rfl
  have nothing : req.url.raw_query = [] := by
    have all : rest.dropWhile (· ≠ byte '?') = [] := by
      rw [← spelled, Option.elim_none, List.append_nil, List.dropWhile_eq_nil_iff]
      intro c member
      exact decide_eq_true fun same => absent (same ▸ member)
    rw [query_kept, all]
    rfl
  rw [params_read]
  change FormData.empty.parse req.url.raw_query = _
  rw [nothing, FormData.parse_nil]

/-- A small request with a query. -/
theorem small_request_parsed :
    ∃ req, Request.create (text "POST") (text "http://h/name?k=v") = some req ∧
      ∃ parsed, Reading.fresh.parse { req with content := text "xrw666" }.toBuffers =
          some parsed ∧
        parsed.result = .good ∧ parsed.reading.req.path = req.url.raw_path ∧
        parsed.reading.req.content = text "xrw666" := by
  obtain ⟨req, created, parsed, read, good, _, path, _, _, content⟩ :=
    written_request_parsed (text "POST") (text "http") (text "h") (text "name")
      (some (text "k=v")) (text "xrw666") (by decide +kernel) (by decide +kernel)
      (by decide +kernel) (by decide +kernel) (by decide +kernel) (by decide +kernel)
      (by decide +kernel) (by decide +kernel)
  exact ⟨req, created, parsed, read, good, path, content⟩

namespace Request

def setHeader (req : Request) (name value : Bytes) : Request :=
  { req with headers := setHeaderIn name value req.headers }

def setHeaders (req : Request) (calls : List (Bytes × Bytes)) : Request :=
  calls.foldl (fun req call => req.setHeader call.1 call.2) req

/-- The value of the first header with a name. -/
def headerValue (req : Request) (name : Bytes) : Option Bytes := valueIn req.headers name

theorem headerValue_setHeader (req : Request) (name value other : Bytes) :
    (req.setHeader name value).headerValue other =
      if other = name then some value else req.headerValue other :=
  valueIn_setHeaderIn req.headers name value other

/-- Under every name that was set, a request has the value that was set last. -/
theorem headerValue_setHeaders (req : Request) (calls : List (Bytes × Bytes)) (name : Bytes) :
    (req.setHeaders calls).headerValue name =
      (calls.reverse.lookup name).or (req.headerValue name) := by
  induction calls generalizing req with
  | nil => rfl
  | cons call calls inductionHypothesis =>
    rw [setHeaders, List.foldl_cons, ← setHeaders, inductionHypothesis, headerValue_setHeader,
      List.reverse_cons, List.lookup_append, Option.or_assoc, List.lookup_singleton]
    by_cases same : name = call.1
    · simp [same]
    · simp [same]

/-- The headers change nothing in what is written. -/
theorem toBuffers_setHeaders (req : Request) (calls : List (Bytes × Bytes)) :
    (req.setHeaders calls).toBuffers = req.toBuffers := by
  induction calls generalizing req with
  | nil => rfl
  | cons call calls inductionHypothesis =>
    rw [setHeaders, List.foldl_cons, ← setHeaders, inductionHypothesis]
    rfl

/-- The headers that are written for every request. -/
def ownHeaders (req : Request) : List Header :=
  [⟨text "Host", req.url.host⟩, ⟨text "Accept", text "*/*"⟩] ++
    (if req.content.isEmpty then []
      else [⟨text "Content-Length", Decimal.numeral req.content.length⟩]) ++
    [⟨text "TcpConnection", text "close"⟩]

end Request

/-- The bytes start with a head that has this header. -/
def Spelled (bytes : Bytes) (header : Header) : Prop :=
  ∃ (head : RequestHead) (rest : Bytes), bytes = head.bytes ++ rest ∧
    header ∈ head.fields.map Field.header

/-- Accepting a head does not change its headers. -/
theorem accept_headers (r : Reading) (rest : Bytes) :
    (r.accept rest).req.headers = r.req.headers := by
  simp only [Reading.accept, Request.parseUri]
  split <;> rfl

/-- What is accepted starts with a head. -/
theorem accepted_head {bytes : Bytes} {parsed : Parsed}
    (read : Reading.fresh.parse bytes = some parsed) (good : parsed.result = .good) :
    ∃ (head : RequestHead) (rest : Bytes), bytes = head.bytes ++ rest := by
  rw [Reading.parse_eq] at read
  cases ran : scan Reading.machine .fresh bytes with
  | wait after rest =>
    rw [ran] at read
    rw [← Option.some.inj read] at good
    cases good
  | emit ending after rest =>
    cases ending with
    | good =>
      obtain ⟨head, split⟩ := Reading.head_inv ran
      exact ⟨head, rest, split⟩
    | bad =>
      rw [ran] at read
      rw [← Option.some.inj read] at good
      cases good
    | undefined => exact absurd ran (Reading.scan_defined bytes after rest)

/-- The headers of an accepted request are those its bytes spell. -/
theorem spelled_iff {bytes : Bytes} {parsed : Parsed}
    (read : Reading.fresh.parse bytes = some parsed) (good : parsed.result = .good)
    (header : Header) : Spelled bytes header ↔ header ∈ parsed.reading.req.headers := by
  have parsed_head (head : RequestHead) (rest : Bytes) (split : bytes = head.bytes ++ rest) :
      parsed.reading.req.headers = head.fields.map Field.header := by
    rw [split, Reading.parse_eq, Reading.scan_head] at read
    rw [← Option.some.inj read]
    exact accept_headers _ _
  constructor
  · rintro ⟨head, rest, split, member⟩
    rw [parsed_head head rest split]
    exact member
  · intro member
    obtain ⟨head, rest, split⟩ := accepted_head read good
    exact ⟨head, rest, split, parsed_head head rest split ▸ member⟩

/-- A request that can be written spells its own headers and no others. -/
theorem TcpConnection.Writable.spelled_iff_own {r : Request} (writable : Writable r)
    (header : Header) : Spelled r.toBuffers header ↔ header ∈ r.ownHeaders := by
  have headers : writable.requestHead.fields.map Field.header = r.ownHeaders := by
    unfold Writable.requestHead Request.ownHeaders
    split <;> simp [Field.header, contentLength]
  rw [spelled_iff writable.parse_toBuffers rfl, accept_headers, ← headers]
  rfl

/-- The method and the URL bring no line break or other control character along. -/
def Request.Unbroken (req : Request) : Prop :=
  ∀ c ∈ req.method ++ req.target ++ req.url.host, isCtl c = false

/-- The request line that the client writes. -/
theorem Request.toBuffers_line (req : Request) :
    ∃ more, req.toBuffers = req.method ++ sp :: (req.target ++ sp :: text "HTTP/1.0") ++
      cr :: more := by
  have space : text " " = [sp] := rfl
  have version : text " HTTP/1.0\r\n" = sp :: text "HTTP/1.0" ++ cr :: [lf] := rfl
  apply Exists.intro
  simp only [Request.toBuffers, Request.head, space, version, List.append_assoc,
    List.cons_append, List.nil_append]
  rfl

/-- The version that a head announces. -/
def RequestHead.version (head : RequestHead) : Bytes :=
  text "HTTP/" ++ head.major ++ text "." ++ head.minor

/-- The request line of a head. -/
theorem RequestHead.bytes_line (head : RequestHead) (rest : Bytes) :
    ∃ more, head.bytes ++ rest = head.method ++ sp :: (head.uri ++ sp :: head.version) ++
      cr :: more := by
  apply Exists.intro
  simp only [RequestHead.bytes, RequestHead.line, RequestHead.version, crlf, List.append_assoc,
    List.cons_append, List.nil_append]
  rfl

/-- The version has neither blanks nor line breaks. -/
theorem RequestHead.version_plain (head : RequestHead) :
    ∀ c ∈ head.version, c ≠ sp ∧ c ≠ cr := by
  intro c member
  have fixed : ∀ c ∈ text "HTTP/" ++ text ".", c ≠ sp ∧ c ≠ cr := by decide +kernel
  have digit (found : isDigit c = true) : c ≠ sp ∧ c ≠ cr :=
    ⟨Reading.ne_of_class found rfl, Reading.ne_of_class found rfl⟩
  simp only [RequestHead.version, List.mem_append] at member
  rcases member with ((scheme | major) | dot) | minor
  · exact fixed c (List.mem_append_left _ scheme)
  · exact digit (head.major_digits c major)
  · exact fixed c (List.mem_append_right _ dot)
  · exact digit (head.minor_digits c minor)

/-- The two blanks of a request line are its only ones. -/
theorem RequestHead.line_blanks (head : RequestHead) :
    sp ∉ head.method ∧ sp ∉ head.uri ∧ sp ∉ head.version :=
  ⟨fun member => Reading.ne_of_class (head.method_token sp member) rfl rfl,
    fun member => (head.uri_plain sp member).2 rfl,
    fun member => (head.version_plain sp member).1 rfl⟩

/-- The first line break of a head ends its request line. -/
theorem RequestHead.line_unbroken (head : RequestHead) :
    cr ∉ head.method ++ sp :: (head.uri ++ sp :: head.version) := by
  simp only [List.mem_append, List.mem_cons, not_or]
  have apart : cr ≠ sp := by decide
  exact ⟨fun member => Reading.ne_of_class (head.method_token cr member) rfl rfl, apart,
    fun member => Reading.ne_of_class (head.uri_plain cr member).1 rfl rfl, apart,
    fun member => (head.version_plain cr member).2 rfl⟩

/-- The first line break that the client writes ends its request line. -/
theorem Request.Unbroken.line_unbroken {req : Request} (unbroken : req.Unbroken) :
    cr ∉ req.method ++ sp :: (req.target ++ sp :: text "HTTP/1.0") := by
  simp only [List.mem_append, List.mem_cons, not_or]
  have apart : cr ≠ sp := by decide
  have plain (member : cr ∈ req.method ++ req.target ++ req.url.host) : False :=
    Reading.ne_of_class (unbroken cr member) rfl rfl
  exact ⟨fun member => plain (by simp [member]), apart, fun member => plain (by simp [member]),
    apart, by decide⟩

/-- What does not break lines and is accepted nevertheless can be written: its
request line has but the two blanks that the client puts there. -/
theorem Request.Unbroken.writable {req : Request} (unbroken : req.Unbroken) {parsed : Parsed}
    (read : Reading.fresh.parse req.toBuffers = some parsed) (good : parsed.result = .good) :
    Writable req := by
  obtain ⟨head, rest, split⟩ := accepted_head read good
  obtain ⟨more, spelled⟩ := head.bytes_line rest
  obtain ⟨others, written⟩ := req.toBuffers_line
  rw [spelled, written] at split
  have lines := (same_cut unbroken.line_unbroken head.line_unbroken split).1
  obtain ⟨method_blanks, uri_blanks, version_blanks⟩ := head.line_blanks
  -- Both lines have two blanks, so the method and the target have none.
  have blanks := congrArg (List.count sp) lines
  simp only [List.count_append, List.count_cons_self, List.count_eq_zero.mpr method_blanks,
    List.count_eq_zero.mpr uri_blanks, List.count_eq_zero.mpr version_blanks] at blanks
  have method_unblank : sp ∉ req.method := List.count_eq_zero.mp (by omega)
  have target_unblank : sp ∉ req.target := List.count_eq_zero.mp (by omega)
  obtain ⟨methods, targets⟩ := same_cut method_unblank method_blanks lines
  constructor
  · rw [methods]
    exact head.method_nonempty
  · rw [methods]
    exact head.method_token
  · rw [(same_cut target_unblank uri_blanks targets).1]
    exact head.uri_plain
  · intro c member
    exact unbroken c (List.mem_append_right _ member)

/-- For every name that was set, this holds of the header with its last value. -/
def LastSet (calls : List (Bytes × Bytes)) (holds : Header → Prop) : Prop :=
  ∀ name value, calls.reverse.lookup name = some value → holds ⟨name, value⟩

/-- The headers that were set reach the server exactly where they are spelled by
what is written for the method, the URL and the content alone. Where these break
no lines, that is when they are among the request's own headers. -/
theorem set_headers_arrive_iff (req : Request) (calls : List (Bytes × Bytes)) (parsed : Parsed)
    (read : Reading.fresh.parse (req.setHeaders calls).toBuffers = some parsed)
    (good : parsed.result = .good) :
    (LastSet calls (· ∈ parsed.reading.req.headers) ↔ LastSet calls (Spelled req.toBuffers)) ∧
    (req.Unbroken →
      (LastSet calls (· ∈ parsed.reading.req.headers) ↔ LastSet calls (· ∈ req.ownHeaders))) := by
  rw [Request.toBuffers_setHeaders] at read
  simp only [LastSet, ← spelled_iff read good, true_and]
  intro unbroken
  simp only [(unbroken.writable read good).spelled_iff_own]

/-- A header that repeats one of the request's own arrives. -/
theorem repeated_header_arrives :
    ∃ parsed, Reading.fresh.parse
        (smallPost.setHeaders [(text "Accept", text "*/*")]).toBuffers = some parsed ∧
      parsed.result = .good ∧
      LastSet [(text "Accept", text "*/*")] (· ∈ parsed.reading.req.headers) := by
  have unbroken : smallPost.Unbroken := by
    unfold Request.Unbroken
    decide +kernel
  have read := smallPost_writable.parse_toBuffers
  rw [← Request.toBuffers_setHeaders smallPost [(text "Accept", text "*/*")]] at read
  refine ⟨_, read, rfl, ?_⟩
  apply ((set_headers_arrive_iff smallPost _ _ read rfl).2 unbroken).mpr
  intro name value last
  rw [List.reverse_singleton, List.lookup_singleton, Option.ite_none_right_eq_some] at last
  obtain ⟨same, value_same⟩ := last
  rw [eq_of_beq same, ← Option.some.inj value_same]
  decide +kernel

/-- The request that `Post` makes for a URL and a content. -/
def post (raw_url content : Bytes) : Option Request :=
  (Request.create (text "POST") raw_url).map fun req =>
    ({ req with content := content } : Request).setHeader (text "Content-Type")
      (text "text/plain")

/-- The header that `Post` sets does not arrive, though the request is accepted. -/
theorem content_type_lost :
    ∃ req parsed, post (text "http://h/name") (text "xrw666") = some req ∧
      req.headerValue (text "Content-Type") = some (text "text/plain") ∧
      Reading.fresh.parse req.toBuffers = some parsed ∧ parsed.result = .good ∧
      ∀ header ∈ parsed.reading.req.headers, header.name ≠ text "Content-Type" := by
  have observed : (post (text "http://h/name") (text "xrw666")).bind (fun req =>
      (Reading.fresh.parse req.toBuffers).map fun parsed =>
        decide (req.headerValue (text "Content-Type") = some (text "text/plain") ∧
          parsed.result = .good ∧
          ∀ header ∈ parsed.reading.req.headers, header.name ≠ text "Content-Type")) =
      some true := by
    decide +kernel
  obtain ⟨req, made, observed⟩ := Option.bind_eq_some_iff.mp observed
  obtain ⟨parsed, read, seen⟩ := Option.map_eq_some_iff.mp observed
  obtain ⟨kept, good, lost⟩ := of_decide_eq_true seen
  exact ⟨req, parsed, made, kept, read, good, lost⟩

end Cppboot.Http
