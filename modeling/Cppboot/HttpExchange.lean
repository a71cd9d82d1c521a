import Cppboot.FileServer
import Cppboot.RequestEncoding
import Cppboot.ResponseTrip

/-!
# An exchange between the HTTP client and the server

The client writes a request, the server reads it in blocks, hands it to the handler that
its mux chooses and writes the reply, and closes the connection; the client reads what
has arrived. TCP cuts both directions as it likes. The connection is established before,
and the reply that the client's caller passes has no headers and no content yet.

Put together, the parts come to this. A request whose target is written without escapes,
and whose head ends in the last block that is read, reaches the handler that was
registered for its path with the method, the path, the parameters and the content of the
client. A reply that can be sent comes back as the handler left it, and one with any
status but 200 as an error that names it, without a trace in the reply of the caller.
-/

namespace Cppboot.Http

open Incremental TcpConnection Client Streams LastWins

/-- A handler, as what it makes of the reply it is given. -/
abbrev Func := Request → Response → Response

/-- The reply after the mux has served. -/
def Dispatch.reply (reply_ : Response) : Dispatch Func → Response
  | .called fn req => fn req reply_
  | .wrote code body => reply_.writeText code body

/-- The reply that a connection sends for what it has read. -/
def Served.reply (request_handler_ : ServeMux Func) (reply_ : Response) : Served → Option Response
  | .handled req => some ((request_handler_.serveHttp req).reply reply_)
  | .bad_request => some (.stockReply .bad_request)
  | .reading _ => none

/-- The reply to the blocks that are read, if there is one. -/
def answer (request_handler_ : ServeMux Func) (reply_ : Response) (blocks : List Bytes) :
    Option Response :=
  (doRead .fresh blocks).bind (Served.reply request_handler_ reply_)

namespace TcpConnection

/-- In blocks of which the last has the end of the head, a request is read as it is in one. -/
theorem Writable.doRead_blocks {r : Request} (writable : Writable r) {blocks : List Bytes}
    (sent : blocks.flatten = r.toBuffers) (last : blocks.dropLast.flatten.length < r.head.length) :
    doRead .fresh blocks = some (.handled
      (Reading.accept ⟨.expecting_newline_3, writable.requestHead.request⟩ r.content).req) := by
  have head_good : scan Reading.machine .fresh r.head =
      .emit .good ⟨.expecting_newline_3, writable.requestHead.request⟩ [] := by
    rw [← writable.requestHead_bytes, ← List.append_nil writable.requestHead.bytes]
    exact Reading.scan_head writable.requestHead []
  have whole_run : scan Reading.machine .fresh blocks.flatten =
      .emit .good ⟨.expecting_newline_3, writable.requestHead.request⟩ r.content := by
    rw [sent, Request.toBuffers_eq, scan_append, head_good]
    rfl
  have exact_run := first_exact (scan_resumable Reading.machine) .fresh [] blocks rfl
  rw [List.nil_append, whole_run] at exact_run
  obtain ⟨req, served, content⟩ := body_whole writable.accepted sent last
  rw [doRead_eq] at served ⊢
  cases ran : first (scan Reading.machine) .fresh [] blocks with
  | pending after rest =>
    rw [ran] at exact_run
    cases exact_run
  | found ending after rest unread =>
    rw [ran] at exact_run served
    simp only [First.whole, Outcome.emit.injEq] at exact_run
    obtain ⟨rfl, rfl, _⟩ := exact_run
    simp only [servedOf, Option.some.injEq, Served.handled.injEq] at served
    rw [← served, accept_content] at content
    rw [content]
    rfl

end TcpConnection

namespace Client

/-- The line of a status other than 200 is refused with its number. -/
theorem checkStatusLine_other {status : StatusType} (other : status ≠ .ok) (rest : Bytes) :
    checkStatusLine ⟨statusString status ++ rest, false, false⟩ =
      .error (.invalidArgumentError
        (text "Response returned with status code " ++ Decimal.numeral status.number)) := by
  cases status with
  | ok => exact absurd rfl other
  | _ => rfl

/-- A line of a status ends where it should. -/
theorem statusString_line (status : StatusType) :
    ∃ line, byte '\n' ∉ line ∧ statusString status = line ++ [byte '\n'] := by
  refine ⟨(statusString status).dropLast, ?_⟩
  cases status <;> decide

/-- A reply with another status is an error, and the reply of the caller stays as it was. -/
theorem readResponse_refused {rep : Response} (other : rep.status ≠ .ok) (resp : Response)
    {blocks : List Bytes} (sent : blocks.flatten = rep.toBuffers.flatten)
    (ending : Streams.Ending) :
    readResponse resp ⟨blocks, ending⟩ =
      (.invalidArgumentError
        (text "Response returned with status code " ++ Decimal.numeral rep.status.number),
        resp) := by
  obtain ⟨line, plain, spelled⟩ := statusString_line rep.status
  have whole : blocks.flatten = line ++ byte '\n' ::
      (rep.headers.flatMap Response.headerLine ++ text "\r\n" ++ rep.content) := by
    rw [sent, Response.toBuffers_flatten, spelled]
    simp
  have arrives : text "\r\n" <:+: [] ++ blocks.flatten := by
    obtain ⟨phrase, _, numbered⟩ := statusString_number rep.status
    rw [List.nil_append, sent, Response.toBuffers_flatten, numbered]
    refine ⟨text "HTTP/1.0 " ++ Decimal.numeral rep.status.number ++ text " " ++ phrase,
      rep.headers.flatMap Response.headerLine ++ text "\r\n" ++ rep.content, ?_⟩
    simp only [List.append_assoc]
  obtain ⟨⟨response, left⟩, first⟩ :=
    Option.isSome_iff_exists.mp ((readUntil_isSome_iff _ _ _).mpr arrives)
  obtain ⟨same, present⟩ := readUntil_some first
  rw [List.nil_append, whole] at same
  have reached : byte '\n' ∈ response := present.subset (by decide)
  obtain ⟨more, rfl, _⟩ := cut_behind_stop plain same reached
  have begun : line ++ byte '\n' :: more = statusString rep.status ++ more := by
    rw [spelled, List.append_assoc, List.singleton_append]
  unfold readResponse
  rw [first]
  dsimp only
  rw [begun, checkStatusLine_other other]

end Client

namespace Response

/-- A new header comes last. -/
theorem setHeaderIn_new {headers : List Header} {name : Bytes}
    (new : name ∉ headers.map Header.name) (value : Bytes) :
    setHeaderIn name value headers = headers ++ [⟨name, value⟩] := by
  induction headers with
  | nil => rfl
  | cons i headers inductionHypothesis =>
    rw [List.map_cons, List.mem_cons, not_or] at new
    rw [setHeaderIn, if_neg (Ne.symm new.1), inductionHypothesis new.2, List.cons_append]

/-- Headers with distinct names are set as they are. -/
theorem setAll_distinct {headers : List Header} (distinct : (headers.map Header.name).Nodup) :
    setAll [] (headers.map fun h => (h.name, h.value)) = headers := by
  induction headers using List.reverseRecOn with
  | nil => rfl
  | append_singleton headers h inductionHypothesis =>
    rw [List.map_append, List.nodup_append] at distinct
    obtain ⟨distinct, _, apart⟩ := distinct
    have new : h.name ∉ headers.map Header.name := fun member =>
      apart _ member _ (List.mem_singleton.mpr rfl) rfl
    have last : setAll [] ((headers ++ [h]).map fun h => (h.name, h.value)) =
        setHeaderIn h.name h.value (setAll [] (headers.map fun h => (h.name, h.value))) := by
      rw [List.map_append]
      exact List.foldl_append
    rw [last, inductionHypothesis distinct]
    exact setHeaderIn_new new h.value

end Response

/-- A reply that comes back as it is: all that is sent of it can be told apart, and the
headers end. -/
structure Complete (rep : Response) : Prop extends Sendable rep where
  some_header : rep.headers ≠ []
  some_value : ∀ h ∈ rep.headers, h.value ≠ []

/-- A complete reply is read back, however it is cut. -/
theorem Complete.read_back {rep : Response} (complete : Complete rep) (status : StatusType)
    {blocks : List Bytes} (sent : blocks.flatten = rep.toBuffers.flatten) :
    readResponse ⟨status, [], []⟩ ⟨blocks, .eof⟩ = (.okStatus, rep) := by
  have kept : (rep.headers.map fun h => (h.name, received h.value)) =
      rep.headers.map fun h => (h.name, h.value) := by
    refine List.map_congr_left fun h member => ?_
    rw [(received_eq_iff h.value).mpr (complete.some_value h member)]
  rw [readResponse_sent complete.toSendable status sent
    (Client.blank_line_sent complete.some_header rep.content), kept,
    Response.setAll_distinct complete.distinct, ← complete.status]

/-- A request for a URL whose path and query are written without escapes. -/
structure PlainRequest where
  method : Bytes
  scheme : Bytes
  host : Bytes
  path : Bytes
  query : Option Bytes
  content : Bytes
  method_nonempty : method ≠ []
  method_token : ∀ c ∈ method, isToken c = true
  scheme_nonempty : scheme ≠ []
  scheme_plain : byte ':' ∉ scheme
  host_nonempty : host ≠ []
  host_plain : ∀ c ∈ host, c ≠ byte '/' ∧ isCtl c = false
  path_plain : ∀ c ∈ path, IsPlain c ∧ c ≠ byte '?'
  query_plain : ∀ c ∈ query.getD [], IsPlain c

namespace PlainRequest

/-- The URL as it is spelled. -/
def raw_url (p : PlainRequest) : Bytes :=
  p.scheme ++ text "://" ++ p.host ++ text "/" ++ (p.path ++ p.query.elim [] (byte '?' :: ·))

/-- The parts that are read of it. -/
def url (p : PlainRequest) : Url where
  scheme := p.scheme
  host := p.host
  raw_path := byte '/' :: p.path
  raw_query := p.query.getD []

/-- The URL is read as its parts. -/
theorem create_url (p : PlainRequest) : Url.create p.raw_url = some p.url := by
  have unmarked : byte '?' ∉ p.path := fun member => (p.path_plain _ member).2 rfl
  have rooted : byte '/' ∉ p.host := fun member => (p.host_plain _ member).1 rfl
  have tail : p.query.elim [] (byte '?' :: ·) = [] ∨
      ∃ rest, p.query.elim [] (byte '?' :: ·) = byte '?' :: rest := by
    cases p.query with
    | none => exact .inl rfl
    | some q => exact .inr ⟨q, rfl⟩
  have parts := Url.create_parts p.scheme_nonempty p.scheme_plain p.host_nonempty rooted unmarked
    tail
  rw [raw_url, parts, url]
  cases p.query <;> rfl

/-- A request that is written for the URL: `Get` and `Post` make such a request, and the
headers that are set on it are not written. -/
def Writes (p : PlainRequest) (r : Request) : Prop :=
  r.method = p.method ∧ r.url = p.url ∧ r.content = p.content

/-- What is written does not depend on anything else. -/
def request (p : PlainRequest) : Request where
  method := p.method
  url := p.url
  content := p.content

theorem request_writes (p : PlainRequest) : p.Writes p.request := ⟨rfl, rfl, rfl⟩

/-- All requests for a URL have one head. -/
theorem Writes.head {p : PlainRequest} {r : Request} (writes : p.Writes r) :
    r.head = p.request.head := by
  obtain ⟨method, url, content⟩ := writes
  simp only [Request.head, Request.target, method, url, content, request]
  rfl

/-- All requests for a URL are written alike. -/
theorem Writes.toBuffers {p : PlainRequest} {r : Request} (writes : p.Writes r) :
    r.toBuffers = p.request.toBuffers := by
  rw [Request.toBuffers_eq, Request.toBuffers_eq, writes.head, writes.2.2]
  rfl

/-- The target needs no escapes. -/
theorem Writes.target_plain {p : PlainRequest} {r : Request} (writes : p.Writes r) :
    ∀ c ∈ r.target, IsPlain c := by
  obtain ⟨_, url, _⟩ := writes
  refine Http.target_plain ?_ ?_
  · intro c member
    rw [url] at member
    rcases List.mem_cons.mp member with rfl | member
    · decide
    · exact (p.path_plain c member).1
  · intro c member
    rw [url] at member
    exact p.query_plain c member

/-- Every request for a plain URL can be written. -/
theorem Writes.writable {p : PlainRequest} {r : Request} (writes : p.Writes r) : Writable r := by
  have chars := writes.target_plain
  obtain ⟨method, url, _⟩ := writes
  refine ⟨method ▸ p.method_nonempty, method ▸ p.method_token, ?_, ?_⟩
  · intro c member
    exact ⟨(chars c member).1, (chars c member).2.1⟩
  · intro c member
    rw [url] at member
    exact (p.host_plain c member).2

end PlainRequest

/-- How TCP cuts a request and a reply. The head of the request ends in the last block
that the server reads. -/
structure Cuts (req : Request) (reply : Response) where
  blocks : List Bytes
  back : List Bytes
  sent : blocks.flatten = req.toBuffers
  last : blocks.dropLast.flatten.length < req.head.length
  returned : back.flatten = reply.toBuffers.flatten

/-- What the server reads of a request that is written for the URL. -/
theorem PlainRequest.read (p : PlainRequest) :
    ∃ asked : Request, asked.method = p.method ∧ asked.path = byte '/' :: p.path ∧
      asked.params = FormData.empty.parse (p.query.getD []) ∧ asked.content = p.content ∧
      ∀ (req : Request) (reply : Response), p.Writes req → ∀ cuts : Cuts req reply,
        doRead .fresh cuts.blocks = some (.handled asked) := by
  have writes := p.request_writes
  have chars := writes.target_plain
  have unmarked : byte '?' ∉ p.request.url.raw_path := by
    intro member
    rcases List.mem_cons.mp member with same | member
    · exact absurd same (by decide)
    · exact (p.path_plain _ member).2 rfl
  obtain ⟨parsed, read, _, method, path, params, content⟩ :=
    writes.writable.parsed unmarked fun c member => (chars c member).2.2
  have asked := Option.some.inj ((writes.writable.parse_toBuffers).symm.trans read)
  refine ⟨parsed.reading.req, method, path, params, content, ?_⟩
  intro req reply written cuts
  rw [writes.writable.doRead_blocks (cuts.sent.trans written.toBuffers)
    (written.head ▸ cuts.last), ← asked]

/-- A request is answered by the handler that was registered for its path, which gets the
method, the path, the parameters and the content of the client; and the client gets the
reply of that handler, or an error that names its status.

Proof: the blocks are read as one, by the grammar of the request line; the mux serves what
its calls say; and the reply is read back behind its status line. -/
theorem exchange_delivers (p : PlainRequest) (calls : List (Bytes × Func)) (reply_ : Response) :
    ∃ (asked : Request) (dispatch : Dispatch Func), ServeMux.Serves calls asked dispatch ∧
      asked.method = p.method ∧ asked.path = byte '/' :: p.path ∧
      asked.params = FormData.empty.parse (p.query.getD []) ∧ asked.content = p.content ∧
      ∀ (req : Request), p.Writes req → ∀ cuts : Cuts req (dispatch.reply reply_),
        answer (.ofCalls calls) reply_ cuts.blocks = some (dispatch.reply reply_) ∧
        ((dispatch.reply reply_).status ≠ .ok → ∀ resp,
          readResponse resp ⟨cuts.back, .eof⟩ =
            (.invalidArgumentError (text "Response returned with status code " ++
              Decimal.numeral (dispatch.reply reply_).status.number), resp)) ∧
        (Complete (dispatch.reply reply_) → ∀ status,
          readResponse ⟨status, [], []⟩ ⟨cuts.back, .eof⟩ =
            (.okStatus, dispatch.reply reply_)) := by
  obtain ⟨asked, method, path, params, content, read⟩ := p.read
  refine ⟨asked, _, (ServeMux.ofCalls_holds calls).serves asked, method, path, params, content, ?_⟩
  intro req written cuts
  refine ⟨?_, ?_, ?_⟩
  · rw [answer, read req _ written cuts]
    rfl
  · intro other resp
    exact readResponse_refused other resp cuts.returned .eof
  · intro complete status
    exact complete.read_back status cuts.returned

theorem sample_named : text "http" ≠ [] ∧ text "h:80" ≠ [] := by
  decide

theorem get_named : text "GET" ≠ [] := by
  decide

theorem get_token : ∀ c ∈ text "GET", isToken c = true :=
  List.all_eq_true.mp rfl

theorem sample_plain :
    byte ':' ∉ text "http" ∧ (∀ c ∈ text "h:80", c ≠ byte '/' ∧ isCtl c = false) ∧
      (∀ c ∈ text "a", IsPlain c ∧ c ≠ byte '?') ∧
      ∀ c ∈ Option.getD (none : Option Bytes) [], IsPlain c :=
  ⟨by decide, by decide +kernel, List.forall_mem_singleton.mpr (by decide), List.forall_mem_nil _⟩

/-- A request for `http://h:80/a`. -/
def PlainRequest.sample : PlainRequest where
  method := text "GET"
  scheme := text "http"
  host := text "h:80"
  path := text "a"
  query := none
  content := []
  method_nonempty := get_named
  method_token := get_token
  scheme_nonempty := sample_named.1
  scheme_plain := sample_plain.1
  host_nonempty := sample_named.2
  host_plain := sample_plain.2.1
  path_plain := sample_plain.2.2.1
  query_plain := sample_plain.2.2.2

/-- The request is cut inside of its head, and the reply after so many characters. -/
def Cuts.halves (p : PlainRequest) (reply : Response) {n : Nat}
    (inside : n < p.request.head.length) : Cuts p.request reply where
  blocks := [p.request.toBuffers.take n, p.request.toBuffers.drop n]
  back := [reply.toBuffers.flatten.take n, reply.toBuffers.flatten.drop n]
  sent := by simp
  last := by
    rw [List.dropLast_cons_cons, List.dropLast_singleton, List.flatten_singleton,
      List.length_take]
    exact Nat.lt_of_le_of_lt (Nat.min_le_left _ _) inside
  returned := by simp

theorem sample_head : 12 < PlainRequest.sample.request.head.length := by
  decide +kernel

/-- Without a handler there is a reply, and the client gets an error. -/
theorem unhandled_refused :
    ∃ reply, answer (.ofCalls []) ⟨.ok, [], []⟩
        [PlainRequest.sample.request.toBuffers.take 12,
          PlainRequest.sample.request.toBuffers.drop 12] = some reply ∧
      readResponse ⟨.ok, [], []⟩
          ⟨[reply.toBuffers.flatten.take 12, reply.toBuffers.flatten.drop 12], .eof⟩ =
        (.invalidArgumentError (text "Response returned with status code 404"), ⟨.ok, [], []⟩) := by
  obtain ⟨asked, dispatch, served, _, _, _, _, delivered⟩ :=
    exchange_delivers .sample [] ⟨.ok, [], []⟩
  obtain ⟨answered, refused, _⟩ :=
    delivered _ PlainRequest.sample.request_writes (.halves _ _ sample_head)
  refine ⟨dispatch.reply ⟨.ok, [], []⟩, answered, ?_⟩
  cases served with
  | exactly fn named first => cases first
  | longest entry _ chosen =>
    obtain ⟨before, after, empty, _⟩ := chosen
    exact absurd empty.symm (List.append_ne_nil_of_right_ne_nil _ (List.cons_ne_nil _ _))
  | nothing =>
    exact refused (by decide) ⟨.ok, [], []⟩

namespace FileServer

/-- A file server as a handler. -/
def handler (server : FileServer) (disk : Disk) : Func :=
  fun req rep => (server.serveHttp disk req rep).1

/-- The content of a path: that of the file in memory, or else of the one on disk. -/
def stored (server : FileServer) (disk : Disk) (request_path : Bytes) : Option Bytes :=
  server.files_[resolved request_path]?.or (disk (cstr (server.root_ ++ resolved request_path)))

/-- The reply with a file. -/
def fileReply (request_path content : Bytes) : Response where
  status := .ok
  headers :=
    [⟨text "Content-Length", Decimal.numeral content.length⟩,
      ⟨text "Content-Type", extensionToType (fileExtension (resolved request_path))⟩]
  content := content

/-- A path that is accepted is answered with its content, into a reply without one. -/
theorem handler_stored {server : FileServer} {disk : Disk} {req : Request} {content : Bytes}
    (accepted : ¬ Refused req.subpath) (found : server.stored disk req.subpath = some content)
    {reply_ : Response} (begun : reply_.content = []) :
    server.handler disk req reply_ = fileReply req.subpath content := by
  unfold stored at found
  unfold handler
  cases memory : server.files_[resolved req.subpath]? with
  | some kept =>
    rw [memory, Option.some_or, Option.some.injEq] at found
    rw [serveHttp_memory accepted memory, fillOut_eq, found]
    rfl
  | none =>
    rw [memory, Option.none_or] at found
    rw [serveHttp_disk accepted memory found, fillOut_eq, begun]
    rfl

/-- The types of files are plain words. -/
theorem extensionToType_plain (extension : Bytes) :
    extensionToType extension ≠ [] ∧ ∀ c ∈ extensionToType extension, isCtl c = false ∧ c ≠ sp := by
  have table : ∀ type ∈ text "text/plain" :: mappings.map Prod.snd,
      type ≠ [] ∧ ∀ c ∈ type, isCtl c = false ∧ c ≠ sp := by decide +kernel
  unfold extensionToType
  split
  next m found =>
    exact table _ (.tail _ (List.mem_map_of_mem (List.mem_of_find?_eq_some found)))
  next => exact table _ (.head _)

/-- The reply with a file comes back as it is. -/
theorem fileReply_complete (request_path content : Bytes) :
    Complete (fileReply request_path content) := by
  have digits := Decimal.numeral_digits content.length
  have typed := extensionToType_plain (fileExtension (resolved request_path))
  have plain_value : ∀ h ∈ (fileReply request_path content).headers,
      h.value ≠ [] ∧ ∀ c ∈ h.value, isCtl c = false ∧ c ≠ sp := by
    intro h member
    simp only [fileReply, List.mem_cons, List.not_mem_nil, or_false] at member
    rcases member with rfl | rfl
    · refine ⟨Decimal.numeral_ne_nil _, fun c member =>
        ⟨TcpConnection.digit_plain (digits c member), ?_⟩⟩
      rintro rfl
      exact absurd (digits _ member) (by decide)
    · exact typed
  have names : ∀ name ∈ [text "Content-Length", text "Content-Type"],
      name ≠ [] ∧ byte ':' ∉ name ∧ ∀ c ∈ name, isCtl c = false := by decide +kernel
  have plain_name : ∀ h ∈ (fileReply request_path content).headers,
      h.name ≠ [] ∧ byte ':' ∉ h.name ∧ ∀ c ∈ h.name, isCtl c = false :=
    fun h member => names h.name (List.mem_map_of_mem (f := Header.name) member)
  refine ⟨⟨rfl, ?_, ?_, ?_, ?_, ?_⟩, by simp [fileReply], fun h member => (plain_value h member).1⟩
  · change [text "Content-Length", text "Content-Type"].Nodup
    decide
  · exact fun h member => (plain_name h member).1
  · exact fun h member => (plain_name h member).2
  · exact fun h member c inside => ((plain_value h member).2 c inside).1
  · intro h member
    refine ⟨fun first => ?_, fun last => ?_⟩
    · exact ((plain_value h member).2 _ (List.mem_of_head? first)).2 rfl
    · exact ((plain_value h member).2 _ (List.mem_of_getLast? last)).2 rfl

/-- A file below a pattern arrives as it is stored. Where the mux selects a file server for
the path of a URL, and the path behind the pattern is accepted and has a content, the client
gets that content byte by byte with its length and its type. -/
theorem file_downloaded (p : PlainRequest) (calls : List (Bytes × Func)) (server : FileServer)
    (disk : Disk) {pattern content : Bytes}
    (selects : (ServeMux.ofCalls calls).selected (byte '/' :: p.path) =
      some ⟨pattern, server.handler disk⟩)
    (below : byte '/' :: p.path ≠ pattern)
    (accepted : ¬ Refused ((byte '/' :: p.path).drop (pattern.length - 1)))
    (found : server.stored disk ((byte '/' :: p.path).drop (pattern.length - 1)) = some content)
    {reply_ : Response} (begun : reply_.content = []) {req : Request} (written : p.Writes req)
    (cuts : Cuts req (fileReply ((byte '/' :: p.path).drop (pattern.length - 1)) content))
    (status : StatusType) :
    answer (.ofCalls calls) reply_ cuts.blocks =
        some (fileReply ((byte '/' :: p.path).drop (pattern.length - 1)) content) ∧
      readResponse ⟨status, [], []⟩ ⟨cuts.back, .eof⟩ =
        (.okStatus, fileReply ((byte '/' :: p.path).drop (pattern.length - 1)) content) := by
  obtain ⟨asked, _, path, _, _, read⟩ := p.read
  refine ⟨?_, (fileReply_complete _ content).read_back status cuts.returned⟩
  rw [← path] at selects below accepted found
  obtain ⟨same, _⟩ | ⟨_, _, served⟩ := (ServeMux.ofCalls_holds calls).selects selects
  · exact absurd same below
  · rw [answer, read req _ written cuts]
    change some (((ServeMux.ofCalls calls).serveHttp asked).reply reply_) = _
    rw [served, ← path]
    exact congrArg some (handler_stored accepted found begun)

/-- A file in memory below `/`. -/
theorem sample_downloaded :
    answer (.ofCalls [(text "/", (bare.addFile (text "/a") (text "b")).handler fun _ => none)])
        ⟨.ok, [], []⟩ [PlainRequest.sample.request.toBuffers.take 12,
          PlainRequest.sample.request.toBuffers.drop 12] =
      some (fileReply (text "/a") (text "b")) ∧
      readResponse ⟨.ok, [], []⟩
          ⟨[(fileReply (text "/a") (text "b")).toBuffers.flatten.take 12,
            (fileReply (text "/a") (text "b")).toBuffers.flatten.drop 12], .eof⟩ =
        (.okStatus, fileReply (text "/a") (text "b")) := by
  have added : (bare.addFile (text "/a") (text "b")).files_[resolved (text "/a")]? =
      some (text "b") := Std.ExtTreeMap.getElem?_insert_self
  have found : (bare.addFile (text "/a") (text "b")).stored (fun _ => none) (text "/a") =
      some (text "b") := by
    rw [stored, added]
    rfl
  exact @file_downloaded .sample
    [(text "/", (bare.addFile (text "/a") (text "b")).handler fun _ => none)]
    (bare.addFile (text "/a") (text "b")) (fun _ => none) (text "/") (text "b") rfl (by decide)
    (by decide) found ⟨.ok, [], []⟩ rfl _ PlainRequest.sample.request_writes
    (.halves _ _ sample_head) .ok

end FileServer

end Cppboot.Http
