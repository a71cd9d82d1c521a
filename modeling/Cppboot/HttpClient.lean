import Cppboot.InputStream
import Cppboot.ResponseHeaders
import Cppboot.Status
import Cppboot.UrlGrammar

/-!
# The HTTP client

`GetEndpointFromUrl` splits the host of a URL at its last colon. The position of a
colon that is not there is `npos`, the greatest number, which the function takes for
any other position: it is more than zero, and the next number is zero. So a host
without a port is asked for as its own service, and a port without a host is not
split off.

`ReadResponse` reads the status line, the headers and everything up to the end of the
connection. The headers go straight into the reply of the caller, the status and the
content only when the connection has ended in order.
-/

namespace Cppboot.Http.Client

open Streams

/-- What the resolver is asked for. -/
structure Query where
  host : Bytes
  service : Bytes
deriving DecidableEq, Repr

/-- `colon > 0`, also for `npos`. -/
def positive : Option Nat → Bool
  | none => true
  | some pos => 0 < pos

/-- `substr(0, colon)`, also for `npos`. -/
def inFront (s : Bytes) : Option Nat → Bytes
  | none => s
  | some pos => s.take pos

/-- `substr(colon + 1)`, also for `npos`, where the sum is zero. -/
def behind (s : Bytes) : Option Nat → Bytes
  | none => s.drop 0
  | some pos => s.drop (pos + 1)

def getEndpointFromUrl (url : Url) : Query :=
  let colon := findLastOf url.host (byte ':')
  if positive colon then
    let host := inFront url.host colon
    let host := if host.isEmpty then text "0.0.0.0" else host
    ⟨host, behind url.host colon⟩
  else ⟨url.host, url.scheme⟩

/-- The status line of a reply is looked at. -/
def checkStatusLine (response_stream : InputStream) : Except Status InputStream :=
  let (http_version, response_stream) := response_stream.word
  let (status_code, response_stream) := response_stream.number
  let (_, response_stream) := response_stream.getline
  if response_stream.failbit = true ∨ http_version.take 5 ≠ text "HTTP/" then
    .error (.invalidArgumentError (text "Invalid response"))
  else if status_code ≠ 200 then
    .error (.invalidArgumentError
      (text "Response returned with status code " ++ Decimal.numeral status_code.toNat))
  else .ok response_stream

/-- The name and the value in a line. The line has a carriage return at its end, which
is trimmed off with the blanks. -/
def headerField (header : Bytes) : Option (Bytes × Bytes) :=
  if byte ':' ∈ header then
    some (header.takeWhile (· ≠ byte ':'),
      strTrim ((header.dropWhile (· ≠ byte ':')).drop 1) [])
  else none

/-- Set the header of a line. A line without a colon is only logged. -/
def setField (resp : Response) (header : Bytes) : Response :=
  match headerField header with
  | some (name, value) => resp.setHeader name value
  | none => resp

/-- Read lines up to the blank one, and set their headers. -/
def processHeaders (resp : Response) (response_stream : InputStream) : Response × InputStream :=
  let line := response_stream.getline
  if _read : line.2.failbit = false ∧ line.1 ≠ text "\r" then
    processHeaders (setField resp line.1) line.2
  else (resp, line.2)
termination_by response_stream.buffer.length
decreasing_by exact InputStream.getline_shorter _read.1

/-- Read until the end of the connection. -/
def readContent (content : Bytes) (blocks : List Bytes) : Bytes := blocks.foldl (· ++ ·) content

def readResponse (resp : Response) (socket_ : Incoming) : Status × Response :=
  match readUntil (text "\r\n") [] socket_.blocks with
  | none => (.cancelledError (text "read_until: " ++ socket_.ending.message), resp)
  | some (response, blocks) =>
    match checkStatusLine ⟨response, false, false⟩ with
    | .error st => (st, resp)
    | .ok response_stream =>
      match readUntil (text "\r\n\r\n") response_stream.buffer blocks with
      | none => (.cancelledError (text "read_until: " ++ socket_.ending.message), resp)
      | some (response, blocks) =>
        let (resp, response_stream) :=
          processHeaders resp { response_stream with buffer := response }
        let content := readContent response_stream.buffer blocks
        if socket_.ending ≠ .eof then (.cancelledError socket_.ending.message, resp)
        else (.okStatus, { resp with status := .ok, content := content })

/-- A URL that names a host and perhaps a port. -/
structure Address where
  scheme : Bytes
  host : Bytes
  port : Option Bytes
  path : Bytes
  scheme_nonempty : scheme ≠ []
  scheme_plain : byte ':' ∉ scheme
  host_plain : byte '/' ∉ host
  portless : port = none → host ≠ [] ∧ byte ':' ∉ host ∧ byte '?' ∉ host
  port_plain : ∀ p, port = some p → byte ':' ∉ p ∧ byte '/' ∉ p

namespace Address

/-- The host and the port as they stand in the URL. -/
def site (address : Address) : Bytes := address.host ++ address.port.elim [] (byte ':' :: ·)

def spelled (address : Address) : Bytes :=
  address.scheme ++ text "://" ++ address.site ++ text "/" ++ address.path

/-- What is to be asked for: the port, or else the scheme, as a service of the host. -/
def wanted (address : Address) : Query :=
  match address.port with
  | none => ⟨address.host, address.scheme⟩
  | some port => ⟨if address.host = [] then text "0.0.0.0" else address.host, port⟩

/-- A site is not empty and holds no slash. -/
theorem site_form (address : Address) : address.site ≠ [] ∧ byte '/' ∉ address.site := by
  have unslashed := address.host_plain
  unfold site
  cases given : address.port with
  | none => simpa using ⟨(address.portless given).1, unslashed⟩
  | some port =>
    have port_plain := (address.port_plain port given).2
    refine ⟨by simp, ?_⟩
    rw [Option.elim_some, List.mem_append, List.mem_cons, not_or, not_or]
    exact ⟨unslashed, by decide, port_plain⟩

/-- The URL is taken apart at the slash behind its host. -/
theorem create_spelled (address : Address) :
    ∃ url, Url.create address.spelled = some url ∧ url.scheme = address.scheme ∧
      url.host = address.site := by
  obtain ⟨nonempty, unslashed⟩ := address.site_form
  have cut : address.path.takeWhile (· ≠ byte '?') ++ address.path.dropWhile (· ≠ byte '?') =
      address.path := List.takeWhile_append_dropWhile
  have made := Url.create_parts address.scheme_nonempty address.scheme_plain nonempty unslashed
    (stop_not_mem_front address.path (byte '?')) (dropWhile_stop address.path (byte '?'))
  rw [cut] at made
  exact ⟨_, made, rfl, rfl⟩

end Address

/-- The condition under which the resolver is asked for what is wanted: with a port,
there is a host in front of it; without one, the host has the name of the scheme. -/
def Address.Resolvable (address : Address) : Prop :=
  match address.port with
  | none => address.host = address.scheme
  | some _ => address.host ≠ []

/-- The last colon is the one in front of the port. -/
theorem endpoint_of_port {url : Url} {host port : Bytes} (plain : byte ':' ∉ port)
    (site : url.host = host ++ byte ':' :: port) :
    getEndpointFromUrl url =
      if host = [] then ⟨byte ':' :: port, url.scheme⟩ else ⟨host, port⟩ := by
  have colon := findLastOf_stop host plain
  unfold getEndpointFromUrl
  rw [site, colon]
  by_cases hostless : host = []
  · rw [if_pos hostless, hostless]
    rfl
  · have after : positive (some host.length) = true := by
      simpa [positive] using List.length_pos_iff.mpr hostless
    have front : inFront (host ++ byte ':' :: port) (some host.length) = host := List.take_left
    have service : behind (host ++ byte ':' :: port) (some host.length) = port := by
      rw [behind, ← List.drop_drop, List.drop_left]
      rfl
    have present : ¬ host.isEmpty = true := by simpa using hostless
    rw [if_neg hostless]
    simp only [after, if_true, front, service, if_neg present]

/-- Without a colon the host is its own service. -/
theorem endpoint_without_port {url : Url} (nonempty : url.host ≠ []) (plain : byte ':' ∉ url.host) :
    getEndpointFromUrl url = ⟨url.host, url.host⟩ := by
  have present : ¬ url.host.isEmpty = true := by simpa using nonempty
  unfold getEndpointFromUrl
  rw [findLastOf_none plain]
  have front : inFront url.host none = url.host := rfl
  dsimp only
  rw [front, if_neg present]
  rfl

/-- The resolver is asked for the host and the port of a URL, or for its host and its
scheme, exactly when there is a host in front of the port, or the host without one is
named like the scheme. -/
theorem endpoint_wanted_iff (address : Address) :
    (∃ url, Url.create address.spelled = some url ∧ getEndpointFromUrl url = address.wanted) ↔
      address.Resolvable := by
  obtain ⟨url, made, scheme, site⟩ := address.create_spelled
  have found : (∃ url, Url.create address.spelled = some url ∧
      getEndpointFromUrl url = address.wanted) ↔ getEndpointFromUrl url = address.wanted := by
    rw [made]
    constructor
    · rintro ⟨_, ⟨⟩, asked⟩
      exact asked
    · exact fun asked => ⟨url, rfl, asked⟩
  rw [found]
  unfold Address.wanted Address.Resolvable
  unfold Address.site at site
  cases given : address.port with
  | none =>
    rw [given, Option.elim_none, List.append_nil] at site
    obtain ⟨nonempty, plain, _⟩ := address.portless given
    rw [← site] at nonempty plain ⊢
    rw [endpoint_without_port nonempty plain]
    simp
  | some port =>
    rw [given] at site
    rw [endpoint_of_port (address.port_plain port given).1 site]
    by_cases hostless : address.host = []
    · have apart : byte ':' :: port ≠ text "0.0.0.0" := fun same =>
        absurd (List.cons.inj same).1 (by decide)
      simp [hostless, apart]
    · simp [hostless]

/-- A host without a port is asked for as its own service. -/
theorem portless_host_asked :
    (Url.create (text "http://localhost/index")).map getEndpointFromUrl =
        some ⟨text "localhost", text "localhost"⟩ ∧
      (Url.create (text "http://localhost/index")).map getEndpointFromUrl ≠
        some ⟨text "localhost", text "http"⟩ ∧
      (Url.create (text "http://:80/index")).map getEndpointFromUrl =
        some ⟨text ":80", text "http"⟩ := by
  decide

end Cppboot.Http.Client
