import Mathlib.Data.List.Basic
import Cppboot.Decimal

/-!
# HTTP requests

A request as the client builds it and as the server fills it in, the key and
value pairs of its query, and the bytes the client writes for it. Only the
parts of the URL go into the request line; the headers that a caller sets are
kept in the request and not written.
-/

namespace Cppboot.Http

open Std

structure Header where
  name : Bytes
  value : Bytes
deriving DecidableEq, Repr

/-- The loop of `set_header` in a request and in a response: give the first header of this
name the value, or add one. -/
def setHeaderIn (name value : Bytes) : List Header → List Header
  | [] => [⟨name, value⟩]
  | i :: rest =>
    if i.name = name then { i with value := value } :: rest
    else i :: setHeaderIn name value rest

/-- The value of the first header of a name, if there is one. -/
def valueIn (headers : List Header) (name : Bytes) : Option Bytes :=
  (headers.find? fun i => i.name = name).map Header.value

/-- A header that is set has the value, and the others keep theirs. -/
theorem valueIn_setHeaderIn (headers : List Header) (name value other : Bytes) :
    valueIn (setHeaderIn name value headers) other =
      if other = name then some value else valueIn headers other := by
  unfold valueIn
  induction headers with
  | nil =>
    by_cases same : other = name
    · simp [setHeaderIn, same]
    · simp [setHeaderIn, same, Ne.symm same]
  | cons i headers inductionHypothesis =>
    rw [setHeaderIn]
    by_cases found : i.name = name
    · by_cases same : other = name
      · simp [found, same]
      · simp [found, same, Ne.symm same]
    · by_cases here : i.name = other
      · have apart : other ≠ name := here ▸ found
        simp [here, apart]
      · simpa [found, here] using inductionHypothesis

/-- The parts of a URL. They are all empty when the URL is. -/
structure Url where
  scheme : Bytes := []
  host : Bytes := []
  raw_path : Bytes := []
  raw_query : Bytes := []
deriving DecidableEq, Repr

/-- Keys and values out of a query or a form. -/
structure FormData where
  values_ : ExtTreeMap Bytes Bytes

namespace FormData

def empty : FormData := ⟨∅⟩

/-- The characters up to the next delimiter, and those behind it. -/
def getNextToken (next : Bytes) (quota : UInt8) : Bytes × Bytes :=
  (next.takeWhile (· ≠ quota), (next.dropWhile (· ≠ quota)).drop 1)

/-- A token that is not empty makes the rest shorter. -/
theorem getNextToken_shorter {next : Bytes} {quota : UInt8}
    (nonempty : (getNextToken next quota).1 ≠ []) :
    (getNextToken next quota).2.length < next.length := by
  have positive := List.length_pos_iff.mpr nonempty
  have parts : next.takeWhile (· ≠ quota) ++ next.dropWhile (· ≠ quota) = next :=
    List.takeWhile_append_dropWhile
  have lengths := congrArg List.length parts
  simp only [getNextToken, List.length_append, List.length_drop] at positive lengths ⊢
  omega

/-- Add the parameters of a query. An empty parameter ends the query, and what
follows it is not read. -/
def parse (form : FormData) (query : Bytes) : FormData :=
  let token := getNextToken query (byte '&')
  if _ended : token.1 = [] then form
  else
    let param := token.1
    let entered : FormData :=
      if byte '=' ∈ param then
        ⟨form.values_.insert (param.takeWhile (· ≠ byte '='))
          ((param.dropWhile (· ≠ byte '=')).drop 1)⟩
      else ⟨form.values_.insert param []⟩
    entered.parse token.2
termination_by query.length
decreasing_by exact getNextToken_shorter ‹_›

end FormData

/-- A request. The version numbers hold nothing until the parser assigns them. -/
structure Request where
  method : Bytes := []
  uri : Bytes := []
  http_version_major : Option Int32 := none
  http_version_minor : Option Int32 := none
  headers : List Header := []
  content : Bytes := []
  path : Bytes := []
  subpath : Bytes := []
  params : FormData := .empty
  host : Bytes := []
  url : Url := {}

namespace Request

/-- The path and the query of the request line. -/
def target (req : Request) : Bytes :=
  if req.url.raw_query.isEmpty then req.url.raw_path
  else req.url.raw_path ++ text "?" ++ req.url.raw_query

/-- What the client writes before the content. -/
def head (req : Request) : Bytes :=
  req.method ++ text " " ++ req.target ++ text " HTTP/1.0\r\n" ++
    text "Host: " ++ req.url.host ++ text "\r\n" ++
    text "Accept: */*\r\n" ++
    (if req.content.isEmpty then []
      else text "Content-Length: " ++ Decimal.numeral req.content.length ++ text "\r\n") ++
    text "TcpConnection: close\r\n\r\n"

/-- The bytes the client writes. -/
def toBuffers (req : Request) : Bytes :=
  req.head ++ (if req.content.isEmpty then [] else req.content)

/-- The content follows the head, also when it is empty. -/
theorem toBuffers_eq (req : Request) : req.toBuffers = req.head ++ req.content := by
  unfold toBuffers
  split
  next nothing => rw [List.isEmpty_iff.mp nothing]
  next => rfl

end Request

end Cppboot.Http
