import Cppboot.HttpRequest
import Cppboot.Incremental

/-!
# The parser of request heads

`RequestParser::consume` is a machine of twenty states that reads a request head
one character at a time and fills in a request as it goes. `parse` runs it over
a block of input; when the machine accepts, what is left of that block becomes
the content, and the URI is decoded and taken apart.

The last header of the list is changed through `headers.back()`, which has no
meaning on an empty list. The model says so: there it has no result.

A character of the source is a signed byte. The checks treat the negative ones
as the bytes from 128 on: no HTTP character and no control character.
-/

namespace Cppboot.Http

open Incremental

/-- What the parser says after each character. -/
inductive ResultType where
  | good
  | bad
  | indeterminate
deriving DecidableEq, Repr

/-- The states of the machine. -/
inductive State where
  | method_start
  | method
  | uri
  | http_version_h
  | http_version_t_1
  | http_version_t_2
  | http_version_p
  | http_version_slash
  | http_version_major_start
  | http_version_major
  | http_version_minor_start
  | http_version_minor
  | expecting_newline_1
  | header_line_start
  | header_lws
  | header_name
  | space_before_header_value
  | header_value
  | expecting_newline_2
  | expecting_newline_3
deriving DecidableEq, Repr

/-- The classes of characters that the grammar uses. -/
def isChar (c : UInt8) : Bool := c ≤ 127

def isCtl (c : UInt8) : Bool := c ≤ 31 || c == 127

def isTspecial (c : UInt8) : Bool :=
  (text "()<>@,;:\\\"/[]?=\x7b\x7d \t").contains c

def isDigit (c : UInt8) : Bool := byte '0' ≤ c && c ≤ byte '9'

/-- A character of a method or of a header name. -/
def isToken (c : UInt8) : Bool := isChar c && !isCtl c && !isTspecial c

def cr : UInt8 := byte '\r'
def lf : UInt8 := byte '\n'
def sp : UInt8 := byte ' '
def ht : UInt8 := byte '\t'

/-- A version number with one more digit. The numbers are 32 bits wide. -/
def versionDigit (version : Option Int32) (input : UInt8) : Option Int32 :=
  version.map fun n => n * 10 + Int32.ofNat input.toNat - 48

namespace Request

/-- Change `headers.back()`, if there is one. -/
def mapBack (req : Request) (change : Header → Header) : Option Request :=
  match req.headers.getLast? with
  | none => none
  | some back => some { req with headers := req.headers.dropLast ++ [change back] }

/-- A character more for the name of the last header. -/
def pushBackName (req : Request) (input : UInt8) : Option Request :=
  req.mapBack fun back => { back with name := back.name ++ [input] }

/-- A character more for its value. -/
def pushBackValue (req : Request) (input : UInt8) : Option Request :=
  req.mapBack fun back => { back with value := back.value ++ [input] }

end Request

/-- Parser and request together: what `consume` reads and changes. -/
structure Reading where
  state_ : State
  req : Request

namespace Reading

/-- A fresh parser and an empty request. -/
def fresh : Reading := ⟨.method_start, {}⟩

/-- The parser goes on in the given state. -/
def goto (r : Reading) (state : State) : ResultType × Reading :=
  (.indeterminate, { r with state_ := state })

/-- The parser goes on in the given state with a changed request. -/
def enter (state : State) (req : Request) : ResultType × Reading :=
  (.indeterminate, ⟨state, req⟩)

/-- Handle the next character of input. -/
def consume (r : Reading) (input : UInt8) : Option (ResultType × Reading) :=
  match r.state_ with
  | .method_start =>
    if !isChar input || isCtl input || isTspecial input then some (.bad, r)
    else some (enter .method { r.req with method := r.req.method ++ [input] })
  | .method =>
    if input = sp then some (r.goto .uri)
    else if !isChar input || isCtl input || isTspecial input then some (.bad, r)
    else some (enter .method { r.req with method := r.req.method ++ [input] })
  | .uri =>
    if input = sp then some (r.goto .http_version_h)
    else if isCtl input then some (.bad, r)
    else some (enter .uri { r.req with uri := r.req.uri ++ [input] })
  | .http_version_h =>
    if input = byte 'H' then some (r.goto .http_version_t_1) else some (.bad, r)
  | .http_version_t_1 =>
    if input = byte 'T' then some (r.goto .http_version_t_2) else some (.bad, r)
  | .http_version_t_2 =>
    if input = byte 'T' then some (r.goto .http_version_p) else some (.bad, r)
  | .http_version_p =>
    if input = byte 'P' then some (r.goto .http_version_slash) else some (.bad, r)
  | .http_version_slash =>
    if input = byte '/' then
      some (enter .http_version_major_start
        { r.req with http_version_major := some 0, http_version_minor := some 0 })
    else some (.bad, r)
  | .http_version_major_start =>
    if isDigit input then
      some (enter .http_version_major
        { r.req with http_version_major := versionDigit r.req.http_version_major input })
    else some (.bad, r)
  | .http_version_major =>
    if input = byte '.' then some (r.goto .http_version_minor_start)
    else if isDigit input then
      some (enter .http_version_major
        { r.req with http_version_major := versionDigit r.req.http_version_major input })
    else some (.bad, r)
  | .http_version_minor_start =>
    if isDigit input then
      some (enter .http_version_minor
        { r.req with http_version_minor := versionDigit r.req.http_version_minor input })
    else some (.bad, r)
  | .http_version_minor =>
    if input = cr then some (r.goto .expecting_newline_1)
    else if isDigit input then
      some (enter .http_version_minor
        { r.req with http_version_minor := versionDigit r.req.http_version_minor input })
    else some (.bad, r)
  | .expecting_newline_1 =>
    if input = lf then some (r.goto .header_line_start) else some (.bad, r)
  | .header_line_start =>
    if input = cr then some (r.goto .expecting_newline_3)
    else if !r.req.headers.isEmpty && (input == sp || input == ht) then some (r.goto .header_lws)
    else if !isChar input || isCtl input || isTspecial input then some (.bad, r)
    else
      let pushed : Request := { r.req with headers := r.req.headers ++ [⟨[], []⟩] }
      (pushed.pushBackName input).map (enter .header_name)
  | .header_lws =>
    if input = cr then some (r.goto .expecting_newline_2)
    else if input = sp ∨ input = ht then some (r.goto .header_lws)
    else if isCtl input then some (.bad, r)
    else (r.req.pushBackValue input).map (enter .header_value)
  | .header_name =>
    if input = byte ':' then some (r.goto .space_before_header_value)
    else if !isChar input || isCtl input || isTspecial input then some (.bad, r)
    else (r.req.pushBackName input).map (enter .header_name)
  | .space_before_header_value =>
    if input = sp then some (r.goto .header_value) else some (.bad, r)
  | .header_value =>
    if input = cr then some (r.goto .expecting_newline_2)
    else if isCtl input then some (.bad, r)
    else (r.req.pushBackValue input).map (enter .header_value)
  | .expecting_newline_2 =>
    if input = lf then some (r.goto .header_line_start) else some (.bad, r)
  | .expecting_newline_3 =>
    some (if input = lf then .good else .bad, r)

end Reading

/-- The value of a hexadecimal digit. -/
def hexDigit (c : UInt8) : Option Nat :=
  if byte '0' ≤ c && c ≤ byte '9' then some (c.toNat - 48)
  else if byte 'a' ≤ c && c ≤ byte 'f' then some (c.toNat - 87)
  else if byte 'A' ≤ c && c ≤ byte 'F' then some (c.toNat - 55)
  else none

/-- The number at the front of a string, with an optional `0x`. There has to be
at least one digit; what follows the digits is not looked at. -/
def hexNumber (field : Bytes) : Option Nat :=
  let digits :=
    match field with
    | zero :: x :: rest => if zero = byte '0' ∧ (x = byte 'x' ∨ x = byte 'X') then rest else field
    | _ => field
  let values := (digits.takeWhile fun c => (hexDigit c).isSome).filterMap hexDigit
  if values.isEmpty then none else some (values.foldl (fun sum value => sum * 16 + value) 0)

/-- Extraction of a hexadecimal `int` out of a short string: blanks that are skipped, a
sign, a number. -/
def readHex (field : Bytes) : Option Int :=
  match field.dropWhile isSpace with
  | [] => none
  | sign :: rest =>
    if sign = byte '-' then (hexNumber rest).map fun n => -(n : Int)
    else if sign = byte '+' then (hexNumber rest).map fun n => (n : Int)
    else (hexNumber (sign :: rest)).map fun n => (n : Int)

/-- Decode the rest of the string behind what is already decoded. A broken
escape ends the decoding, and the output keeps what precedes it. -/
def urlDecodeFrom (out : Bytes) : Bytes → Bool × Bytes
  | [] => (true, out)
  | c :: rest =>
    if c = byte '%' then
      match rest with
      | high :: low :: more =>
        match readHex [high, low] with
        | some value => urlDecodeFrom (out ++ [UInt8.ofNat (value % 256).toNat]) more
        | none => (false, out)
      | _ => (false, out)
    else if c = byte '+' then urlDecodeFrom (out ++ [sp]) rest
    else urlDecodeFrom (out ++ [c]) rest

/-- Decode a target, and say whether it could be decoded. -/
def urlDecode (input : Bytes) : Bool × Bytes := urlDecodeFrom [] input

/-- Take the decoded URI apart at its first question mark. -/
def Request.parseUri (req : Request) : Request :=
  if byte '?' ∈ req.uri then
    { req with
      path := req.uri.takeWhile (· ≠ byte '?')
      params := req.params.parse ((req.uri.dropWhile (· ≠ byte '?')).drop 1) }
  else { req with path := req.uri }

/-- What `parse` returns: the result, the input it did not consume, and the
parser and the request as it leaves them. -/
structure Parsed where
  result : ResultType
  rest : Bytes
  reading : Reading

namespace Reading

/-- The request of an accepted head, with what is left of the block as content.
That the URI may not decode is not looked at. -/
def accept (r : Reading) (rest : Bytes) : Reading :=
  { r with
    req := { r.req with content := rest, uri := (urlDecode r.req.uri).2 }.parseUri }

/-- Parse a block of input. -/
def parse (r : Reading) : Bytes → Option Parsed
  | [] => some ⟨.indeterminate, [], r⟩
  | input :: rest =>
    match r.consume input with
    | none => none
    | some (.good, after) => some ⟨.good, rest, after.accept rest⟩
    | some (.bad, after) => some ⟨.bad, rest, after⟩
    | some (.indeterminate, after) => after.parse rest

end Reading

end Cppboot.Http
