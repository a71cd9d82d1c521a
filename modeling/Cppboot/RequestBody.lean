import Cppboot.RequestGrammar

/-!
# Request bodies on the wire

The server reads from the socket in blocks of at most 8192 bytes, parses each
block, and serves the request as soon as its head is accepted. What is left of
the block that ends the head becomes the content; the length that the head
announces is not looked at, and no further block is read. So the content is the
body the client wrote exactly when the block that ends the head is the last one.
-/

namespace Cppboot.Http

open Incremental

/-- What becomes of a connection that reads a request. -/
inductive Served where
  | handled (req : Request)
  | bad_request
  | reading (r : Reading)

namespace TcpConnection

/-- The size of the buffer that a read fills. -/
def bufferSize : Nat := 8192

/-- Read blocks up to the end of the head. An accepted request is handed to
`ServeHttp`, a refused one is answered, and otherwise the connection reads on. -/
def doRead (r : Reading) : List Bytes → Option Served
  | [] => some (.reading r)
  | block :: blocks =>
    match r.parse block with
    | none => none
    | some ⟨.good, _, after⟩ => some (.handled after.req)
    | some ⟨.bad, _, _⟩ => some .bad_request
    | some ⟨.indeterminate, _, after⟩ => doRead after blocks

/-- What the connection makes of a run over the blocks. -/
def servedOf : First UInt8 Reading Ending → Option Served
  | .pending after _ => some (.reading after)
  | .found .good after rest _ => some (.handled (after.accept rest).req)
  | .found .bad _ _ _ => some .bad_request
  | .found .undefined _ _ _ => none

/-- The connection runs the parser over the blocks up to its first result. -/
theorem doRead_eq (r : Reading) (blocks : List Bytes) :
    doRead r blocks = servedOf (first (scan Reading.machine) r [] blocks) := by
  induction blocks generalizing r with
  | nil => rfl
  | cons block blocks inductionHypothesis =>
    simp only [doRead, first, List.nil_append, Reading.parse_eq]
    cases ran : scan Reading.machine r block with
    | wait after rest =>
      simp only [Reading.parsedOf, inductionHypothesis, scan_wait ran]
    | emit ending after rest => cases ending <;> rfl

/-- The content is what was left of the block. -/
theorem accept_content (r : Reading) (rest : Bytes) : (r.accept rest).req.content = rest := by
  simp only [Reading.accept, Request.parseUri]
  split <;> rfl

/-- The parser accepts the head that the client writes, to its end. -/
def HeadAccepted (r : Request) : Prop :=
  ∃ final, scan Reading.machine .fresh r.head = .emit .good final []

/-- Where the head ends in the blocks. It ends inside one of them; what is left of
that block is the content, and together with the blocks that are not read it is
the body the client wrote. -/
theorem head_ends {r : Request} {blocks : List Bytes} (accepted : HeadAccepted r)
    (sent : blocks.flatten = r.toBuffers) :
    ∃ req fed front rest unread, doRead .fresh blocks = some (.handled req) ∧
      req.content = rest ∧ blocks = fed ++ (front ++ rest) :: unread ∧ front ≠ [] ∧
      rest ++ unread.flatten = r.content ∧ fed.flatten.length + front.length = r.head.length := by
  obtain ⟨final, head_good⟩ := accepted
  have whole_run : scan Reading.machine .fresh blocks.flatten = .emit .good final r.content := by
    rw [sent, Request.toBuffers_eq, scan_append, head_good]
    rfl
  have exact_run := first_exact (scan_resumable Reading.machine) .fresh [] blocks rfl
  rw [List.nil_append, whole_run] at exact_run
  rw [doRead_eq]
  cases ran : first (scan Reading.machine) .fresh [] blocks with
  | pending after rest =>
    rw [ran] at exact_run
    cases exact_run
  | found ending after rest unread =>
    rw [ran] at exact_run
    simp only [First.whole, Outcome.emit.injEq] at exact_run
    obtain ⟨rfl, rfl, body⟩ := exact_run
    obtain ⟨fed, front, nonempty, split⟩ := first_scan_found ran
    refine ⟨_, fed, front, rest, unread, rfl, accept_content _ rest, split, nonempty, body.symm, ?_⟩
    have lengths := congrArg List.length sent
    rw [split, Request.toBuffers_eq, body] at lengths
    simp only [List.flatten_append, List.flatten_cons, List.length_append] at lengths
    omega

/-- When the head ends in the last block, the rest of that block is the body. -/
theorem body_whole {r : Request} {blocks : List Bytes} (accepted : HeadAccepted r)
    (sent : blocks.flatten = r.toBuffers)
    (last : blocks.dropLast.flatten.length < r.head.length) :
    ∃ req, doRead .fresh blocks = some (.handled req) ∧ req.content = r.content := by
  obtain ⟨req, fed, front, rest, unread, served, content, rfl, _, body, ends⟩ :=
    head_ends accepted sent
  cases unread with
  | nil =>
    simp only [List.flatten_nil, List.append_nil] at body
    exact ⟨req, served, content.trans body⟩
  | cons later others =>
    rw [List.dropLast_append_of_ne_nil (by simp), List.dropLast_cons_of_ne_nil (by simp)] at last
    simp only [List.flatten_append, List.flatten_cons, List.length_append] at last
    omega

/-- When it ends in an earlier block, the body is cut. -/
theorem body_cut {r : Request} {blocks : List Bytes} (accepted : HeadAccepted r)
    (sent : blocks.flatten = r.toBuffers) (nonempty : ∀ block ∈ blocks, block ≠ [])
    (early : r.head.length ≤ blocks.dropLast.flatten.length) :
    ¬ ∃ req, doRead .fresh blocks = some (.handled req) ∧ req.content = r.content := by
  obtain ⟨req, fed, front, rest, unread, served, content, rfl, front_nonempty, body, ends⟩ :=
    head_ends accepted sent
  have front_positive := List.length_pos_iff.mpr front_nonempty
  rintro ⟨other, other_served, whole⟩
  cases served.symm.trans other_served
  cases unread with
  | nil =>
    rw [List.dropLast_concat] at early
    omega
  | cons later others =>
    have later_nonempty : later ≠ [] := nonempty later (by simp)
    have later_positive := List.length_pos_iff.mpr later_nonempty
    have lengths := congrArg List.length (body.trans (whole.symm.trans content))
    simp only [List.flatten_cons, List.length_append] at lengths
    omega

/-- The body arrives whole exactly when the head ends in the last block, that is,
when the blocks before the last one are together shorter than the head. -/
theorem body_delivered_iff (r : Request) (blocks : List Bytes) (accepted : HeadAccepted r)
    (sent : blocks.flatten = r.toBuffers) (nonempty : ∀ block ∈ blocks, block ≠ []) :
    (∃ req, doRead .fresh blocks = some (.handled req) ∧ req.content = r.content) ↔
      blocks.dropLast.flatten.length < r.head.length := by
  constructor
  · intro delivered
    by_contra late
    exact body_cut accepted sent nonempty (Nat.le_of_not_lt late) delivered
  · intro last
    exact body_whole accepted sent last

/-- A body of a full buffer or more never arrives whole, however it is cut. -/
theorem long_body_cut {r : Request} {blocks : List Bytes} (accepted : HeadAccepted r)
    (sent : blocks.flatten = r.toBuffers)
    (reads : ∀ block ∈ blocks, block ≠ [] ∧ block.length ≤ bufferSize)
    (long : bufferSize ≤ r.content.length) :
    ∃ req, doRead .fresh blocks = some (.handled req) ∧ req.content ≠ r.content := by
  obtain ⟨req, fed, front, rest, unread, served, content, rfl, front_nonempty, body, ends⟩ :=
    head_ends accepted sent
  have front_positive := List.length_pos_iff.mpr front_nonempty
  have bounded := (reads (front ++ rest) (by simp)).2
  rw [List.length_append] at bounded
  refine ⟨req, served, ?_⟩
  rw [content]
  rintro rfl
  omega

/-- A request whose parts the client can write into a head: a method of token
characters, a target without blanks and control characters, a host without
control characters. -/
structure Writable (r : Request) : Prop where
  method_nonempty : r.method ≠ []
  method_token : ∀ c ∈ r.method, isToken c = true
  target_plain : ∀ c ∈ r.target, isCtl c = false ∧ c ≠ sp
  host_plain : ∀ c ∈ r.url.host, isCtl c = false

/-- A digit is not a control character. -/
theorem digit_plain {c : UInt8} (digit : Decimal.isDigit c = true) : isCtl c = false := by
  simp only [Decimal.isDigit, isCtl, Bool.and_eq_true, decide_eq_true_eq, UInt8.le_iff_toNat_le,
    Bool.or_eq_false_iff, decide_eq_false_iff_not, beq_eq_false_iff_ne, ne_eq,
    ← UInt8.toNat_inj] at digit ⊢
  have low : (48 : UInt8).toNat = 48 := rfl
  have high : (57 : UInt8).toNat = 57 := rfl
  have control : (31 : UInt8).toNat = 31 := rfl
  have delete : (127 : UInt8).toNat = 127 := rfl
  omega

/-- The header that announces the length of the content. -/
def contentLength (r : Request) : Field where
  name := text "Content-Length"
  value := Decimal.numeral r.content.length
  folds := []
  name_nonempty := by decide +kernel
  name_token := by decide +kernel
  value_plain c member := digit_plain (Decimal.numeral_digits _ c member)

/-- The head the client writes, as a head of the grammar. -/
def Writable.requestHead {r : Request} (writable : Writable r) : RequestHead where
  method := r.method
  uri := r.target
  major := text "1"
  minor := text "0"
  fields :=
    [⟨text "Host", r.url.host, [], by decide +kernel, by decide +kernel, writable.host_plain⟩,
      ⟨text "Accept", text "*/*", [], by decide +kernel, by decide +kernel, by decide +kernel⟩] ++
    (if r.content.isEmpty then [] else [contentLength r]) ++
    [⟨text "TcpConnection", text "close", [], by decide +kernel, by decide +kernel,
      by decide +kernel⟩]
  method_nonempty := writable.method_nonempty
  method_token := writable.method_token
  uri_plain := writable.target_plain
  major_nonempty := by decide +kernel
  major_digits := by decide +kernel
  minor_nonempty := by decide +kernel
  minor_digits := by decide +kernel

/-- That head is spelled as the client writes it. -/
theorem Writable.requestHead_bytes {r : Request} (writable : Writable r) :
    writable.requestHead.bytes = r.head := by
  have space : text " " = [sp] := rfl
  have newline : text "\r\n" = crlf := rfl
  have version : text " HTTP/1.0\r\n" =
      [sp] ++ text "HTTP/" ++ text "1" ++ text "." ++ text "0" ++ crlf := rfl
  have host : text "Host: " = text "Host" ++ [byte ':', sp] := rfl
  have accept : text "Accept: */*\r\n" =
      text "Accept" ++ [byte ':', sp] ++ text "*/*" ++ crlf := rfl
  have length : text "Content-Length: " = text "Content-Length" ++ [byte ':', sp] := rfl
  have close : text "TcpConnection: close\r\n\r\n" =
      text "TcpConnection" ++ [byte ':', sp] ++ text "close" ++ crlf ++ crlf := rfl
  simp only [Request.head, RequestHead.bytes, RequestHead.line, Writable.requestHead, space,
    version, host, newline, accept, length, close]
  split
  · simp only [List.append_nil, List.flatMap_append, List.flatMap_cons, List.flatMap_nil,
      Field.bytes, Field.line, List.append_assoc]
  · simp only [List.append_nil, List.flatMap_append, List.flatMap_cons, List.flatMap_nil,
      Field.bytes, Field.line, contentLength, List.append_assoc]

/-- The server accepts the head of every request that can be written. -/
theorem Writable.accepted {r : Request} (writable : Writable r) : HeadAccepted r := by
  refine ⟨⟨.expecting_newline_3, writable.requestHead.request⟩, ?_⟩
  rw [← writable.requestHead_bytes, ← List.append_nil writable.requestHead.bytes]
  exact Reading.scan_head writable.requestHead []

/-- A small request with a body. -/
def smallPost : Request where
  method := text "POST"
  content := text "xrw666"
  url := { scheme := text "http", host := text "h", raw_path := text "/name" }

theorem smallPost_writable : Writable smallPost := by
  constructor <;> decide +kernel

/-- A request that is cut inside of its head keeps its body, which arrives in the last
block. -/
theorem cut_head_delivered :
    ∃ req, doRead .fresh [smallPost.toBuffers.take 30, smallPost.toBuffers.drop 30] =
        some (.handled req) ∧ req.content = smallPost.content :=
  (body_delivered_iff smallPost [smallPost.toBuffers.take 30, smallPost.toBuffers.drop 30]
    smallPost_writable.accepted (by simp) (by decide)).mpr (by decide)

/-- Cut between the head and the body, the request is served without its body. -/
theorem cut_behind_head_loses_body :
    smallPost.content ≠ [] ∧ HeadAccepted smallPost ∧
      [smallPost.head, smallPost.content].flatten = smallPost.toBuffers ∧
      (∀ block ∈ [smallPost.head, smallPost.content],
        block ≠ [] ∧ block.length ≤ bufferSize) ∧
      ¬ ∃ req, doRead .fresh [smallPost.head, smallPost.content] = some (.handled req) ∧
        req.content = smallPost.content := by
  have sent : [smallPost.head, smallPost.content].flatten = smallPost.toBuffers := by decide
  refine ⟨by decide, smallPost_writable.accepted, sent, by decide, ?_⟩
  exact body_cut smallPost_writable.accepted sent (by decide) (by decide)

end TcpConnection

end Cppboot.Http
