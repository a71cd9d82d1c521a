import Cppboot.HttpClient

/-!
# What the client makes of a reply

The reply of the caller is written to in two places: the headers are set while they
are read, the status and the content when the connection has ended in order. So an
exchange that fails has changed the headers if it fails behind them.

What a server sends for a reply is read back, however it is cut, with two exceptions.
A header without a value is a blank and a carriage return behind its colon, which are
not trimmed since nothing else is there. And a reply without headers has its blank line
directly behind the status line: the two ends of line that the client waits for are
then looked for in the content.
-/

namespace Cppboot.Http.Client

open Streams LastWins Response

/-- The headers of the lines up to the blank one. -/
def fields (response_stream : InputStream) : List (Bytes × Bytes) :=
  let line := response_stream.getline
  if _read : line.2.failbit = false ∧ line.1 ≠ text "\r" then
    (headerField line.1).toList ++ fields line.2
  else []
termination_by response_stream.buffer.length
decreasing_by exact InputStream.getline_shorter _read.1

/-- The lines change nothing but the headers. -/
theorem processHeaders_fields (resp : Response) (response_stream : InputStream) :
    (processHeaders resp response_stream).1 =
      { resp with headers := setAll resp.headers (fields response_stream) } := by
  induction length : response_stream.buffer.length using Nat.strongRecOn
    generalizing resp response_stream with
  | _ size inductionHypothesis =>
    rw [processHeaders, fields]
    by_cases read : response_stream.getline.2.failbit = false ∧
        response_stream.getline.1 ≠ text "\r"
    · have shorter := InputStream.getline_shorter read.1
      rw [dif_pos read, dif_pos read, inductionHypothesis _ (length ▸ shorter) _ _ rfl, setField]
      cases headerField response_stream.getline.1 with
      | none => rfl
      | some field => rfl
    · rw [dif_neg read, dif_neg read]
      rfl

/-- What has arrived behind an accepted status line when the blank line has. -/
def head (socket_ : Incoming) : Option (InputStream × List Bytes) :=
  match readUntil (text "\r\n") [] socket_.blocks with
  | none => none
  | some (response, blocks) =>
    match checkStatusLine ⟨response, false, false⟩ with
    | .error _ => none
    | .ok response_stream =>
      (readUntil (text "\r\n\r\n") response_stream.buffer blocks).map fun (response, blocks) =>
        ({ response_stream with buffer := response }, blocks)

/-- The two outcomes of an exchange before and behind the headers. -/
theorem readResponse_cases (resp : Response) (socket_ : Incoming) :
    (head socket_ = none ∧ (readResponse resp socket_).1.ok = false ∧
      (readResponse resp socket_).2 = resp) ∨
    ∃ response_stream blocks, head socket_ = some (response_stream, blocks) ∧
      readResponse resp socket_ =
        if socket_.ending ≠ .eof then
          (.cancelledError socket_.ending.message, (processHeaders resp response_stream).1)
        else (.okStatus,
          { (processHeaders resp response_stream).1 with
            status := .ok
            content := readContent (processHeaders resp response_stream).2.buffer blocks }) := by
  unfold head readResponse
  cases readUntil (text "\r\n") [] socket_.blocks with
  | none => exact .inl ⟨rfl, rfl, rfl⟩
  | some first =>
    obtain ⟨response, blocks⟩ := first
    dsimp only
    cases checked : checkStatusLine ⟨response, false, false⟩ with
    | error st =>
      have refused : st.ok = false := by
        unfold checkStatusLine at checked
        dsimp only at checked
        split at checked
        · cases checked
          rfl
        · split at checked
          · cases checked
            rfl
          · cases checked
      exact .inl ⟨rfl, refused, rfl⟩
    | ok response_stream =>
      dsimp only
      cases readUntil (text "\r\n\r\n") response_stream.buffer blocks with
      | none => exact .inl ⟨rfl, rfl, rfl⟩
      | some second => exact .inr ⟨_, _, rfl, rfl⟩

/-- An exchange that fails leaves the reply alone exactly when the connection ends in
order, or breaks before the blank line of an accepted reply, or every header that was
read is in the reply already, with the value that was read for it last. -/
theorem failure_untouched_iff (resp : Response) (socket_ : Incoming) :
    ((readResponse resp socket_).1.ok = false → (readResponse resp socket_).2 = resp) ↔
      socket_.ending = .eof ∨
      ∀ response_stream blocks, head socket_ = some (response_stream, blocks) →
        ∀ name value, lastValue (fields response_stream) name = some value →
          valueIn resp.headers name = some value := by
  obtain ⟨unread, _, same⟩ | ⟨response_stream, blocks, read, outcome⟩ :=
    readResponse_cases resp socket_
  · refine iff_of_true (fun _ => same) (.inr fun _ _ found => ?_)
    rw [unread] at found
    cases found
  rw [outcome]
  by_cases ended : socket_.ending = .eof
  · rw [if_neg (not_not.mpr ended)]
    exact iff_of_true (fun failed => by cases failed) (.inl ended)
  · have changed : (processHeaders resp response_stream).1 = resp ↔
        setAll resp.headers (fields response_stream) = resp.headers := by
      rw [processHeaders_fields]
      constructor
      · exact fun same => congrArg Response.headers same
      · intro same
        rw [same]
    rw [if_pos ended, read]
    dsimp only
    rw [changed, setAll_unchanged_iff]
    constructor
    · intro untouched
      right
      rintro _ _ ⟨⟩
      exact untouched rfl
    · rintro (ordered | present)
      · exact absurd ordered ended
      · exact fun _ => present _ _ rfl

/-- The connection breaks in the content, and the headers have been set. -/
theorem broken_exchange_sets_header :
    readResponse ⟨.ok, [], []⟩
        ⟨[text "HTTP/1.0 200 OK\r\nA: 1\r\n\r\nabc"], .failed (text "Connection reset by peer")⟩ =
      (.cancelledError (text "Connection reset by peer"), ⟨.ok, [⟨text "A", text "1"⟩], []⟩) ∧
    (⟨.ok, [⟨text "A", text "1"⟩], []⟩ : Response) ≠ ⟨.ok, [], []⟩ := by
  decide +kernel

/-- A reply whose headers can be told apart when they are sent. -/
structure Sendable (rep : Response) : Prop where
  status : rep.status = .ok
  distinct : (rep.headers.map Header.name).Nodup
  name_nonempty : ∀ h ∈ rep.headers, h.name ≠ []
  name_plain : ∀ h ∈ rep.headers, byte ':' ∉ h.name ∧ ∀ c ∈ h.name, isCtl c = false
  value_plain : ∀ h ∈ rep.headers, ∀ c ∈ h.value, isCtl c = false
  value_trimmed : ∀ h ∈ rep.headers,
    h.value.head? ≠ some (byte ' ') ∧ h.value.getLast? ≠ some (byte ' ')

/-- The value that the client finds behind the colon. -/
def received (value : Bytes) : Bytes := if value = [] then text " \r" else value

/-- A character of a value is trimmed only if it is a blank. -/
theorem trimmed_blank : ∀ c, isCtl c = false → (cutsetOf []).contains c = true → c = byte ' ' :=
  every_byte (by decide +kernel)

/-- The blank in front of a value and the carriage return behind it are trimmed off,
unless there is nothing else. -/
theorem strTrim_value {value : Bytes} (plain : ∀ c ∈ value, isCtl c = false)
    (trimmed : value.head? ≠ some (byte ' ') ∧ value.getLast? ≠ some (byte ' ')) :
    strTrim (byte ' ' :: (value ++ text "\r")) [] = received value := by
  unfold received
  split
  next nothing =>
    rw [nothing]
    decide
  next nonempty =>
    have blank : (cutsetOf []).contains (byte ' ') = true := by decide
    have ending : (cutsetOf []).contains (byte '\r') = true := by decide
    have kept (c : UInt8) (member : c ∈ value) (visible : c ≠ byte ' ') :
        ¬ (cutsetOf []).contains c = true := fun cut =>
      visible (trimmed_blank c (plain c member) cut)
    have left : strTrimLeft (byte ' ' :: (value ++ text "\r")) [] = value ++ text "\r" := by
      obtain ⟨first, others, rfl⟩ := List.exists_cons_of_ne_nil nonempty
      have visible : first ≠ byte ' ' := fun same => trimmed.1 (congrArg some same)
      rw [strTrimLeft, List.dropWhile_cons_of_pos blank, List.cons_append,
        List.dropWhile_cons_of_neg (kept first List.mem_cons_self visible)]
      rfl
    have right : strTrimRight (value ++ text "\r") [] = value := by
      obtain ⟨front, last, rfl⟩ := List.eq_nil_or_concat' value |>.resolve_left nonempty
      have visible : last ≠ byte ' ' := by
        rintro rfl
        exact trimmed.2 List.getLast?_concat
      have reversed : (front ++ [last] ++ text "\r").reverse =
          byte '\r' :: last :: front.reverse := by
        rw [List.reverse_append, List.reverse_append]
        rfl
      have present : ¬ (last :: front.reverse).reverse.isEmpty = true := by simp
      rw [strTrimRight, reversed, List.dropWhile_cons_of_pos ending,
        List.dropWhile_cons_of_neg (kept last (by simp) visible)]
      rw [if_neg present, List.reverse_cons, List.reverse_reverse]
    rw [strTrim, left, right]

/-- A header that was sent, as the client reads its line. -/
theorem headerField_line {rep : Response} (sendable : Sendable rep) {h : Header}
    (member : h ∈ rep.headers) :
    headerField (h.name ++ text ": " ++ h.value ++ text "\r") =
      some (h.name, received h.value) := by
  have line : h.name ++ text ": " ++ h.value ++ text "\r" =
      h.name ++ byte ':' :: (byte ' ' :: (h.value ++ text "\r")) := by
    have separator : text ": " = [byte ':', byte ' '] := rfl
    simp [separator]
  obtain ⟨name, value⟩ := cut_at_stop (sendable.name_plain h member).1
    (byte ' ' :: (h.value ++ text "\r"))
  rw [line, headerField, if_pos (by simp), name, value,
    strTrim_value (sendable.value_plain h member) (sendable.value_trimmed h member)]

/-- The line of a header has nothing but its own end of line in it. -/
theorem headerLine_plain {rep : Response} (sendable : Sendable rep) {h : Header}
    (member : h ∈ rep.headers) :
    ∃ line, headerLine h = line ++ text "\r\n" ∧ line ≠ [] ∧ byte '\r' ∉ line ∧
      byte '\n' ∉ line := by
  have visible (c : UInt8) (control : isCtl c = true) (other : c ∉ text ": ") :
      c ∉ h.name ++ text ": " ++ h.value := by
    rw [List.mem_append, List.mem_append, not_or, not_or]
    refine ⟨⟨fun listed => ?_, other⟩, fun listed => ?_⟩
    · rw [(sendable.name_plain h member).2 c listed] at control
      cases control
    · rw [sendable.value_plain h member c listed] at control
      cases control
  refine ⟨_, rfl, ?_, visible _ (by decide) (by decide), visible _ (by decide) (by decide)⟩
  have named := sendable.name_nonempty h member
  simp [named]

/-- The pattern has one more end of line than the one in front of what is looked at. -/
theorem line_ended {read : Bytes} (found : text "\r\n\r\n" <:+: text "\r\n" ++ read) :
    byte '\n' ∈ read := by
  have twice : (text "\r\n\r\n").count (byte '\n') = 2 := by decide
  have once : (text "\r\n").count (byte '\n') = 1 := by decide
  have more := found.sublist.count_le (byte '\n')
  rw [List.count_append, twice, once] at more
  exact List.count_pos_iff.mp (by omega)

/-- The first blank line is the one behind the headers: whatever has arrived when the
client has found one has all of the headers.

Proof: by induction on the headers. The end of line in front of what is looked at is
kept, so that the pattern can begin with it; it cannot begin in a header. -/
theorem headers_arrived {headers : List Header}
    (plain : ∀ h ∈ headers, ∃ line, headerLine h = line ++ text "\r\n" ∧ line ≠ [] ∧
      byte '\r' ∉ line ∧ byte '\n' ∉ line)
    {content read behind : Bytes}
    (whole : read ++ behind = headers.flatMap headerLine ++ text "\r\n" ++ content)
    (found : text "\r\n\r\n" <:+: text "\r\n" ++ read) :
    ∃ more, read = headers.flatMap headerLine ++ text "\r\n" ++ more ∧
      more ++ behind = content := by
  have ends : text "\r\n" = [byte '\r', byte '\n'] := rfl
  induction headers generalizing read with
  | nil =>
    have line : read ++ behind = [byte '\r'] ++ byte '\n' :: content := whole
    obtain ⟨more, rfl, rest⟩ := cut_behind_stop (by decide) line (line_ended found)
    exact ⟨more, rfl, rest⟩
  | cons h headers inductionHypothesis =>
    obtain ⟨line, spelled, nonempty, unreturned, unbroken⟩ := plain h List.mem_cons_self
    have first : read ++ behind = (line ++ [byte '\r']) ++
        byte '\n' :: (headers.flatMap headerLine ++ text "\r\n" ++ content) := by
      rw [whole, List.flatMap_cons, spelled, ends]
      simp
    have unended : byte '\n' ∉ line ++ [byte '\r'] := by
      rw [List.mem_append, not_or]
      exact ⟨unbroken, by decide⟩
    obtain ⟨more, rfl, rest⟩ := cut_behind_stop unended first (line_ended found)
    -- the pattern is found again behind the header
    have later : text "\r\n\r\n" <:+: text "\r\n" ++ more := by
      obtain ⟨c, others, rfl⟩ := List.exists_cons_of_ne_nil nonempty
      have visible : c ≠ byte '\r' := fun same => unreturned (same ▸ List.mem_cons_self)
      have spread : text "\r\n" ++ ((c :: others) ++ [byte '\r'] ++ byte '\n' :: more) =
          byte '\r' :: ([byte '\n'] ++ (c :: others) ++ (text "\r\n" ++ more)) := by
        rw [ends]
        simp
      have unstarted : byte '\r' ∉ [byte '\n'] ++ (c :: others) := by
        rw [List.mem_append, not_or]
        exact ⟨by decide, unreturned⟩
      rw [spread] at found
      rcases List.infix_cons_iff.mp found with ⟨tail, here⟩ | found
      · have third := congrArg (fun s : Bytes => s[2]?) here
        exact absurd (Option.some.inj third).symm visible
      · exact infix_behind (by decide) unstarted found
    obtain ⟨left, rfl, left_rest⟩ := inductionHypothesis
      (fun other member => plain other (List.mem_cons_of_mem _ member)) rest later
    refine ⟨left, ?_, left_rest⟩
    rw [List.flatMap_cons, spelled, ends]
    simp

/-- The headers that were sent are set, and the content is left. -/
theorem processHeaders_sent {rep : Response} (sendable : Sendable rep) {headers : List Header}
    (listed : ∀ h ∈ headers, h ∈ rep.headers) (resp : Response) (more : Bytes) :
    processHeaders resp ⟨headers.flatMap headerLine ++ text "\r\n" ++ more, false, false⟩ =
      ({ resp with
          headers := setAll resp.headers (headers.map fun h => (h.name, received h.value)) },
        ⟨more, false, false⟩) := by
  induction headers generalizing resp with
  | nil =>
    have plain : byte '\n' ∉ text "\r" := by decide
    have blank : InputStream.getline ⟨text "\r\n" ++ more, false, false⟩ =
        (text "\r", ⟨more, false, false⟩) := InputStream.getline_line plain more
    rw [List.flatMap_nil, List.nil_append, processHeaders, blank, dif_neg fun read => read.2 rfl]
    rfl
  | cons h headers inductionHypothesis =>
    have member := listed h List.mem_cons_self
    obtain ⟨line, spelled, nonempty, unreturned, unbroken⟩ := headerLine_plain sendable member
    have same : line = h.name ++ text ": " ++ h.value :=
      (List.append_cancel_right (spelled.symm : line ++ text "\r\n" = _))
    have ends : text "\r\n" = [byte '\r', byte '\n'] := rfl
    have ended : text "\r" = [byte '\r'] := rfl
    have spread : (h :: headers).flatMap headerLine ++ text "\r\n" ++ more =
        (line ++ text "\r") ++
          byte '\n' :: (headers.flatMap headerLine ++ text "\r\n" ++ more) := by
      rw [List.flatMap_cons, spelled, ends, ended]
      simp
    have unended : byte '\n' ∉ line ++ text "\r" := by
      rw [List.mem_append, not_or]
      exact ⟨unbroken, by decide⟩
    have read := InputStream.getline_line unended
      (headers.flatMap headerLine ++ text "\r\n" ++ more)
    have visible : line ++ text "\r" ≠ text "\r" := fun blank =>
      nonempty (List.append_left_eq_self.mp blank)
    rw [spread, processHeaders, read, dif_pos ⟨rfl, visible⟩, setField, same,
      headerField_line sendable member,
      inductionHypothesis fun other later => listed other (List.mem_cons_of_mem _ later)]
    rfl

/-- The status line of a reply that is in order. -/
theorem checkStatusLine_ok (rest : Bytes) :
    checkStatusLine ⟨text "HTTP/1.0 200 OK\r" ++ byte '\n' :: rest, false, false⟩ =
      .ok ⟨rest, false, false⟩ :=
  rfl

/-- The bytes of a reply, taken as they are cut. -/
theorem head_sent {rep : Response} (sendable : Sendable rep) (socket_ : Incoming)
    (sent : socket_.blocks.flatten = rep.toBuffers.flatten) :
    if text "\r\n\r\n" <:+: rep.headers.flatMap headerLine ++ text "\r\n" ++ rep.content then
      ∃ more blocks, more ++ blocks.flatten = rep.content ∧
        head socket_ =
          some (⟨rep.headers.flatMap headerLine ++ text "\r\n" ++ more, false, false⟩, blocks)
    else head socket_ = none := by
  have line : rep.toBuffers.flatten = text "HTTP/1.0 200 OK\r" ++
      byte '\n' :: (rep.headers.flatMap headerLine ++ text "\r\n" ++ rep.content) := by
    rw [toBuffers_flatten, sendable.status]
    simp [statusString, text, byte]
  have arrives : text "\r\n" <:+: [] ++ socket_.blocks.flatten := by
    rw [List.nil_append, sent, line]
    exact ⟨text "HTTP/1.0 200 OK", _, rfl⟩
  obtain ⟨⟨response, blocks⟩, first⟩ :=
    Option.isSome_iff_exists.mp ((readUntil_isSome_iff _ _ _).mpr arrives)
  obtain ⟨whole, present⟩ := readUntil_some first
  rw [List.nil_append, sent, line] at whole
  have reached : byte '\n' ∈ response := present.subset (by decide)
  obtain ⟨more, rfl, rest⟩ := cut_behind_stop (by decide) whole reached
  have checked := checkStatusLine_ok more
  have second := readUntil_isSome_iff (text "\r\n\r\n") more blocks
  rw [rest] at second
  unfold head
  rw [first]
  dsimp only
  rw [checked]
  dsimp only
  split
  next found =>
    obtain ⟨⟨read, left⟩, again⟩ := Option.isSome_iff_exists.mp (second.mpr found)
    obtain ⟨same, pattern⟩ := readUntil_some again
    obtain ⟨behind, rfl, content⟩ := headers_arrived
      (fun h member => headerLine_plain sendable member) (same.trans rest)
      (pattern.trans (List.suffix_append _ _).isInfix)
    refine ⟨behind, left, content, ?_⟩
    rw [again]
    rfl
  next absent =>
    rw [← second, Option.not_isSome_iff_eq_none] at absent
    rw [absent]
    rfl

/-- The last header ends a line in front of the blank one. -/
theorem blank_line_sent {headers : List Header} (some_header : headers ≠ []) (content : Bytes) :
    text "\r\n\r\n" <:+: headers.flatMap headerLine ++ text "\r\n" ++ content := by
  obtain ⟨front, last, rfl⟩ := (List.eq_nil_or_concat' headers).resolve_left some_header
  have ends : text "\r\n\r\n" = text "\r\n" ++ text "\r\n" := rfl
  refine ⟨front.flatMap headerLine ++ (last.name ++ text ": " ++ last.value), content, ?_⟩
  rw [ends, List.flatMap_append, List.flatMap_singleton]
  simp [headerLine]

theorem readContent_eq (content : Bytes) (blocks : List Bytes) :
    readContent content blocks = content ++ blocks.flatten := by
  unfold readContent
  induction blocks generalizing content with
  | nil => rw [List.foldl_nil, List.flatten_nil, List.append_nil]
  | cons block blocks inductionHypothesis =>
    rw [List.foldl_cons, inductionHypothesis, List.append_assoc, List.flatten_cons]

/-- The headers that were set from a reply have the values that were received. -/
theorem header_received {rep : Response} (sendable : Sendable rep) (status : StatusType)
    (content : Bytes) {h : Header} (member : h ∈ rep.headers) :
    Response.header ⟨status, setAll [] (rep.headers.map fun h => (h.name, received h.value)),
      content⟩ h.name = received h.value := by
  have found := valueIn_setAll [] (rep.headers.map fun h => (h.name, received h.value)) h.name
  have keys : (rep.headers.map fun h => (h.name, received h.value)).map Prod.fst =
      rep.headers.map Header.name := by
    rw [List.map_map]
    rfl
  have last := lastValue_of_mem (keys.symm ▸ sendable.distinct)
    (List.mem_map_of_mem (f := fun h : Header => (h.name, received h.value)) member)
  rw [last] at found
  rw [header, ← valueIn, found]
  rfl

theorem received_eq_iff (value : Bytes) : received value = value ↔ value ≠ [] := by
  unfold received
  split
  next nothing => simp [nothing, text]
  next something => simp [something]

/-- The end of the headers is there when a header or the content brings it. -/
theorem headers_end_iff (rep : Response) :
    text "\r\n\r\n" <:+: rep.headers.flatMap headerLine ++ text "\r\n" ++ rep.content ↔
      (rep.headers = [] → text "\r\n\r\n" <:+: text "\r\n" ++ rep.content) := by
  constructor
  · intro found headerless
    rwa [headerless, List.flatMap_nil, List.nil_append] at found
  · intro pattern
    by_cases headerless : rep.headers = []
    · rw [headerless, List.flatMap_nil, List.nil_append]
      exact pattern headerless
    · exact blank_line_sent headerless _

/-- What is read of a reply whose headers end. -/
theorem readResponse_sent {rep : Response} (sendable : Sendable rep) (status : StatusType)
    {blocks : List Bytes} (sent : blocks.flatten = rep.toBuffers.flatten)
    (ended : text "\r\n\r\n" <:+: rep.headers.flatMap headerLine ++ text "\r\n" ++ rep.content) :
    readResponse ⟨status, [], []⟩ ⟨blocks, .eof⟩ =
      (.okStatus, ⟨.ok, setAll [] (rep.headers.map fun h => (h.name, received h.value)),
        rep.content⟩) := by
  have arrived := head_sent sendable ⟨blocks, .eof⟩ sent
  rw [if_pos ended] at arrived
  obtain ⟨more, left, content, begun⟩ := arrived
  obtain ⟨unread, _⟩ | ⟨response_stream, rest, read, outcome⟩ :=
    readResponse_cases ⟨status, [], []⟩ ⟨blocks, .eof⟩
  · rw [begun] at unread
    cases unread
  · rw [begun] at read
    cases read
    rw [if_neg (not_not.mpr rfl), processHeaders_sent sendable (fun _ member => member)] at outcome
    dsimp only at outcome
    rwa [readContent_eq, content] at outcome

/-- Without the end of its headers no reply is read. -/
theorem readResponse_unended {rep : Response} (sendable : Sendable rep) (resp : Response)
    {blocks : List Bytes} (sent : blocks.flatten = rep.toBuffers.flatten)
    (unended : ¬ text "\r\n\r\n" <:+:
      rep.headers.flatMap headerLine ++ text "\r\n" ++ rep.content) :
    (readResponse resp ⟨blocks, .eof⟩).1.ok = false := by
  have arrived := head_sent sendable ⟨blocks, .eof⟩ sent
  rw [if_neg unended] at arrived
  obtain ⟨_, refused, _⟩ | ⟨_, _, read, _⟩ := readResponse_cases resp ⟨blocks, .eof⟩
  · exact refused
  · rw [arrived] at read
    cases read

/-- A reply that is sent in full, in whatever blocks, is read back with its headers and
its content exactly when all its headers have values and, if it has none, its content
begins with an end of line or has two of them in a row. -/
theorem response_read_back_iff {rep : Response} (sendable : Sendable rep) (status : StatusType)
    {blocks : List Bytes} (sent : blocks.flatten = rep.toBuffers.flatten) :
    (∃ st got, readResponse ⟨status, [], []⟩ ⟨blocks, .eof⟩ = (st, got) ∧ st.ok = true ∧
      (∀ h ∈ rep.headers, got.header h.name = h.value) ∧ got.content = rep.content) ↔
    (∀ h ∈ rep.headers, h.value ≠ []) ∧
      (rep.headers = [] → text "\r\n\r\n" <:+: text "\r\n" ++ rep.content) := by
  rw [← headers_end_iff]
  constructor
  · rintro ⟨st, got, returned, ok, headers, _⟩
    have ended : text "\r\n\r\n" <:+:
        rep.headers.flatMap headerLine ++ text "\r\n" ++ rep.content := by
      by_contra unended
      have refused := readResponse_unended sendable ⟨status, [], []⟩ sent unended
      rw [returned] at refused
      exact Bool.noConfusion (ok.symm.trans refused)
    refine ⟨fun h member => ?_, ended⟩
    rw [readResponse_sent sendable status sent ended] at returned
    cases returned
    have same := headers h member
    rw [header_received sendable _ _ member] at same
    exact (received_eq_iff h.value).mp same
  · rintro ⟨nonempty, ended⟩
    refine ⟨_, _, readResponse_sent sendable status sent ended, rfl, fun h member => ?_, rfl⟩
    rw [header_received sendable _ _ member]
    exact (received_eq_iff h.value).mpr (nonempty h member)

/-- A page with its type, in two blocks. -/
theorem page_read_back :
    ∃ st got, readResponse ⟨.ok, [], []⟩
        ⟨[text "HTTP/1.0 200 OK\r\nContent-Type: te", text "xt/html\r\n\r\n<p>\r\n"], .eof⟩ =
        (st, got) ∧ st.ok = true ∧
      (∀ h ∈ [(⟨text "Content-Type", text "text/html"⟩ : Header)],
        got.header h.name = h.value) ∧ got.content = text "<p>\r\n" := by
  have sendable : Sendable
      ⟨.ok, [⟨text "Content-Type", text "text/html"⟩], text "<p>\r\n"⟩ :=
    ⟨rfl, by decide +kernel, by decide +kernel, by decide +kernel, by decide +kernel,
      by decide⟩
  exact (response_read_back_iff sendable .ok (by decide)).mpr
    ⟨by decide, by decide⟩

/-- A header without a value arrives as a blank and a carriage return, and a reply
without headers does not arrive. -/
theorem empty_value_filled :
    Sendable ⟨.ok, [⟨text "X", []⟩], text "hi"⟩ ∧
    (readResponse ⟨.ok, [], []⟩
      ⟨[Response.toBuffers ⟨.ok, [⟨text "X", []⟩], text "hi"⟩ |>.flatten], .eof⟩).2.header
        (text "X") = text " \r" ∧
    Sendable ⟨.ok, [], text "hi"⟩ ∧
    (readResponse ⟨.ok, [], []⟩
      ⟨[Response.toBuffers ⟨.ok, [], text "hi"⟩ |>.flatten], .eof⟩).1 =
        .cancelledError (text "read_until: End of file") := by
  refine ⟨⟨rfl, ?_, ?_, ?_, ?_, ?_⟩, ?_, ⟨rfl, ?_, ?_, ?_, ?_, ?_⟩, ?_⟩ <;> decide +kernel

end Cppboot.Http.Client
