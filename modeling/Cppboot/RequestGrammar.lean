import Cppboot.RequestChunks

/-!
# The language of request heads

The grammar that the parser accepts, as values that carry their own
well-formedness: a request line, headers with their continuation lines, and an
empty line. A head has a spelling in bytes, and a request it stands for. The
machine accepts a byte string exactly when a prefix of it is the spelling of a
head; it then stops right behind that prefix with the request of that head.

Acceptance goes along the spelling piece by piece. In the other direction every
state of the machine says how the input of an accepting run begins.
-/

namespace Cppboot.Http

open Incremental

/-- A carriage return and a line feed. -/
def crlf : Bytes := [cr, lf]

/-- A continuation line: blanks, and text that does not begin with a blank. -/
structure Fold where
  blanks : Bytes
  body : Bytes
  blanks_nonempty : blanks ≠ []
  blanks_blank : ∀ c ∈ blanks, c = sp ∨ c = ht
  body_plain : ∀ c ∈ body, isCtl c = false
  body_flush : ∀ c rest, body = c :: rest → c ≠ sp ∧ c ≠ ht

/-- A header with its continuation lines. -/
structure Field where
  name : Bytes
  value : Bytes
  folds : List Fold
  name_nonempty : name ≠ []
  name_token : ∀ c ∈ name, isToken c = true
  value_plain : ∀ c ∈ value, isCtl c = false

/-- A request head. -/
structure RequestHead where
  method : Bytes
  uri : Bytes
  major : Bytes
  minor : Bytes
  fields : List Field
  method_nonempty : method ≠ []
  method_token : ∀ c ∈ method, isToken c = true
  uri_plain : ∀ c ∈ uri, isCtl c = false ∧ c ≠ sp
  major_nonempty : major ≠ []
  major_digits : ∀ c ∈ major, isDigit c = true
  minor_nonempty : minor ≠ []
  minor_digits : ∀ c ∈ minor, isDigit c = true

/-- The spelling of a continuation line. -/
def Fold.bytes (fold : Fold) : Bytes := fold.blanks ++ fold.body ++ crlf

/-- The spelling of the first line of a header. -/
def Field.line (field : Field) : Bytes := field.name ++ [byte ':', sp] ++ field.value ++ crlf

/-- The spelling of a header. -/
def Field.bytes (field : Field) : Bytes := field.line ++ field.folds.flatMap Fold.bytes

/-- The header a spelling stands for: continuation lines add their text without
the leading blanks. -/
def Field.header (field : Field) : Header :=
  ⟨field.name, field.value ++ field.folds.flatMap Fold.body⟩

/-- The number that digits spell in a version. -/
def versionOf (digits : Bytes) : Option Int32 := digits.foldl versionDigit (some 0)

namespace RequestHead

/-- The spelling of the request line. -/
def line (head : RequestHead) : Bytes :=
  head.method ++ [sp] ++ head.uri ++ [sp] ++ text "HTTP/" ++ head.major ++ text "." ++
    head.minor ++ crlf

/-- The spelling of a head. -/
def bytes (head : RequestHead) : Bytes :=
  head.line ++ head.fields.flatMap Field.bytes ++ crlf

/-- The request a head stands for, before its URI is decoded. -/
def request (head : RequestHead) : Request where
  method := head.method
  uri := head.uri
  http_version_major := versionOf head.major
  http_version_minor := versionOf head.minor
  headers := head.fields.map Field.header

end RequestHead

/-- The check of the source on a token character. -/
theorem refuses_iff (c : UInt8) :
    (!isChar c || isCtl c || isTspecial c) = !isToken c := by
  unfold isToken
  cases isChar c <;> cases isCtl c <;> cases isTspecial c <;> rfl

namespace Reading

variable {r after : Reading} {input : UInt8}

/-- While the parser asks for more, the machine goes on. -/
theorem machine_next (consumed : r.consume input = some (.indeterminate, after)) :
    machine r input = .next after := by
  simp only [machine, consumed]

/-- Where the parser refuses a character, the machine stops. -/
theorem machine_refuses (consumed : r.consume input = some (.bad, r)) :
    ∃ ending final, machine r input = .stop ending final ∧ ending ≠ .good := by
  simp only [machine, consumed]
  exact ⟨_, _, rfl, by simp⟩

/-- A class of characters tells them from a character outside it. -/
theorem ne_of_class {keep : UInt8 → Bool} {c other : UInt8} {expected : Bool}
    (kept : keep c = expected) (outside : keep other = !expected) : c ≠ other := by
  rintro rfl
  rw [kept] at outside
  cases expected <;> cases outside

/-- A state that expects one character. -/
theorem expects {state next : State} {req : Request} {expected : UInt8}
    (takes : ∀ input, consume ⟨state, req⟩ input =
      if input = expected then some (goto ⟨state, req⟩ next) else some (.bad, ⟨state, req⟩)) :
    Picks machine .good (· = expected) ⟨state, req⟩ fun _ => ⟨next, req⟩ where
  keeps symbol same := machine_next (by rw [takes, if_pos same]; rfl)
  refuses symbol other := machine_refuses (by rw [takes, if_neg other])

/-- The first character of the method has to be one of a token. -/
theorem picks_method_start (req : Request) :
    Picks machine .good (isToken · = true) ⟨.method_start, { req with method := [] }⟩
      fun c => ⟨.method, { req with method := [c] }⟩ where
  keeps symbol token := machine_next (by
    simp only [consume, refuses_iff, token, Bool.not_true, Bool.false_eq_true, if_false, enter,
      List.nil_append])
  refuses symbol other := machine_refuses (by
    simp only [consume, refuses_iff, other, Bool.not_false, if_true])

/-- The method is collected up to the blank behind it. -/
theorem collects_method (req : Request) :
    Collects machine .good (isToken · = true) sp
      (fun seen => ⟨.method, { req with method := seen }⟩)
      (fun seen => ⟨.uri, { req with method := seen }⟩) where
  keeps seen symbol token := machine_next (by
    simp only [consume, if_neg (ne_of_class token (rfl : isToken sp = false)), refuses_iff, token,
      Bool.not_true, Bool.false_eq_true, if_false, enter])
  ends seen := machine_next rfl
  refuses seen symbol other going := machine_refuses (by
    simp only [consume, if_neg going, refuses_iff, other, Bool.not_false, if_true])

/-- The target is collected up to the blank behind it. -/
theorem collects_uri (req : Request) :
    Collects machine .good (fun c => isCtl c = false ∧ c ≠ sp) sp
      (fun seen => ⟨.uri, { req with uri := seen }⟩)
      (fun seen => ⟨.http_version_h, { req with uri := seen }⟩) where
  keeps seen symbol plain := machine_next (by
    simp only [consume, if_neg plain.2, plain.1, Bool.false_eq_true, if_false, enter])
  ends seen := machine_next rfl
  refuses seen symbol other going := machine_refuses (by
    have control : isCtl symbol = true := by simpa [going] using other
    simp only [consume, if_neg going, control, if_true])

/-- The slash in the version sets both numbers to zero. -/
theorem picks_slash (req : Request) :
    Picks machine .good (· = byte '/') ⟨.http_version_slash, req⟩ fun _ =>
      ⟨.http_version_major_start,
        { req with http_version_major := some 0, http_version_minor := some 0 }⟩ where
  keeps symbol same := machine_next (by simp only [consume, if_pos same, enter])
  refuses symbol other := machine_refuses (by simp only [consume, if_neg other])

/-- The major version starts with a digit. -/
theorem picks_major_start (req : Request) :
    Picks machine .good (isDigit · = true)
      ⟨.http_version_major_start, { req with http_version_major := some 0 }⟩
      fun c => ⟨.http_version_major, { req with http_version_major := versionOf [c] }⟩ where
  keeps symbol digit := machine_next (by simp only [consume, digit, if_true]; rfl)
  refuses symbol other := machine_refuses (by simp only [consume, if_neg other])

/-- The digits of the major version are collected up to the point. -/
theorem collects_major (req : Request) :
    Collects machine .good (isDigit · = true) (byte '.')
      (fun seen => ⟨.http_version_major, { req with http_version_major := versionOf seen }⟩)
      (fun seen =>
        ⟨.http_version_minor_start, { req with http_version_major := versionOf seen }⟩) where
  keeps seen symbol digit := machine_next (by
    simp only [consume, if_neg (ne_of_class digit (rfl : isDigit (byte '.') = false)), digit,
      if_true, enter, versionOf, List.foldl_append, List.foldl_cons, List.foldl_nil])
  ends seen := machine_next rfl
  refuses seen symbol other going := machine_refuses (by
    simp only [consume, if_neg going, if_neg other])

/-- The minor version starts with a digit. -/
theorem picks_minor_start (req : Request) :
    Picks machine .good (isDigit · = true)
      ⟨.http_version_minor_start, { req with http_version_minor := some 0 }⟩
      fun c => ⟨.http_version_minor, { req with http_version_minor := versionOf [c] }⟩ where
  keeps symbol digit := machine_next (by simp only [consume, digit, if_true]; rfl)
  refuses symbol other := machine_refuses (by simp only [consume, if_neg other])

/-- The digits of the minor version are collected up to the end of the line. -/
theorem collects_minor (req : Request) :
    Collects machine .good (isDigit · = true) cr
      (fun seen => ⟨.http_version_minor, { req with http_version_minor := versionOf seen }⟩)
      (fun seen => ⟨.expecting_newline_1, { req with http_version_minor := versionOf seen }⟩) where
  keeps seen symbol digit := machine_next (by
    simp only [consume, if_neg (ne_of_class digit (rfl : isDigit cr = false)), digit,
      if_true, enter, versionOf, List.foldl_append, List.foldl_cons, List.foldl_nil])
  ends seen := machine_next rfl
  refuses seen symbol other going := machine_refuses (by
    simp only [consume, if_neg going, if_neg other])

/-- The last header of a list is the one that is changed. -/
theorem mapBack_concat (req : Request) (earlier : List Header) (back : Header)
    (change : Header → Header) :
    { req with headers := earlier ++ [back] : Request }.mapBack change =
      some { req with headers := earlier ++ [change back] } := by
  simp only [Request.mapBack, List.getLast?_append, List.getLast?_singleton, Option.some_or,
    List.dropLast_concat]

/-- The name of a header is collected up to the colon. -/
theorem collects_name (req : Request) (earlier : List Header) :
    Collects machine .good (isToken · = true) (byte ':')
      (fun seen => ⟨.header_name, { req with headers := earlier ++ [⟨seen, []⟩] }⟩)
      (fun seen =>
        ⟨.space_before_header_value, { req with headers := earlier ++ [⟨seen, []⟩] }⟩) where
  keeps seen symbol token := machine_next (by
    simp only [consume, if_neg (ne_of_class token (rfl : isToken (byte ':') = false)), refuses_iff,
      token, Bool.not_true, Bool.false_eq_true, if_false, Request.pushBackName, mapBack_concat,
      Option.map_some, enter])
  ends seen := machine_next rfl
  refuses seen symbol other going := machine_refuses (by
    simp only [consume, if_neg going, refuses_iff, other, Bool.not_false, if_true])

/-- The value of a header is collected up to the end of its line. -/
theorem collects_value (req : Request) (earlier : List Header) (name : Bytes) :
    Collects machine .good (isCtl · = false) cr
      (fun seen => ⟨.header_value, { req with headers := earlier ++ [⟨name, seen⟩] }⟩)
      (fun seen => ⟨.expecting_newline_2, { req with headers := earlier ++ [⟨name, seen⟩] }⟩) where
  keeps seen symbol plain := machine_next (by
    simp only [consume, if_neg (ne_of_class plain (rfl : isCtl cr = true)), plain,
      Bool.false_eq_true, if_false, Request.pushBackValue, mapBack_concat, Option.map_some, enter])
  ends seen := machine_next rfl
  refuses seen symbol other going := machine_refuses (by
    have control : isCtl symbol = true := by simpa using other
    simp only [consume, if_neg going, control, if_true])

/-- The version of the request line is read. -/
theorem scan_version (req : Request) {major minor : Bytes} (major_nonempty : major ≠ [])
    (major_digits : ∀ c ∈ major, isDigit c = true) (minor_nonempty : minor ≠ [])
    (minor_digits : ∀ c ∈ minor, isDigit c = true) (more : Bytes) :
    scan machine ⟨.http_version_h, req⟩
        (text "HTTP/" ++ (major ++ byte '.' :: (minor ++ cr :: lf :: more))) =
      scan machine
        ⟨.header_line_start,
          { req with
            http_version_major := versionOf major, http_version_minor := versionOf minor }⟩
        more := by
  have literal : text "HTTP/" = [byte 'H', byte 'T', byte 'T', byte 'P', byte '/'] := rfl
  rw [literal]
  simp only [List.cons_append, List.nil_append]
  rw [(expects fun _ => rfl).scan_symbol rfl, (expects fun _ => rfl).scan_symbol rfl,
    (expects fun _ => rfl).scan_symbol rfl, (expects fun _ => rfl).scan_symbol rfl,
    (picks_slash _).scan_symbol rfl]
  let started : Request := { req with http_version_minor := some 0 }
  let numbered : Request := { req with http_version_major := versionOf major }
  refine ((collects_major started).scan_nonempty (picks_major_start started) major_nonempty
    major_digits _).trans ?_
  refine ((collects_minor numbered).scan_nonempty (picks_minor_start numbered) minor_nonempty
    minor_digits _).trans ?_
  exact (expects fun _ => rfl).scan_symbol rfl more

/-- An accepted run that begins at the version reads one. -/
theorem version_inv {req : Request} {input rest : Bytes} {final : Reading}
    (emits : scan machine ⟨.http_version_h, req⟩ input = .emit .good final rest) :
    ∃ major minor more, input = text "HTTP/" ++ (major ++ byte '.' :: (minor ++ cr :: lf :: more)) ∧
      (major ≠ [] ∧ ∀ c ∈ major, isDigit c = true) ∧
      (minor ≠ [] ∧ ∀ c ∈ minor, isDigit c = true) ∧
      scan machine
        ⟨.header_line_start,
          { req with
            http_version_major := versionOf major, http_version_minor := versionOf minor }⟩
        more = .emit .good final rest := by
  obtain ⟨_, _, rfl, rfl, at_t1⟩ := (expects fun _ => rfl).inv emits
  obtain ⟨_, _, rfl, rfl, at_t2⟩ := (expects fun _ => rfl).inv at_t1
  obtain ⟨_, _, rfl, rfl, at_p⟩ := (expects fun _ => rfl).inv at_t2
  obtain ⟨_, _, rfl, rfl, at_slash⟩ := (expects fun _ => rfl).inv at_p
  obtain ⟨_, _, rfl, rfl, at_major⟩ := (picks_slash _).inv at_slash
  let started : Request := { req with http_version_minor := some 0 }
  obtain ⟨major, _, rfl, major_nonempty, major_digits, at_minor⟩ :=
    (collects_major started).inv_nonempty (picks_major_start started) at_major
  let numbered : Request := { req with http_version_major := versionOf major }
  obtain ⟨minor, _, rfl, minor_nonempty, minor_digits, at_newline⟩ :=
    (collects_minor numbered).inv_nonempty (picks_minor_start numbered) at_minor
  obtain ⟨_, more, rfl, rfl, at_headers⟩ := (expects fun _ => rfl).inv at_newline
  exact ⟨major, minor, more, rfl, ⟨major_nonempty, major_digits⟩, ⟨minor_nonempty, minor_digits⟩,
    at_headers⟩

/-- The request line is read. -/
theorem scan_line (head : RequestHead) (more : Bytes) :
    scan machine fresh (head.line ++ more) =
      scan machine ⟨.header_line_start, { head.request with headers := [] }⟩ more := by
  have spelled : head.line ++ more = head.method ++ sp :: (head.uri ++ sp :: (text "HTTP/" ++
      (head.major ++ byte '.' :: (head.minor ++ cr :: lf :: more)))) := by
    have dot : text "." = [byte '.'] := rfl
    simp only [RequestHead.line, crlf, dot, List.append_assoc, List.cons_append, List.nil_append]
  rw [spelled]
  refine ((collects_method {}).scan_nonempty (picks_method_start {}) head.method_nonempty
    head.method_token _).trans ?_
  refine ((collects_uri { method := head.method }).scan_word [] head.uri _ head.uri_plain).trans ?_
  exact scan_version _ head.major_nonempty head.major_digits head.minor_nonempty
    head.minor_digits more

/-- An accepted run reads a request line. -/
theorem line_inv {input rest : Bytes} {final : Reading}
    (emits : scan machine fresh input = .emit .good final rest) :
    ∃ (head : RequestHead) (more : Bytes), input = head.line ++ more ∧
      scan machine ⟨.header_line_start, { head.request with headers := [] }⟩ more =
        .emit .good final rest := by
  obtain ⟨method, _, rfl, method_nonempty, method_token, at_uri⟩ :=
    (collects_method {}).inv_nonempty (picks_method_start {}) emits
  obtain ⟨uri, _, rfl, uri_plain, at_version⟩ := (collects_uri { method := method }).inv at_uri
  obtain ⟨major, minor, more, rfl, majors, minors, at_headers⟩ := version_inv at_version
  let head : RequestHead :=
    ⟨method, uri, major, minor, [], method_nonempty, method_token, uri_plain, majors.1, majors.2,
      minors.1, minors.2⟩
  refine ⟨head, more, ?_, at_headers⟩
  have dot : text "." = [byte '.'] := rfl
  simp only [head, RequestHead.line, crlf, dot, List.append_assoc, List.cons_append,
    List.nil_append]

/-- At the beginning of a header line, with the headers read so far. -/
def atLine (req : Request) (headers : List Header) : Reading :=
  ⟨.header_line_start, { req with headers := headers }⟩

/-- The header with more text in its value. -/
def extend (header : Header) (body : Bytes) : Header :=
  { header with value := header.value ++ body }

/-- Nothing is added. -/
theorem extend_nil (header : Header) : extend header [] = header := by
  simp only [extend, List.append_nil]

/-- A value is extended part by part. -/
theorem extend_append (header : Header) (body more : Bytes) :
    extend (extend header body) more = extend header (body ++ more) := by
  simp only [extend, List.append_assoc]

/-- The rest of a value and its line end are read. -/
theorem scan_value (req : Request) (earlier : List Header) (name seen : Bytes) {body : Bytes}
    (plain : ∀ c ∈ body, isCtl c = false) (more : Bytes) :
    scan machine ⟨.header_value, { req with headers := earlier ++ [⟨name, seen⟩] }⟩
        (body ++ cr :: lf :: more) =
      scan machine (atLine req (earlier ++ [⟨name, seen ++ body⟩])) more := by
  refine ((collects_value req earlier name).scan_word seen body _ plain).trans ?_
  exact (expects fun _ => rfl).scan_symbol rfl more

/-- An accepted run inside a value reads its rest and a line end. -/
theorem value_inv {req : Request} {earlier : List Header} {name seen input rest : Bytes}
    {final : Reading}
    (emits : scan machine ⟨.header_value, { req with headers := earlier ++ [⟨name, seen⟩] }⟩ input =
      .emit .good final rest) :
    ∃ body more, input = body ++ cr :: lf :: more ∧ (∀ c ∈ body, isCtl c = false) ∧
      scan machine (atLine req (earlier ++ [⟨name, seen ++ body⟩])) more =
        .emit .good final rest := by
  obtain ⟨body, _, rfl, plain, at_newline⟩ := (collects_value req earlier name).inv emits
  obtain ⟨_, more, rfl, rfl, at_line⟩ := (expects fun _ => rfl).inv at_newline
  exact ⟨body, more, rfl, plain, at_line⟩

/-- A token character begins a header. -/
theorem line_token (req : Request) (headers : List Header) {c : UInt8} (token : isToken c = true) :
    machine (atLine req headers) c =
      .next ⟨.header_name, { req with headers := headers ++ [⟨[c], []⟩] }⟩ := by
  have not_cr : c ≠ cr := ne_of_class token rfl
  have not_sp : c ≠ sp := ne_of_class token rfl
  have not_ht : c ≠ ht := ne_of_class token rfl
  apply machine_next
  simp only [consume, atLine, if_neg not_cr, beq_eq_false_iff_ne.mpr not_sp,
    beq_eq_false_iff_ne.mpr not_ht, Bool.or_self, Bool.and_false, Bool.false_eq_true, if_false,
    refuses_iff, token, Bool.not_true, Request.pushBackName, mapBack_concat, Option.map_some,
    enter, List.nil_append]

/-- A blank continues the last header. -/
theorem line_blank (req : Request) (earlier : List Header) (back : Header) {c : UInt8}
    (blank : c = sp ∨ c = ht) :
    machine (atLine req (earlier ++ [back])) c =
      .next ⟨.header_lws, { req with headers := earlier ++ [back] }⟩ := by
  have present : (earlier ++ [back]).isEmpty = false := by simp
  rcases blank with rfl | rfl
  · exact machine_next (by simp only [consume, atLine, present]; rfl)
  · exact machine_next (by simp only [consume, atLine, present]; rfl)

/-- Nothing else but the empty line may stand there. -/
theorem line_other {req : Request} {headers : List Header} {c : UInt8} (not_cr : c ≠ cr)
    (unfolded : headers = [] ∨ (c ≠ sp ∧ c ≠ ht)) (other : isToken c ≠ true) :
    ∃ ending final, machine (atLine req headers) c = .stop ending final ∧ ending ≠ .good := by
  have flush : (!headers.isEmpty && (c == sp || c == ht)) = false := by
    rcases unfolded with rfl | ⟨not_sp, not_ht⟩
    · rfl
    · simp [not_sp, not_ht]
  apply machine_refuses
  simp only [consume, atLine, if_neg not_cr, flush, Bool.false_eq_true, if_false, refuses_iff,
    other, Bool.not_false, if_true]

/-- The line of a header is read. -/
theorem scan_field (req : Request) (headers : List Header) (field : Field) (more : Bytes) :
    scan machine (atLine req headers) (field.line ++ more) =
      scan machine (atLine req (headers ++ [⟨field.name, field.value⟩])) more := by
  obtain ⟨c, others, named⟩ := List.exists_cons_of_ne_nil field.name_nonempty
  have tokens := field.name_token
  rw [named] at tokens
  have spelled : field.line ++ more =
      c :: (others ++ byte ':' :: sp :: (field.value ++ cr :: lf :: more)) := by
    simp only [Field.line, named, crlf, List.append_assoc, List.cons_append, List.nil_append]
  rw [spelled, named, scan, line_token req headers (tokens c List.mem_cons_self)]
  refine ((collects_name req headers).scan_word [c] others _
    fun other member => tokens other (List.mem_cons_of_mem c member)).trans ?_
  rw [(expects fun _ => rfl).scan_symbol rfl]
  exact scan_value req headers (c :: others) [] field.value_plain more

/-- In a continuation line a line end ends the header line, a blank is skipped,
and any other character that is not a control character begins the text. -/
theorem lws_end (req : Request) :
    machine ⟨.header_lws, req⟩ cr = .next ⟨.expecting_newline_2, req⟩ := rfl

/-- Blanks in front of a continued line are skipped. -/
theorem lws_blank (req : Request) {c : UInt8} (blank : c = sp ∨ c = ht) :
    machine ⟨.header_lws, req⟩ c = .next ⟨.header_lws, req⟩ := by
  rcases blank with rfl | rfl
  · rfl
  · rfl

/-- The first character of a continued line goes to the last header. -/
theorem lws_text (req : Request) (earlier : List Header) (back : Header) {c : UInt8}
    (plain : isCtl c = false) (flush : ¬ (c = sp ∨ c = ht)) :
    machine ⟨.header_lws, { req with headers := earlier ++ [back] }⟩ c =
      .next ⟨.header_value, { req with headers := earlier ++ [extend back [c]] }⟩ := by
  apply machine_next
  simp only [consume, if_neg (ne_of_class plain (rfl : isCtl cr = true)), if_neg flush, plain,
    Bool.false_eq_true, if_false, Request.pushBackValue, mapBack_concat, Option.map_some, enter,
    extend]

/-- A control character there is refused. -/
theorem lws_control (req : Request) {c : UInt8} (going : c ≠ cr) (flush : ¬ (c = sp ∨ c = ht))
    (control : isCtl c ≠ false) :
    ∃ ending final, machine ⟨.header_lws, req⟩ c = .stop ending final ∧ ending ≠ .good := by
  apply machine_refuses
  simp only [consume, if_neg going, if_neg flush, control, if_true]

/-- Blanks at the beginning of a continuation line are skipped. -/
theorem scan_blanks (req : Request) {blanks : Bytes} (all : ∀ c ∈ blanks, c = sp ∨ c = ht)
    (more : Bytes) :
    scan machine ⟨.header_lws, req⟩ (blanks ++ more) = scan machine ⟨.header_lws, req⟩ more := by
  induction blanks with
  | nil => rfl
  | cons c blanks inductionHypothesis =>
    rw [List.cons_append, scan, lws_blank req (all c List.mem_cons_self)]
    exact inductionHypothesis fun other member => all other (List.mem_cons_of_mem c member)

/-- The text of a continuation line is read. -/
theorem scan_lws (req : Request) (earlier : List Header) (back : Header) (fold : Fold)
    (more : Bytes) :
    scan machine ⟨.header_lws, { req with headers := earlier ++ [back] }⟩
        (fold.body ++ cr :: lf :: more) =
      scan machine (atLine req (earlier ++ [extend back fold.body])) more := by
  cases spelled : fold.body with
  | nil =>
    rw [extend_nil, List.nil_append, scan, lws_end]
    exact (expects fun _ => rfl).scan_symbol rfl more
  | cons c others =>
    have plain := fold.body_plain
    rw [spelled] at plain
    rw [List.cons_append, scan, lws_text req earlier back (plain c List.mem_cons_self)
      (not_or.mpr (fold.body_flush c others spelled))]
    refine (scan_value req earlier back.name (back.value ++ [c])
      (fun other member => plain other (List.mem_cons_of_mem c member)) more).trans ?_
    simp only [extend, List.append_assoc, List.cons_append, List.nil_append]

/-- A continuation line is read. -/
theorem scan_fold (req : Request) (earlier : List Header) (back : Header) (fold : Fold)
    (more : Bytes) :
    scan machine (atLine req (earlier ++ [back])) (fold.bytes ++ more) =
      scan machine (atLine req (earlier ++ [extend back fold.body])) more := by
  obtain ⟨c, blanks, spaced⟩ := List.exists_cons_of_ne_nil fold.blanks_nonempty
  have all := fold.blanks_blank
  rw [spaced] at all
  have spelled : fold.bytes ++ more = c :: (blanks ++ (fold.body ++ cr :: lf :: more)) := by
    simp only [Fold.bytes, spaced, crlf, List.append_assoc, List.cons_append, List.nil_append]
  rw [spelled, scan, line_blank req earlier back (all c List.mem_cons_self)]
  refine (scan_blanks _ (fun other member => all other (List.mem_cons_of_mem c member)) _).trans ?_
  exact scan_lws req earlier back fold more

/-- An accepted run inside a continuation line reads blanks, text that does not
begin with one, and a line end. -/
theorem lws_inv {req : Request} {earlier : List Header} {back : Header} {input rest : Bytes}
    {final : Reading}
    (emits : scan machine ⟨.header_lws, { req with headers := earlier ++ [back] }⟩ input =
      .emit .good final rest) :
    ∃ blanks body more, input = blanks ++ (body ++ cr :: lf :: more) ∧
      (∀ c ∈ blanks, c = sp ∨ c = ht) ∧ (∀ c ∈ body, isCtl c = false) ∧
      (∀ c rest, body = c :: rest → c ≠ sp ∧ c ≠ ht) ∧
      scan machine (atLine req (earlier ++ [extend back body])) more = .emit .good final rest := by
  induction input with
  | nil => cases emits
  | cons c symbols inductionHypothesis =>
    rw [scan] at emits
    by_cases ended : c = cr
    · subst ended
      rw [lws_end] at emits
      obtain ⟨_, more, rfl, rfl, at_line⟩ := (expects fun _ => rfl).inv emits
      refine ⟨[], [], more, rfl, by simp, by simp, by simp, ?_⟩
      rw [extend_nil]
      exact at_line
    by_cases blank : c = sp ∨ c = ht
    · rw [lws_blank _ blank] at emits
      obtain ⟨blanks, body, more, rfl, all, plain, flush, at_line⟩ := inductionHypothesis emits
      refine ⟨c :: blanks, body, more, rfl, ?_, plain, flush, at_line⟩
      intro other member
      rcases List.mem_cons.mp member with rfl | member
      · exact blank
      · exact all other member
    by_cases plain : isCtl c = false
    · rw [lws_text req earlier back plain blank] at emits
      obtain ⟨body, more, rfl, others_plain, at_line⟩ := value_inv emits
      refine ⟨[], c :: body, more, rfl, by simp, ?_, ?_, ?_⟩
      · intro other member
        rcases List.mem_cons.mp member with rfl | member
        · exact plain
        · exact others_plain other member
      · rintro _ _ ⟨⟩
        exact not_or.mp blank
      · simpa only [extend, List.append_assoc, List.cons_append, List.nil_append] using at_line
    · obtain ⟨ending, stopped, refused, other⟩ := lws_control
        { req with headers := earlier ++ [back] } ended blank plain
      rw [refused] at emits
      cases emits
      exact absurd rfl other

/-- An accepted run at the beginning of a header line reads the empty line that
ends the head, a continuation of the last header, or the line of a header. -/
theorem header_line_inv {req : Request} {headers : List Header} {input rest : Bytes}
    {final : Reading}
    (emits : scan machine (atLine req headers) input = .emit .good final rest) :
    (input = cr :: lf :: rest ∧ final = ⟨.expecting_newline_3, { req with headers := headers }⟩) ∨
    (∃ earlier back, headers = earlier ++ [back] ∧ ∃ (fold : Fold) (more : Bytes),
      input = fold.bytes ++ more ∧
      scan machine (atLine req (earlier ++ [extend back fold.body])) more =
        .emit .good final rest) ∨
    (∃ (field : Field) (more : Bytes), field.folds = [] ∧ input = field.line ++ more ∧
      scan machine (atLine req (headers ++ [⟨field.name, field.value⟩])) more =
        .emit .good final rest) := by
  cases input with
  | nil => cases emits
  | cons c symbols =>
    rw [scan] at emits
    by_cases ended : c = cr
    · subst ended
      left
      cases symbols with
      | nil => cases emits
      | cons d left_over =>
        by_cases fed : d = lf
        · subst fed
          cases emits
          exact ⟨rfl, rfl⟩
        · simp only [machine, consume, atLine, goto, scan, if_neg fed] at emits
          cases emits
    by_cases token : isToken c = true
    · rw [line_token req headers token] at emits
      obtain ⟨name, _, rfl, tokens, at_space⟩ := (collects_name req headers).inv emits
      obtain ⟨_, _, rfl, rfl, at_value⟩ := (expects fun _ => rfl).inv at_space
      obtain ⟨value, more, rfl, plain, at_line⟩ := value_inv at_value
      right; right
      refine ⟨⟨c :: name, value, [], by simp, ?_, plain⟩, more, rfl, ?_, at_line⟩
      · intro other member
        rcases List.mem_cons.mp member with rfl | member
        · exact token
        · exact tokens other member
      · simp only [Field.line, crlf, List.append_assoc, List.cons_append, List.nil_append]
    by_cases unfolded : headers = [] ∨ (c ≠ sp ∧ c ≠ ht)
    · obtain ⟨ending, stopped, refused, other⟩ := line_other ended unfolded token
      rw [refused] at emits
      cases emits
      exact absurd rfl other
    · obtain ⟨present, blank⟩ := not_or.mp unfolded
      have blank : c = sp ∨ c = ht := by
        by_contra neither
        exact blank (not_or.mp neither)
      rcases List.eq_nil_or_concat headers with nothing | ⟨earlier, back, rfl⟩
      · exact absurd nothing present
      rw [List.concat_eq_append] at emits ⊢
      rw [line_blank req earlier back blank] at emits
      obtain ⟨blanks, body, more, rfl, all, plain, flush, at_line⟩ := lws_inv emits
      right; left
      refine ⟨earlier, back, rfl, ⟨c :: blanks, body, by simp, ?_, plain, flush⟩, more, ?_, at_line⟩
      · intro other member
        rcases List.mem_cons.mp member with rfl | member
        · exact blank
        · exact all other member
      · simp only [Fold.bytes, crlf, List.append_assoc, List.cons_append, List.nil_append]

/-- Continuation lines add their texts to the last header. -/
theorem scan_folds (req : Request) (earlier : List Header) (back : Header) (folds : List Fold)
    (more : Bytes) :
    scan machine (atLine req (earlier ++ [back])) (folds.flatMap Fold.bytes ++ more) =
      scan machine (atLine req (earlier ++ [extend back (folds.flatMap Fold.body)])) more := by
  induction folds generalizing back with
  | nil => rw [List.flatMap_nil, List.flatMap_nil, List.nil_append, extend_nil]
  | cons fold folds inductionHypothesis =>
    rw [List.flatMap_cons, List.append_assoc, scan_fold, inductionHypothesis, extend_append,
      List.flatMap_cons]

/-- Headers are added one after the other. -/
theorem scan_fields (req : Request) (headers : List Header) (fields : List Field)
    (more : Bytes) :
    scan machine (atLine req headers) (fields.flatMap Field.bytes ++ more) =
      scan machine (atLine req (headers ++ fields.map Field.header)) more := by
  induction fields generalizing headers with
  | nil => rw [List.flatMap_nil, List.map_nil, List.nil_append, List.append_nil]
  | cons field fields inductionHypothesis =>
    rw [List.flatMap_cons, List.append_assoc, Field.bytes, List.append_assoc, scan_field,
      scan_folds, inductionHypothesis, List.append_assoc, List.map_cons]
    rfl

/-- The machine accepts the spelling of a head and stops behind it, with the
request the head stands for. -/
theorem scan_head (head : RequestHead) (rest : Bytes) :
    scan machine fresh (head.bytes ++ rest) =
      .emit .good ⟨.expecting_newline_3, head.request⟩ rest := by
  rw [RequestHead.bytes, List.append_assoc, List.append_assoc, scan_line]
  exact scan_fields head.request [] head.fields (crlf ++ rest)

/-- An accepted run behind a header reads its continuation lines, further headers
and the empty line. -/
theorem fields_inv {req : Request} {earlier : List Header} {back : Header} {input rest : Bytes}
    {final : Reading}
    (emits : scan machine (atLine req (earlier ++ [back])) input = .emit .good final rest) :
    ∃ (folds : List Fold) (fields : List Field),
      input = folds.flatMap Fold.bytes ++ (fields.flatMap Field.bytes ++ (crlf ++ rest)) ∧
      final = ⟨.expecting_newline_3, { req with
        headers := earlier ++ [extend back (folds.flatMap Fold.body)] ++
          fields.map Field.header }⟩ := by
  induction length : input.length using Nat.strongRecOn generalizing earlier back input with
  | _ size inductionHypothesis =>
    rcases header_line_inv emits with ⟨rfl, rfl⟩ | ⟨_, _, same, fold, more, rfl, at_line⟩ |
      ⟨field, more, _, rfl, at_line⟩
    · refine ⟨[], [], rfl, ?_⟩
      simp only [List.flatMap_nil, extend_nil, List.map_nil, List.append_nil]
    · obtain ⟨rfl, last⟩ := List.append_inj' same rfl
      obtain rfl : back = _ := List.singleton_inj.mp last
      have shorter : more.length < size := by
        simp only [← length, Fold.bytes, crlf, List.length_append, List.length_cons]
        omega
      obtain ⟨folds, fields, rfl, rfl⟩ := inductionHypothesis _ shorter at_line rfl
      refine ⟨fold :: folds, fields, ?_, ?_⟩
      · rw [List.flatMap_cons, List.append_assoc]
      · rw [extend_append, List.flatMap_cons]
    · have shorter : more.length < size := by
        simp only [← length, Field.line, crlf, List.length_append, List.length_cons]
        omega
      obtain ⟨folds, fields, rfl, rfl⟩ := inductionHypothesis _ shorter at_line rfl
      refine ⟨[], { field with folds := folds } :: fields, ?_, ?_⟩
      · simp only [List.flatMap_nil, List.nil_append, List.flatMap_cons, Field.bytes, Field.line,
          List.append_assoc]
      · rw [List.flatMap_nil, extend_nil, List.map_cons, List.append_assoc (earlier ++ [back])]
        rfl

/-- An accepted run behind the request line reads headers and the empty line. -/
theorem headers_inv {req : Request} {input rest : Bytes} {final : Reading}
    (emits : scan machine (atLine req []) input = .emit .good final rest) :
    ∃ fields : List Field, input = fields.flatMap Field.bytes ++ (crlf ++ rest) ∧
      final = ⟨.expecting_newline_3, { req with headers := fields.map Field.header }⟩ := by
  rcases header_line_inv emits with ⟨rfl, rfl⟩ | ⟨_, _, none_yet, _⟩ |
    ⟨field, more, _, rfl, at_line⟩
  · exact ⟨[], rfl, rfl⟩
  · simp at none_yet
  · obtain ⟨folds, fields, rfl, rfl⟩ := fields_inv at_line
    refine ⟨{ field with folds := folds } :: fields, ?_, ?_⟩
    · simp only [List.flatMap_cons, Field.bytes, Field.line, List.append_assoc]
    · simp only [List.map_cons, Field.header, extend, List.nil_append, List.cons_append]

/-- An accepted run has read the spelling of a head. -/
theorem head_inv {input rest : Bytes} {final : Reading}
    (emits : scan machine fresh input = .emit .good final rest) :
    ∃ head : RequestHead, input = head.bytes ++ rest := by
  obtain ⟨head, _, rfl, at_headers⟩ := line_inv emits
  obtain ⟨fields, rfl, _⟩ := headers_inv at_headers
  refine ⟨{ head with fields := fields }, ?_⟩
  simp only [RequestHead.bytes, RequestHead.line, List.append_assoc]

/-- The parser accepts exactly the grammar of request heads, and extracts what the
grammar describes.

From a fresh parser and an empty request, the run of `consume` over a byte
string ends with `good` exactly when a prefix of it spells a head. Whatever head
it spells, the run then consumes that prefix and nothing behind it, `parse`
returns the rest of the string, and the method, the undecoded URI and the headers
are those of the head. On no string is `headers.back()` applied to an empty
list. -/
theorem accepts_grammar (s : Bytes) :
    ((∃ final rest, scan machine fresh s = .emit .good final rest) ↔
      ∃ head : RequestHead, head.bytes <+: s) ∧
    (∀ (head : RequestHead) (rest : Bytes), s = head.bytes ++ rest →
      ∃ final, scan machine fresh s = .emit .good final rest ∧
        fresh.parse s = some ⟨.good, rest, final.accept rest⟩ ∧
        final.req.method = head.method ∧ final.req.uri = head.uri ∧
        final.req.headers = head.fields.map Field.header) ∧
    (∀ final rest, scan machine fresh s ≠ .emit .undefined final rest) ∧
    fresh.parse s ≠ none := by
  refine ⟨⟨?_, ?_⟩, ?_, scan_defined s, ?_⟩
  · rintro ⟨final, rest, emits⟩
    obtain ⟨head, spelled⟩ := head_inv emits
    exact ⟨head, rest, spelled.symm⟩
  · rintro ⟨head, rest, rfl⟩
    exact ⟨_, rest, scan_head head rest⟩
  · rintro head rest rfl
    refine ⟨⟨.expecting_newline_3, head.request⟩, scan_head head rest, ?_, rfl, rfl, rfl⟩
    rw [parse_eq, scan_head]
    rfl
  · rw [parse_eq]
    intro undefined
    cases ran : scan machine fresh s with
    | wait after rest => simp [ran, parsedOf] at undefined
    | emit ending after rest =>
      cases ending with
      | good => simp [ran, parsedOf, conclude] at undefined
      | bad => simp [ran, parsedOf, conclude] at undefined
      | undefined => exact scan_defined s after rest ran

end Reading

end Cppboot.Http
