import Cppboot.RequestParser

/-!
# Request heads that arrive in pieces

`consume` as a machine of the incremental library, and the invariant that keeps
`headers.back()` away from an empty list: in the states inside a header there is
one. Since `parse` only runs that machine and looks at the request again when it
accepts, parsing a head in pieces and parsing it at once agree in everything but
the content, which is what is left of the last piece.
-/

namespace Cppboot.Http

open Incremental

/-- The states in which the last header is still open. -/
def State.inHeader : State → Bool
  | .header_lws | .header_name | .space_before_header_value | .header_value
  | .expecting_newline_2 => true
  | _ => false

theorem Request.mapBack_some {req : Request} (change : Header → Header)
    (present : req.headers ≠ []) :
    ∃ changed, req.mapBack change = some changed ∧ changed.headers ≠ [] := by
  unfold mapBack
  rw [List.getLast?_eq_some_getLast present]
  exact ⟨_, rfl, by simp⟩

namespace Reading

/-- Inside a header the list of headers is not empty. -/
def BackSafe (r : Reading) : Prop := r.state_.inHeader = true → r.req.headers ≠ []

theorem fresh_safe : BackSafe fresh := by
  intro inside
  cases inside

/-- A character that is refused changes nothing. -/
theorem refused_safe {r : Reading} (safe : r.BackSafe) :
    ∃ result after, some (ResultType.bad, r) = some (result, after) ∧ after.BackSafe :=
  ⟨_, _, rfl, safe⟩

/-- Going on is safe where no header is open, and where there is one. -/
theorem goto_safe (r : Reading) {state : State}
    (open_safe : state.inHeader = true → r.req.headers ≠ []) :
    ∃ result after, some (r.goto state) = some (result, after) ∧ after.BackSafe :=
  ⟨_, _, rfl, open_safe⟩

/-- So is a change of anything but the headers. -/
theorem enter_safe {state : State} (req : Request) (closed : state.inHeader = false) :
    ∃ result after, some (enter state req) = some (result, after) ∧ after.BackSafe := by
  refine ⟨_, _, rfl, ?_⟩
  intro inside
  exact absurd (closed.symm.trans inside) (by simp)

/-- Changing the last header leaves it there. -/
theorem mapBack_safe {state : State} {req : Request} (change : Header → Header)
    (present : req.headers ≠ []) :
    ∃ result after, (req.mapBack change).map (enter state) = some (result, after) ∧
      after.BackSafe := by
  obtain ⟨changed, defined, kept⟩ := Request.mapBack_some change present
  rw [defined]
  exact ⟨_, _, rfl, fun _ => kept⟩

/-- One character: `consume` has a result, and the invariant stays. -/
theorem consume_safe {r : Reading} (safe : r.BackSafe) (input : UInt8) :
    ∃ result after, r.consume input = some (result, after) ∧ after.BackSafe := by
  obtain ⟨state, req⟩ := r
  cases state
  case method_start | method | uri | http_version_h | http_version_t_1 | http_version_t_2
      | http_version_p | http_version_slash | http_version_major_start | http_version_major
      | http_version_minor_start | http_version_minor | expecting_newline_1 =>
    simp only [consume]
    split_ifs <;>
      first
      | exact refused_safe safe
      | exact enter_safe _ rfl
  case header_line_start =>
    simp only [consume]
    split_ifs with ends folds refuses
    · exact enter_safe _ rfl
    · refine goto_safe _ ?_
      intro _ nothing
      simp [show req.headers = [] from nothing] at folds
    · exact refused_safe safe
    · exact mapBack_safe _ (by simp)
  case header_lws | header_name | header_value =>
    have present : req.headers ≠ [] := safe rfl
    simp only [consume]
    split_ifs <;>
      first
      | exact refused_safe safe
      | exact goto_safe _ fun _ => present
      | exact mapBack_safe _ present
  case space_before_header_value | expecting_newline_2 =>
    have present : req.headers ≠ [] := safe rfl
    simp only [consume]
    split_ifs
    · exact goto_safe _ fun _ => present
    · exact refused_safe safe
  case expecting_newline_3 => exact ⟨_, _, rfl, safe⟩

end Reading

/-- How a run of `consume` ends, if it does: refused, accepted, or without a
meaning. -/
inductive Ending where
  | good
  | bad
  | undefined
deriving DecidableEq, Repr

namespace Reading

/-- `consume` as a machine. -/
def machine (r : Reading) (input : UInt8) : Verdict Reading Ending :=
  match r.consume input with
  | none => .stop .undefined r
  | some (.good, after) => .stop .good after
  | some (.bad, after) => .stop .bad after
  | some (.indeterminate, after) => .next after

/-- A run from a safe state keeps the invariant and never loses its meaning. -/
theorem scan_safe {r : Reading} (safe : r.BackSafe) (input : Bytes) :
    (∃ after, scan machine r input = .wait after [] ∧ after.BackSafe) ∨
      ∃ ending after rest, scan machine r input = .emit ending after rest ∧
        ending ≠ .undefined := by
  induction input generalizing r with
  | nil => exact .inl ⟨r, rfl, safe⟩
  | cons symbol symbols inductionHypothesis =>
    obtain ⟨result, after, consumed, kept⟩ := consume_safe safe symbol
    simp only [scan, machine, consumed]
    cases result with
    | good => exact .inr ⟨_, _, _, rfl, by simp⟩
    | bad => exact .inr ⟨_, _, _, rfl, by simp⟩
    | indeterminate => exact inductionHypothesis kept

/-- A run of a fresh parser never loses its meaning. -/
theorem scan_defined (input : Bytes) (after : Reading) (rest : Bytes) :
    scan machine fresh input ≠ .emit .undefined after rest := by
  intro emits
  rcases scan_safe fresh_safe input with ⟨_, waits, _⟩ | ⟨_, _, _, other, defined⟩
  · cases emits.symm.trans waits
  · cases emits.symm.trans other
    exact defined rfl

/-- The parser and the request after a run that stopped. -/
def conclude (r : Reading) (rest : Bytes) : Ending → Option Parsed
  | .good => some ⟨.good, rest, r.accept rest⟩
  | .bad => some ⟨.bad, rest, r⟩
  | .undefined => none

/-- What `parse` makes of a run. -/
def parsedOf : Outcome UInt8 Reading Ending → Option Parsed
  | .wait after rest => some ⟨.indeterminate, rest, after⟩
  | .emit ending after rest => after.conclude rest ending

/-- `parse` runs the machine. -/
theorem parse_eq (r : Reading) (input : Bytes) :
    r.parse input = parsedOf (scan machine r input) := by
  induction input generalizing r with
  | nil => rfl
  | cons symbol symbols inductionHypothesis =>
    simp only [parse, scan, machine]
    cases consumed : r.consume symbol with
    | none => rfl
    | some pair =>
      obtain ⟨result, after⟩ := pair
      cases result with
      | good => rfl
      | bad => rfl
      | indeterminate => exact inductionHypothesis after

end Reading

/-- What feeding a head in pieces gives: the result, the number of bytes consumed
in all pieces, and the parser and the request. -/
structure Fed where
  result : ResultType
  consumed : Nat
  reading : Reading

namespace Reading

/-- Parse one piece after the other up to the first result that is not
indeterminate. -/
def parseChunks (r : Reading) : List Bytes → Option Fed
  | [] => some ⟨.indeterminate, 0, r⟩
  | chunk :: chunks =>
    match r.parse chunk with
    | none => none
    | some parsed =>
      let used := chunk.length - parsed.rest.length
      match parsed.result with
      | .indeterminate =>
        (parsed.reading.parseChunks chunks).map fun later =>
          { later with consumed := used + later.consumed }
      | result => some ⟨result, used, parsed.reading⟩

/-- What feeding makes of a run over the pieces with the given total length. -/
def fedOf (total : Nat) : First UInt8 Reading Ending → Option Fed
  | .pending after rest => some ⟨.indeterminate, total - rest.length, after⟩
  | .found ending after rest unread =>
    (after.conclude rest ending).map fun parsed =>
      ⟨parsed.result, total - (rest ++ unread.flatten).length, parsed.reading⟩

/-- The pieces hold what a run over them leaves unconsumed. -/
theorem first_leftover (r : Reading) (chunks : List Bytes) :
    match first (scan machine) r [] chunks with
    | .pending _ rest => rest = []
    | .found _ _ rest unread => (rest ++ unread.flatten).length ≤ chunks.flatten.length := by
  have exact_run := first_exact (scan_resumable machine) r [] chunks rfl
  rw [List.nil_append] at exact_run
  cases ran : first (scan machine) r [] chunks with
  | pending after rest =>
    rw [ran] at exact_run
    exact scan_wait exact_run
  | found ending after rest unread =>
    rw [ran] at exact_run
    obtain ⟨front, _, parts⟩ := scan_emit exact_run
    have lengths := congrArg List.length parts
    simp only [List.length_append] at lengths ⊢
    omega

/-- Feeding runs the machine over the pieces up to its first result. -/
theorem parseChunks_eq (r : Reading) (chunks : List Bytes) :
    r.parseChunks chunks = fedOf chunks.flatten.length (first (scan machine) r [] chunks) := by
  induction chunks generalizing r with
  | nil => rfl
  | cons chunk chunks inductionHypothesis =>
    simp only [parseChunks, first, List.nil_append, parse_eq]
    cases ran : scan machine r chunk with
    | wait after rest =>
      have spent : rest = [] := scan_wait ran
      subst spent
      have leftover := first_leftover after chunks
      simp only [parsedOf, inductionHypothesis, List.flatten_cons, List.length_append]
      cases later : first (scan machine) after [] chunks with
      | pending final left =>
        rw [later] at leftover
        simp [fedOf, leftover]
      | found ending final left unread =>
        simp only [later, List.length_append] at leftover
        have count : chunk.length - ([] : Bytes).length +
            (chunks.flatten.length - (left ++ unread.flatten).length) =
              chunk.length + chunks.flatten.length - (left ++ unread.flatten).length := by
          simp only [List.length_nil, List.length_append]
          omega
        cases ending <;> simp only [fedOf, conclude, Option.map_some, Option.map_none, count]
    | emit ending after rest =>
      have count : chunk.length - rest.length =
          (chunk :: chunks).flatten.length - (rest ++ chunks.flatten).length := by
        simp only [List.flatten_cons, List.length_append]
        omega
      cases ending <;>
        simp only [parsedOf, fedOf, conclude, Option.map_some, Option.map_none, count]

end Reading

/-- Two requests with the same head: they may differ in the content only. -/
structure SameHead (req other : Request) : Prop where
  method : req.method = other.method
  uri : req.uri = other.uri
  path : req.path = other.path
  params : req.params = other.params
  http_version_major : req.http_version_major = other.http_version_major
  http_version_minor : req.http_version_minor = other.http_version_minor
  headers : req.headers = other.headers

namespace Reading

theorem sameHead_refl (req : Request) : SameHead req req := ⟨rfl, rfl, rfl, rfl, rfl, rfl, rfl⟩

/-- Only the content depends on what is left of the block. -/
theorem accept_sameHead (r : Reading) (rest other : Bytes) :
    SameHead (r.accept rest).req (r.accept other).req := by
  simp only [accept, Request.parseUri]
  split
  · exact ⟨rfl, rfl, rfl, rfl, rfl, rfl, rfl⟩
  · exact ⟨rfl, rfl, rfl, rfl, rfl, rfl, rfl⟩

/-- A head parsed in pieces is the head parsed at once, however it is cut: the
same result after the same number of bytes, and the same request up to the
content.

The first result over the pieces is the machine's result over the whole, with
the pieces that were not fed counted as unconsumed. -/
theorem pieces_agree (chunks : List Bytes) :
    ∃ parts whole, fresh.parseChunks chunks = some parts ∧
      fresh.parse chunks.flatten = some whole ∧
      parts.result = whole.result ∧
      parts.consumed = chunks.flatten.length - whole.rest.length ∧
      SameHead parts.reading.req whole.reading.req := by
  have exact_run := first_exact (scan_resumable machine) fresh [] chunks rfl
  rw [List.nil_append] at exact_run
  rw [parseChunks_eq, parse_eq, exact_run]
  cases ran : first (scan machine) fresh [] chunks with
  | pending after rest => exact ⟨_, _, rfl, rfl, rfl, rfl, sameHead_refl _⟩
  | found ending after rest unread =>
    cases ending with
    | good => exact ⟨_, _, rfl, rfl, rfl, rfl, accept_sameHead after _ _⟩
    | bad => exact ⟨_, _, rfl, rfl, rfl, rfl, sameHead_refl _⟩
    | undefined =>
      rw [ran] at exact_run
      exact absurd exact_run (scan_defined _ _ _)

end Reading

end Cppboot.Http
