import Cppboot.StatusState

/-!
# Statuses through constructors, copies and moves

Statuses that are built one after the other, copied, moved, assigned and updated. What a
step makes is a new array or a copy of one; all others are moved or stay where they are.
So a property of statuses is kept when it holds of what is made.

The byte behind a message is a NUL byte only in the arrays of the constructor that
formats, as long as they are not copied. And a status is a success exactly when its
code says so unless a constructor is given that code, which `ErrnoToStatus` does for
error number zero.
-/

namespace Cppboot.RawStatus

open Runs

/-- What can be done with statuses. They are numbered in the order in which they are
built. -/
inductive Op where
  | default
  | construct (code : StatusCode) (msg : Bytes)
  | constructFormat (code : StatusCode) (formatted : Option Bytes) (memory : Nat → UInt8)
  | factory (error : ErrorFactory) (message : Bytes)
  | errnoToStatus (error_number : Int) (message : Bytes)
  | copyConstruct (rhs : Nat)
  | moveConstruct (rhs : Nat)
  | copyAssign (self rhs : Nat)
  | moveAssign (self rhs : Nat)
  | update (self new_status : Nat)
  | updateMove (self new_status : Nat)

section

variable (strerror : Int → Bytes)

/-- The message with what the system calls the error. -/
def messageForErrnoToStatus (error_number : Int) (message : Bytes) : Bytes :=
  message ++ text ": " ++ strerror error_number

/-- The status of an error of the system. -/
def errnoToStatus (error_number : Int) (message : Bytes) : Option RawStatus :=
  construct (errnoToStatusCode error_number) (messageForErrnoToStatus strerror error_number message)

/-- The copy assignment. A status that is assigned to itself stays as it is. -/
def copyAssign (vars : List RawStatus) (self rhs : Nat) : Option (List RawStatus) := do
  let _ ← vars[self]?
  let source ← vars[rhs]?
  if self = rhs then some vars
  else
    let copied ← source.copy
    some (vars.set self copied)

/-- The move assignment. The pointers are swapped. -/
def moveAssign (vars : List RawStatus) (self rhs : Nat) : Option (List RawStatus) := do
  let target ← vars[self]?
  let source ← vars[rhs]?
  some ((vars.set self source).set rhs target)

/-- Do one thing with the statuses there are. -/
def step (vars : List RawStatus) : Op → Option (List RawStatus)
  | .default => some (vars ++ [⟨none⟩])
  | .construct code msg => (RawStatus.construct code msg).map (vars ++ [·])
  | .constructFormat code formatted memory =>
    (RawStatus.constructFormat code formatted memory).map (vars ++ [·])
  | .factory error message => (RawStatus.construct error.code message).map (vars ++ [·])
  | .errnoToStatus error_number message =>
    (RawStatus.errnoToStatus strerror error_number message).map (vars ++ [·])
  | .copyConstruct rhs => do
    let source ← vars[rhs]?
    let copied ← source.copy
    some (vars ++ [copied])
  | .moveConstruct rhs => do
    let source ← vars[rhs]?
    some (vars.set rhs ⟨none⟩ ++ [source])
  | .copyAssign self rhs => RawStatus.copyAssign vars self rhs
  | .moveAssign self rhs => RawStatus.moveAssign vars self rhs
  | .update self new_status => do
    let target ← vars[self]?
    if target.ok then RawStatus.copyAssign vars self new_status else some vars
  | .updateMove self new_status => do
    let target ← vars[self]?
    if target.ok then RawStatus.moveAssign vars self new_status else some vars

/-- The status that is built or copied, if one is. -/
def made (vars : List RawStatus) : Op → Option RawStatus
  | .construct code msg => RawStatus.construct code msg
  | .constructFormat code formatted memory => RawStatus.constructFormat code formatted memory
  | .factory error message => RawStatus.construct error.code message
  | .errnoToStatus error_number message => RawStatus.errnoToStatus strerror error_number message
  | .copyConstruct rhs => vars[rhs]?.bind copy
  | .copyAssign self rhs => if self = rhs then none else vars[rhs]?.bind copy
  | .update self rhs =>
    if self = rhs then none
    else vars[self]?.bind fun target => if target.ok then vars[rhs]?.bind copy else none
  | _ => none

end

variable {strerror : Int → Bytes} {vars after : List RawStatus}

/-- What is there after a step was there before, or it is null, or it was made. -/
def Built (strerror : Int → Bytes) (vars after : List RawStatus) (op : Op) : Prop :=
  (∀ s ∈ after, s ∈ vars ∨ s = ⟨none⟩ ∨ made strerror vars op = some s) ∧
    ∀ s, made strerror vars op = some s → s ∈ after

theorem mem_of_set {s new : RawStatus} {i : Nat} (member : s ∈ vars.set i new) :
    s ∈ vars ∨ s = new :=
  List.mem_or_eq_of_mem_set member

/-- A status that is built goes to the end. -/
theorem built_last {op : Op} {built : Option RawStatus} (same : made strerror vars op = built)
    (stepped : built.map (vars ++ [·]) = some after) : Built strerror vars after op := by
  obtain ⟨new, rfl, rfl⟩ := Option.map_eq_some_iff.mp stepped
  refine ⟨fun s member => ?_, fun s found => ?_⟩
  · obtain earlier | last := List.mem_append.mp member
    · exact .inl earlier
    · exact .inr (.inr (same.trans (congrArg some (List.mem_singleton.mp last).symm)))
  · rw [same] at found
    rw [Option.some.inj found]
    exact List.mem_append_right _ (List.mem_singleton.mpr rfl)

/-- Statuses that are only moved were there before. -/
theorem built_moved {op : Op} (nothing : made strerror vars op = none)
    (moved : ∀ s ∈ after, s ∈ vars ∨ s = ⟨none⟩) : Built strerror vars after op := by
  refine ⟨fun s member => ?_, fun s found => ?_⟩
  · obtain earlier | null := moved s member
    · exact .inl earlier
    · exact .inr (.inl null)
  · rw [nothing] at found
    cases found

/-- A swap makes nothing. -/
theorem moveAssign_mem {self rhs : Nat} (stepped : moveAssign vars self rhs = some after) :
    ∀ s ∈ after, s ∈ vars ∨ s = ⟨none⟩ := by
  obtain ⟨target, there, rest⟩ := Option.bind_eq_some_iff.mp stepped
  obtain ⟨source, here, swapped⟩ := Option.bind_eq_some_iff.mp rest
  cases swapped
  intro s member
  obtain kept | rfl := mem_of_set member
  · obtain kept | rfl := mem_of_set kept
    · exact .inl kept
    · exact .inl (List.mem_of_getElem? here)
  · exact .inl (List.mem_of_getElem? there)

/-- A status that is assigned takes the place of another. -/
theorem copyAssign_built {op : Op} {self rhs : Nat}
    (same : made strerror vars op = if self = rhs then none else vars[rhs]?.bind copy)
    (stepped : copyAssign vars self rhs = some after) : Built strerror vars after op := by
  obtain ⟨target, there, rest⟩ := Option.bind_eq_some_iff.mp stepped
  obtain ⟨source, here, rest⟩ := Option.bind_eq_some_iff.mp rest
  by_cases itself : self = rhs
  · rw [if_pos itself] at same rest
    cases rest
    exact built_moved same fun s member => .inl member
  · rw [if_neg itself] at same rest
    obtain ⟨copied, found, rest⟩ := Option.bind_eq_some_iff.mp rest
    cases rest
    rw [here, Option.bind_some, found] at same
    refine ⟨fun s member => ?_, fun s built => ?_⟩
    · obtain kept | rfl := mem_of_set member
      · exact .inl kept
      · exact .inr (.inr same)
    · rw [same] at built
      rw [← Option.some.inj built]
      exact List.mem_set (List.getElem?_eq_some_iff.mp there).1 copied

/-- What a step does to the statuses. -/
theorem step_built {op : Op} (stepped : step strerror vars op = some after) :
    Built strerror vars after op := by
  cases op with
  | default =>
    refine built_moved rfl fun s member => ?_
    cases stepped
    obtain earlier | last := List.mem_append.mp member
    · exact .inl earlier
    · exact .inr (List.mem_singleton.mp last)
  | construct code msg => exact built_last rfl stepped
  | constructFormat code formatted memory => exact built_last rfl stepped
  | factory error message => exact built_last rfl stepped
  | errnoToStatus error_number message => exact built_last rfl stepped
  | copyConstruct rhs =>
    refine built_last rfl ?_
    obtain ⟨source, here, rest⟩ := Option.bind_eq_some_iff.mp stepped
    obtain ⟨copied, found, rest⟩ := Option.bind_eq_some_iff.mp rest
    rw [made, here, Option.bind_some, found]
    exact rest
  | moveConstruct rhs =>
    obtain ⟨source, here, rest⟩ := Option.bind_eq_some_iff.mp stepped
    cases rest
    refine built_moved rfl fun s member => ?_
    obtain kept | last := List.mem_append.mp member
    · exact mem_of_set kept
    · rw [List.mem_singleton.mp last]
      exact .inl (List.mem_of_getElem? here)
  | copyAssign self rhs => exact copyAssign_built rfl stepped
  | moveAssign self rhs => exact built_moved rfl (moveAssign_mem stepped)
  | update self new_status =>
    obtain ⟨target, there, rest⟩ := Option.bind_eq_some_iff.mp stepped
    have same : made strerror vars (.update self new_status) = if self = new_status then none
        else if target.ok then vars[new_status]?.bind copy else none := by
      rw [made, there, Option.bind_some]
    split at rest
    next fine =>
      rw [if_pos fine] at same
      exact copyAssign_built same rest
    next failed =>
      rw [if_neg failed, ite_self] at same
      cases rest
      exact built_moved same fun s member => .inl member
  | updateMove self new_status =>
    obtain ⟨target, there, rest⟩ := Option.bind_eq_some_iff.mp stepped
    split at rest
    next => exact built_moved rfl (moveAssign_mem rest)
    next =>
      cases rest
      exact built_moved rfl fun s member => .inl member

/-- What holds of a success and of all statuses before a step holds after it exactly
when it holds of what the step makes. -/
theorem step_forall_iff {op : Op} (stepped : step strerror vars op = some after)
    {holds : RawStatus → Prop} (null : holds ⟨none⟩) (before : ∀ s ∈ vars, holds s) :
    (∀ s ∈ after, holds s) ↔ ∀ s, made strerror vars op = some s → holds s := by
  obtain ⟨origin, kept⟩ := step_built stepped
  constructor
  · exact fun all s built => all s (kept s built)
  · intro new s member
    obtain earlier | rfl | built := origin s member
    · exact before s earlier
    · exact null
    · exact new s built

/-- The array of a status is laid out as an array of an error is. -/
def Formed (s : RawStatus) : Prop := s = ⟨none⟩ ∨ ∃ l : Layout, s = l.status

/-- A copy has the code and the message, and nothing behind it. -/
theorem Formed.copy {s copied : RawStatus} (formed : Formed s) (same : s.copy = some copied) :
    s = ⟨none⟩ ∧ copied = ⟨none⟩ ∨
      ∃ l : Layout, s = l.status ∧ copied = { l with extra := [] }.status := by
  obtain rfl | ⟨l, rfl⟩ := formed
  · exact .inl ⟨rfl, (Option.some.inj same).symm⟩
  · rw [l.copy_status] at same
    exact .inr ⟨l, rfl, (Option.some.inj same).symm⟩

/-- The copy that a step makes is one of a status that is there. -/
theorem made_copied {rhs : Nat} {op : Op}
    (copies : op = .copyConstruct rhs ∨ ∃ self, op = .copyAssign self rhs ∨ op = .update self rhs)
    {s : RawStatus} (built : made strerror vars op = some s) :
    ∃ source, vars[rhs]? = some source ∧ source ∈ vars ∧ source.copy = some s := by
  have found : vars[rhs]?.bind copy = some s := by
    rcases copies with rfl | ⟨self, rfl | rfl⟩
    · exact built
    · rw [made] at built
      split at built
      next => cases built
      next => exact built
    · rw [made] at built
      split at built
      next => cases built
      next =>
        obtain ⟨target, there, rest⟩ := Option.bind_eq_some_iff.mp built
        split at rest
        next => exact rest
        next => cases rest
  obtain ⟨source, here, same⟩ := Option.bind_eq_some_iff.mp found
  exact ⟨source, here, List.mem_of_getElem? here, same⟩

/-- What a step makes is laid out well. -/
theorem made_formed (formed : ∀ s ∈ vars, Formed s) (op : Op) :
    ∀ s, made strerror vars op = some s → Formed s := by
  intro s built
  have copied {rhs : Nat} (copies : op = .copyConstruct rhs ∨
      ∃ self, op = .copyAssign self rhs ∨ op = .update self rhs) : Formed s := by
    obtain ⟨source, _, member, same⟩ := made_copied copies built
    obtain ⟨_, rfl⟩ | ⟨l, _, rfl⟩ := (formed source member).copy same
    · exact .inl rfl
    · exact .inr ⟨_, rfl⟩
  have constructed {code : StatusCode} {msg : Bytes}
      (built : RawStatus.construct code msg = some s) : Formed s := by
    obtain ⟨l, rfl, _⟩ := construct_layout built
    exact .inr ⟨l, rfl⟩
  cases op with
  | construct code msg => exact constructed built
  | factory error message => exact constructed built
  | errnoToStatus error_number message => exact constructed built
  | constructFormat code formatted memory =>
    obtain ⟨l, rfl, _⟩ := constructFormat_layout built
    exact .inr ⟨l, rfl⟩
  | copyConstruct rhs => exact copied (.inl rfl)
  | copyAssign self rhs => exact copied (.inr ⟨self, .inl rfl⟩)
  | update self rhs => exact copied (.inr ⟨self, .inr rfl⟩)
  | default => cases built
  | moveConstruct rhs => cases built
  | moveAssign self rhs => cases built
  | updateMove self new_status => cases built

/-- The byte behind a message that is not empty is a NUL byte of the array, and the
message is a C string if it has no other. -/
def Terminated (s : RawStatus) : Prop :=
  (s.message ≠ [] → (s.state_.getD [])[5 + s.message.length]? = some 0) ∧
    (0 ∉ s.message → s.statusMessageAsCStr = some s.message)

theorem terminated_null : Terminated ⟨none⟩ := ⟨fun something => absurd rfl something, fun _ => rfl⟩

/-- An array has a NUL byte behind its message exactly when it is allocated there. -/
theorem terminated_layout_iff (l : Layout) :
    Terminated l.status ↔ l.message = [] ∨ l.extra.head? = some 0 := by
  have data : (l.status.state_.getD []).drop 5 = l.message ++ l.extra := l.drop_bytes
  have next : (l.status.state_.getD [])[5 + l.message.length]? = l.extra.head? := by
    rw [← List.getElem?_drop, data, List.getElem?_append_right (Nat.le_refl _), Nat.sub_self,
      List.head?_eq_getElem?]
  unfold Terminated statusMessageAsCStr
  rw [l.message_status, next, data]
  by_cases empty : l.message = []
  · simp [empty]
  · rw [if_neg empty, or_iff_right empty]
    refine ⟨fun terminated => terminated.1 empty, fun ended => ⟨fun _ => ended, fun plain => ?_⟩⟩
    obtain ⟨rest, split⟩ : ∃ rest, l.extra = 0 :: rest := by
      cases extra : l.extra with
      | nil =>
        rw [extra] at ended
        cases ended
      | cons c rest =>
        rw [extra] at ended
        exact ⟨rest, by rw [Option.some.inj ended]⟩
    rw [split, if_pos (by simp), cstr, (cut_at_stop plain rest).1]

/-- A new status is terminated exactly if its message, cut to a word, is empty. -/
theorem construct_terminated_iff {code : StatusCode} {msg : Bytes} {built : RawStatus}
    (constructed : RawStatus.construct code msg = some built) :
    Terminated built ↔ msg.length % 2 ^ 32 = 0 := by
  obtain ⟨l, rfl, _, message, extra⟩ := construct_layout constructed
  have nothing : ¬ ([] : Bytes).head? = some 0 := by simp
  rw [terminated_layout_iff, extra, or_iff_left nothing, message, List.take_eq_nil_iff]
  constructor
  · rintro (zero | rfl)
    · exact zero
    · rfl
  · exact .inl

/-- A copy is terminated exactly if there is no message. -/
theorem copy_terminated_iff {source copied : RawStatus} (formed : Formed source)
    (same : source.copy = some copied) : Terminated copied ↔ source.message = [] := by
  obtain ⟨rfl, rfl⟩ | ⟨l, rfl, rfl⟩ := formed.copy same
  · exact iff_of_true terminated_null rfl
  · have nothing : ¬ ([] : Bytes).head? = some 0 := by simp
    rw [terminated_layout_iff, or_iff_left nothing, l.message_status]

/-- A step makes no message without a NUL byte behind it: no message that is given to a
constructor is stored unless it is empty, and none is copied unless it is. -/
def Ends (strerror : Int → Bytes) (vars : List RawStatus) : Op → Prop
  | .construct _ msg => msg.length % 2 ^ 32 = 0
  | .factory _ message => message.length % 2 ^ 32 = 0
  | .errnoToStatus error_number message =>
    (messageForErrnoToStatus strerror error_number message).length % 2 ^ 32 = 0
  | .copyConstruct rhs => ∀ source, vars[rhs]? = some source → source.message = []
  | .copyAssign self rhs =>
    self = rhs ∨ ∀ source, vars[rhs]? = some source → source.message = []
  | .update self rhs =>
    self = rhs ∨ (∀ target, vars[self]? = some target → target.ok = false) ∨
      ∀ source, vars[rhs]? = some source → source.message = []
  | _ => True

/-- A message that is copied is empty exactly when its copy is in order. -/
theorem copied_terminated_iff (formed : ∀ s ∈ vars, Formed s) {rhs : Nat}
    {source copied : RawStatus} (here : vars[rhs]? = some source)
    (same : source.copy = some copied) :
    (∀ source, vars[rhs]? = some source → source.message = []) ↔
      ∀ s, vars[rhs]?.bind copy = some s → Terminated s := by
  have member := List.mem_of_getElem? here
  rw [here]
  simp only [Option.some.injEq, forall_eq', Option.bind_some, same]
  exact (copy_terminated_iff (formed source member) same).symm

/-- A step that is taken ends its messages exactly when what it makes is in order. -/
theorem ends_iff (formed : ∀ s ∈ vars, Formed s) {op : Op}
    (stepped : step strerror vars op = some after) :
    Ends strerror vars op ↔ ∀ s, made strerror vars op = some s → Terminated s := by
  have constructed {code : StatusCode} {msg : Bytes}
      (stepped : (RawStatus.construct code msg).map (vars ++ [·]) = some after) :
      msg.length % 2 ^ 32 = 0 ↔
        ∀ s, RawStatus.construct code msg = some s → Terminated s := by
    obtain ⟨new, built, _⟩ := Option.map_eq_some_iff.mp stepped
    rw [built]
    simp only [Option.some.injEq, forall_eq']
    exact (construct_terminated_iff built).symm
  have assigned {self rhs : Nat} (stepped : RawStatus.copyAssign vars self rhs = some after) :
      (self = rhs ∨ ∀ source, vars[rhs]? = some source → source.message = []) ↔
        ∀ s, (if self = rhs then none else vars[rhs]?.bind copy) = some s → Terminated s := by
    obtain ⟨target, there, rest⟩ := Option.bind_eq_some_iff.mp stepped
    obtain ⟨source, here, rest⟩ := Option.bind_eq_some_iff.mp rest
    by_cases itself : self = rhs
    · rw [if_pos itself]
      exact iff_of_true (.inl itself) nofun
    · rw [if_neg itself] at rest
      obtain ⟨copied, same, _⟩ := Option.bind_eq_some_iff.mp rest
      rw [if_neg itself, or_iff_right itself]
      exact copied_terminated_iff formed here same
  cases op with
  | construct code msg => exact constructed stepped
  | factory error message => exact constructed stepped
  | errnoToStatus error_number message => exact constructed stepped
  | constructFormat code formatted memory =>
    refine iff_of_true trivial fun s built => ?_
    obtain ⟨l, rfl, _, _, ended⟩ := constructFormat_layout built
    exact (terminated_layout_iff l).mpr (.inr ended)
  | copyConstruct rhs =>
    obtain ⟨source, here, rest⟩ := Option.bind_eq_some_iff.mp stepped
    obtain ⟨copied, same, _⟩ := Option.bind_eq_some_iff.mp rest
    exact copied_terminated_iff formed here same
  | copyAssign self rhs => exact assigned stepped
  | update self rhs =>
    obtain ⟨target, there, rest⟩ := Option.bind_eq_some_iff.mp stepped
    simp only [Ends, made, there, Option.some.injEq, forall_eq', Option.bind_some]
    by_cases fine : target.ok = true
    · rw [if_pos fine] at rest
      have failing : ¬ target.ok = false := by simp [fine]
      rw [or_iff_right failing, if_pos fine]
      exact assigned rest
    · rw [if_neg fine, ite_self]
      exact iff_of_true (.inr (.inl (Bool.eq_false_iff.mpr fine))) nofun
  | default => exact iff_of_true trivial nofun
  | moveConstruct rhs => exact iff_of_true trivial nofun
  | moveAssign self rhs => exact iff_of_true trivial nofun
  | updateMove self new_status => exact iff_of_true trivial nofun

/-- All statuses are laid out as they should be. -/
theorem step_formed {op : Op} (formed : ∀ s ∈ vars, Formed s)
    (stepped : step strerror vars op = some after) : ∀ s ∈ after, Formed s :=
  (step_forall_iff stepped (.inl rfl) formed).mpr (made_formed formed op)

/-- Where a step is admitted exactly when it makes statuses of a kind, the runs that are
admitted are those in which all statuses are of this kind. Something may be known of the
steps that are admitted as well. -/
theorem run_forall_iff (strerror : Int → Bytes) {guard : List RawStatus → Op → Prop}
    (known : Op → Prop) {holds : RawStatus → Prop} (null : holds ⟨none⟩)
    (knows : ∀ vars op, guard vars op → known op)
    (agree : ∀ vars after op, (∀ s ∈ vars, Formed s) → (∀ s ∈ vars, holds s) →
      step strerror vars op = some after →
      (guard vars op ↔ ∀ s, made strerror vars op = some s → holds s))
    (ops : List Op) (vars : List RawStatus) :
    (Run (Guarded guard (Accepts (step strerror))) [] ops vars → ∀ s ∈ vars, holds s) ∧
    (Run (Guarded guard (Accepts (step strerror))) [] ops vars ↔
      Run (fun before op after => step strerror before op = some after ∧ known op ∧
        ∀ s ∈ after, holds s) [] ops vars) := by
  have same (before after : List RawStatus) (op : Op) (both : ∀ s ∈ before, Formed s ∧ holds s)
      (taken : step strerror before op = some after) :
      guard before op ↔ ∀ s ∈ after, holds s := by
    have held : ∀ s ∈ before, holds s := fun s member => (both s member).2
    rw [step_forall_iff taken null held]
    exact agree before after op (fun s member => (both s member).1) held taken
  have kept (before after : List RawStatus) (op : Op) (both : ∀ s ∈ before, Formed s ∧ holds s)
      (taken : Guarded guard (Accepts (step strerror)) before op after) :
      ∀ s ∈ after, Formed s ∧ holds s := by
    have formed := step_formed (fun s member => (both s member).1) taken.2
    exact fun s member => ⟨formed s member, (same before after op both taken.2).mp taken.1 s member⟩
  refine ⟨fun run s member => ?_, ?_⟩
  · exact (run.preserves (fun vars => ∀ s ∈ vars, Formed s ∧ holds s) kept nofun s member).2
  · refine Run.steps_agree (fun vars => ∀ s ∈ vars, Formed s ∧ holds s) ?_ kept nofun
    intro before after op both
    constructor
    · rintro ⟨admitted, taken⟩
      exact ⟨taken, knows before op admitted, (same before after op both taken).mp admitted⟩
    · rintro ⟨taken, _, all⟩
      exact ⟨(same before after op both taken).mpr all, taken⟩

/-- In the runs in which no message that is given is stored and no message is copied,
every message has a NUL byte behind it all along; and there are no other such runs. -/
theorem messages_terminated_iff (strerror : Int → Bytes) (ops : List Op) (vars : List RawStatus) :
    (Run (Guarded (Ends strerror) (Accepts (step strerror))) [] ops vars →
      ∀ s ∈ vars, Terminated s) ∧
    (Run (Guarded (Ends strerror) (Accepts (step strerror))) [] ops vars ↔
      Run (fun before op after => step strerror before op = some after ∧
        ∀ s ∈ after, Terminated s) [] ops vars) := by
  have all := run_forall_iff strerror (fun _ => True) terminated_null (fun _ _ _ => trivial)
    (fun _ _ _ formed _ stepped => ends_iff formed stepped) ops vars
  simpa only [true_and] using all

/-- A message that is given, and the copy of a message that was formatted. -/
theorem message_unterminated :
    ((step (fun _ => []) [] (.factory .notFoundError (text "x"))).map
      fun vars => vars.map statusMessageAsCStr) = some [none] ∧
    ((execute (step fun _ => []) [] [.constructFormat .kNotFound (some (text "x")) fun _ => 1,
        .copyConstruct 0]).map
      fun vars => vars.map statusMessageAsCStr) = some [some (text "x"), none] ∧
    ¬ Terminated ⟨some (Bytes.ofWord 1 ++ StatusCode.number .kNotFound :: text "x")⟩ := by
  refine ⟨by decide, by decide, fun terminated => ?_⟩
  have missing := terminated.1 (by decide)
  revert missing
  decide

/-- Success is a null pointer, the code of a success, no message, and "OK". -/
def Agrees (s : RawStatus) : Prop :=
  (s.ok = true ↔ s.code = some .kOk) ∧
    (s.ok = true → s.message = [] ∧ s.toString = text "OK")

theorem agrees_null : Agrees ⟨none⟩ := ⟨by decide, fun _ => ⟨rfl, rfl⟩⟩

/-- A status with an array agrees exactly if its code is that of an error. -/
theorem agrees_layout_iff (l : Layout) : Agrees l.status ↔ l.code ≠ .kOk := by
  have failed : l.status.ok = false := rfl
  unfold Agrees
  rw [failed, l.code_status]
  simp

/-- The assertion of the constructor that a function of the library calls. -/
def Op.Asserted : Op → Prop
  | .factory error _ => error.code ≠ .kOk
  | .errnoToStatus error_number _ => errnoToStatusCode error_number ≠ .kOk
  | _ => True

/-- No constructor is given the code of a success. -/
def Op.Fails : Op → Prop
  | .construct code _ => code ≠ .kOk
  | .constructFormat code _ _ => code ≠ .kOk
  | .errnoToStatus error_number _ => error_number ≠ 0
  | _ => True

/-- Without the code of a success the assertion of the constructor holds. -/
theorem Op.Fails.asserted {op : Op} (fails : op.Fails) : op.Asserted := by
  cases op with
  | factory error message => cases error <;> exact nofun
  | errnoToStatus error_number message =>
    exact fun fine => fails ((errnoToStatusCode_ok_iff error_number).mp fine)
  | _ => exact trivial

/-- A step that is taken is given an error exactly when what it makes agrees. -/
theorem fails_iff (formed : ∀ s ∈ vars, Formed s) (agrees : ∀ s ∈ vars, Agrees s) {op : Op}
    (stepped : step strerror vars op = some after) :
    op.Fails ↔ ∀ s, made strerror vars op = some s → Agrees s := by
  have constructed {code : StatusCode} {msg : Bytes}
      (stepped : (RawStatus.construct code msg).map (vars ++ [·]) = some after) :
      code ≠ .kOk ↔ ∀ s, RawStatus.construct code msg = some s → Agrees s := by
    obtain ⟨new, built, _⟩ := Option.map_eq_some_iff.mp stepped
    obtain ⟨l, rfl, rfl, _⟩ := construct_layout built
    rw [built]
    simp only [Option.some.injEq, forall_eq', agrees_layout_iff]
  have copied {rhs : Nat} {s : RawStatus} (copies : op = .copyConstruct rhs ∨
      ∃ self, op = .copyAssign self rhs ∨ op = .update self rhs)
      (built : made strerror vars op = some s) : Agrees s := by
    obtain ⟨source, _, member, same⟩ := made_copied copies built
    obtain ⟨_, rfl⟩ | ⟨l, rfl, rfl⟩ := (formed source member).copy same
    · exact agrees_null
    · exact (agrees_layout_iff _).mpr ((agrees_layout_iff l).mp (agrees _ member))
  cases op with
  | construct code msg => exact constructed stepped
  | factory error message =>
    exact iff_of_true trivial ((constructed stepped).mp (by cases error <;> exact nofun))
  | errnoToStatus error_number message =>
    rw [Op.Fails, ne_eq, ← errnoToStatusCode_ok_iff error_number]
    exact constructed stepped
  | constructFormat code formatted memory =>
    obtain ⟨new, built, _⟩ := Option.map_eq_some_iff.mp stepped
    obtain ⟨l, rfl, rfl, _⟩ := constructFormat_layout built
    rw [made, built]
    simp only [Option.some.injEq, forall_eq', agrees_layout_iff]
    exact Iff.rfl
  | copyConstruct rhs => exact iff_of_true trivial fun s built => copied (.inl rfl) built
  | copyAssign self rhs =>
    exact iff_of_true trivial fun s built => copied (.inr ⟨self, .inl rfl⟩) built
  | update self rhs =>
    exact iff_of_true trivial fun s built => copied (.inr ⟨self, .inr rfl⟩) built
  | default => exact iff_of_true trivial nofun
  | moveConstruct rhs => exact iff_of_true trivial nofun
  | moveAssign self rhs => exact iff_of_true trivial nofun
  | updateMove self new_status => exact iff_of_true trivial nofun

/-- In the runs in which no constructor is given the code of a success and no error
number is zero, every status is a success exactly when its code says so, and no function
of the library breaks the assertion of the constructor; and there are no other such runs. -/
theorem codes_agree_iff (strerror : Int → Bytes) (ops : List Op) (vars : List RawStatus) :
    (Run (Guarded (fun _ op => op.Fails) (Accepts (step strerror))) [] ops vars →
      ∀ s ∈ vars, Agrees s) ∧
    (Run (Guarded (fun _ op => op.Fails) (Accepts (step strerror))) [] ops vars ↔
      Run (fun before op after => step strerror before op = some after ∧ op.Asserted ∧
        ∀ s ∈ after, Agrees s) [] ops vars) :=
  run_forall_iff strerror Op.Asserted agrees_null (fun _ _ fails => fails.asserted)
    (fun _ _ _ formed agrees stepped => fails_iff formed agrees stepped) ops vars

/-- Error number zero makes an error with the code of a success. -/
theorem errno_zero_disagrees :
    ((step (fun _ => text "Success") [] (.errnoToStatus 0 (text "read"))).map
      fun vars => vars.map fun s => (s.ok, s.code, s.toString)) =
        some [(false, some .kOk, text "OK: read: Success")] ∧
    ¬ Op.Asserted (.errnoToStatus 0 (text "read")) :=
  ⟨by decide, fun asserted => asserted rfl⟩

end Cppboot.RawStatus
