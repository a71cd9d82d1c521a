import Cppboot.BusMessages

/-!
# The calls that wait for a response

An invoker keeps, by identifier, the addresses of the results that responses are
to be written to. An entry is made before the request is handed to the writer and
is taken out by the response, and by nothing else. The writer may reply at once,
other calls and responses may come in between, and it may throw.

`Call` places its result on its own stack and waits for it only when there is
somewhere to put the output. So it can end, by returning or by an exception,
while the invoker still keeps the address. This is decided by the identifiers
that were answered before it ended.

Identifiers come from a counter of one word. A call that is answered late keeps
its identifier while the counter goes round.
-/

namespace Cppboot.BusInvoker

open Std Runs

/-- What can happen to an invoker while a call is under way. -/
inductive Activity where
  | called (method : Bytes) (input : In) (result : Nat)
  | responded (msg : Msg)

/-- What an activity leaves of the invoker. -/
def perform (invoker : BusInvoker) : Activity → BusInvoker
  | .called method input result => (invoker.acall method input result).1
  | .responded msg => (invoker.handleResponseMessage msg).1

/-- The invoker after some activities. -/
def performAll (invoker : BusInvoker) (activities : List Activity) : BusInvoker :=
  activities.foldl perform invoker

/-- The identifiers that are touched, with the address that is kept from then on,
by some activities that start with this value of the counter. -/
def touches (next_id_ : UInt32) : List Activity → List (UInt32 × Option Nat)
  | [] => []
  | .called _ _ result :: rest => (next_id_, some result) :: touches (next_id_ + 1) rest
  | .responded msg :: rest => (msg.id_, none) :: touches next_id_ rest

/-- What the last touch of an identifier left, if there was one. -/
def lastTouch (id : UInt32) : List (UInt32 × Option Nat) → Option (Option Nat)
  | [] => none
  | (other, kept) :: rest => (lastTouch id rest).or (if other = id then some kept else none)

/-- There is no last touch of an identifier exactly if it is never touched. -/
theorem lastTouch_eq_none_iff (id : UInt32) (touched : List (UInt32 × Option Nat)) :
    lastTouch id touched = none ↔ id ∉ touched.map Prod.fst := by
  induction touched with
  | nil => simp [lastTouch]
  | cons touch rest inductionHypothesis =>
    obtain ⟨other, kept⟩ := touch
    simp only [lastTouch, Option.or_eq_none_iff, inductionHypothesis, ite_eq_right_iff,
      reduceCtorEq, imp_false, List.map_cons, List.mem_cons, not_or]
    exact ⟨fun apart => ⟨Ne.symm apart.2, apart.1⟩, fun apart => ⟨apart.2, Ne.symm apart.1⟩⟩

/-- The last touch is one of the touches. -/
theorem lastTouch_mem {id : UInt32} {kept : Option Nat} {touched : List (UInt32 × Option Nat)}
    (last : lastTouch id touched = some kept) : (id, kept) ∈ touched := by
  induction touched with
  | nil => cases last
  | cons touch rest inductionHypothesis =>
    obtain ⟨other, value⟩ := touch
    rw [lastTouch, Option.or_eq_some_iff] at last
    rcases last with later | ⟨_, here⟩
    · exact List.mem_cons_of_mem _ (inductionHypothesis later)
    · rw [Option.ite_none_right_eq_some] at here
      obtain ⟨rfl, same⟩ := here
      rw [Option.some.inj same]
      exact List.mem_cons_self

/-- A call keeps its address under the next identifier and changes no other entry. -/
theorem acall_getElem? (invoker : BusInvoker) (method : Bytes) (input : In) (result : Nat)
    (id : UInt32) :
    (invoker.acall method input result).1.waitings_[id]? =
      if invoker.next_id_ = id then some result else invoker.waitings_[id]? := by
  simp only [acall, ExtTreeMap.getElem?_insert, LawfulEqCmp.compare_eq_iff_eq]

/-- A response removes the entry of its identifier and no other. -/
theorem handleResponseMessage_getElem? (invoker : BusInvoker) (msg : Msg) (id : UInt32) :
    (invoker.handleResponseMessage msg).1.waitings_[id]? =
      if msg.id_ = id then none else invoker.waitings_[id]? := by
  unfold handleResponseMessage
  split
  next found =>
    simp only [ExtTreeMap.getElem?_erase, LawfulEqCmp.compare_eq_iff_eq]
  next missing =>
    split
    next same => exact same ▸ missing
    next => rfl

/-- A response leaves the counter alone. -/
theorem handleResponseMessage_next_id_ (invoker : BusInvoker) (msg : Msg) :
    (invoker.handleResponseMessage msg).1.next_id_ = invoker.next_id_ := by
  unfold handleResponseMessage
  split <;> rfl

/-- After some activities an identifier keeps what its last touch left. -/
theorem performAll_getElem? (invoker : BusInvoker) (activities : List Activity) (id : UInt32) :
    (invoker.performAll activities).waitings_[id]? =
      (lastTouch id (touches invoker.next_id_ activities)).getD invoker.waitings_[id]? := by
  induction activities generalizing invoker with
  | nil => rfl
  | cons activity rest inductionHypothesis =>
    rw [performAll, List.foldl_cons, ← performAll, inductionHypothesis]
    cases activity with
    | called method input result =>
      rw [perform, acall_getElem?, touches, lastTouch]
      change (lastTouch id (touches (invoker.next_id_ + 1) rest)).getD _ = _
      cases lastTouch id (touches (invoker.next_id_ + 1) rest) with
      | some kept => rfl
      | none => split <;> rfl
    | responded msg =>
      rw [perform, handleResponseMessage_getElem?, handleResponseMessage_next_id_, touches,
        lastTouch]
      cases lastTouch id (touches invoker.next_id_ rest) with
      | some kept => rfl
      | none => split <;> rfl

/-- What the writer does with a request: it returns or throws after some
activities. -/
structure Writer where
  during : List Activity
  throws : Bool

/-- The state in which `ACall` ends. -/
def acallWith (invoker : BusInvoker) (method : Bytes) (input : In) (result : Nat)
    (writer : Writer) : BusInvoker :=
  (invoker.acall method input result).1.performAll writer.during

/-- Some response was written to the result. -/
def Filled (invoker : BusInvoker) (result : Nat) (activities : List Activity) : Prop :=
  ∃ earlier msg rest, activities = earlier ++ .responded msg :: rest ∧
    ((invoker.performAll earlier).handleResponseMessage msg).2 = some result

/-- No other call has its result at this address. -/
def Apart (result : Nat) (activities : List Activity) : Prop :=
  ∀ method input other, .called method input other ∈ activities → other ≠ result

/-- A call of `Call` that ends. Its result is alive until then, so no other result
lies at the same address meanwhile. Without an output it does not wait. With one
it waits for a response to be written, and activities go on until it ends. -/
inductive CallEnds (invoker : BusInvoker) (method : Bytes) (input : In) (result : Nat) :
    Bool → Writer → List Activity → BusInvoker → Prop
  | threw (out : Bool) (during : List Activity) (apart : Apart result during) :
      CallEnds invoker method input result out ⟨during, true⟩ []
        (invoker.acallWith method input result ⟨during, true⟩)
  | detached (during : List Activity) (apart : Apart result during) :
      CallEnds invoker method input result false ⟨during, false⟩ []
        (invoker.acallWith method input result ⟨during, false⟩)
  | waited (during later : List Activity) (apart : Apart result (during ++ later))
      (filled : Filled (invoker.acall method input result).1 result (during ++ later)) :
      CallEnds invoker method input result true ⟨during, false⟩ later
        ((invoker.acallWith method input result ⟨during, false⟩).performAll later)

/-- However it ends, `Call` has made its entry and then seen some activities. -/
theorem CallEnds.performed {invoker : BusInvoker} {method : Bytes} {input : In} {result : Nat}
    {out : Bool} {writer : Writer} {later : List Activity} {final : BusInvoker}
    (ends : CallEnds invoker method input result out writer later final) :
    Apart result (writer.during ++ later) ∧
      final = (invoker.acall method input result).1.performAll (writer.during ++ later) := by
  cases ends with
  | threw out during apart =>
    rw [List.append_nil]
    exact ⟨apart, rfl⟩
  | detached during apart =>
    rw [List.append_nil]
    exact ⟨apart, rfl⟩
  | waited during later apart filled =>
    refine ⟨apart, ?_⟩
    rw [acallWith, performAll, performAll, performAll, List.foldl_append]

/-- Every touch by another call keeps another address. -/
theorem touches_apart {result : Nat} {activities : List Activity} (apart : Apart result activities)
    (next_id_ id : UInt32) : (id, some result) ∉ touches next_id_ activities := by
  induction activities generalizing next_id_ with
  | nil => simp [touches]
  | cons activity rest inductionHypothesis =>
    have restApart : Apart result rest := fun method input other member =>
      apart method input other (List.mem_cons_of_mem _ member)
    cases activity with
    | called method input other =>
      have differs := apart method input other List.mem_cons_self
      simp only [touches, List.mem_cons, Prod.mk.injEq, Option.some.injEq, not_or, not_and]
      exact ⟨fun _ same => differs same.symm, inductionHypothesis restApart _⟩
    | responded msg =>
      simp only [touches, List.mem_cons, Prod.mk.injEq, reduceCtorEq, and_false, false_or]
      exact inductionHypothesis restApart _

/-- The identifier is answered, or handed out again, in some activities that
follow a call. -/
def Settled (invoker : BusInvoker) (activities : List Activity) (id : UInt32) : Prop :=
  id ∈ (touches (invoker.next_id_ + 1) activities).map Prod.fst

/-- After a call and some activities, the address of its result is not kept
exactly when every identifier that kept it is settled. -/
theorem forgotten_iff (invoker : BusInvoker) (method : Bytes) (input : In) {result : Nat}
    {activities : List Activity} (apart : Apart result activities) :
    (∀ id : UInt32, ((invoker.acall method input result).1.performAll activities).waitings_[id]? ≠
        some result) ↔
      ∀ id : UInt32, id = invoker.next_id_ ∨ invoker.waitings_[id]? = some result →
        invoker.Settled activities id := by
  have counted : (invoker.acall method input result).1.next_id_ = invoker.next_id_ + 1 := rfl
  apply forall_congr'
  intro id
  rw [performAll_getElem?, counted, acall_getElem?, Settled]
  cases last : lastTouch id (touches (invoker.next_id_ + 1) activities) with
  | none =>
    have untouched := (lastTouch_eq_none_iff _ _).mp last
    simp only [Option.getD_none, untouched, imp_false, not_or]
    by_cases own : invoker.next_id_ = id
    · simp [own]
    · simp [own, Ne.symm own]
  | some kept =>
    have touched := lastTouch_mem last
    refine iff_of_true ?_ fun _ => List.mem_map_of_mem touched
    intro same
    rw [Option.getD_some] at same
    exact touches_apart apart _ id (same ▸ touched)

/-- After a call and some activities, everything is kept as before exactly when
the last touch of every identifier, with that of the call itself, left what was
there. -/
theorem restored_iff (invoker : BusInvoker) (method : Bytes) (input : In) (result : Nat)
    (activities : List Activity) :
    ((invoker.acall method input result).1.performAll activities).waitings_ = invoker.waitings_ ↔
      ∀ (id : UInt32) (kept : Option Nat),
        lastTouch id ((invoker.next_id_, some result) ::
          touches (invoker.next_id_ + 1) activities) = some kept →
        invoker.waitings_[id]? = kept := by
  have entry (id : UInt32) :
      ((invoker.acall method input result).1.performAll activities).waitings_[id]? =
        (lastTouch id ((invoker.next_id_, some result) ::
          touches (invoker.next_id_ + 1) activities)).getD invoker.waitings_[id]? := by
    exact performAll_getElem? invoker (.called method input result :: activities) id
  constructor
  · intro same id kept last
    have kept_here := entry id
    rw [same, last, Option.getD_some] at kept_here
    exact kept_here
  · intro restored
    apply ExtTreeMap.ext_getElem?
    intro id
    rw [entry]
    cases last : lastTouch id ((invoker.next_id_, some result) ::
        touches (invoker.next_id_ + 1) activities) with
    | none => rfl
    | some kept => exact (restored id kept last).symm

/-- When `Call` ends, the address of its result is not kept exactly when every
identifier that kept it was settled by then. When `ACall` is left by an
exception, everything is kept as before exactly when all that was touched was
restored. -/
theorem waiters_removed_iff (invoker : BusInvoker) (method : Bytes) (input : In) (result : Nat)
    (writer : Writer) :
    (∀ (out : Bool) (later : List Activity) (final : BusInvoker),
      CallEnds invoker method input result out writer later final →
        ((∀ id : UInt32, final.waitings_[id]? ≠ some result) ↔
          ∀ id : UInt32, id = invoker.next_id_ ∨ invoker.waitings_[id]? = some result →
            invoker.Settled (writer.during ++ later) id)) ∧
    (writer.throws = true →
      ((invoker.acallWith method input result writer).waitings_ = invoker.waitings_ ↔
        ∀ (id : UInt32) (kept : Option Nat),
          lastTouch id ((invoker.next_id_, some result) ::
            touches (invoker.next_id_ + 1) writer.during) = some kept →
          invoker.waitings_[id]? = kept)) := by
  constructor
  · intro out later final ends
    obtain ⟨apart, rfl⟩ := ends.performed
    exact forgotten_iff invoker method input apart
  · intro _
    exact restored_iff invoker method input result writer.during

/-- The response to the first call. -/
def firstResponse : Msg := (Msg.fresh.setId 1).setRequest false

/-- The writer replies at once, and nothing is kept: neither when a call with an
output returns, nor when the writer throws afterwards. -/
theorem prompt_reply_forgotten :
    ∃ final, CallEnds (create (text "c")) (text "p/m") .empty 7 true
        ⟨[.responded firstResponse], false⟩ [] final ∧
      (∀ id : UInt32, final.waitings_[id]? ≠ some 7) ∧
      ((create (text "c")).acallWith (text "p/m") .empty 7
        ⟨[.responded firstResponse], true⟩).waitings_ = (create (text "c")).waitings_ := by
  have apart : Apart 7 ([.responded firstResponse] ++ []) := by
    intro method input other member
    simp at member
  have filled : Filled ((create (text "c")).acall (text "p/m") .empty 7).1 7
      ([.responded firstResponse] ++ []) := ⟨[], firstResponse, [], rfl, by decide⟩
  have ends := CallEnds.waited [.responded firstResponse] [] apart filled
  refine ⟨_, ends, ?_, ?_⟩
  · apply ((waiters_removed_iff _ _ _ _ ⟨[.responded firstResponse], false⟩).1 _ _ _ ends).mpr
    rintro id (rfl | kept)
    · exact List.mem_cons_self
    · rw [create, ExtTreeMap.getElem?_empty] at kept
      exact absurd kept (by simp)
  · apply ((waiters_removed_iff _ _ _ _ ⟨[.responded firstResponse], true⟩).2 rfl).mpr
    intro id kept last
    have member := lastTouch_mem last
    rw [create, ExtTreeMap.getElem?_empty]
    cases kept with
    | none => rfl
    | some address =>
      rcases List.mem_cons.mp member with same | later
      · cases same
        exact absurd last (by decide)
      · simp [touches] at later

/-- `AddMethod` calls without an output and its writer only sends. When the call
returns its result is gone and still kept. So it is when the writer throws. -/
theorem silent_writer_kept :
    ∃ final, CallEnds (create (text "c")) (text "SvcMgr/AddMethod")
        (In.empty.set (text "MethodName") (text "m")) 7 false ⟨[], false⟩ [] final ∧
      final.waitings_[(1 : UInt32)]? = some 7 ∧
      ((create (text "c")).acallWith (text "p/m") .empty 7 ⟨[], true⟩).waitings_ ≠
        (create (text "c")).waitings_ := by
  have apart : Apart 7 [] := by
    intro method input other member
    cases member
  refine ⟨_, CallEnds.detached [] apart, ExtTreeMap.getElem?_insert_self, ?_⟩
  intro same
  have kept := congrArg (fun waitings : ExtTreeMap UInt32 Nat => waitings[(1 : UInt32)]?) same
  change (ExtTreeMap.insert _ (1 : UInt32) 7)[(1 : UInt32)]? =
    (∅ : ExtTreeMap UInt32 Nat)[(1 : UInt32)]? at kept
  rw [ExtTreeMap.getElem?_insert_self, ExtTreeMap.getElem?_empty] at kept
  cases kept

/-- A call that was made and is not answered: how many calls were made before it,
and the address of its result. -/
structure Outstanding where
  number : Nat
  result : Nat

/-- The identifier of the request that the call sent. -/
def Outstanding.id (call : Outstanding) : UInt32 := Bus.idOf call.number

/-- An invoker with the number of calls that were made and those that are not
answered. No operation reads these records. -/
structure Calling where
  invoker : BusInvoker
  made : Nat
  outstanding : List Outstanding

namespace Calling

def fresh (name : Bytes) : Calling := ⟨create name, 0, []⟩

def step (s : Calling) : Activity → Calling
  | .called method input result =>
    ⟨s.invoker.perform (.called method input result), s.made + 1,
      s.outstanding ++ [⟨s.made, result⟩]⟩
  | .responded msg =>
    ⟨s.invoker.perform (.responded msg), s.made,
      s.outstanding.filter fun call => call.id ≠ msg.id_⟩

/-- The steps as a relation. -/
def Steps (before : Calling) (activity : Activity) (after : Calling) : Prop :=
  before.step activity = after

/-- No outstanding result is displaced. -/
def Kept (s : Calling) : Prop :=
  ∀ call ∈ s.outstanding, s.invoker.waitings_[call.id]? = some call.result

/-- A new call gets an identifier that no outstanding call holds, a response is
written to the result of the outstanding call with its identifier and to nothing
if there is none, and no outstanding result is displaced. -/
def Sound (s : Calling) (activity : Activity) : Prop :=
  (s.step activity).Kept ∧
    match activity with
    | .called _ _ _ => ∀ call ∈ s.outstanding, call.id ≠ s.invoker.next_id_
    | .responded msg =>
      (∀ call ∈ s.outstanding, call.id = msg.id_ →
        (s.invoker.handleResponseMessage msg).2 = some call.result) ∧
      ((∀ call ∈ s.outstanding, call.id ≠ msg.id_) →
        (s.invoker.handleResponseMessage msg).2 = none)

/-- When a call is made, the one that was made as many calls ago as there are
words is answered. -/
def InTime (s : Calling) : Activity → Prop
  | .called _ _ _ => ∀ call ∈ s.outstanding, call.number + 2 ^ 32 ≠ s.made
  | .responded _ => True

/-- The counter and the outstanding calls, none of which is older than a round of
the counter. -/
structure Counted (s : Calling) : Prop where
  counter : s.invoker.next_id_ = Bus.idOf s.made
  window : ∀ call ∈ s.outstanding, call.number < s.made ∧ s.made ≤ call.number + 2 ^ 32
  kept : s.Kept
  only : ∀ (id : UInt32) (address : Nat), s.invoker.waitings_[id]? = some address →
    ∃ call ∈ s.outstanding, call.id = id ∧ call.result = address

theorem fresh_counted (name : Bytes) : (fresh name).Counted where
  counter := rfl
  window call member := by cases member
  kept call member := by cases member
  only id address found := by
    rw [fresh, create, ExtTreeMap.getElem?_empty] at found
    cases found

/-- An outstanding call holds the next identifier exactly when it is one round
old. -/
theorem Counted.id_eq_iff {s : Calling} (counted : s.Counted) {call : Outstanding}
    (member : call ∈ s.outstanding) :
    call.id = s.invoker.next_id_ ↔ call.number + 2 ^ 32 = s.made := by
  obtain ⟨before, round⟩ := counted.window call member
  rw [counted.counter, Outstanding.id, Bus.idOf, Bus.idOf, ← UInt32.toNat_inj,
    UInt32.toNat_ofNat', UInt32.toNat_ofNat']
  omega

/-- The identifiers of the outstanding calls, when a call is made in time. -/
theorem Counted.called {s : Calling} (counted : s.Counted) (method : Bytes) (input : In)
    (result : Nat) (free : ∀ call ∈ s.outstanding, call.id ≠ s.invoker.next_id_) :
    (s.step (.called method input result)).Counted where
  counter := by
    change s.invoker.next_id_ + 1 = Bus.idOf (s.made + 1)
    rw [counted.counter, Bus.idOf_succ]
  window call member := by
    rcases List.mem_append.mp member with old | new
    · obtain ⟨before, round⟩ := counted.window call old
      have late := mt (counted.id_eq_iff old).mpr (free call old)
      change call.number < s.made + 1 ∧ s.made + 1 ≤ call.number + 2 ^ 32
      omega
    · rw [List.mem_singleton.mp new]
      change s.made < s.made + 1 ∧ s.made + 1 ≤ s.made + 2 ^ 32
      omega
  kept call member := by
    change (s.invoker.acall method input result).1.waitings_[call.id]? = _
    rw [acall_getElem?]
    rcases List.mem_append.mp member with old | new
    · rw [if_neg (Ne.symm (free call old))]
      exact counted.kept call old
    · rw [List.mem_singleton.mp new]
      exact if_pos counted.counter
  only id address found := by
    change (s.invoker.acall method input result).1.waitings_[id]? = _ at found
    rw [acall_getElem?] at found
    split at found
    next same =>
      refine ⟨⟨s.made, result⟩, List.mem_append_right _ List.mem_cons_self, ?_⟩
      rw [Outstanding.id, ← counted.counter]
      exact ⟨same, Option.some.inj found⟩
    next =>
      obtain ⟨call, member, holds⟩ := counted.only id address found
      exact ⟨call, List.mem_append_left _ member, holds⟩

theorem Counted.responded {s : Calling} (counted : s.Counted) (msg : Msg) :
    (s.step (.responded msg)).Counted where
  counter := by
    change (s.invoker.handleResponseMessage msg).1.next_id_ = _
    rw [handleResponseMessage_next_id_]
    exact counted.counter
  window call member := counted.window call (List.mem_filter.mp member).1
  kept call member := by
    obtain ⟨old, other⟩ := List.mem_filter.mp member
    change (s.invoker.handleResponseMessage msg).1.waitings_[call.id]? = _
    rw [handleResponseMessage_getElem?, if_neg (Ne.symm (of_decide_eq_true other))]
    exact counted.kept call old
  only id address found := by
    change (s.invoker.handleResponseMessage msg).1.waitings_[id]? = _ at found
    rw [handleResponseMessage_getElem?, Option.ite_none_left_eq_some] at found
    obtain ⟨call, member, rfl, same⟩ := counted.only id address found.2
    exact ⟨call, List.mem_filter.mpr ⟨member, decide_eq_true (Ne.symm found.1)⟩, rfl, same⟩

/-- Where the calls are counted, the calls in time are the sound ones, and every
response is sound. -/
theorem Counted.inTime_iff_sound {s : Calling} (counted : s.Counted) (activity : Activity) :
    s.InTime activity ↔ s.Sound activity := by
  cases activity with
  | called method input result =>
    have free_iff : s.InTime (.called method input result) ↔
        ∀ call ∈ s.outstanding, call.id ≠ s.invoker.next_id_ :=
      forall₂_congr fun call member => not_congr (counted.id_eq_iff member).symm
    rw [free_iff]
    constructor
    · intro free
      exact ⟨(counted.called method input result free).kept, free⟩
    · intro sound
      exact sound.2
  | responded msg =>
    refine iff_of_true trivial ⟨(counted.responded msg).kept, ?_, ?_⟩
    · intro call member same
      have found := counted.kept call member
      rw [same] at found
      unfold handleResponseMessage
      rw [found]
    · intro others
      unfold handleResponseMessage
      cases found : s.invoker.waitings_[msg.id_]? with
      | none => rfl
      | some address =>
        obtain ⟨call, member, same, _⟩ := counted.only _ _ found
        exact absurd same (others call member)

/-- The runs in which every call is made in time are the runs in which every step
is sound. -/
theorem calls_apart_iff (name : Bytes) (activities : List Activity) (final : Calling) :
    Run (Guarded InTime Steps) (fresh name) activities final ↔
      Run (Guarded Sound Steps) (fresh name) activities final := by
  apply Run.guards_agree Counted
  · intro before after activity counted _
    exact counted.inTime_iff_sound activity
  · rintro before after activity counted inTime rfl
    have sound := (counted.inTime_iff_sound activity).mp inTime
    cases activity with
    | called method input result => exact counted.called method input result sound.2
    | responded msg => exact counted.responded msg
  · exact fresh_counted name

/-- Calls of a method, numbered from one, each with a result of its own and
answered at once. -/
def answeredCalls (count : Nat) : List Activity :=
  (List.range count).flatMap fun i =>
    [.called (text "p/m") .empty (i + 1), .responded (Msg.fresh.setId (Bus.idOf (i + 1)))]

/-- A first call stays unanswered while others are made and answered. -/
theorem first_call_waits {count : Nat} (few : count < 2 ^ 32) :
    ∃ final : Calling,
      Run Steps (fresh (text "c")) (.called (text "p/m") .empty 0 :: answeredCalls count) final ∧
        final.invoker.next_id_ = Bus.idOf (count + 1) ∧ final.made = count + 1 ∧
        final.outstanding = [⟨0, 0⟩] := by
  induction count with
  | zero => exact ⟨_, Run.next rfl (Run.done _), rfl, rfl, rfl⟩
  | succ count inductionHypothesis =>
    obtain ⟨before, run, counter, made, outstanding⟩ := inductionHypothesis (by omega)
    have split : answeredCalls (count + 1) = answeredCalls count ++
        [.called (text "p/m") .empty (count + 1),
          .responded (Msg.fresh.setId (Bus.idOf (count + 1)))] := by
      simp [answeredCalls, List.range_succ]
    rw [split, ← List.cons_append]
    refine ⟨_, run.append (Run.next rfl (Run.next rfl (Run.done _))), ?_, ?_, ?_⟩
    · change (handleResponseMessage _ _).1.next_id_ = _
      rw [handleResponseMessage_next_id_]
      change before.invoker.next_id_ + 1 = _
      rw [counter, Bus.idOf_succ]
    · change before.made + 1 = _
      rw [made]
    · have first : Bus.idOf 0 ≠ Bus.idOf (count + 1) := fun same =>
        absurd (Bus.idOf_injective (by decide) few same) (by omega)
      change (before.outstanding ++ [Outstanding.mk before.made (count + 1)]).filter
        (fun call : Outstanding => decide (call.id ≠ Bus.idOf (count + 1))) = _
      rw [outstanding, made]
      simp [Outstanding.id, first]

/-- When the counter has gone round, the next call gets the identifier of the
first call and displaces its result. -/
theorem late_call_displaced :
    ∃ (activities : List Activity) (final : Calling) (call : Outstanding),
      Run Steps (fresh (text "c")) activities final ∧ call ∈ final.outstanding ∧
        call.id = final.invoker.next_id_ ∧ call.result = 0 ∧
        (final.step (.called (text "p/m") .empty 1)).invoker.waitings_[call.id]? = some 1 ∧
        ¬ final.Sound (.called (text "p/m") .empty 1) := by
  obtain ⟨final, run, counter, _, outstanding⟩ := first_call_waits
    (by omega : 2 ^ 32 - 1 < 2 ^ 32)
  have round : Bus.idOf 0 = final.invoker.next_id_ := by
    rw [counter, Bus.idOf, Bus.idOf, ← UInt32.toNat_inj, UInt32.toNat_ofNat',
      UInt32.toNat_ofNat']
    omega
  have member : ⟨0, 0⟩ ∈ final.outstanding := by
    rw [outstanding]
    exact List.mem_cons_self
  refine ⟨_, final, ⟨0, 0⟩, run, member, round, rfl, ?_, ?_⟩
  · change (final.invoker.acall (text "p/m") .empty 1).1.waitings_[Bus.idOf 0]? = _
    rw [acall_getElem?, if_pos round.symm]
  · intro sound
    exact sound.2 ⟨0, 0⟩ member round

end Calling

end Cppboot.BusInvoker
