import Mathlib.Logic.Function.Basic
import Cppboot.Runs
import Cppboot.Status

/-!
# The objects of an environment

A `GlobalEnv` keeps objects under their ids. An object counts the references to it
and deletes itself when the last one is released; the environment holds one reference
to every object in it, and clients hold any number.

The environment and the objects are the state of the program. Beside it stands how many
references clients hold, which no part of the program knows. The ids of the objects do
not change. A call that touches an object that is deleted has no result.

A count is an integer without bounds, where the program has an `atomic_long`: 2^63
references to one object are out of reach.
-/

namespace Cppboot

open Std Runs

variable {α : Type} [DecidableEq α]

/-- The map of an environment, and the counts of the objects that exist. -/
structure Env (α : Type) where
  objs_ : ExtTreeMap Bytes α
  nref_ : α → Option Int

namespace Env

/-- One reference more. -/
def addRefManually (env : Env α) (obj : α) : Option (Env α) :=
  (env.nref_ obj).map fun n => { env with nref_ := Function.update env.nref_ obj (some (n + 1)) }

/-- One reference less. The object is deleted with the last one. -/
def release (env : Env α) (obj : α) : Option (Env α) :=
  (env.nref_ obj).map fun n =>
    { env with nref_ := Function.update env.nref_ obj (if n - 1 = 0 then none else some (n - 1)) }

variable (object_id : α → Option Bytes)

/-- Enter an object under its id, which must be new, with a reference of its own. -/
def insertObject (env : Env α) (obj : Option α) : Option (Status × Env α) :=
  match obj with
  | none => some (.invalidArgumentError (text "no service"), env)
  | some obj =>
    -- the id is asked of the object
    if (env.nref_ obj).isNone then none
    else
      match object_id obj with
      | none => some (.invalidArgumentError (text "no name"), env)
      | some [] => some (.invalidArgumentError (text "no name"), env)
      | some (c :: rest) =>
        if (env.objs_[c :: rest]?).isSome then some (.alreadyExistsError (c :: rest), env)
        else
          (env.addRefManually obj).map fun counted =>
            (.okStatus, { counted with objs_ := counted.objs_.insert (c :: rest) obj })

/-- The reference is released before the entry is erased. -/
def removeObject (env : Env α) (name : Option Bytes) : Option (Env α) :=
  match name with
  | none => some env
  | some [] => some env
  | some (c :: rest) =>
    match env.objs_[c :: rest]? with
    | none => some env
    | some obj =>
      (env.release obj).map fun counted =>
        { counted with objs_ := counted.objs_.erase (c :: rest) }

/-- The object that is found goes to the receiver, if there is one. -/
def getObject (env : Env α) (name : Option Bytes) (pobj : Bool) :
    Option (Status × Option α × Env α) :=
  match name with
  | none => some (.invalidArgumentError (text "no name"), none, env)
  | some [] => some (.invalidArgumentError (text "no name"), none, env)
  | some (c :: rest) =>
    if pobj = false then some (.invalidArgumentError (text "no receiver"), none, env)
    else
      match env.objs_[c :: rest]? with
      | none => some (.notFoundError (c :: rest), none, env)
      | some obj => (env.addRefManually obj).map fun counted => (.okStatus, some obj, counted)

end Env

/-- The environment with the references that clients hold. -/
structure World (α : Type) where
  env : Env α
  held : α → Nat

namespace World

/-- What clients call. -/
inductive Event (α : Type) where
  | insertObject (obj : Option α)
  | removeObject (name : Option Bytes)
  | getObject (name : Option Bytes) (pobj : Bool)
  | addRefManually (obj : α)
  | release (obj : α)

/-- No call has been made, and nobody refers to the objects. -/
def fresh : World α := ⟨⟨∅, fun _ => some 0⟩, fun _ => 0⟩

/-- A client gets a reference to an object. -/
def taken (held : α → Nat) (obj : α) : α → Nat := Function.update held obj (held obj + 1)

/-- A client gives one up. -/
def given (held : α → Nat) (obj : α) : α → Nat := Function.update held obj (held obj - 1)

variable (object_id : α → Option Bytes)

/-- A call. Those that return nothing are taken to succeed. -/
def step (w : World α) : Event α → Option (Status × World α)
  | .insertObject obj =>
    (w.env.insertObject object_id obj).map fun (st, env) => (st, { w with env := env })
  | .removeObject name =>
    (w.env.removeObject name).map fun env => (.okStatus, { w with env := env })
  | .getObject name pobj =>
    (w.env.getObject name pobj).map fun (st, found, env) =>
      (st, ⟨env, found.elim w.held (taken w.held)⟩)
  | .addRefManually obj =>
    (w.env.addRefManually obj).map fun env => (.okStatus, ⟨env, taken w.held obj⟩)
  | .release obj =>
    (w.env.release obj).map fun env => (.okStatus, ⟨env, given w.held obj⟩)

/-- Clients pass objects that exist, and release what they hold. -/
def Allowed (w : World α) : Event α → Prop
  | .insertObject (some obj) => (w.env.nref_ obj).isSome
  | .addRefManually obj => (w.env.nref_ obj).isSome
  | .release obj => 0 < w.held obj
  | _ => True

instance (w : World α) : (event : Event α) → Decidable (Allowed w event)
  | .insertObject none => inferInstanceAs (Decidable True)
  | .insertObject (some obj) => inferInstanceAs (Decidable ((w.env.nref_ obj).isSome = true))
  | .removeObject _ => inferInstanceAs (Decidable True)
  | .getObject _ _ => inferInstanceAs (Decidable True)
  | .addRefManually obj => inferInstanceAs (Decidable ((w.env.nref_ obj).isSome = true))
  | .release obj => inferInstanceAs (Decidable (0 < w.held obj))

/-- The object is in the environment. -/
def Entered (w : World α) (obj : α) : Prop := ∃ name : Bytes, w.env.objs_[name]? = some obj

open Classical in
/-- The references that clients hold, and the one of the environment. -/
noncomputable def references (w : World α) (obj : α) : Nat :=
  w.held obj + if w.Entered obj then 1 else 0

/-- What is true of every state: the objects that exist have the right count, nobody
refers to those that are deleted, and every object in the environment is there under
its id. -/
structure Sound (w : World α) : Prop where
  counted : ∀ obj n, w.env.nref_ obj = some n → n = w.references obj
  deleted : ∀ obj, w.env.nref_ obj = none → w.references obj = 0
  named : ∀ (name : Bytes) obj, w.env.objs_[name]? = some obj → object_id obj = some name

/-- Only the count of one object and the references to it are different. -/
structure Changed (w after : World α) (obj : α) (count : Option Int) : Prop where
  update : after.env.nref_ = Function.update w.env.nref_ obj count
  others : ∀ other, other ≠ obj → after.references other = w.references other

/-- The objects that are missing after a step were missing before it, or their last
reference is gone. -/
def DeletesLast (w after : World α) : Prop :=
  ∀ obj, after.env.nref_ obj = none ↔
    w.env.nref_ obj = none ∨ 0 < w.references obj ∧ after.references obj = 0

omit [DecidableEq α] in
theorem DeletesLast.refl (w : World α) : DeletesLast w w := by
  intro obj
  constructor
  · exact .inl
  · rintro (missing | ⟨positive, zero⟩)
    · exact missing
    · omega

variable {object_id} {w after : World α} {obj : α}

/-- A change is sound if the object has the right count afterwards, or is deleted with
its last reference. -/
theorem Changed.sound {count : Option Int} (sound : Sound object_id w)
    (changed : Changed w after obj count)
    (present : w.env.nref_ obj ≠ none)
    (counted : ∀ m, count = some m → m = after.references obj)
    (last : count = none ↔ 0 < w.references obj ∧ after.references obj = 0)
    (named : ∀ (name : Bytes) obj, after.env.objs_[name]? = some obj → object_id obj = some name) :
    Sound object_id after ∧ DeletesLast w after := by
  have here : after.env.nref_ obj = count := by rw [changed.update, Function.update_self]
  have there (other : α) (apart : other ≠ obj) : after.env.nref_ other = w.env.nref_ other := by
    rw [changed.update, Function.update_of_ne apart]
  refine ⟨⟨fun other m found => ?_, fun other missing => ?_, named⟩, fun other => ?_⟩
  · by_cases same : other = obj
    · subst same
      exact counted m (here.symm.trans found)
    · rw [there other same] at found
      rw [changed.others other same]
      exact sound.counted other m found
  · by_cases same : other = obj
    · subst same
      exact (last.mp (here.symm.trans missing)).2
    · rw [there other same] at missing
      rw [changed.others other same]
      exact sound.deleted other missing
  · by_cases same : other = obj
    · subst same
      rw [here, last, or_iff_right present]
    · rw [there other same, changed.others other same]
      exact DeletesLast.refl w other

/-- One reference more, and the count goes up. -/
theorem Changed.raised {n : Int} (sound : Sound object_id w) (found : w.env.nref_ obj = some n)
    (changed : Changed w after obj (some (n + 1)))
    (more : after.references obj = w.references obj + 1)
    (named : ∀ (name : Bytes) obj, after.env.objs_[name]? = some obj → object_id obj = some name) :
    Sound object_id after ∧ DeletesLast w after := by
  have before := sound.counted obj n found
  have present : w.env.nref_ obj ≠ none := by simp [found]
  refine changed.sound sound present ?_ (iff_of_false (by simp) fun both => by omega) named
  rintro m ⟨⟩
  omega

/-- One reference less, and the count goes down. -/
theorem Changed.lowered {n : Int} (sound : Sound object_id w) (found : w.env.nref_ obj = some n)
    (changed : Changed w after obj (if n - 1 = 0 then none else some (n - 1)))
    (less : w.references obj = after.references obj + 1)
    (named : ∀ (name : Bytes) obj, after.env.objs_[name]? = some obj → object_id obj = some name) :
    Sound object_id after ∧ DeletesLast w after := by
  have before := sound.counted obj n found
  have present : w.env.nref_ obj ≠ none := by simp [found]
  refine changed.sound sound present (fun m kept => ?_) ?_ named
  · split at kept
    next => cases kept
    next =>
      have value := Option.some.inj kept
      omega
  · split
    next ended => exact iff_of_true rfl ⟨by omega, by omega⟩
    next going => exact iff_of_false (by simp) fun both => by omega

omit [DecidableEq α] in
/-- While an object stays in the environment, or out of it, its references change with
those that clients hold. -/
theorem references_held (entered : after.Entered obj ↔ w.Entered obj) :
    after.references obj + w.held obj = w.references obj + after.held obj := by
  unfold references
  by_cases inside : w.Entered obj
  · rw [if_pos inside, if_pos (entered.mpr inside)]
    omega
  · rw [if_neg inside, if_neg (mt entered.mp inside)]
    omega

omit [DecidableEq α] in
/-- While clients keep what they hold, the references change with the entry. -/
theorem references_entered (held : after.held obj = w.held obj) (without : ¬ w.Entered obj)
    (within : after.Entered obj) : after.references obj = w.references obj + 1 := by
  unfold references
  rw [held, if_neg without, if_pos within]

/-- A client takes a reference to an object that exists. -/
theorem taken_sound {n : Int} (sound : Sound object_id w) (found : w.env.nref_ obj = some n) :
    Sound object_id ⟨⟨w.env.objs_, Function.update w.env.nref_ obj (some (n + 1))⟩,
        taken w.held obj⟩ ∧
      DeletesLast w ⟨⟨w.env.objs_, Function.update w.env.nref_ obj (some (n + 1))⟩,
        taken w.held obj⟩ := by
  generalize result : (⟨⟨w.env.objs_, Function.update w.env.nref_ obj (some (n + 1))⟩,
    taken w.held obj⟩ : World α) = after
  have same (other : α) : after.Entered other ↔ w.Entered other := by rw [← result]; rfl
  have held : after.held = taken w.held obj := by rw [← result]
  refine Changed.raised sound found ⟨by rw [← result], fun other apart => ?_⟩ ?_ ?_
  · have shift := references_held (same other)
    rw [held, taken, Function.update_of_ne apart] at shift
    omega
  · have shift := references_held (same obj)
    rw [held, taken, Function.update_self] at shift
    omega
  · rw [← result]
    exact sound.named

/-- A client gives up a reference that it holds. -/
theorem given_sound {n : Int} (sound : Sound object_id w) (found : w.env.nref_ obj = some n)
    (holds : 0 < w.held obj) :
    Sound object_id ⟨⟨w.env.objs_, Function.update w.env.nref_ obj
        (if n - 1 = 0 then none else some (n - 1))⟩, given w.held obj⟩ ∧
      DeletesLast w ⟨⟨w.env.objs_, Function.update w.env.nref_ obj
        (if n - 1 = 0 then none else some (n - 1))⟩, given w.held obj⟩ := by
  generalize result : (⟨⟨w.env.objs_, Function.update w.env.nref_ obj
    (if n - 1 = 0 then none else some (n - 1))⟩, given w.held obj⟩ : World α) = after
  have same (other : α) : after.Entered other ↔ w.Entered other := by rw [← result]; rfl
  have held : after.held = given w.held obj := by rw [← result]
  refine Changed.lowered sound found ⟨by rw [← result], fun other apart => ?_⟩ ?_ ?_
  · have shift := references_held (same other)
    rw [held, given, Function.update_of_ne apart] at shift
    omega
  · have shift := references_held (same obj)
    rw [held, given, Function.update_self] at shift
    omega
  · rw [← result]
    exact sound.named

omit [DecidableEq α] in
/-- A change of the entry under one name touches the objects there only. -/
theorem entered_iff {name : Bytes}
    (others : ∀ key : Bytes, key ≠ name → after.env.objs_[key]? = w.env.objs_[key]?)
    (before : w.env.objs_[name]? ≠ some obj) (behind : after.env.objs_[name]? ≠ some obj) :
    after.Entered obj ↔ w.Entered obj := by
  constructor
  · rintro ⟨key, entered⟩
    have apart : key ≠ name := fun same => behind (same ▸ entered)
    exact ⟨key, (others key apart).symm.trans entered⟩
  · rintro ⟨key, entered⟩
    have apart : key ≠ name := fun same => before (same ▸ entered)
    exact ⟨key, (others key apart).trans entered⟩

/-- An object is entered under its id, which is free. -/
theorem inserted_sound {n : Int} {name : Bytes} (sound : Sound object_id w)
    (found : w.env.nref_ obj = some n) (named : object_id obj = some name)
    (free : w.env.objs_[name]? = none) :
    Sound object_id ⟨⟨w.env.objs_.insert name obj,
        Function.update w.env.nref_ obj (some (n + 1))⟩, w.held⟩ ∧
      DeletesLast w ⟨⟨w.env.objs_.insert name obj,
        Function.update w.env.nref_ obj (some (n + 1))⟩, w.held⟩ := by
  generalize result : (⟨⟨w.env.objs_.insert name obj,
    Function.update w.env.nref_ obj (some (n + 1))⟩, w.held⟩ : World α) = after
  have held : after.held = w.held := by rw [← result]
  have entry : after.env.objs_[name]? = some obj := by
    rw [← result]
    exact ExtTreeMap.getElem?_insert_self
  have others (key : Bytes) (apart : key ≠ name) :
      after.env.objs_[key]? = w.env.objs_[key]? := by
    rw [← result]
    dsimp only
    rw [ExtTreeMap.getElem?_insert, if_neg]
    exact fun same => apart (LawfulEqCmp.compare_eq_iff_eq.mp same).symm
  have without : ¬ w.Entered obj := by
    rintro ⟨key, entered⟩
    have same := (sound.named key obj entered).symm.trans named
    rw [Option.some.inj same, free] at entered
    cases entered
  refine Changed.raised sound found ⟨by rw [← result], fun other apart => ?_⟩ ?_ ?_
  · have absent : w.env.objs_[name]? ≠ some other := by simp [free]
    have different : after.env.objs_[name]? ≠ some other := by simp [entry, Ne.symm apart]
    have shift := references_held (entered_iff others absent different)
    rw [held] at shift
    omega
  · exact references_entered (congrFun held obj) without ⟨name, entry⟩
  · intro key other entered
    by_cases same : key = name
    · rw [same, entry] at entered
      rw [same, ← Option.some.inj entered, named]
    · exact sound.named key other ((others key same).symm.trans entered)

/-- The entry of an object is erased. -/
theorem removed_sound {n : Int} {name : Bytes} (sound : Sound object_id w)
    (found : w.env.nref_ obj = some n) (entered : w.env.objs_[name]? = some obj) :
    Sound object_id ⟨⟨w.env.objs_.erase name, Function.update w.env.nref_ obj
        (if n - 1 = 0 then none else some (n - 1))⟩, w.held⟩ ∧
      DeletesLast w ⟨⟨w.env.objs_.erase name, Function.update w.env.nref_ obj
        (if n - 1 = 0 then none else some (n - 1))⟩, w.held⟩ := by
  generalize result : (⟨⟨w.env.objs_.erase name, Function.update w.env.nref_ obj
    (if n - 1 = 0 then none else some (n - 1))⟩, w.held⟩ : World α) = after
  have held : after.held = w.held := by rw [← result]
  have erased : after.env.objs_[name]? = none := by
    rw [← result]
    exact ExtTreeMap.getElem?_erase_self
  have others (key : Bytes) (apart : key ≠ name) :
      after.env.objs_[key]? = w.env.objs_[key]? := by
    rw [← result]
    dsimp only
    rw [ExtTreeMap.getElem?_erase, if_neg]
    exact fun same => apart (LawfulEqCmp.compare_eq_iff_eq.mp same).symm
  have kept {key : Bytes} {other : α} (there : after.env.objs_[key]? = some other) :
      key ≠ name ∧ w.env.objs_[key]? = some other := by
    have apart : key ≠ name := by
      rintro rfl
      rw [erased] at there
      cases there
    exact ⟨apart, (others key apart).symm.trans there⟩
  have without : ¬ after.Entered obj := by
    rintro ⟨key, there⟩
    obtain ⟨apart, still⟩ := kept there
    have same := (sound.named key obj still).symm.trans (sound.named name obj entered)
    exact apart (Option.some.inj same)
  refine Changed.lowered sound found ⟨by rw [← result], fun other apart => ?_⟩ ?_ ?_
  · have different : w.env.objs_[name]? ≠ some other := by simp [entered, Ne.symm apart]
    have absent : after.env.objs_[name]? ≠ some other := by simp [erased]
    have shift := references_held (entered_iff others different absent)
    rw [held] at shift
    omega
  · exact references_entered (congrFun held.symm obj) without ⟨name, entered⟩
  · exact fun key other there => sound.named key other (kept there).2

omit [DecidableEq α] in
/-- The objects in the environment exist. -/
theorem Sound.entered_exists (sound : Sound object_id w) {name : Bytes}
    (entered : w.env.objs_[name]? = some obj) : ∃ n, w.env.nref_ obj = some n := by
  cases count : w.env.nref_ obj with
  | some n => exact ⟨n, rfl⟩
  | none =>
    have nothing := sound.deleted obj count
    unfold references at nothing
    rw [if_pos ⟨name, entered⟩] at nothing
    omega

/-- A call comes to this: it has a result, it changes nothing if it fails, and it keeps
the state sound. -/
def Keeps (object_id : α → Option Bytes) (w : World α) (result : Option (Status × World α)) :
    Prop :=
  ∃ st after, result = some (st, after) ∧ (st.ok = false → after = w) ∧
    Sound object_id after ∧ DeletesLast w after

omit [DecidableEq α] in
/-- A call that is refused keeps everything. -/
theorem Keeps.unchanged (sound : Sound object_id w) (st : Status) :
    Keeps object_id w (some (st, w)) :=
  ⟨st, w, rfl, fun _ => rfl, sound, DeletesLast.refl w⟩

omit [DecidableEq α] in
/-- A call that succeeds comes to this if its result is sound. -/
theorem Keeps.changed (kept : Sound object_id after ∧ DeletesLast w after) :
    Keeps object_id w (some (.okStatus, after)) :=
  ⟨.okStatus, after, rfl, nofun, kept⟩

/-- Entering an object adds one reference to it, or is refused. -/
theorem insertObject_keeps (sound : Sound object_id w) (given : Option α)
    (allowed : Allowed w (.insertObject given)) :
    Keeps object_id w (step object_id w (.insertObject given)) := by
  cases given with
  | none => exact .unchanged sound _
  | some obj =>
    obtain ⟨n, found⟩ := Option.isSome_iff_exists.mp allowed
    simp only [step, Env.insertObject, Env.addRefManually, found, Option.isNone_some,
      Bool.false_eq_true, if_false]
    cases named : object_id obj with
    | none => exact .unchanged sound _
    | some id =>
      cases id with
      | nil => exact .unchanged sound _
      | cons c rest =>
        dsimp only
        cases taken : w.env.objs_[c :: rest]? with
        | some other => exact .unchanged sound _
        | none => exact .changed (inserted_sound sound found named taken)

/-- Removing an object gives up one reference to it, or is refused. -/
theorem removeObject_keeps (sound : Sound object_id w) (name : Option Bytes) :
    Keeps object_id w (step object_id w (.removeObject name)) := by
  cases name with
  | none => exact .unchanged sound _
  | some name =>
    cases name with
    | nil => exact .unchanged sound _
    | cons c rest =>
      simp only [step, Env.removeObject]
      cases there : w.env.objs_[c :: rest]? with
      | none => exact .unchanged sound _
      | some obj =>
        obtain ⟨n, found⟩ := sound.entered_exists there
        simp only [Env.release, found]
        exact .changed (removed_sound sound found there)

/-- Asking for an object adds one reference to it, or is refused. -/
theorem getObject_keeps (sound : Sound object_id w) (name : Option Bytes) (pobj : Bool) :
    Keeps object_id w (step object_id w (.getObject name pobj)) := by
  cases name with
  | none => exact .unchanged sound _
  | some name =>
    cases name with
    | nil => exact .unchanged sound _
    | cons c rest =>
      cases pobj with
      | false => exact .unchanged sound _
      | true =>
        simp only [step, Env.getObject, Bool.true_eq_false, if_false]
        cases there : w.env.objs_[c :: rest]? with
        | none => exact .unchanged sound _
        | some obj =>
          obtain ⟨n, found⟩ := sound.entered_exists there
          simp only [Env.addRefManually, found]
          exact .changed (taken_sound sound found)

/-- A client that holds a reference may give it up. -/
theorem release_keeps (sound : Sound object_id w) (holds : 0 < w.held obj) :
    Keeps object_id w (step object_id w (.release obj)) := by
  cases found : w.env.nref_ obj with
  | none =>
    have nothing := sound.deleted obj found
    unfold references at nothing
    omega
  | some n =>
    simp only [step, Env.release, found]
    exact .changed (given_sound sound found holds)

/-- A call that is allowed has a result. It changes nothing if it fails, and otherwise
it keeps the state sound. -/
theorem step_sound (sound : Sound object_id w) {event : Event α} (allowed : Allowed w event) :
    Keeps object_id w (step object_id w event) := by
  cases event with
  | insertObject given => exact insertObject_keeps sound given allowed
  | removeObject name => exact removeObject_keeps sound name
  | getObject name pobj => exact getObject_keeps sound name pobj
  | addRefManually obj =>
    obtain ⟨n, found⟩ := Option.isSome_iff_exists.mp allowed
    simp only [step, Env.addRefManually, found]
    exact .changed (taken_sound sound found)
  | release obj => exact release_keeps sound allowed

omit [DecidableEq α] in
/-- At the start there are no references. -/
theorem fresh_sound : Sound object_id (fresh : World α) := by
  have nowhere (obj : α) : ¬ (fresh : World α).Entered obj := by
    rintro ⟨name, entered⟩
    cases ExtTreeMap.getElem?_empty.symm.trans entered
  refine ⟨fun obj n found => ?_, nofun, fun name obj entered => ?_⟩
  · unfold references
    rw [if_neg (nowhere obj)]
    exact (Option.some.inj found).symm
  · exact absurd ⟨name, entered⟩ (nowhere obj)

variable (object_id) in
/-- The state after a call. -/
def called (w : World α) (event : Event α) : Option (World α) :=
  (step object_id w event).map Prod.snd

/-- Every state of a run is sound. -/
theorem run_sound {events : List (Event α)}
    (run : Run (Guarded Allowed (Accepts (called object_id))) fresh events w) :
    Sound object_id w := by
  refine run.preserves (Sound object_id) ?_ fresh_sound
  rintro before after event sound ⟨allowed, taken⟩
  obtain ⟨st, result, stepped, _, kept, _⟩ := step_sound sound allowed
  rw [Accepts, called, stepped] at taken
  cases taken
  exact kept

/-- In every state that allowed calls lead to, the count of an object that exists is the
number of the references that clients hold, and one more if it is in the environment;
every object in the environment exists, and it is there once, under its id. The next
call that is allowed has a result; it changes nothing if it fails; and an object goes
missing with it exactly when the last reference to the object does. -/
theorem references_conserved {events : List (Event α)}
    (run : Run (Guarded Allowed (Accepts (called object_id))) fresh events w) :
    (∀ obj n, w.env.nref_ obj = some n → n = w.references obj) ∧
    (∀ (name : Bytes) obj, w.env.objs_[name]? = some obj →
      object_id obj = some name ∧ (w.env.nref_ obj).isSome ∧
        ∀ other : Bytes, w.env.objs_[other]? = some obj → other = name) ∧
    ∀ event, Allowed w event → ∃ st after, step object_id w event = some (st, after) ∧
      (st.ok = false → after = w) ∧ DeletesLast w after := by
  have sound := run_sound run
  refine ⟨sound.counted, fun name obj entered => ?_, fun event allowed => ?_⟩
  · have named := sound.named name obj entered
    obtain ⟨n, found⟩ := sound.entered_exists entered
    refine ⟨named, Option.isSome_iff_exists.mpr ⟨n, found⟩, fun other again => ?_⟩
    exact Option.some.inj ((sound.named other obj again).symm.trans named)
  · obtain ⟨st, after, stepped, failed, _, deletes⟩ := step_sound sound allowed
    exact ⟨st, after, stepped, failed, deletes⟩

/-- One of two services with the same id is entered, and the other is refused. The first is
found, released once and removed. -/
def twoServices : List (Event Bool) :=
  [.addRefManually true, .addRefManually false, .insertObject (some true),
    .insertObject (some false), .getObject (some (text "svc1")) true, .release true,
    .removeObject (some (text "svc1"))]

/-- Each service has the one reference that is left. -/
theorem service_conserved :
    ∃ w : World Bool, Run (Guarded Allowed (Accepts (called fun _ => some (text "svc1")))) fresh
        twoServices w ∧
      (w.env.nref_ true = some 1 ∧ (1 : Int) = w.references true) ∧
      w.env.nref_ false = some 1 ∧ (1 : Int) = w.references false := by
  have executed : (execute (restrict Allowed (called fun _ : Bool => some (text "svc1"))) fresh
      twoServices).map (fun w => (w.env.nref_ true, w.env.nref_ false)) =
      some (some 1, some 1) := by
    decide +kernel
  obtain ⟨w, reached, counts⟩ := Option.map_eq_some_iff.mp executed
  obtain ⟨one, other⟩ := Prod.mk.inj counts
  have run := restrict_run _ _ _ _ _ reached
  have conserved := references_conserved run
  exact ⟨w, run, ⟨one, conserved.1 true 1 one⟩, other, conserved.1 false 1 other⟩

end World

end Cppboot
