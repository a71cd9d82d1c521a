import Mathlib.Data.List.Infix
import Mathlib.Logic.Function.Basic
import Cppboot.FileSystem

/-!
# Directories with modes

A volume is a tree of directories and regular files, and every directory has the mode
that it was made with. Steps lead from one place to the next by their spelling alone; on
a volume, a walk along them has to find a directory at every place it comes to.

Making a directory walks to the place in front of the last step, and adds an entry
there. An entry that exists is an error of its own, whatever it is. So is a last step
that has no name in it. The system can refuse to add an entry for other reasons.

Names are of any type.
-/

namespace Cppboot.Directories

open Files

variable {ν : Type}

/-- What stands at a place. -/
inductive Node where
  | file
  | directory (mode : Nat)
deriving DecidableEq, Repr

def ENOENT : Int := 2

def EEXIST : Int := 17

def ENOTDIR : Int := 20

/-- The root and the working directory are directories, and so is what an entry is in. -/
structure Volume (ν : Type) where
  node : Place ν → Option Node
  cwd : Place ν
  root : ∃ mode, node [] = some (.directory mode)
  working : ∃ mode, node cwd = some (.directory mode)
  closed : ∀ directory name, node (directory ++ [name]) ≠ none →
    ∃ mode, node directory = some (.directory mode)

/-- The place that a step leads to. -/
def advance (place : Place ν) : Step ν → Place ν
  | .here => place
  | .up => place.dropLast
  | .enter name => place ++ [name]

/-- The place that steps lead to. -/
def finish (place : Place ν) (steps : List (Step ν)) : Place ν := steps.foldl advance place

/-- The places on the way, one for each step. -/
def visited : Place ν → List (Step ν) → List (Place ν)
  | _, [] => []
  | place, step :: rest => advance place step :: visited (advance place step) rest

/-- A last step advances from where the others finish. -/
@[simp] theorem finish_concat (place : Place ν) (steps : List (Step ν)) (step : Step ν) :
    finish place (steps ++ [step]) = advance (finish place steps) step := by
  simp [finish]

/-- The places of a route are those of its front, and those of the rest from there. -/
theorem visited_append (place : Place ν) (steps more : List (Step ν)) :
    visited place (steps ++ more) = visited place steps ++ visited (finish place steps) more := by
  induction steps generalizing place with
  | nil => rfl
  | cons step rest inductionHypothesis =>
    rw [List.cons_append, visited, visited, inductionHypothesis]
    rfl

/-- A last step visits one place more. -/
@[simp] theorem visited_concat (place : Place ν) (steps : List (Step ν)) (step : Step ν) :
    visited place (steps ++ [step]) =
      visited place steps ++ [advance (finish place steps) step] :=
  visited_append place steps [step]

/-- The places along the first steps. -/
theorem visited_front (place other : Place ν) {steps whole : List (Step ν)}
    (front : steps <+: whole) (member : other ∈ visited place steps) :
    other ∈ visited place whole := by
  obtain ⟨more, rfl⟩ := front
  rw [visited_append]
  exact List.mem_append_left _ member

/-- The end of the way is the last place on it, or the place where it starts. -/
theorem finish_visited (place : Place ν) (steps : List (Step ν)) :
    (steps = [] ∧ finish place steps = place) ∨ finish place steps ∈ visited place steps := by
  induction steps using List.reverseRecOn with
  | nil => exact .inl ⟨rfl, rfl⟩
  | append_singleton steps step _ =>
    rw [finish_concat, visited_concat]
    exact .inr (List.mem_append_right _ (List.mem_singleton_self _))

/-- A place on the way is the last one, or in front of it. -/
theorem visited_last (place other : Place ν) {steps : List (Step ν)}
    (member : other ∈ visited place steps) :
    other ∈ visited place steps.dropLast ∨ other = finish place steps := by
  cases steps using List.reverseRecOn with
  | nil => cases member
  | append_singleton front last =>
    rw [visited_concat, List.mem_append, List.mem_singleton] at member
    rwa [List.dropLast_concat, finish_concat]

namespace Volume

/-- There is a directory at the place. -/
def IsDirectory (v : Volume ν) (place : Place ν) : Prop :=
  ∃ mode, v.node place = some (.directory mode)

theorem IsDirectory.ne_none {v : Volume ν} {place : Place ν} (inside : v.IsDirectory place) :
    v.node place ≠ none := by
  obtain ⟨mode, found⟩ := inside
  rw [found]
  exact nofun

/-- A step from a directory to a directory. -/
def walk (v : Volume ν) : Place ν → List (Step ν) → Except Int (Place ν)
  | place, [] => .ok place
  | place, step :: rest =>
    match v.node (advance place step) with
    | none => .error ENOENT
    | some .file => .error ENOTDIR
    | some (.directory _) => v.walk (advance place step) rest

/-- A walk that is not successful has come to a place that is missing or a file. -/
theorem walk_cases (v : Volume ν) (place : Place ν) (steps : List (Step ν)) :
    (v.walk place steps = .ok (finish place steps) ∧
        ∀ other ∈ visited place steps, v.IsDirectory other) ∨
      ∃ errno, v.walk place steps = .error errno ∧ errno ≠ EEXIST ∧
        ∃ other ∈ visited place steps, ¬ v.IsDirectory other := by
  induction steps generalizing place with
  | nil => exact .inl ⟨rfl, nofun⟩
  | cons step rest inductionHypothesis =>
    have here : advance place step ∈ visited place (step :: rest) := List.mem_cons_self
    unfold walk
    split
    next missing =>
      refine .inr ⟨_, rfl, by decide, _, here, ?_⟩
      rintro ⟨mode, found⟩
      cases missing.symm.trans found
    next file =>
      refine .inr ⟨_, rfl, by decide, _, here, ?_⟩
      rintro ⟨mode, found⟩
      cases file.symm.trans found
    next mode directory =>
      rcases inductionHypothesis (advance place step) with
        ⟨walked, all⟩ | ⟨errno, failed, other, place, member, stuck⟩
      · exact .inl ⟨walked, List.forall_mem_cons.mpr ⟨⟨mode, directory⟩, all⟩⟩
      · exact .inr ⟨errno, failed, other, place, List.mem_cons_of_mem _ member, stuck⟩

/-- A walk is successful along directories. -/
theorem walk_ok_iff (v : Volume ν) (place : Place ν) (steps : List (Step ν)) :
    v.walk place steps = .ok (finish place steps) ↔
      ∀ other ∈ visited place steps, v.IsDirectory other := by
  rcases v.walk_cases place steps with ⟨walked, all⟩ | ⟨errno, failed, _, other, member, stuck⟩
  · exact iff_of_true walked all
  · rw [failed]
    exact iff_of_false nofun fun all => stuck (all other member)

/-- A walk that succeeds ends in a directory, if it starts in one. -/
theorem walk_directory {v : Volume ν} {place last : Place ν} {steps : List (Step ν)}
    (start : v.IsDirectory place) (walked : v.walk place steps = .ok last) :
    v.IsDirectory last := by
  rcases v.walk_cases place steps with ⟨reached, all⟩ | ⟨errno, failed, _⟩
  · cases reached.symm.trans walked
    rcases finish_visited place steps with ⟨_, same⟩ | member
    · rwa [same]
    · exact all _ member
  · rw [failed] at walked
    cases walked

/-- The parent of a directory is one. -/
theorem IsDirectory.parent {v : Volume ν} {place : Place ν} (inside : v.IsDirectory place) :
    v.IsDirectory place.dropLast := by
  induction place using List.reverseRecOn with
  | nil => exact v.root
  | append_singleton directory name _ =>
    rw [List.dropLast_concat]
    exact v.closed directory name inside.ne_none

/-- Add a directory to one. -/
def add [DecidableEq ν] (v : Volume ν) (directory : Place ν) (inside : v.IsDirectory directory)
    (name : ν) (mode : Nat) : Volume ν where
  node := Function.update v.node (directory ++ [name]) (some (.directory mode))
  cwd := v.cwd
  root := by
    rw [Function.update_of_ne (by simp)]
    exact v.root
  working := by
    rw [Function.update_apply]
    split
    · exact ⟨mode, rfl⟩
    · exact v.working
  closed := by
    intro other entry found
    rw [Function.update_apply]
    split
    · exact ⟨mode, rfl⟩
    next =>
      by_cases same : other ++ [entry] = directory ++ [name]
      · rwa [(List.append_inj' same rfl).1]
      · rw [Function.update_of_ne same] at found
        exact v.closed other entry found

/-- Where a route starts. -/
def start (v : Volume ν) (absolute : Bool) : Place ν := if absolute then [] else v.cwd

/-- A route starts in a directory. -/
theorem start_directory (v : Volume ν) (absolute : Bool) : v.IsDirectory (v.start absolute) := by
  cases absolute with
  | true => exact v.root
  | false => exact v.working

end Volume

/-- Why an entry is not added. It is not that there is one. -/
abbrev Refusal := { errno : Int // errno ≠ EEXIST }

namespace Volume

variable [DecidableEq ν] (refuses : Place ν → Option Refusal)

/-- Add what the last step names to a directory. -/
def addLast (v : Volume ν) (directory : Place ν) (inside : v.IsDirectory directory) (mode : Nat) :
    Option (Step ν) → Except Int (Volume ν)
  | some (.enter name) =>
    match v.node (directory ++ [name]) with
    | some _ => .error EEXIST
    | none =>
      match refuses (directory ++ [name]) with
      | some errno => .error errno.1
      | none => .ok (v.add directory inside name mode)
  | _ => .error EEXIST

/-- Make the directory that a route leads to. -/
def mkdir (v : Volume ν) (route : Route ν) (mode : Nat) : Except Int (Volume ν) :=
  match walked : v.walk (v.start route.absolute) route.steps.dropLast with
  | .error errno => .error errno
  | .ok directory =>
    v.addLast refuses directory (walk_directory (v.start_directory _) walked) mode
      route.steps.getLast?

/-- The outcome of making a directory: an error on the way, an entry that exists, a
refusal, or a new entry. -/
inductive Outcome (v : Volume ν) (route : Route ν) (mode : Nat) : Except Int (Volume ν) → Prop
  | blocked {errno : Int} {place : Place ν} : errno ≠ EEXIST →
    place ∈ visited (v.start route.absolute) route.steps.dropLast → ¬ v.IsDirectory place →
    Outcome v route mode (.error errno)
  | present : (∀ place ∈ visited (v.start route.absolute) route.steps.dropLast,
      v.IsDirectory place) → v.node (finish (v.start route.absolute) route.steps) ≠ none →
    Outcome v route mode (.error EEXIST)
  | refused {errno : Refusal} :
    v.node (finish (v.start route.absolute) route.steps) = none →
    refuses (finish (v.start route.absolute) route.steps) = some errno →
    Outcome v route mode (.error errno.1)
  | added {after : Volume ν} :
    (∀ place ∈ visited (v.start route.absolute) route.steps.dropLast, v.IsDirectory place) →
    v.node (finish (v.start route.absolute) route.steps) = none →
    refuses (finish (v.start route.absolute) route.steps) = none → after.cwd = v.cwd →
    after.node = Function.update v.node (finish (v.start route.absolute) route.steps)
      (some (.directory mode)) →
    Outcome v route mode (.ok after)

/-- What comes of the last step, when a directory was reached in front of it. -/
theorem addLast_outcome (v : Volume ν) (route : Route ν) (mode : Nat) {directory : Place ν}
    (inside : v.IsDirectory directory)
    (reached : directory = finish (v.start route.absolute) route.steps.dropLast)
    (all : ∀ place ∈ visited (v.start route.absolute) route.steps.dropLast,
      v.IsDirectory place) :
    Outcome refuses v route mode
      (v.addLast refuses directory inside mode route.steps.getLast?) := by
  obtain ⟨absolute, steps⟩ := route
  cases steps using List.reverseRecOn with
  | nil => exact .present all (v.start_directory absolute).ne_none
  | append_singleton front last =>
    have ending := finish_concat (v.start absolute) front last
    dsimp only at reached ⊢
    rw [List.dropLast_concat] at reached
    rw [List.getLast?_concat]
    rw [← reached] at ending
    cases last with
    | here =>
      refine .present all ?_
      dsimp only
      rw [ending]
      exact inside.ne_none
    | up =>
      refine .present all ?_
      dsimp only
      rw [ending]
      exact inside.parent.ne_none
    | enter name =>
      rw [advance] at ending
      unfold addLast
      dsimp only
      split
      next node found =>
        refine .present all ?_
        dsimp only
        rw [ending, found]
        exact nofun
      next missing =>
        rw [← ending] at missing ⊢
        split
        next errno refused => exact .refused missing refused
        next allowed =>
          refine .added all missing allowed rfl ?_
          dsimp only
          rw [ending]
          rfl

/-- What comes of making one directory. -/
theorem mkdir_outcome (v : Volume ν) (route : Route ν) (mode : Nat) :
    Outcome refuses v route mode (v.mkdir refuses route mode) := by
  have way := v.walk_cases (v.start route.absolute) route.steps.dropLast
  unfold mkdir
  split
  next errno failed =>
    rw [failed] at way
    obtain ⟨walked, _⟩ | ⟨_, same, other, place, member, stuck⟩ := way
    · cases walked
    · cases same
      exact .blocked other member stuck
  next directory reached =>
    rw [reached] at way
    obtain ⟨walked, all⟩ | ⟨_, failed, _⟩ := way
    · cases walked
      exact v.addLast_outcome refuses route mode _ rfl all
    · cases failed

end Volume

section

variable {before v after : Volume ν} {mode : Nat} {along : List (Place ν)}

/-- What has come to a volume are directories with one mode, at some of the places. -/
structure Grown (before : Volume ν) (mode : Nat) (along : List (Place ν)) (after : Volume ν) :
    Prop where
  cwd : after.cwd = before.cwd
  node : ∀ place, after.node place = before.node place ∨
    before.node place = none ∧ place ∈ along ∧ after.node place = some (.directory mode)

theorem Grown.refl (before : Volume ν) (mode : Nat) (along : List (Place ν)) :
    Grown before mode along before := ⟨rfl, fun _ => .inl rfl⟩

theorem Grown.start (grown : Grown before mode along after) (absolute : Bool) :
    after.start absolute = before.start absolute := by
  rw [Volume.start, Volume.start, grown.cwd]

/-- More places may be allowed. -/
theorem Grown.more (grown : Grown before mode along after) {others : List (Place ν)}
    (within : ∀ place ∈ along, place ∈ others) : Grown before mode others after := by
  refine ⟨grown.cwd, fun place => ?_⟩
  obtain same | ⟨missing, member, found⟩ := grown.node place
  · exact .inl same
  · exact .inr ⟨missing, within place member, found⟩

/-- A file stays one. -/
theorem Grown.file (grown : Grown before mode along after) {place : Place ν}
    (file : before.node place = some .file) : after.node place = some .file := by
  obtain same | ⟨missing, _⟩ := grown.node place
  · exact same.trans file
  · cases file.symm.trans missing

/-- What is missing was missing before. -/
theorem Grown.missing (grown : Grown before mode along after) {place : Place ν}
    (missing : after.node place = none) : before.node place = none := by
  obtain same | ⟨absent, _⟩ := grown.node place
  · exact same.symm.trans missing
  · exact absent

/-- What is there is a directory, unless it was a file before. -/
theorem Grown.directory (grown : Grown before mode along after) {place : Place ν}
    (present : after.node place ≠ none) (unlike : before.node place ≠ some .file) :
    after.IsDirectory place := by
  obtain same | ⟨_, _, found⟩ := grown.node place
  · rw [same] at present
    cases found : before.node place with
    | none => exact absurd found present
    | some node =>
      cases node with
      | file => exact absurd found unlike
      | directory mode => exact ⟨mode, same.trans found⟩
  · exact ⟨mode, found⟩

/-- One more step, or none. -/
inductive Longer (steps : List (Step ν)) : List (Step ν) → Prop
  | same : Longer steps steps
  | step (last : Step ν) : Longer steps (steps ++ [last])

/-- There is one new place, and it is the last. -/
theorem Longer.visited_cases {steps next : List (Step ν)} (longer : Longer steps next)
    (place other : Place ν) (member : other ∈ visited place next) :
    other ∈ visited place steps ∨ other = finish place next := by
  cases longer with
  | same => exact .inl member
  | step last =>
    rw [visited_concat, List.mem_append, List.mem_singleton] at member
    rwa [finish_concat]

/-- No place is left out by one more step. -/
theorem Longer.within {steps next : List (Step ν)} (longer : Longer steps next)
    (place other : Place ν) (member : other ∈ visited place steps) :
    other ∈ visited place next := by
  cases longer with
  | same => exact member
  | step last => exact visited_front place other (List.prefix_append _ _) member

/-- In front of the last step only the places of the others are visited. -/
theorem Longer.front {steps next : List (Step ν)} (longer : Longer steps next)
    (place other : Place ν) (member : other ∈ visited place next.dropLast) :
    other ∈ visited place steps := by
  cases longer with
  | same => exact visited_front place other (List.dropLast_prefix _) member
  | step last => rwa [List.dropLast_concat] at member

variable (refuses : Place ν → Option Refusal)

/-- There is a file in front of the last place, or what is missing is refused. -/
def Blocked (before : Volume ν) (absolute : Bool) (steps : List (Step ν)) : Prop :=
  (∃ place ∈ visited (before.start absolute) steps.dropLast, before.node place = some .file) ∨
    ∃ place ∈ visited (before.start absolute) steps,
      before.node place = none ∧ refuses place ≠ none

/-- Where the first steps are blocked, all are. -/
theorem Blocked.more {refuses : Place ν → Option Refusal} {absolute : Bool}
    {steps whole : List (Step ν)} (blocked : Blocked refuses before absolute steps)
    (front : steps <+: whole) : Blocked refuses before absolute whole := by
  rcases blocked with ⟨place, member, file⟩ | ⟨place, member, refused⟩
  · refine .inl ⟨place, visited_front _ place ?_ member, file⟩
    obtain ⟨more, rfl⟩ := front
    cases more using List.reverseRecOn with
    | nil => rw [List.append_nil]
    | append_singleton others last =>
      rw [← List.append_assoc, List.dropLast_concat]
      exact (List.dropLast_prefix steps).trans (List.prefix_append _ _)
  · exact .inr ⟨place, visited_front _ place front member, refused⟩

/-- All the places have been made, or were there. -/
structure Made (before : Volume ν) (mode : Nat) (absolute : Bool) (steps : List (Step ν))
    (after : Volume ν) : Prop where
  grown : Grown before mode (visited (before.start absolute) steps) after
  present : ∀ place ∈ visited (before.start absolute) steps, after.node place ≠ none
  free : ¬ Blocked refuses before absolute steps

variable {refuses} {absolute : Bool} {steps further : List (Step ν)}

/-- No step makes no directory. -/
theorem Made.nothing (before : Volume ν) (mode : Nat) (absolute : Bool) :
    Made refuses before mode absolute [] before :=
  ⟨.refl before mode _, nofun, by rintro (⟨_, member, _⟩ | ⟨_, member, _⟩) <;> cases member⟩

/-- A longer way is free when there are directories in front of its last place, and that
may be made. -/
theorem Made.still_free (made : Made refuses before mode absolute steps v)
    (longer : Longer steps further)
    (all : ∀ place ∈ visited (before.start absolute) further.dropLast, v.IsDirectory place)
    (allowed : before.node (finish (before.start absolute) further) = none →
      refuses (finish (before.start absolute) further) = none) :
    ¬ Blocked refuses before absolute further := by
  rintro (⟨place, member, file⟩ | ⟨place, member, missing, refused⟩)
  · obtain ⟨_, directory⟩ := all place member
    cases directory.symm.trans (made.grown.file file)
  · obtain earlier | rfl := longer.visited_cases _ place member
    · exact made.free (.inr ⟨place, earlier, missing, refused⟩)
    · exact refused (allowed missing)

/-- Where the next entry exists, the longer way is made. -/
theorem Made.kept (made : Made refuses before mode absolute steps v) (longer : Longer steps further)
    (all : ∀ place ∈ visited (before.start absolute) further.dropLast, v.IsDirectory place)
    (present : v.node (finish (before.start absolute) further) ≠ none) :
    Made refuses before mode absolute further v := by
  refine ⟨made.grown.more (longer.within _), fun place member => ?_,
    made.still_free longer all fun missing => ?_⟩
  · obtain earlier | rfl := longer.visited_cases _ place member
    · exact made.present place earlier
    · exact present
  · -- It is new, so it has been made on the way.
    obtain same | ⟨_, member, _⟩ := made.grown.node (finish (before.start absolute) further)
    · exact absurd (same.trans missing) present
    · by_contra refused
      exact made.free (.inr ⟨_, member, missing, refused⟩)

/-- What is missing is not where the way starts. -/
theorem Made.missing_visited (made : Made refuses before mode absolute steps v)
    (missing : v.node (finish (before.start absolute) further) = none) :
    finish (before.start absolute) further ∈ visited (before.start absolute) further := by
  obtain ⟨_, same⟩ | member := finish_visited (before.start absolute) further
  · rw [same] at missing
    exact absurd (made.grown.missing missing) (before.start_directory absolute).ne_none
  · exact member

variable [DecidableEq ν]

/-- So it is where the entry is added. -/
theorem Made.added (made : Made refuses before mode absolute steps v)
    (longer : Longer steps further)
    (all : ∀ place ∈ visited (before.start absolute) further.dropLast, v.IsDirectory place)
    (missing : v.node (finish (before.start absolute) further) = none)
    (allowed : refuses (finish (before.start absolute) further) = none) (cwd : after.cwd = v.cwd)
    (node : after.node = Function.update v.node (finish (before.start absolute) further)
      (some (.directory mode))) : Made refuses before mode absolute further after := by
  have last := made.missing_visited missing
  refine ⟨⟨cwd.trans made.grown.cwd, fun place => ?_⟩, fun place member => ?_,
    made.still_free longer all fun _ => allowed⟩
  · by_cases same : place = finish (before.start absolute) further
    · subst same
      rw [node, Function.update_self]
      exact .inr ⟨made.grown.missing missing, last, rfl⟩
    · rw [node, Function.update_of_ne same]
      obtain unchanged | ⟨absent, member, found⟩ := made.grown.node place
      · exact .inl unchanged
      · exact .inr ⟨absent, longer.within _ place member, found⟩
  · by_cases same : place = finish (before.start absolute) further
    · rw [same, node, Function.update_self]
      exact nofun
    · rw [node, Function.update_of_ne same]
      obtain earlier | last := longer.visited_cases _ place member
      · exact made.present place earlier
      · exact absurd last same

/-- The next directory: it is made or there, or the way is blocked. -/
theorem Made.next (made : Made refuses before mode absolute steps v)
    (longer : Longer steps further) :
    (∃ errno, v.mkdir refuses ⟨absolute, further⟩ mode = .error errno ∧ errno ≠ EEXIST ∧
        Blocked refuses before absolute further) ∨
      (v.mkdir refuses ⟨absolute, further⟩ mode = .error EEXIST ∧
        Made refuses before mode absolute further v) ∨
      ∃ after, v.mkdir refuses ⟨absolute, further⟩ mode = .ok after ∧
        Made refuses before mode absolute further after := by
  have outcome := v.mkdir_outcome refuses ⟨absolute, further⟩ mode
  generalize v.mkdir refuses ⟨absolute, further⟩ mode = result at outcome ⊢
  have start := made.grown.start absolute
  cases outcome with
  | blocked other member stuck =>
    rw [start] at member
    have present := made.present _ (longer.front _ _ member)
    have file : before.node _ = some .file :=
      by_contra fun unlike => stuck (made.grown.directory present unlike)
    exact .inl ⟨_, rfl, other, .inl ⟨_, member, file⟩⟩
  | present all found =>
    rw [start] at all found
    exact .inr (.inl ⟨rfl, made.kept longer all found⟩)
  | @refused errno missing refused =>
    rw [start] at missing refused
    refine .inl ⟨_, rfl, errno.2,
      .inr ⟨_, made.missing_visited missing, made.grown.missing missing, ?_⟩⟩
    rw [refused]
    exact nofun
  | @added after all missing allowed cwd node =>
    rw [start] at all missing allowed node
    exact .inr (.inr ⟨after, rfl, made.added longer all missing allowed cwd node⟩)

end

end Cppboot.Directories
