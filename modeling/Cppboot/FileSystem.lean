import Mathlib.Data.List.Dedup
import Mathlib.Data.List.Induction

/-!
# File systems with symbolic links

A file system is a tree of directories with files and symbolic links in it. A
place is given by the names that lead to it from the root through directories
alone. A path is a list of steps; walking it enters directories, goes up from them
and follows the links on the way, up to a bound on their number.

Opening a directory follows a link at the end of a path, and removing an entry
does not. Removing entries makes walks fail and never lead elsewhere: where a walk
still succeeds, it reaches what it reached before.

Names are of any type.
-/

namespace Cppboot.Files

variable {ν : Type} [DecidableEq ν]

/-- The names that lead from the root to an entry. -/
abbrev Place (ν : Type) := List ν

/-- Stay, go up, or enter what has a name. -/
inductive Step (ν : Type) where
  | here
  | up
  | enter (name : ν)
deriving DecidableEq, Repr

/-- Steps from the root or from a directory. -/
structure Route (ν : Type) where
  absolute : Bool
  steps : List (Step ν)
deriving DecidableEq, Repr

/-- Where a route starts. -/
def Route.start (route : Route ν) (directory : Place ν) : Place ν :=
  if route.absolute then [] else directory

/-- A route without text. -/
def Route.empty (route : Route ν) : Bool := !route.absolute && route.steps.isEmpty

/-- What an entry is. A link has the route that it leads along. -/
inductive Kind (ν : Type) where
  | file
  | directory
  | link (target : Route ν)
deriving DecidableEq, Repr

/-- The errors of the operations below. -/
inductive Errno where
  | ENOENT
  | ENOTDIR
  | ELOOP
  | EINVAL
  | ENOTEMPTY
  | EBUSY
  | EACCES
deriving DecidableEq, Repr

/-- The entries of a file system. Where a place is listed twice, the first counts.
The root is a directory, and every other entry is in one. -/
structure FileSystem (ν : Type) [DecidableEq ν] where
  entries : List (Place ν × Kind ν)
  root : entries.lookup [] = some .directory
  closed : ∀ directory name kind, entries.lookup (directory ++ [name]) = some kind →
    entries.lookup directory = some .directory

/-- Where a walk ends, and how many links may still be followed. -/
structure Reached (ν : Type) where
  place : Place ν
  links : Nat

namespace FileSystem

/-- What is found is listed. -/
theorem mem_of_lookup {entries : List (Place ν × Kind ν)} {place : Place ν} {kind : Kind ν}
    (found : entries.lookup place = some kind) : (place, kind) ∈ entries := by
  obtain ⟨before, after, split, _⟩ := List.lookup_eq_some_iff.mp found
  rw [split]
  exact List.mem_append_right _ List.mem_cons_self

/-- Entries that each lie in a directory. -/
theorem closed_of_entries {entries : List (Place ν × Kind ν)}
    (all : ∀ entry ∈ entries, entry.1 ≠ [] →
      entries.lookup entry.1.dropLast = some .directory)
    (directory : Place ν) (name : ν) (kind : Kind ν)
    (found : entries.lookup (directory ++ [name]) = some kind) :
    entries.lookup directory = some .directory := by
  simpa using all _ (mem_of_lookup found) (by simp)

/-- The entry at a place. -/
def find (fs : FileSystem ν) (place : Place ν) : Option (Kind ν) := fs.entries.lookup place

/-- The names in a directory, in the order in which they are read. -/
def names (fs : FileSystem ν) (directory : Place ν) : List ν :=
  (fs.entries.filterMap fun entry =>
    if entry.1.dropLast = directory then entry.1.getLast? else none).dedup

/-- Walk along steps, and hand over to someone else at the first link. -/
def walkWith (fs : FileSystem ν)
    (onLink : Place ν → List (Step ν) → Except Errno (Reached ν)) (links : Nat) :
    Place ν → List (Step ν) → Except Errno (Reached ν)
  | place, [] => .ok ⟨place, links⟩
  | place, .here :: rest => fs.walkWith onLink links place rest
  | place, .up :: rest => fs.walkWith onLink links place.dropLast rest
  | place, .enter name :: rest =>
    match fs.find (place ++ [name]) with
    | none => .error .ENOENT
    | some .directory => fs.walkWith onLink links (place ++ [name]) rest
    | some .file => if rest.isEmpty then .ok ⟨place ++ [name], links⟩ else .error .ENOTDIR
    | some (.link target) =>
      if target.empty then .error .ENOENT
      else onLink (target.start place) (target.steps ++ rest)

/-- Walk along steps, and follow no more than so many links. -/
def walk (fs : FileSystem ν) : Nat → Place ν → List (Step ν) → Except Errno (Reached ν)
  | 0 => fs.walkWith (fun _ _ => .error .ELOOP) 0
  | links + 1 => fs.walkWith (fs.walk links) (links + 1)

/-- The walks that succeed. -/
inductive Leads (fs : FileSystem ν) : Nat → Place ν → List (Step ν) → Reached ν → Prop
  | done (links : Nat) (place : Place ν) : Leads fs links place [] ⟨place, links⟩
  | here {links : Nat} {place : Place ν} {rest : List (Step ν)} {reached : Reached ν} :
    Leads fs links place rest reached → Leads fs links place (.here :: rest) reached
  | up {links : Nat} {place : Place ν} {rest : List (Step ν)} {reached : Reached ν} :
    Leads fs links place.dropLast rest reached → Leads fs links place (.up :: rest) reached
  | directory {links : Nat} {place : Place ν} {name : ν} {rest : List (Step ν)}
    {reached : Reached ν} : fs.find (place ++ [name]) = some .directory →
    Leads fs links (place ++ [name]) rest reached →
    Leads fs links place (.enter name :: rest) reached
  | file {links : Nat} {place : Place ν} {name : ν} : fs.find (place ++ [name]) = some .file →
    Leads fs links place [.enter name] ⟨place ++ [name], links⟩
  | link {links : Nat} {place : Place ν} {name : ν} {target : Route ν} {rest : List (Step ν)}
    {reached : Reached ν} : fs.find (place ++ [name]) = some (.link target) →
    target.empty = false → Leads fs links (target.start place) (target.steps ++ rest) reached →
    Leads fs (links + 1) place (.enter name :: rest) reached

/-- Without a step a walk stays where it is. -/
theorem walk_nil (fs : FileSystem ν) (links : Nat) (place : Place ν) :
    fs.walk links place [] = .ok ⟨place, links⟩ := by
  cases links <;> rfl

theorem walk_here (fs : FileSystem ν) (links : Nat) (place : Place ν) (rest : List (Step ν)) :
    fs.walk links place (.here :: rest) = fs.walk links place rest := by
  cases links <;> rfl

/-- A step up leaves the directory. The root is above itself. -/
theorem walk_up (fs : FileSystem ν) (links : Nat) (place : Place ν) (rest : List (Step ν)) :
    fs.walk links place (.up :: rest) = fs.walk links place.dropLast rest := by
  cases links <;> rfl

/-- One step into an entry. -/
theorem walk_enter (fs : FileSystem ν) (links : Nat) (place : Place ν) (name : ν)
    (rest : List (Step ν)) :
    fs.walk links place (.enter name :: rest) =
      match fs.find (place ++ [name]) with
      | none => .error .ENOENT
      | some .directory => fs.walk links (place ++ [name]) rest
      | some .file => if rest.isEmpty then .ok ⟨place ++ [name], links⟩ else .error .ENOTDIR
      | some (.link target) =>
        if target.empty then .error .ENOENT
        else match links with
          | 0 => .error .ELOOP
          | links + 1 => fs.walk links (target.start place) (target.steps ++ rest) := by
  cases links <;> rfl

/-- A walk that leads somewhere succeeds. -/
theorem Leads.walk_ok {fs : FileSystem ν} {links : Nat} {place : Place ν}
    {steps : List (Step ν)} {reached : Reached ν} (leads : fs.Leads links place steps reached) :
    fs.walk links place steps = .ok reached := by
  induction leads with
  | done => exact fs.walk_nil _ _
  | here _ inductionHypothesis => rw [walk_here, inductionHypothesis]
  | up _ inductionHypothesis => rw [walk_up, inductionHypothesis]
  | directory found _ inductionHypothesis => rw [walk_enter, found, inductionHypothesis]
  | file found =>
    rw [walk_enter, found]
    rfl
  | link found spelled _ inductionHypothesis =>
    rw [walk_enter, found]
    simp [spelled, inductionHypothesis]

/-- A walk that succeeds leads where it ends. -/
theorem leads_of_walk {fs : FileSystem ν} {links : Nat} {place : Place ν}
    {steps : List (Step ν)} {reached : Reached ν}
    (walked : fs.walk links place steps = .ok reached) :
    fs.Leads links place steps reached := by
  -- Each link uses one up, and between two links the steps get fewer.
  induction links using Nat.strongRecOn generalizing place steps with
  | _ links linkHypothesis =>
    induction steps generalizing place with
    | nil =>
      rw [walk_nil] at walked
      cases walked
      exact .done _ _
    | cons step rest restHypothesis =>
      cases step with
      | here => exact .here (restHypothesis (by rwa [walk_here] at walked))
      | up => exact .up (restHypothesis (by rwa [walk_up] at walked))
      | enter name =>
        rw [walk_enter] at walked
        cases found : fs.find (place ++ [name]) with
        | none =>
          rw [found] at walked
          cases walked
        | some kind =>
          rw [found] at walked
          cases kind with
          | file =>
            cases rest with
            | nil =>
              cases walked
              exact .file found
            | cons => cases walked
          | directory => exact .directory found (restHypothesis walked)
          | link target =>
            cases spelled : target.empty with
            | true => simp [spelled] at walked
            | false =>
              cases links with
              | zero => simp [spelled] at walked
              | succ links =>
                have later : fs.walk links (target.start place) (target.steps ++ rest) =
                    .ok reached := by simpa [spelled] using walked
                exact .link found spelled (linkHypothesis links (Nat.lt_succ_self _) later)

/-- Walks compose. -/
theorem Leads.split {fs : FileSystem ν} {links : Nat} {place : Place ν}
    {first second : List (Step ν)} {reached : Reached ν}
    (leads : fs.Leads links place (first ++ second) reached) :
    ∃ between, fs.Leads links place first between ∧
      fs.Leads between.links between.place second reached := by
  generalize whole : first ++ second = steps at leads
  induction leads generalizing first with
  | done links place =>
    obtain ⟨rfl, rfl⟩ := List.append_eq_nil_iff.mp whole
    exact ⟨_, .done _ _, .done _ _⟩
  | @here links place rest reached later inductionHypothesis =>
    obtain ⟨rfl, rfl⟩ | ⟨more, rfl, rest_split⟩ := List.append_eq_cons_iff.mp whole
    · exact ⟨_, .done _ _, .here later⟩
    · obtain ⟨between, front, back⟩ := inductionHypothesis rest_split.symm
      exact ⟨between, .here front, back⟩
  | @up links place rest reached later inductionHypothesis =>
    obtain ⟨rfl, rfl⟩ | ⟨more, rfl, rest_split⟩ := List.append_eq_cons_iff.mp whole
    · exact ⟨_, .done _ _, .up later⟩
    · obtain ⟨between, front, back⟩ := inductionHypothesis rest_split.symm
      exact ⟨between, .up front, back⟩
  | @directory links place name rest reached found later inductionHypothesis =>
    obtain ⟨rfl, rfl⟩ | ⟨more, rfl, rest_split⟩ := List.append_eq_cons_iff.mp whole
    · exact ⟨_, .done _ _, .directory found later⟩
    · obtain ⟨between, front, back⟩ := inductionHypothesis rest_split.symm
      exact ⟨between, .directory found front, back⟩
  | @file links place name found =>
    obtain ⟨rfl, rfl⟩ | ⟨more, rfl, rest_split⟩ := List.append_eq_cons_iff.mp whole
    · exact ⟨_, .done _ _, .file found⟩
    · obtain ⟨rfl, rfl⟩ := List.append_eq_nil_iff.mp rest_split.symm
      exact ⟨_, .file found, .done _ _⟩
  | @link links place name target rest reached found spelled later inductionHypothesis =>
    obtain ⟨rfl, rfl⟩ | ⟨more, rfl, rest_split⟩ := List.append_eq_cons_iff.mp whole
    · exact ⟨_, .done _ _, .link found spelled later⟩
    · have rewalked : (target.steps ++ more) ++ second = target.steps ++ rest := by
        rw [List.append_assoc, rest_split]
      obtain ⟨between, front, back⟩ := inductionHypothesis rewalked
      exact ⟨between, .link found spelled front, back⟩

/-- What a walk needs is there, with room for more links. -/
theorem Leads.more {fs : FileSystem ν} {links : Nat} {place : Place ν} {steps : List (Step ν)}
    {reached : Reached ν} (leads : fs.Leads links place steps reached) (extra : Nat) :
    fs.Leads (links + extra) place steps ⟨reached.place, reached.links + extra⟩ := by
  induction leads with
  | done links place => exact .done _ _
  | here _ inductionHypothesis => exact .here inductionHypothesis
  | up _ inductionHypothesis => exact .up inductionHypothesis
  | directory found _ inductionHypothesis => exact .directory found inductionHypothesis
  | file found => exact .file found
  | link found spelled _ inductionHypothesis =>
    rw [Nat.add_right_comm]
    exact .link found spelled inductionHypothesis

/-- Links are used up. -/
theorem Leads.fewer {fs : FileSystem ν} {links : Nat} {place : Place ν} {steps : List (Step ν)}
    {reached : Reached ν} (leads : fs.Leads links place steps reached) :
    reached.links ≤ links := by
  induction leads with
  | done => exact Nat.le_refl _
  | here _ inductionHypothesis => exact inductionHypothesis
  | up _ inductionHypothesis => exact inductionHypothesis
  | directory _ _ inductionHypothesis => exact inductionHypothesis
  | file => exact Nat.le_refl _
  | link _ _ _ inductionHypothesis => exact Nat.le_succ_of_le inductionHypothesis

/-- The entries of one file system are entries of the other. -/
def Within (small large : FileSystem ν) : Prop :=
  ∀ place kind, small.find place = some kind → large.find place = some kind

theorem Within.refl (fs : FileSystem ν) : fs.Within fs := fun _ _ found => found

theorem Within.trans {small middle large : FileSystem ν} (first : small.Within middle)
    (second : middle.Within large) : small.Within large :=
  fun place kind found => second place kind (first place kind found)

/-- More entries do not change where a walk leads. -/
theorem Leads.within {small large : FileSystem ν} (within : small.Within large) {links : Nat}
    {place : Place ν} {steps : List (Step ν)} {reached : Reached ν}
    (leads : small.Leads links place steps reached) :
    large.Leads links place steps reached := by
  induction leads with
  | done links place => exact .done _ _
  | here _ inductionHypothesis => exact .here inductionHypothesis
  | up _ inductionHypothesis => exact .up inductionHypothesis
  | directory found _ inductionHypothesis =>
    exact .directory (within _ _ found) inductionHypothesis
  | file found => exact .file (within _ _ found)
  | link found spelled _ inductionHypothesis =>
    exact .link (within _ _ found) spelled inductionHypothesis

/-- A walk leads to one place. -/
theorem Leads.unique {fs : FileSystem ν} {links : Nat} {place : Place ν} {steps : List (Step ν)}
    {one other : Reached ν} (first : fs.Leads links place steps one)
    (second : fs.Leads links place steps other) : one = other :=
  Except.ok.inj (first.walk_ok.symm.trans second.walk_ok)

/-- One step into an entry: it is reached, or it is a link, and then one link less is
left for what it leads to. -/
theorem Leads.entered {fs : FileSystem ν} {links : Nat} {place : Place ν} {name : ν}
    {reached : Reached ν} (leads : fs.Leads links place [.enter name] reached) :
    (reached = ⟨place ++ [name], links⟩ ∧ ∃ kind, fs.find (place ++ [name]) = some kind) ∨
      ((∃ target, fs.find (place ++ [name]) = some (.link target)) ∧ reached.links < links) := by
  cases leads with
  | directory found later =>
    cases later
    exact .inl ⟨rfl, _, found⟩
  | file found => exact .inl ⟨rfl, _, found⟩
  | link found _ later => exact .inr ⟨⟨_, found⟩, Nat.lt_succ_of_le later.fewer⟩

/-- A place below the root can be walked to, and further. -/
theorem Leads.fromRoot {fs : FileSystem ν} {links : Nat} {directory : Place ν}
    (present : fs.find directory = some .directory) {steps : List (Step ν)} {reached : Reached ν}
    (leads : fs.Leads links directory steps reached) :
    fs.Leads links [] (directory.map .enter ++ steps) reached := by
  induction directory using List.reverseRecOn generalizing steps with
  | nil => exact leads
  | append_singleton parent name inductionHypothesis =>
    rw [List.map_append, List.append_assoc]
    exact inductionHypothesis (fs.closed _ _ _ present) (.directory present leads)

/-- The names in a directory are those of its entries. -/
theorem mem_names_iff (fs : FileSystem ν) (directory : Place ν) (name : ν) :
    name ∈ fs.names directory ↔ ∃ kind, fs.find (directory ++ [name]) = some kind := by
  have ends (place : Place ν) : (if place.dropLast = directory then place.getLast? else none) =
      some name ↔ directory ++ [name] = place := by
    constructor
    · intro last
      split at last
      next same =>
        obtain ⟨front, rfl⟩ := List.getLast?_eq_some_iff.mp last
        rw [List.dropLast_concat] at same
        rw [same]
      next => cases last
    · rintro rfl
      simp
  rw [names, List.mem_dedup, List.mem_filterMap, ← Option.isSome_iff_exists, find,
    List.lookup_isSome_iff]
  simp only [ends, beq_iff_eq]

/-- The entries without those at one place. -/
theorem lookup_filter_ne (entries : List (Place ν × Kind ν)) (place other : Place ν) :
    (entries.filter fun entry => entry.1 ≠ place).lookup other =
      if other = place then none else entries.lookup other := by
  induction entries with
  | nil => simp
  | cons entry rest inductionHypothesis =>
    by_cases erased : entry.1 = place
    · rw [List.filter_cons_of_neg (by simpa using erased), inductionHypothesis]
      split
      next => rfl
      next apart =>
        have differs : (other == entry.1) = false := by
          rw [beq_eq_false_iff_ne, erased]
          exact apart
        rw [List.lookup_cons, differs]
    · rw [List.filter_cons_of_pos (by simpa using erased), List.lookup_cons, List.lookup_cons,
        inductionHypothesis]
      by_cases same : other = entry.1
      · subst same
        simp [erased]
      · have differs : (other == entry.1) = false := beq_eq_false_iff_ne.mpr same
        rw [differs]

/-- The file system without an entry that nothing is in. -/
def erase (fs : FileSystem ν) (directory : Place ν) (name : ν)
    (childless : fs.names (directory ++ [name]) = []) : FileSystem ν where
  entries := fs.entries.filter fun entry => entry.1 ≠ directory ++ [name]
  root := by
    rw [lookup_filter_ne, if_neg (by simp)]
    exact fs.root
  closed := by
    intro parent child kind found
    rw [lookup_filter_ne] at found ⊢
    split at found
    · cases found
    next =>
      rw [if_neg]
      · exact fs.closed _ _ _ found
      · rintro rfl
        have member := (fs.mem_names_iff (directory ++ [name]) child).mpr ⟨kind, found⟩
        rw [childless] at member
        cases member

/-- Only the erased entry is not found any more. -/
theorem find_erase (fs : FileSystem ν) (directory : Place ν) (name : ν)
    (childless : fs.names (directory ++ [name]) = []) (place : Place ν) :
    (fs.erase directory name childless).find place =
      if place = directory ++ [name] then none else fs.find place :=
  lookup_filter_ne _ _ _

/-- Erasing adds nothing. -/
theorem erase_within (fs : FileSystem ν) (directory : Place ν) (name : ν)
    (childless : fs.names (directory ++ [name]) = []) :
    (fs.erase directory name childless).Within fs := by
  intro place kind found
  rw [find_erase] at found
  split at found
  · cases found
  next => exact found

end FileSystem

/-- A route as it is written: a slash may stand behind it. -/
structure Path (ν : Type) where
  route : Route ν
  slash : Bool

/-- What a process may be denied. -/
inductive Access where
  | list
  | remove
deriving DecidableEq, Repr

/-- What a process runs under: the directory that its routes start from, how many
links a walk may follow, and what it is not permitted to do. -/
structure Host (ν : Type) where
  cwd : Place ν
  maxLinks : Nat
  denies : Access → Place ν → Bool

namespace FileSystem

/-- There is something in the directory, and it may be listed. -/
def Listable (fs : FileSystem ν) (host : Host ν) (directory : Place ν) : Prop :=
  fs.names directory ≠ [] ∧ host.denies .list directory = false

/-- Open the directory that a path leads to. -/
def opendir (fs : FileSystem ν) (host : Host ν) (path : Path ν) : Except Errno (Place ν) :=
  if path.route.empty then .error .ENOENT
  else match fs.walk host.maxLinks (path.route.start host.cwd) path.route.steps with
    | .error errno => .error errno
    | .ok reached =>
      match fs.find reached.place with
      | some .directory =>
        if host.denies .list reached.place then .error .EACCES else .ok reached.place
      | some _ => .error .ENOTDIR
      | none => .error .ENOENT

/-- The directory that a path leads into, and the name it has behind that. -/
def locate (fs : FileSystem ν) (host : Host ν) (path : Path ν) : Except Errno (Place ν × ν) :=
  if path.route.empty then .error .ENOENT
  else match path.route.steps.getLast? with
    | none => .error .EBUSY
    | some last =>
      match fs.walk host.maxLinks (path.route.start host.cwd) path.route.steps.dropLast with
      | .error errno => .error errno
      | .ok reached =>
        match fs.find reached.place with
        | some .file => .error .ENOTDIR
        | some (.link _) => .error .ENOTDIR
        | _ =>
          match last with
          | .here => .error .EINVAL
          | .up => .error .ENOTEMPTY
          | .enter name => .ok (reached.place, name)

/-- Remove a file, a link or an empty directory. -/
def remove (fs : FileSystem ν) (host : Host ν) (path : Path ν) :
    Except Errno (FileSystem ν) :=
  match fs.locate host path with
  | .error errno => .error errno
  | .ok (directory, name) =>
    match fs.find (directory ++ [name]) with
    | none => .error .ENOENT
    | some kind =>
      if path.slash = true ∧ kind ≠ .directory then .error .ENOTDIR
      else if host.denies .remove (directory ++ [name]) then .error .EACCES
      else if childless : fs.names (directory ++ [name]) = [] then
        .ok (fs.erase directory name childless)
      else .error .ENOTEMPTY

/-- The entry that a path refers to, without following a link at its end. -/
inductive Refers (fs : FileSystem ν) (host : Host ν) (path : Path ν) : Place ν → Prop
  | entry {front : List (Step ν)} {name : ν} {directory : Place ν} {left : Nat} :
    path.route.steps = front ++ [.enter name] →
    fs.Leads host.maxLinks (path.route.start host.cwd) front ⟨directory, left⟩ →
    Refers fs host path (directory ++ [name])
  | directory {place : Place ν} {left : Nat} : path.route.empty = false →
    (∀ front name, path.route.steps ≠ front ++ [.enter name]) →
    fs.Leads host.maxLinks (path.route.start host.cwd) path.route.steps ⟨place, left⟩ →
    Refers fs host path place

/-- There is an entry that the path refers to. -/
def Exists (fs : FileSystem ν) (host : Host ν) (path : Path ν) : Prop :=
  ∃ place kind, fs.Refers host path place ∧ fs.find place = some kind

/-- What is opened is where the path leads, and may be listed. -/
theorem opendir_ok {fs : FileSystem ν} {host : Host ν} {path : Path ν} {place : Place ν}
    (opened : fs.opendir host path = .ok place) :
    path.route.empty = false ∧ host.denies .list place = false ∧ ∃ left,
      fs.Leads host.maxLinks (path.route.start host.cwd) path.route.steps ⟨place, left⟩ := by
  unfold opendir at opened
  split at opened
  · cases opened
  next spelled =>
    split at opened
    · cases opened
    next reached walked =>
      split at opened
      next =>
        split at opened
        · cases opened
        next permitted =>
          cases opened
          exact ⟨Bool.eq_false_iff.mpr spelled, Bool.eq_false_iff.mpr permitted, _,
            leads_of_walk walked⟩
      · cases opened
      · cases opened

/-- What is located is a name in the directory that the steps in front of it lead to. -/
theorem locate_ok {fs : FileSystem ν} {host : Host ν} {path : Path ν} {directory : Place ν}
    {name : ν} (located : fs.locate host path = .ok (directory, name)) :
    ∃ front left, path.route.steps = front ++ [.enter name] ∧
      fs.Leads host.maxLinks (path.route.start host.cwd) front ⟨directory, left⟩ := by
  unfold locate at located
  split at located
  · cases located
  next =>
    split at located
    · cases located
    next last ends =>
      split at located
      · cases located
      next reached walked =>
        split at located
        · cases located
        · cases located
        · cases last with
          | here => cases located
          | up => cases located
          | enter last =>
            cases located
            obtain ⟨front, split⟩ := List.getLast?_eq_some_iff.mp ends
            rw [split, List.dropLast_concat] at walked
            exact ⟨front, _, split, leads_of_walk walked⟩

/-- What is removed is what was located, and nothing is in it. -/
theorem remove_ok {fs after : FileSystem ν} {host : Host ν} {path : Path ν}
    (removed : fs.remove host path = .ok after) :
    ∃ directory name childless, fs.locate host path = .ok (directory, name) ∧
      after = fs.erase directory name childless := by
  unfold remove at removed
  split at removed
  · cases removed
  next directory name located =>
    split at removed
    · cases removed
    next =>
      split at removed
      · cases removed
      next =>
        split at removed
        · cases removed
        next =>
          split at removed
          next childless =>
            cases removed
            exact ⟨directory, name, childless, located, rfl⟩
          · cases removed

/-- A path refers to one entry. -/
theorem Refers.unique {fs : FileSystem ν} {host : Host ν} {path : Path ν} {one other : Place ν}
    (first : fs.Refers host path one) (second : fs.Refers host path other) : one = other := by
  cases first with
  | entry split leads =>
    cases second with
    | entry other_split other_leads =>
      obtain ⟨rfl, last⟩ := List.append_inj' (split.symm.trans other_split) rfl
      cases last
      cases leads.unique other_leads
      rfl
    | directory _ unnamed _ => exact absurd split (unnamed _ _)
  | directory _ unnamed leads =>
    cases second with
    | entry split _ => exact absurd split (unnamed _ _)
    | directory _ _ other_leads =>
      cases leads.unique other_leads
      rfl

/-- More entries do not change what a path refers to. -/
theorem Refers.within {small large : FileSystem ν} (within : small.Within large)
    {host : Host ν} {path : Path ν} {place : Place ν} (refers : small.Refers host path place) :
    large.Refers host path place := by
  cases refers with
  | entry split leads => exact .entry split (leads.within within)
  | directory spelled unnamed leads => exact .directory spelled unnamed (leads.within within)

/-- Whatever is removed is gone. -/
theorem not_exists_of_removed {fs after : FileSystem ν} {host : Host ν} {path : Path ν}
    (removed : fs.remove host path = .ok after) : ¬ after.Exists host path := by
  rintro ⟨place, kind, refers, found⟩
  obtain ⟨directory, name, childless, located, rfl⟩ := remove_ok removed
  obtain ⟨front, left, split, leads⟩ := locate_ok located
  have same : place = directory ++ [name] :=
    (refers.within (fs.erase_within _ _ childless)).unique (.entry split leads)
  rw [find_erase, if_pos same] at found
  cases found

/-- A name in a directory is located. -/
theorem locate_entry {fs : FileSystem ν} {host : Host ν} {path : Path ν}
    {front : List (Step ν)} {name : ν} {directory : Place ν} {left : Nat}
    (split : path.route.steps = front ++ [.enter name])
    (leads : fs.Leads host.maxLinks (path.route.start host.cwd) front ⟨directory, left⟩)
    (present : fs.find directory = some .directory) :
    fs.locate host path = .ok (directory, name) := by
  have spelled : path.route.empty = false := by simp [Route.empty, split]
  simp [locate, spelled, split, leads.walk_ok, present]

/-- A path to a directory that does not end in a name is refused, and not because
the directory were missing. -/
theorem locate_unnamed {fs : FileSystem ν} {host : Host ν} {path : Path ν} {reached : Reached ν}
    (spelled : path.route.empty = false)
    (unnamed : ∀ front name, path.route.steps ≠ front ++ [.enter name])
    (leads : fs.Leads host.maxLinks (path.route.start host.cwd) path.route.steps reached) :
    ∃ errno, fs.locate host path = .error errno ∧ errno ≠ .ENOENT := by
  cases ends : path.route.steps.getLast? with
  | none => exact ⟨.EBUSY, by simp [locate, spelled, ends], by decide⟩
  | some last =>
    obtain ⟨front, split⟩ := List.getLast?_eq_some_iff.mp ends
    rw [split] at leads
    obtain ⟨between, before, _⟩ := leads.split
    unfold locate
    rw [spelled, ends, split, List.dropLast_concat, before.walk_ok]
    simp only [Bool.false_eq_true, if_false]
    split
    · exact ⟨_, rfl, by decide⟩
    · exact ⟨_, rfl, by decide⟩
    · cases last with
      | here => exact ⟨_, rfl, by decide⟩
      | up => exact ⟨_, rfl, by decide⟩
      | enter name => exact absurd split (unnamed front name)

/-- What is not found for removing is not there. -/
theorem not_exists_of_missing {fs : FileSystem ν} {host : Host ν} {path : Path ν}
    (missing : fs.remove host path = .error .ENOENT) : ¬ fs.Exists host path := by
  rintro ⟨place, kind, refers, found⟩
  cases refers with
  | @entry front name directory left split leads =>
    unfold remove at missing
    rw [locate_entry split leads (fs.closed _ _ _ found)] at missing
    dsimp only at missing
    rw [found] at missing
    dsimp only at missing
    repeat' split at missing
    all_goals cases missing
  | @directory place left spelled unnamed leads =>
    obtain ⟨errno, refused, other⟩ := locate_unnamed spelled unnamed leads
    unfold remove at missing
    rw [refused] at missing
    exact other (Except.error.inj missing)

/-- There is a bound on how deep entries lie. -/
theorem exists_height (fs : FileSystem ν) :
    ∃ height, ∀ place kind, fs.find place = some kind → place.length ≤ height := by
  refine ⟨(fs.entries.map fun entry => entry.1.length).sum, fun place kind found => ?_⟩
  obtain ⟨before, after, split⟩ := List.append_of_mem (mem_of_lookup found)
  simp only [split, List.map_append, List.sum_append, List.map_cons, List.sum_cons]
  omega

end FileSystem

end Cppboot.Files
