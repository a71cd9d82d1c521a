import Cppboot.FileSystem
import Cppboot.Paths
import Cppboot.Status

/-!
# Removing a tree

`RemoveAll` lists the entries of a directory, removes each of them with what it
contains, and then the directory. Whether there is anything to list is found out
by opening a path as a directory, and that follows a symbolic link at its end. So
a link to a directory has the entries of that directory removed, wherever it is.

What is removed stays below the path exactly if the system refuses to remove what the
recursion lists elsewhere. A link is only opened once the entries listed in front of it
are removed, so the condition is one on the calls that are really made. It holds when
the links below the path lead there or to nothing that can be listed. Links among the
entries themselves make the recursion run in circles, up to the bound on the number of
links; it ends nevertheless.
-/

namespace Cppboot.Fs

open Files

/-- What an entry can be called. -/
def IsName (name : Bytes) : Prop :=
  name ≠ [] ∧ name ≠ text "." ∧ name ≠ text ".." ∧ byte '/' ∉ name ∧ 0 ∉ name

instance (name : Bytes) : Decidable (IsName name) :=
  inferInstanceAs (Decidable (_ ∧ _ ∧ _ ∧ _ ∧ _))

abbrev FileName := { name : Bytes // IsName name }

/-- The step that a segment of a path stands for. An empty one stands for none. -/
def stepOf (segment : Bytes) : Option (Step FileName) :=
  if segment = text "." then some .here
  else if segment = text ".." then some .up
  else if named : IsName segment then some (.enter ⟨segment, named⟩)
  else none

/-- The steps of a path, from its segments. -/
def stepsOf (s : Bytes) : List (Step FileName) :=
  (strSplitFrom (byte '/') [] s).filterMap stepOf

/-- The path that the system sees when it is given a string: a C string. -/
def pathOf (s : Bytes) : Path FileName :=
  ⟨⟨(cstr s).head? = some (byte '/'), stepsOf (cstr s)⟩, (cstr s).getLast? = some (byte '/')⟩

/-- What the system calls an error. -/
def strerror : Errno → Bytes
  | .ENOENT => text "No such file or directory"
  | .ENOTDIR => text "Not a directory"
  | .ELOOP => text "Too many levels of symbolic links"
  | .EINVAL => text "Invalid argument"
  | .ENOTEMPTY => text "Directory not empty"
  | .EBUSY => text "Device or resource busy"
  | .EACCES => text "Permission denied"

def errnoToStatusCode : Errno → StatusCode
  | .ENOENT => .kNotFound
  | .ENOTDIR => .kFailedPrecondition
  | .ELOOP => .kUnknown
  | .EINVAL => .kInvalidArgument
  | .ENOTEMPTY => .kFailedPrecondition
  | .EBUSY => .kFailedPrecondition
  | .EACCES => .kPermissionDenied

/-- A status that has the message and what the system calls the error. -/
def errnoToStatus (error_number : Errno) (message : Bytes) : Status :=
  .failed (errnoToStatusCode error_number) (message ++ text ": " ++ strerror error_number)

abbrev Disk := FileSystem FileName

/-- What `readdir` gives for a directory, one after the other. -/
def readdir (fs : Disk) (directory : Place FileName) : List Bytes :=
  text "." :: text ".." :: (fs.names directory).map Subtype.val

section

variable (host : Host FileName)

/-- The names in the directory that a path opens. Where it opens none, there are none. -/
def getDirectoryChildren (fs : Disk) (path : Bytes) : List Bytes :=
  match fs.opendir host (pathOf path) with
  | .ok directory => (readdir fs directory).filter fun name => name ≠ text "." ∧ name ≠ text ".."
  | .error _ => []

/-- Remove one entry. That there is none is no error. -/
def remove (path : Bytes) (fs : Disk) : Status × Disk :=
  match fs.remove host (pathOf path) with
  | .ok after => (.okStatus, after)
  | .error errno =>
    if errno ≠ .ENOENT then (errnoToStatus errno (text "failed to delete: " ++ path), fs)
    else (.okStatus, fs)

/-- Remove the children one after the other, up to the first failure. -/
def removeEach (removeChild : Bytes → Disk → Option (Status × Disk)) (path : Bytes) :
    List Bytes → Disk → Option (Status × Disk)
  | [], fs => some (.okStatus, fs)
  | i :: subpaths, fs =>
    match removeChild (pathJoin path i) fs with
    | none => none
    | some (st, after) =>
      if !st.ok then some (st, after) else removeEach removeChild path subpaths after

/-- The recursion, up to a depth. Beyond it there is no result. -/
def removeAll : Nat → Bytes → Disk → Option (Status × Disk)
  | 0, _, _ => none
  | depth + 1, path, fs =>
    match removeEach (removeAll depth) path (getDirectoryChildren host fs path) fs with
    | none => none
    | some (st, after) => if !st.ok then some (st, after) else some (remove host path after)

end

/-- The steps are those of the segments, because an empty text stands for none. -/
theorem stepsOf_eq (s : Bytes) : stepsOf s = (segments s).filterMap stepOf := by
  rw [stepsOf, segments, List.filterMap_filter]
  apply List.filterMap_congr
  intro segment _
  cases segment with
  | nil => rfl
  | cons c segment => rfl

/-- A slash separates the steps in front of it from those behind. -/
theorem stepsOf_append (front behind : Bytes) :
    stepsOf (front ++ byte '/' :: behind) = stepsOf front ++ stepsOf behind := by
  rw [stepsOf_eq, segments_append, List.filterMap_append, ← stepsOf_eq, ← stepsOf_eq]

/-- Slashes at the end are no steps. -/
theorem stepsOf_trimRight (s : Bytes) : stepsOf (strTrimRight s kPathSeparator) = stepsOf s := by
  rw [stepsOf_eq, segments_trimRight, ← stepsOf_eq]

/-- A name is one step. -/
theorem stepsOf_name (name : FileName) : stepsOf name.1 = [.enter name] := by
  obtain ⟨_, here, up, plain, _⟩ := name.2
  rw [stepsOf, strSplitFrom_plain plain, List.nil_append, List.filterMap_cons, stepOf,
    if_neg here, if_neg up, dif_pos name.2]
  rfl

/-- What is not a slash is not trimmed. -/
theorem dropWhile_separator {s : Bytes} (plain : byte '/' ∉ s) :
    s.dropWhile ((cutsetOf kPathSeparator).contains ·) = s := by
  cases s with
  | nil => rfl
  | cons c s =>
    rw [List.mem_cons, not_or] at plain
    apply List.dropWhile_cons_of_neg
    have cutset : cutsetOf kPathSeparator = [byte '/'] := rfl
    rw [cutset]
    simpa using Ne.symm plain.1

/-- Nothing is trimmed off a name. -/
theorem strTrim_name (name : FileName) : strTrim name.1 kPathSeparator = name.1 := by
  obtain ⟨nonempty, _, _, plain, _⟩ := name.2
  have reversed : byte '/' ∉ name.1.reverse := fun member => plain (List.mem_reverse.mp member)
  have left : strTrimLeft name.1 kPathSeparator = name.1 := by
    unfold strTrimLeft
    rw [dropWhile_separator plain]
    exact ite_self _
  rw [strTrim, left]
  unfold strTrimRight
  rw [dropWhile_separator reversed, List.reverse_reverse]
  exact ite_self _

/-- The path of a child starts where that of its parent does, and has one more step. -/
theorem pathOf_pathJoin {s : Bytes} (plain : 0 ∉ s) (nonempty : s ≠ []) (name : FileName) :
    0 ∉ pathJoin s name.1 ∧
      (pathOf (pathJoin s name.1)).route =
        ⟨(pathOf s).route.absolute, (pathOf s).route.steps ++ [.enter name]⟩ := by
  have joined : pathJoin s name.1 = strTrimRight s kPathSeparator ++ byte '/' :: name.1 := by
    rw [pathJoin, strTrim_name, List.append_assoc]
    rfl
  have seen : 0 ∉ pathJoin s name.1 := by
    have trimmed : 0 ∉ strTrimRight s kPathSeparator := by
      obtain ⟨slashes, split, _⟩ := strTrimRight_separator s
      intro member
      rw [split] at plain
      exact plain (List.mem_append_left _ member)
    rw [joined, List.mem_append, List.mem_cons, not_or, not_or]
    exact ⟨trimmed, by decide, name.2.2.2.2.2⟩
  refine ⟨seen, ?_⟩
  have starts : (pathJoin s name.1).head? = s.head? := by
    rw [joined, List.head?_append_of_ne_nil _ (strTrimRight_ne_nil nonempty),
      head_trimRight nonempty]
  have steps : stepsOf (pathJoin s name.1) = stepsOf s ++ [.enter name] := by
    rw [joined, stepsOf_append, stepsOf_name, stepsOf_trimRight]
  simp only [pathOf, cstr_plain seen, cstr_plain plain, starts, steps]

section

variable {host : Host FileName}

/-- The children are the names in the directory. -/
theorem getDirectoryChildren_ok {fs : Disk} {path : Bytes} {directory : Place FileName}
    (opened : fs.opendir host (pathOf path) = .ok directory) :
    getDirectoryChildren host fs path = (fs.names directory).map Subtype.val := by
  have kept : ∀ name ∈ (fs.names directory).map Subtype.val,
      decide (name ≠ text "." ∧ name ≠ text "..") = true := by
    intro name member
    obtain ⟨child, _, rfl⟩ := List.mem_map.mp member
    exact decide_eq_true ⟨child.2.2.1, child.2.2.2.1⟩
  unfold getDirectoryChildren readdir
  rw [opened]
  dsimp only
  rw [List.filter_cons_of_neg (by simp), List.filter_cons_of_neg (by simp),
    List.filter_eq_self.mpr kept]

/-- There are no children where nothing is opened. -/
theorem getDirectoryChildren_error {fs : Disk} {path : Bytes} {errno : Errno}
    (refused : fs.opendir host (pathOf path) = .error errno) :
    getDirectoryChildren host fs path = [] := by
  unfold getDirectoryChildren
  rw [refused]

/-- Nothing is lost that is not inside. -/
structure Trimmed (inside : Place FileName → Prop) (before after : Disk) : Prop where
  within : after.Within before
  outside : ∀ place, ¬ inside place → after.find place = before.find place

theorem Trimmed.refl (inside : Place FileName → Prop) (fs : Disk) : Trimmed inside fs fs :=
  ⟨.refl fs, fun _ _ => rfl⟩

/-- What happens in two steps loses nothing that is not inside if neither of them does. -/
theorem Trimmed.trans {inside : Place FileName → Prop} {before between after : Disk}
    (first : Trimmed inside before between) (second : Trimmed inside between after) :
    Trimmed inside before after where
  within := second.within.trans first.within
  outside place elsewhere :=
    (second.outside place elsewhere).trans (first.outside place elsewhere)

/-- Removing an entry that is inside. -/
theorem remove_trimmed {inside : Place FileName → Prop} {path : Bytes} {fs : Disk}
    (refers : ∀ place, fs.Refers host (pathOf path) place → inside place) :
    Trimmed inside fs (remove host path fs).2 := by
  unfold remove
  cases removed : fs.remove host (pathOf path) with
  | ok after =>
    obtain ⟨directory, name, childless, located, rfl⟩ := FileSystem.remove_ok removed
    obtain ⟨front, left, split, leads⟩ := FileSystem.locate_ok located
    refine ⟨fs.erase_within _ _ childless, fun place elsewhere => ?_⟩
    rw [FileSystem.find_erase, if_neg]
    rintro rfl
    exact elsewhere (refers _ (.entry split leads))
  | error errno =>
    dsimp only
    split
    · exact .refl _ _
    · exact .refl _ _

/-- Removing takes entries away and adds none. -/
theorem remove_within (host : Host FileName) (path : Bytes) (fs : Disk) :
    (remove host path fs).2.Within fs := by
  have anywhere : Trimmed (fun _ => True) fs (remove host path fs).2 :=
    remove_trimmed fun _ _ => trivial
  exact anywhere.within

/-- A path that is removed without an error does not exist afterwards. -/
theorem remove_gone (host : Host FileName) (path : Bytes) (fs : Disk)
    (okay : (remove host path fs).1 = .okStatus) :
    ¬ (remove host path fs).2.Exists host (pathOf path) := by
  unfold remove at okay ⊢
  cases removed : fs.remove host (pathOf path) with
  | ok after => exact FileSystem.not_exists_of_removed removed
  | error errno =>
    rw [removed] at okay
    dsimp only at okay ⊢
    split
    next other =>
      rw [if_pos other] at okay
      cases okay
    next missing =>
      rw [Decidable.not_not.mp missing] at removed
      exact FileSystem.not_exists_of_missing removed

/-- What the system refuses to remove stays, and so does everything else. -/
theorem remove_refused {path : Bytes} {fs : Disk} {errno : Errno}
    (refused : fs.remove host (pathOf path) = .error errno) : (remove host path fs).2 = fs := by
  unfold remove
  rw [refused]
  dsimp only
  split <;> rfl

/-- What a run over the children has done after the first of them. -/
theorem removeEach_cons {removeChild : Bytes → Disk → Option (Status × Disk)} {path i : Bytes}
    {subpaths : List Bytes} {fs : Disk} {result : Status × Disk}
    (returns : removeEach removeChild path (i :: subpaths) fs = some result) :
    ∃ st between, removeChild (pathJoin path i) fs = some (st, between) ∧
      ((st.ok = false ∧ result = (st, between)) ∨
        (st = .okStatus ∧ removeEach removeChild path subpaths between = some result)) := by
  unfold removeEach at returns
  cases removed : removeChild (pathJoin path i) fs with
  | none =>
    rw [removed] at returns
    cases returns
  | some pair =>
    obtain ⟨st, between⟩ := pair
    rw [removed] at returns
    refine ⟨st, between, rfl, ?_⟩
    cases st with
    | okStatus => exact .inr ⟨rfl, returns⟩
    | failed code message => exact .inl ⟨rfl, (Option.some.inj returns).symm⟩

/-- What a call has done: a child could not be removed, or all of them are, and then it
removes its own path. -/
theorem removeAll_succ {depth : Nat} {path : Bytes} {fs : Disk} {status : Status} {after : Disk}
    (returns : removeAll host (depth + 1) path fs = some (status, after)) :
    (status.ok = false ∧ removeEach (removeAll host depth) path
        (getDirectoryChildren host fs path) fs = some (status, after)) ∨
      ∃ between, removeEach (removeAll host depth) path (getDirectoryChildren host fs path) fs =
          some (.okStatus, between) ∧ remove host path between = (status, after) := by
  unfold removeAll at returns
  cases removed : removeEach (removeAll host depth) path (getDirectoryChildren host fs path) fs with
  | none =>
    rw [removed] at returns
    cases returns
  | some pair =>
    obtain ⟨st, between⟩ := pair
    rw [removed] at returns
    cases st with
    | okStatus => exact .inr ⟨between, rfl, Option.some.inj returns⟩
    | failed code message =>
      cases returns
      exact .inl ⟨rfl, rfl⟩

/-- Once the children in front are removed, the run goes on with those behind. -/
theorem removeEach_append {removeChild : Bytes → Disk → Option (Status × Disk)} {path : Bytes}
    {front : List Bytes} {fs between : Disk}
    (removed : removeEach removeChild path front fs = some (.okStatus, between))
    (behind : List Bytes) :
    removeEach removeChild path (front ++ behind) fs =
      removeEach removeChild path behind between := by
  induction front generalizing fs with
  | nil =>
    cases removed
    rfl
  | cons i front inductionHypothesis =>
    obtain ⟨st, first, child, ⟨failed, same⟩ | ⟨rfl, rest⟩⟩ := removeEach_cons removed
    · cases same
      cases failed
    · rw [List.cons_append, removeEach, child]
      exact inductionHypothesis rest

/-- A run over children adds no entries if removing one does not. -/
theorem removeEach_within {removeChild : Bytes → Disk → Option (Status × Disk)}
    (each : ∀ path fs status after, removeChild path fs = some (status, after) →
      after.Within fs) {path : Bytes} {children : List Bytes} {fs : Disk} {status : Status}
    {after : Disk} (returns : removeEach removeChild path children fs = some (status, after)) :
    after.Within fs := by
  induction children generalizing fs with
  | nil =>
    cases returns
    exact .refl _
  | cons i children inductionHypothesis =>
    obtain ⟨st, between, child, ⟨_, same⟩ | ⟨_, rest⟩⟩ := removeEach_cons returns
    · cases same
      exact each _ _ _ _ child
    · exact (inductionHypothesis rest).trans (each _ _ _ _ child)

/-- Removing a tree takes entries away and adds none. -/
theorem removeAll_within {depth : Nat} {path : Bytes} {fs : Disk} {status : Status} {after : Disk}
    (returns : removeAll host depth path fs = some (status, after)) : after.Within fs := by
  induction depth generalizing path fs status after with
  | zero => cases returns
  | succ depth inductionHypothesis =>
    have children {st : Status} {between : Disk} :
        removeEach (removeAll host depth) path (getDirectoryChildren host fs path) fs =
          some (st, between) → between.Within fs :=
      removeEach_within fun _ _ _ _ => inductionHypothesis
    obtain ⟨_, removed⟩ | ⟨between, removed, last⟩ := removeAll_succ returns
    · exact children removed
    · have own := remove_within host path between
      rw [last] at own
      exact own.trans (children removed)

/-- A run over children does not need more than its calls do. -/
theorem removeEach_more {removeChild another : Bytes → Disk → Option (Status × Disk)}
    (more : ∀ path fs result, removeChild path fs = some result → another path fs = some result)
    {path : Bytes} {children : List Bytes} {fs : Disk} {result : Status × Disk}
    (returns : removeEach removeChild path children fs = some result) :
    removeEach another path children fs = some result := by
  induction children generalizing fs with
  | nil => exact returns
  | cons i children inductionHypothesis =>
    obtain ⟨st, between, child, ending⟩ := removeEach_cons returns
    unfold removeEach
    rw [more _ _ _ child]
    obtain ⟨failed, rfl⟩ | ⟨rfl, rest⟩ := ending
    · simp [failed]
    · exact inductionHypothesis rest

/-- A greater depth does not change a result. -/
theorem removeAll_more {depth : Nat} {path : Bytes} {fs : Disk} {result : Status × Disk}
    (returns : removeAll host depth path fs = some result) :
    removeAll host (depth + 1) path fs = some result := by
  induction depth generalizing path fs result with
  | zero => cases returns
  | succ depth inductionHypothesis =>
    unfold removeAll at returns ⊢
    cases removed : removeEach (removeAll host depth) path (getDirectoryChildren host fs path) fs
      with
    | none =>
      rw [removed] at returns
      cases returns
    | some pair =>
      rw [removed] at returns
      rw [removeEach_more (fun _ _ _ => inductionHypothesis) removed]
      exact returns

/-- Any depth from the first on which a call returns gives the same result. -/
theorem removeAll_at_least {depth : Nat} {path : Bytes} {fs : Disk} {result : Status × Disk}
    (returns : removeAll host depth path fs = some result) {other : Nat} (deeper : depth ≤ other) :
    removeAll host other path fs = some result := by
  induction other, deeper using Nat.le_induction with
  | base => exact returns
  | succ other _ inductionHypothesis => exact removeAll_more inductionHypothesis

/-- A call has one result, at whatever depth. -/
theorem removeAll_unique {depth other : Nat} {path : Bytes} {fs : Disk}
    {one another : Status × Disk} (first : removeAll host depth path fs = some one)
    (second : removeAll host other path fs = some another) : one = another := by
  have same := (removeAll_at_least first (Nat.le_max_left depth other)).symm.trans
    (removeAll_at_least second (Nat.le_max_right depth other))
  exact Option.some.inj same

/-- The directory that a path opens is where it led at first, and the paths of its
children go on from there. -/
theorem opened_parent {fs now : Disk} (within : now.Within fs) {path : Bytes}
    (plain : 0 ∉ path) {directory : Place FileName}
    (opened : now.opendir host (pathOf path) = .ok directory) (name : FileName) :
    (pathOf path).route.empty = false ∧ host.denies .list directory = false ∧
      (∃ left, fs.Leads host.maxLinks ((pathOf path).route.start host.cwd)
        (pathOf path).route.steps ⟨directory, left⟩) ∧
      0 ∉ pathJoin path name.1 ∧
      (pathOf (pathJoin path name.1)).route =
        ⟨(pathOf path).route.absolute, (pathOf path).route.steps ++ [.enter name]⟩ := by
  obtain ⟨spelled, permitted, left, leads⟩ := FileSystem.opendir_ok opened
  have nonempty : path ≠ [] := by
    rintro rfl
    cases spelled
  exact ⟨spelled, permitted, ⟨left, leads.within within⟩, pathOf_pathJoin plain nonempty name⟩

/-- The path of a child refers to the entry in the directory that was listed. -/
theorem refers_child {fs now : Disk} (within : now.Within fs) {path : Bytes} (plain : 0 ∉ path)
    {directory : Place FileName} (opened : now.opendir host (pathOf path) = .ok directory)
    {name : FileName} {place : Place FileName}
    (refers : fs.Refers host (pathOf (pathJoin path name.1)) place) :
    place = directory ++ [name] := by
  obtain ⟨_, _, ⟨left, leads⟩, _, route⟩ := opened_parent within plain opened name
  have start : (pathOf (pathJoin path name.1)).route.start host.cwd =
      (pathOf path).route.start host.cwd := by
    rw [route]
    rfl
  cases refers with
  | entry split before =>
    rw [route] at split
    obtain ⟨rfl, last⟩ := List.append_inj' split rfl
    cases last
    rw [start] at before
    cases before.unique leads
    rfl
  | directory _ unnamed _ =>
    rw [route] at unnamed
    exact absurd rfl (unnamed _ _)

/-- Every child is an entry of the directory that the path opens. -/
theorem getDirectoryChildren_mem {fs : Disk} {path i : Bytes}
    (member : i ∈ getDirectoryChildren host fs path) :
    ∃ (directory : Place FileName) (name : FileName),
      fs.opendir host (pathOf path) = .ok directory ∧ name ∈ fs.names directory ∧ name.1 = i := by
  cases opened : fs.opendir host (pathOf path) with
  | error errno =>
    rw [getDirectoryChildren_error opened] at member
    cases member
  | ok directory =>
    rw [getDirectoryChildren_ok opened] at member
    obtain ⟨name, listed, same⟩ := List.mem_map.mp member
    exact ⟨directory, name, rfl, listed, same⟩

/-- The child that comes next is an entry of the directory too. -/
theorem getDirectoryChildren_split {fs : Disk} {path i : Bytes} {front behind : List Bytes}
    (split : getDirectoryChildren host fs path = front ++ i :: behind) :
    ∃ (directory : Place FileName) (name : FileName),
      fs.opendir host (pathOf path) = .ok directory ∧ name ∈ fs.names directory ∧ name.1 = i := by
  apply getDirectoryChildren_mem
  rw [split]
  exact List.mem_append_right _ List.mem_cons_self

/-- So many calls may be nested: the links that are left, and between two of them the
levels of directories. -/
def Enough (fs : Disk) (host : Host FileName) (height depth : Nat) (path : Bytes) : Prop :=
  0 < depth ∧ ∀ reached, fs.Leads host.maxLinks ((pathOf path).route.start host.cwd)
    (pathOf path).route.steps reached →
    reached.links * (height + 1) + (height - reached.place.length) + 1 < depth

/-- A child needs fewer nested calls. -/
theorem Enough.child {fs now : Disk} {height depth : Nat}
    (bound : ∀ place kind, fs.find place = some kind → place.length ≤ height)
    (within : now.Within fs) {path : Bytes} (enough : Enough fs host height (depth + 1) path)
    (plain : 0 ∉ path)
    {directory : Place FileName} (opened : now.opendir host (pathOf path) = .ok directory)
    (name : FileName) : Enough fs host height depth (pathJoin path name.1) := by
  obtain ⟨_, _, ⟨left, leads⟩, _, route⟩ := opened_parent within plain opened name
  have needed := enough.2 _ leads
  refine ⟨by omega, fun reached walked => ?_⟩
  rw [route] at walked
  obtain ⟨between, before, last⟩ := walked.split
  cases before.unique leads
  obtain ⟨rfl, kind, found⟩ | ⟨_, fewer⟩ := last.entered
  · have deep := bound _ _ found
    simp only [List.length_append, List.length_singleton] at deep needed ⊢
    omega
  · have used := Nat.mul_le_mul_right (height + 1) fewer
    rw [Nat.succ_mul] at used
    dsimp only at needed used
    omega

/-- The run over the children returns when each of them does, from a state within the
first. -/
theorem removeEach_returns {fs : Disk} {removeChild : Bytes → Disk → Option (Status × Disk)}
    {path : Bytes} {children : List Bytes}
    (each : ∀ i ∈ children, ∀ now : Disk, now.Within fs →
      ∃ status after, removeChild (pathJoin path i) now = some (status, after) ∧
        after.Within fs) {now : Disk} (within : now.Within fs) :
    ∃ status after, removeEach removeChild path children now = some (status, after) := by
  induction children generalizing now with
  | nil => exact ⟨_, _, rfl⟩
  | cons i children inductionHypothesis =>
    obtain ⟨first, others⟩ := List.forall_mem_cons.mp each
    obtain ⟨status, between, removed, still⟩ := first now within
    unfold removeEach
    rw [removed]
    cases status with
    | okStatus => exact inductionHypothesis others still
    | failed code message => exact ⟨_, _, rfl⟩

/-- Removing a tree returns, wherever the links lead. -/
theorem removeAll_returns {fs : Disk} {height : Nat}
    (bound : ∀ place kind, fs.find place = some kind → place.length ≤ height) {depth : Nat}
    {path : Bytes} (plain : 0 ∉ path) (enough : Enough fs host height depth path) {now : Disk}
    (within : now.Within fs) :
    ∃ status after, removeAll host depth path now = some (status, after) := by
  induction depth generalizing path now with
  | zero => exact absurd enough.1 (Nat.lt_irrefl 0)
  | succ depth inductionHypothesis =>
    have children : ∃ status after, removeEach (removeAll host depth) path
        (getDirectoryChildren host now path) now = some (status, after) := by
      refine removeEach_returns (fun i member state below => ?_) within
      obtain ⟨directory, name, opened, listed, rfl⟩ := getDirectoryChildren_mem member
      obtain ⟨_, _, _, seen, _⟩ := opened_parent within plain opened name
      obtain ⟨status, after, removed⟩ :=
        inductionHypothesis seen (enough.child bound within plain opened name) below
      exact ⟨status, after, removed, (removeAll_within removed).trans below⟩
    obtain ⟨status, between, removed⟩ := children
    unfold removeAll
    rw [removed]
    cases status with
    | okStatus => exact ⟨_, _, rfl⟩
    | failed code message => exact ⟨_, _, rfl⟩

/-- The links that a path may follow bound how deep the calls are nested. -/
theorem removeAll_ends (host : Host FileName) (fs : Disk) {path : Bytes} (plain : 0 ∉ path) :
    ∃ depth status after, removeAll host depth path fs = some (status, after) := by
  obtain ⟨height, bound⟩ := fs.exists_height
  have enough : Enough fs host height (host.maxLinks * (height + 1) + height + 2) path := by
    refine ⟨by omega, fun reached leads => ?_⟩
    have fewer := Nat.mul_le_mul_right (height + 1) leads.fewer
    omega
  exact ⟨_, removeAll_returns bound plain enough (.refl fs)⟩

/-- A name behind a NUL is not seen. -/
theorem pathOf_pathJoin_cut {path : Bytes} (cut : 0 ∈ path) (i : Bytes) :
    0 ∈ pathJoin path i ∧ pathOf (pathJoin path i) = pathOf path := by
  obtain ⟨slashes, split, all⟩ := strTrimRight_separator path
  have trimmed : 0 ∈ strTrimRight path kPathSeparator := by
    rw [split, List.mem_append] at cut
    refine cut.resolve_right fun member => ?_
    exact absurd (all 0 member) (by decide)
  have whole : cstr path = cstr (strTrimRight path kPathSeparator) := by
    conv_lhs => rw [split, cstr_append, if_pos trimmed]
  refine ⟨List.mem_append_left _ (List.mem_append_left _ trimmed), ?_⟩
  have same : cstr (pathJoin path i) = cstr path := by
    rw [pathJoin, List.append_assoc, cstr_append, if_pos trimmed, whole]
  unfold pathOf
  rw [same]

/-- Behind a NUL the path of a child is the path again, and the recursion does not end. -/
theorem removeAll_never {path : Bytes} (cut : 0 ∈ path) {fs : Disk}
    (listed : getDirectoryChildren host fs path ≠ []) (depth : Nat) :
    removeAll host depth path fs = none := by
  induction depth generalizing path with
  | zero => rfl
  | succ depth inductionHypothesis =>
    obtain ⟨i, subpaths, children⟩ := List.exists_cons_of_ne_nil listed
    obtain ⟨still, same⟩ := pathOf_pathJoin_cut cut i
    have again : getDirectoryChildren host fs (pathJoin path i) =
        getDirectoryChildren host fs path := by
      unfold getDirectoryChildren
      rw [same]
    unfold removeAll
    rw [children, removeEach, inductionHypothesis still (again ▸ listed)]

/-- The place is the top or below it, through directories. -/
inductive Reachable (fs : Disk) (top : Place FileName) : Place FileName → Prop
  | itself : Reachable fs top top
  | child {directory : Place FileName} {name : FileName} : Reachable fs top directory →
    fs.find directory = some .directory → Reachable fs top (directory ++ [name])

theorem prefix_of_reachable {fs : Disk} {top place : Place FileName}
    (reachable : Reachable fs top place) : top <+: place := by
  induction reachable with
  | itself => exact List.prefix_rfl
  | child _ _ inductionHypothesis => exact inductionHypothesis.trans (List.prefix_append _ _)

/-- An entry below the top is reachable from there. -/
theorem reachable_below {fs : Disk} {top below : Place FileName} {kind : Kind FileName}
    (found : fs.find (top ++ below) = some kind) : Reachable fs top (top ++ below) := by
  induction below using List.reverseRecOn generalizing kind with
  | nil =>
    rw [List.append_nil]
    exact .itself
  | append_singleton front name inductionHypothesis =>
    rw [← List.append_assoc] at found ⊢
    have parent := fs.closed _ _ _ found
    exact .child (inductionHypothesis parent) parent

/-- The place is the one that the path refers to or below it. -/
def Inside (fs : Disk) (host : Host FileName) (path : Bytes) (place : Place FileName) : Prop :=
  ∃ top, fs.Refers host (pathOf path) top ∧ top <+: place

theorem Inside.deeper {fs : Disk} {path : Bytes} {place : Place FileName}
    (inside : Inside fs host path place) (name : FileName) :
    Inside fs host path (place ++ [name]) := by
  obtain ⟨top, refers, below⟩ := inside
  exact ⟨top, refers, below.trans (List.prefix_append _ _)⟩

/-- The calls of `RemoveAll` that a call makes, each with the state in which it is made:
a child is reached when those listed in front of it are removed. -/
inductive Calls (host : Host FileName) (path : Bytes) (fs : Disk) : Bytes → Disk → Prop
  | itself : Calls host path fs path fs
  | child {parent i : Bytes} {now between : Disk} {front behind : List Bytes} {depth : Nat} :
    Calls host path fs parent now →
    getDirectoryChildren host now parent = front ++ i :: behind →
    removeEach (removeAll host depth) parent front now = some (.okStatus, between) →
    Calls host path fs (pathJoin parent i) between

/-- The state in which a call comes to remove its own path. -/
def Emptied (host : Host FileName) (path : Bytes) (now later : Disk) : Prop :=
  ∃ depth, removeEach (removeAll host depth) path (getDirectoryChildren host now path) now =
    some (.okStatus, later)

/-- Whenever a call comes to remove this path, the system refuses. -/
def Spared (host : Host FileName) (path : Bytes) (fs : Disk) (child : Bytes) : Prop :=
  ∀ now later, Calls host path fs child now → Emptied host child now later →
    ∃ errno, later.remove host (pathOf child) = .error errno

/-- The recursion stays below the path: the string names it to its end, unless there is
nothing to list, and whatever stands in a directory that is listed is the path's own entry
or below it, or the system refuses to remove it. -/
structure Confined (host : Host FileName) (fs : Disk) (path : Bytes) : Prop where
  named : 0 ∉ path ∨ getDirectoryChildren host fs path = []
  kept : ∀ listed now directory name, Calls host path fs listed now →
    now.opendir host (pathOf listed) = .ok directory → name ∈ now.names directory →
    Inside fs host path (directory ++ [name]) ∨ Spared host path fs (pathJoin listed name.1)

section

variable {path p : Bytes} {fs now : Disk}

/-- Calls are made in states within the first. -/
theorem Calls.within (call : Calls host path fs p now) : now.Within fs := by
  induction call with
  | itself => exact .refl _
  | child _ _ removed inductionHypothesis =>
    have fewer := removeEach_within (fun _ _ _ _ => removeAll_within) removed
    exact fewer.trans inductionHypothesis

/-- No path that is reached has a NUL. -/
theorem Calls.plain (call : Calls host path fs p now) (plain : 0 ∉ path) : 0 ∉ p := by
  induction call with
  | itself => exact plain
  | child call split _ inductionHypothesis =>
    obtain ⟨directory, name, opened, _, rfl⟩ := getDirectoryChildren_split split
    exact (opened_parent call.within inductionHypothesis opened name).2.2.2.1

/-- Where nothing is listed there is one call. -/
theorem Calls.only (call : Calls host path fs p now)
    (nothing : getDirectoryChildren host fs path = []) : p = path ∧ now = fs := by
  induction call with
  | itself => exact ⟨rfl, rfl⟩
  | child _ split _ inductionHypothesis =>
    obtain ⟨rfl, rfl⟩ := inductionHypothesis
    rw [nothing] at split
    cases List.append_eq_nil_iff.mp split.symm |>.2

/-- Where nothing is listed no directory that a call opens has an entry. -/
theorem Calls.unlisted (call : Calls host path fs p now)
    (nothing : getDirectoryChildren host fs path = []) {directory : Place FileName}
    (opened : now.opendir host (pathOf p) = .ok directory) (name : FileName) :
    name ∉ now.names directory := by
  obtain ⟨rfl, rfl⟩ := call.only nothing
  rw [getDirectoryChildren_ok opened] at nothing
  rw [List.map_eq_nil_iff.mp nothing]
  exact List.not_mem_nil

/-- What holds from one child to the next holds of the whole run over them. -/
theorem Calls.each (call : Calls host path fs p now) {inside : Place FileName → Prop}
    {depth : Nat}
    (child : ∀ i state status after, Calls host path fs i state →
      removeAll host depth i state = some (status, after) → Trimmed inside state after)
    {front behind : List Bytes} (split : getDirectoryChildren host now p = front ++ behind)
    {between : Disk}
    (so_far : removeEach (removeAll host depth) p front now = some (.okStatus, between))
    {status : Status} {after : Disk}
    (returns : removeEach (removeAll host depth) p behind between = some (status, after)) :
    Trimmed inside between after := by
  induction behind generalizing front between with
  | nil =>
    cases returns
    exact .refl _ _
  | cons i behind inductionHypothesis =>
    obtain ⟨st, mid, removed, ending⟩ := removeEach_cons returns
    have first := child _ _ _ _ (call.child split so_far) removed
    obtain ⟨_, same⟩ | ⟨rfl, rest⟩ := ending
    · cases same
      exact first
    · have one : removeEach (removeAll host depth) p (front ++ [i]) now =
          some (.okStatus, mid) := by
        rw [removeEach_append so_far, removeEach, removed]
        rfl
      have resplit : getDirectoryChildren host now p = (front ++ [i]) ++ behind := by
        rw [split, List.append_assoc, List.singleton_append]
      exact first.trans (inductionHypothesis resplit one rest)

/-- What a call refers to is inside, or it is spared. -/
theorem Confined.held (confined : Confined host fs path) (plain : 0 ∉ path)
    (call : Calls host path fs p now) :
    (∀ place, fs.Refers host (pathOf p) place → Inside fs host path place) ∨
      Spared host path fs p := by
  cases call with
  | itself => exact .inl fun place refers => ⟨place, refers, List.prefix_rfl⟩
  | child call split _ =>
    obtain ⟨directory, name, opened, listed, rfl⟩ := getDirectoryChildren_split split
    obtain inside | spared := confined.kept _ _ _ _ call opened listed
    · refine .inl fun place refers => ?_
      rw [refers_child call.within (call.plain plain) opened refers]
      exact inside
    · exact .inr spared

/-- A call of a confined recursion loses nothing that is not inside, and when it succeeds
its path is gone. -/
theorem Confined.trimmed (confined : Confined host fs path) (plain : 0 ∉ path) {depth : Nat}
    (call : Calls host path fs p now) {status : Status} {after : Disk}
    (returns : removeAll host depth p now = some (status, after)) :
    Trimmed (Inside fs host path) now after ∧
      (status = .okStatus → ¬ after.Exists host (pathOf p)) := by
  induction depth generalizing p now status after with
  | zero => cases returns
  | succ depth inductionHypothesis =>
    have children {st : Status} {between : Disk} : removeEach (removeAll host depth) p
        (getDirectoryChildren host now p) now = some (st, between) →
        Trimmed (Inside fs host path) now between :=
      call.each (fun _ _ _ _ below removed => (inductionHypothesis below removed).1)
        (List.nil_append _).symm rfl
    obtain ⟨failed, removed⟩ | ⟨between, removed, last⟩ := removeAll_succ returns
    · refine ⟨children removed, ?_⟩
      rintro rfl
      cases failed
    · have own : Trimmed (Inside fs host path) between (remove host p between).2 := by
        obtain held | spared := confined.held plain call
        · have still := (children removed).within.trans call.within
          exact remove_trimmed fun place refers => held place (refers.within still)
        · obtain ⟨errno, refused⟩ := spared now between call ⟨depth, removed⟩
          rw [remove_refused refused]
          exact .refl _ _
      have gone := remove_gone host p between
      rw [last] at own gone
      exact ⟨(children removed).trans own, gone⟩

/-- Every call returns when the first does, and nothing that it has removed is there in
the end. -/
theorem Calls.returned (call : Calls host path fs p now) {depth : Nat} {status : Status}
    {final : Disk} (returns : removeAll host depth path fs = some (status, final)) :
    ∃ depth status after, removeAll host depth p now = some (status, after) ∧
      final.Within after := by
  induction call with
  | itself => exact ⟨depth, status, final, returns, .refl _⟩
  | @child parent i now between front behind other _ split removed inductionHypothesis =>
    obtain ⟨nested, status, after, result, less⟩ := inductionHypothesis
    cases nested with
    | zero => cases result
    | succ nested =>
      -- One depth at which both runs over the children return.
      have deeper (least : Nat) (below : least ≤ max other nested) :
          ∀ path fs result, removeAll host least path fs = some result →
            removeAll host (max other nested) path fs = some result :=
        fun _ _ _ found => removeAll_at_least found below
      have front_removed := removeEach_more (deeper other (Nat.le_max_left _ _)) removed
      have ran : ∃ st mid, removeEach (removeAll host nested) parent
          (getDirectoryChildren host now parent) now = some (st, mid) ∧ after.Within mid := by
        obtain ⟨_, ran⟩ | ⟨mid, ran, last⟩ := removeAll_succ result
        · exact ⟨_, _, ran, .refl _⟩
        · have own := remove_within host parent mid
          rw [last] at own
          exact ⟨_, mid, ran, own⟩
      obtain ⟨st, mid, ran, own⟩ := ran
      have all := removeEach_more (deeper nested (Nat.le_max_right _ _)) ran
      rw [split, removeEach_append front_removed] at all
      obtain ⟨first, left, child, ⟨_, same⟩ | ⟨_, rest⟩⟩ := removeEach_cons all
      · cases same
        exact ⟨_, _, _, child, less.trans own⟩
      · have later := removeEach_within (fun _ _ _ _ => removeAll_within) rest
        exact ⟨_, _, _, child, (less.trans own).trans later⟩

/-- An entry that some call removes is not there in the end. -/
theorem Calls.lost (call : Calls host path fs p now) {depth : Nat} {status : Status}
    {final : Disk} (returns : removeAll host depth path fs = some (status, final))
    {later gone : Disk} (emptied : Emptied host p now later)
    (removed : later.remove host (pathOf p) = .ok gone) :
    ∃ place, fs.Refers host (pathOf p) place ∧ final.find place = none := by
  obtain ⟨nested, st, after, result, less⟩ := call.returned returns
  obtain ⟨other, ran⟩ := emptied
  have own : removeAll host (other + 1) p now = some (.okStatus, gone) := by
    unfold removeAll remove
    rw [ran]
    dsimp only
    rw [removed]
    rfl
  cases removeAll_unique result own
  obtain ⟨directory, name, childless, located, rfl⟩ := FileSystem.remove_ok removed
  obtain ⟨front, left, split, leads⟩ := FileSystem.locate_ok located
  have still := (removeEach_within (fun _ _ _ _ => removeAll_within) ran).trans call.within
  refine ⟨directory ++ [name], .entry split (leads.within still), ?_⟩
  cases found : final.find (directory ++ [name]) with
  | none => rfl
  | some kind =>
    have there := less _ _ found
    rw [FileSystem.find_erase, if_pos rfl] at there
    cases there

end

/-- Only places that the path refers to or that can be reached from there have changed. -/
theorem Trimmed.changed {fs after : Disk} {path : Bytes}
    (trimmed : Trimmed (Inside fs host path) fs after) (place : Place FileName)
    (changed : after.find place ≠ fs.find place) :
    ∃ top, fs.Refers host (pathOf path) top ∧ Reachable fs top place := by
  obtain ⟨top, refers, below, rfl⟩ : Inside fs host path place := by
    by_contra elsewhere
    exact changed (trimmed.outside place elsewhere)
  refine ⟨top, refers, ?_⟩
  -- What has changed was there before.
  cases found : fs.find (top ++ below) with
  | some kind => exact reachable_below found
  | none =>
    cases later : after.find (top ++ below) with
    | none => exact absurd (later.trans found.symm) changed
    | some kind => cases found.symm.trans (trimmed.within _ _ later)

/-- A confined recursion returns, and loses nothing that is not inside. -/
theorem Confined.removed {fs : Disk} {path : Bytes} (confined : Confined host fs path) :
    ∃ depth status after, removeAll host depth path fs = some (status, after) ∧
      Trimmed (Inside fs host path) fs after ∧
      (status = .okStatus → ¬ after.Exists host (pathOf path)) := by
  obtain plain | nothing := confined.named
  · obtain ⟨depth, status, after, returns⟩ := removeAll_ends host fs plain
    exact ⟨depth, status, after, returns, confined.trimmed plain .itself returns⟩
  · refine ⟨1, _, _, ?_, remove_trimmed fun place refers => ⟨place, refers, List.prefix_rfl⟩,
      remove_gone _ _ _⟩
    unfold removeAll
    rw [nothing]
    rfl

/-- Removing a tree returns, changes no entry other than the one that the path refers to
and those that can be reached from it through directories, and leaves no such path when
it succeeds, exactly if the recursion is confined. -/
theorem removeAll_stays_inside_iff (host : Host FileName) (fs : Disk) (path : Bytes) :
    (∃ enough status after,
      (∀ depth ≥ enough, removeAll host depth path fs = some (status, after)) ∧
      (∀ place, after.find place ≠ fs.find place →
        ∃ top, fs.Refers host (pathOf path) top ∧ Reachable fs top place) ∧
      (status = .okStatus → ¬ after.Exists host (pathOf path))) ↔
    Confined host fs path := by
  constructor
  · rintro ⟨enough, status, final, returns, changed, _⟩
    have result := returns enough (Nat.le_refl _)
    have named : 0 ∉ path ∨ getDirectoryChildren host fs path = [] := by
      by_contra neither
      obtain ⟨cut, listed⟩ := not_or.mp neither
      rw [removeAll_never (not_not.mp cut) listed] at result
      cases result
    refine ⟨named, fun listed now directory name call opened member => ?_⟩
    obtain plain | nothing := named
    · -- What a call has removed elsewhere would be missing in the end.
      refine or_iff_not_imp_left.mpr fun elsewhere between later child emptied => ?_
      cases removed : later.remove host (pathOf (pathJoin listed name.1)) with
      | error errno => exact ⟨errno, rfl⟩
      | ok gone =>
        obtain ⟨place, refers, missing⟩ := child.lost result emptied removed
        obtain rfl := refers_child call.within (call.plain plain) opened refers
        obtain ⟨kind, found⟩ := (now.mem_names_iff directory name).mp member
        have before := call.within _ _ found
        obtain ⟨top, top_refers, reachable⟩ :=
          changed _ (by rw [missing, before]; exact Option.some_ne_none kind |>.symm)
        exact absurd ⟨top, top_refers, prefix_of_reachable reachable⟩ elsewhere
    · exact absurd member (call.unlisted nothing opened name)
  · intro confined
    obtain ⟨depth, status, after, returns, trimmed, gone⟩ := confined.removed
    exact ⟨depth, status, after, fun _ deep => removeAll_at_least returns deep, trimmed.changed,
      gone⟩

/-- Every link inside leads inside, or to a place where nothing can be listed. -/
def LinksInside (fs : Disk) (host : Host FileName) (inside : Place FileName → Prop) : Prop :=
  ∀ place target reached, inside place → fs.find place = some (.link target) →
    fs.Leads host.maxLinks [] (place.map .enter) reached →
    inside reached.place ∨ ¬ fs.Listable host reached.place

/-- Whatever a path refers to is inside. -/
def Held (fs : Disk) (host : Host FileName) (inside : Place FileName → Prop) (path : Bytes) :
    Prop :=
  ∀ place, fs.Refers host (pathOf path) place → inside place

/-- What is reached through such a path is inside, or nothing can be listed there. -/
theorem Held.opened {fs : Disk} {inside : Place FileName → Prop}
    (links : LinksInside fs host inside) {path : Bytes} (held : Held fs host inside path)
    (spelled : (pathOf path).route.empty = false) {reached : Reached FileName}
    (leads : fs.Leads host.maxLinks ((pathOf path).route.start host.cwd)
      (pathOf path).route.steps reached) :
    inside reached.place ∨ ¬ fs.Listable host reached.place := by
  by_cases named : ∃ front name, (pathOf path).route.steps = front ++ [.enter name]
  · obtain ⟨front, name, split⟩ := named
    rw [split] at leads
    obtain ⟨⟨directory, left⟩, before, last⟩ := leads.split
    have entry := held _ (.entry split before)
    obtain ⟨rfl, _⟩ | ⟨⟨target, link⟩, _⟩ := last.entered
    · exact .inl entry
    · -- From the root the same link is reached with all its links left to follow.
      obtain ⟨extra, budget⟩ := Nat.exists_eq_add_of_le before.fewer
      have again := (last.more extra).fromRoot (fs.closed _ _ _ link)
      rw [← budget, ← List.map_singleton, ← List.map_append] at again
      exact links _ target ⟨reached.place, reached.links + extra⟩ entry link again
  · push Not at named
    exact .inl (held _ (.directory spelled named leads))

/-- What stands in a directory that such a path opens is inside. -/
theorem Held.listed {fs now : Disk} {inside : Place FileName → Prop}
    (links : LinksInside fs host inside)
    (deeper : ∀ place name, inside place → inside (place ++ [name]))
    (within : now.Within fs) {path : Bytes} (held : Held fs host inside path) (plain : 0 ∉ path)
    {directory : Place FileName} (opened : now.opendir host (pathOf path) = .ok directory)
    {name : FileName} (listed : name ∈ now.names directory) :
    inside (directory ++ [name]) := by
  obtain ⟨spelled, permitted, ⟨left, leads⟩, _, _⟩ := opened_parent within plain opened name
  obtain found | unlistable := held.opened links spelled leads
  · exact deeper _ _ found
  · obtain ⟨kind, found⟩ := (now.mem_names_iff directory name).mp listed
    have member := (fs.mem_names_iff directory name).mpr ⟨kind, within _ _ found⟩
    exact absurd ⟨List.ne_nil_of_mem member, permitted⟩ unlistable

/-- A condition on the links alone: the string names the path to its end, unless there is
nothing to list, and every link below leads below or to a place where nothing can be
listed. -/
structure Contained (fs : Disk) (host : Host FileName) (path : Bytes) : Prop where
  named : 0 ∉ path ∨ getDirectoryChildren host fs path = []
  links : ∀ top place target reached, fs.Refers host (pathOf path) top → top <+: place →
    fs.find place = some (.link target) →
    fs.walk host.maxLinks [] (place.map .enter) = .ok reached →
    top <+: reached.place ∨ ¬ fs.Listable host reached.place

/-- No link of a contained tree leads out of it. -/
theorem Contained.linksInside {fs : Disk} {path : Bytes} (contained : Contained fs host path) :
    LinksInside fs host (Inside fs host path) := by
  rintro place target reached ⟨top, refers, below⟩ link leads
  obtain found | unlistable :=
    contained.links top place target reached refers below link leads.walk_ok
  · exact .inl ⟨top, refers, found⟩
  · exact .inr unlistable

/-- Every call refers to an entry inside. -/
theorem Contained.held {fs now : Disk} {path p : Bytes} (contained : Contained fs host path)
    (plain : 0 ∉ path) (call : Calls host path fs p now) :
    Held fs host (Inside fs host path) p := by
  induction call with
  | itself => exact fun place refers => ⟨place, refers, List.prefix_rfl⟩
  | child call split _ inductionHypothesis =>
    obtain ⟨directory, name, opened, listed, rfl⟩ := getDirectoryChildren_split split
    intro place refers
    rw [refers_child call.within (call.plain plain) opened refers]
    exact inductionHypothesis.listed contained.linksInside (fun _ name inside => inside.deeper name)
      call.within (call.plain plain) opened listed

/-- Where no link leads out, the recursion is confined whatever it removes. -/
theorem Contained.confined {fs : Disk} {path : Bytes} (contained : Contained fs host path) :
    Confined host fs path := by
  refine ⟨contained.named, fun listed now directory name call opened member => .inl ?_⟩
  obtain plain | nothing := contained.named
  · exact (contained.held plain call).listed contained.linksInside
      (fun _ name inside => inside.deeper name) call.within (call.plain plain) opened member
  · exact absurd member (call.unlisted nothing opened name)

end

/-- A process in the root directory that may do everything. -/
def plainHost : Host FileName := ⟨[], 40, fun _ _ => false⟩

def nameD : FileName := ⟨text "d", by decide +kernel⟩
def nameF : FileName := ⟨text "f", by decide +kernel⟩
def nameL : FileName := ⟨text "l", by decide +kernel⟩
def nameO : FileName := ⟨text "o", by decide +kernel⟩

/-- A directory with a file in it and a link to that file. -/
def fileLinked : Disk where
  entries := [([], .directory), ([nameD], .directory), ([nameD, nameF], .file),
    ([nameD, nameL], .link ⟨false, [.enter nameF]⟩)]
  root := rfl
  closed := FileSystem.closed_of_entries (by decide +kernel)

/-- A directory with a link in it to another directory, where there is a file. -/
def directoryLinked : Disk where
  entries := [([], .directory), ([nameD], .directory),
    ([nameD, nameL], .link ⟨true, [.enter nameO]⟩), ([nameO], .directory),
    ([nameO, nameF], .file)]
  root := rfl
  closed := FileSystem.closed_of_entries (by decide +kernel)

/-- The path is that of the directory. -/
theorem refers_nameD (fs : Disk) : fs.Refers plainHost (pathOf (text "/d")) [nameD] := by
  have split : (pathOf (text "/d")).route.steps = [] ++ [.enter nameD] := by decide
  exact .entry split (.done _ _)

/-- The file and the link are removed, and nothing else. -/
theorem file_link_removed :
    ∃ enough status after,
      (∀ depth ≥ enough, removeAll plainHost depth (text "/d") fileLinked = some (status, after)) ∧
      (∀ place, after.find place ≠ fileLinked.find place →
        ∃ top, fileLinked.Refers plainHost (pathOf (text "/d")) top ∧
          Reachable fileLinked top place) ∧
      (status = .okStatus → ¬ after.Exists plainHost (pathOf (text "/d"))) := by
  refine (removeAll_stays_inside_iff _ _ _).mpr (Contained.confined ⟨.inl (by decide), ?_⟩)
  intro top place target reached refers _ link walked
  obtain rfl := refers.unique (refers_nameD fileLinked)
  have listed : (place, Kind.link target) ∈ fileLinked.entries := FileSystem.mem_of_lookup link
  obtain ⟨rfl, _⟩ : place = [nameD, nameL] ∧ target = ⟨false, [.enter nameF]⟩ := by
    simpa [fileLinked] using listed
  have file : fileLinked.walk plainHost.maxLinks [] ([nameD, nameL].map .enter) =
      .ok ⟨[nameD, nameF], 39⟩ := rfl
  cases file.symm.trans walked
  exact .inl (List.prefix_append [nameD] [nameF])

/-- The file in the other directory is removed. -/
theorem linked_directory_emptied :
    ∃ after, removeAll plainHost 3 (text "/d") directoryLinked = some (.okStatus, after) ∧
      directoryLinked.Refers plainHost (pathOf (text "/d")) [nameD] ∧
      directoryLinked.find [nameO, nameF] = some .file ∧ after.find [nameO, nameF] = none ∧
      ¬ Reachable directoryLinked [nameD] [nameO, nameF] := by
  have result : (removeAll plainHost 3 (text "/d") directoryLinked).map
      (fun result => (result.1, result.2.find [nameO, nameF])) = some (.okStatus, none) := by
    decide
  obtain ⟨⟨status, after⟩, removed, outcome⟩ := Option.map_eq_some_iff.mp result
  obtain ⟨rfl, gone⟩ := Prod.mk.inj outcome
  refine ⟨after, removed, refers_nameD _, rfl, gone, fun reachable => ?_⟩
  exact absurd (prefix_of_reachable reachable) (by decide)

end Cppboot.Fs
