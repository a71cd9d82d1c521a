import Cppboot.Directories
import Cppboot.Positions
import Cppboot.RemoveAll
import Cppboot.StatusState

/-!
# Making directories

`MkdirAll` makes a directory for each front of a path that ends before a separator, and
for the path. It puts a NUL byte where the separator is, and the separator back.

An entry that exists is not an error, whatever it is. In front of others it has to be a
directory, but a file at the end is a success. The mode that is asked for is passed to
none of the calls, and they use the default.
-/

namespace Cppboot.MakeDirs

open Fs Files Directories Positions

abbrev Tree := Volume FileName

/-- What the system refuses, and what it calls an error. -/
structure System where
  refuses : Place FileName → Option Refusal
  strerror : Int → Bytes

/-- The route of a string, without regard to a slash at its end. -/
def routeOf (s : Bytes) : Route FileName := (pathOf s).route

/-- The mode that is used if none is given. -/
def defaultMode : Nat := 0o755

def isSeparator (c : UInt8) : Bool := kPathSeparator.contains c

section

variable (sys : System)

/-- The system call. No entry has an empty path. -/
def callMkdir (path : Bytes) (mode : Nat) (fs : Tree) : Except Int Tree :=
  if cstr path = [] then .error ENOENT else fs.mkdir sys.refuses (routeOf path) mode

/-- `Mkdir`: make one directory. That it exists is no error. -/
def mkdir (path : Bytes) (mode : Nat) (fs : Tree) : Status × Tree :=
  match callMkdir sys path mode fs with
  | .ok after => (.okStatus, after)
  | .error errno =>
    if errno ≠ EEXIST then
      (.errnoToStatus sys.strerror errno (text "failed to mkdir: " ++ path), fs)
    else (.okStatus, fs)

/-- The loop, up to a number of turns, and what follows it. -/
def mkdirAllLoop : Nat → Bytes → Option Nat → Tree → Option (Status × Tree)
  | 0, _, _, _ => none
  | _ + 1, buf, none, fs => some (mkdir sys buf defaultMode fs)
  | turns + 1, buf, some i, fs =>
    let cut := buf.set i 0
    let (st, after) := mkdir sys cut defaultMode fs
    let buf := cut.set i (kPathSeparator.headD 0)
    if !st.ok then some (st, after)
    else mkdirAllLoop turns buf (findFrom isSeparator buf (i + 1)) after

/-- `MkdirAll`, with so many turns of its loop. The mode that is asked for is not used. -/
def mkdirAll (turns : Nat) (path : Bytes) (_mode : Nat) (fs : Tree) : Option (Status × Tree) :=
  mkdirAllLoop sys turns path (findFrom isSeparator path 1) fs

end

/-- The separator is a slash. -/
theorem at_separator_iff {s : Bytes} {i : Nat} :
    At isSeparator s i ↔ s[i]? = some (byte '/') := by
  have slash (c : UInt8) : isSeparator c = true ↔ c = byte '/' := by
    rw [isSeparator, List.contains_eq_mem, decide_eq_true_iff]
    exact List.mem_singleton
  constructor
  · rintro ⟨c, found, same⟩
    rwa [← (slash c).mp same]
  · exact fun found => ⟨_, found, (slash _).mpr rfl⟩

/-- What stands at a position, between what is in front of it and behind it. -/
theorem split_at {s : Bytes} {i : Nat} {c : UInt8} (found : s[i]? = some c) :
    s = s.take i ++ c :: s.drop (i + 1) := by
  obtain ⟨inside, value⟩ := List.getElem?_eq_some_iff.mp found
  rw [← value, List.getElem_cons_drop, List.take_append_drop]

/-- With a NUL byte at the separator, the front is seen. -/
theorem cstr_cut {s : Bytes} {i : Nat} (inside : i < s.length) :
    cstr (s.set i 0) = cstr (s.take i) := by
  rw [List.set_eq_take_append_cons_drop, if_pos inside, cstr_append]
  split
  · rfl
  next plain =>
    have nothing : cstr (0 :: s.drop (i + 1)) = [] := rfl
    rw [nothing, List.append_nil, cstr_plain plain]

/-- Putting the separator back restores the string. -/
theorem restored {s : Bytes} {i : Nat} (found : s[i]? = some (byte '/')) :
    (s.set i 0).set i (kPathSeparator.headD 0) = s := by
  have slash : kPathSeparator.headD 0 = byte '/' := rfl
  obtain ⟨inside, value⟩ := List.getElem?_eq_some_iff.mp found
  rw [List.set_set, slash, ← value, List.set_getElem_self]

/-- A text without a separator is one step or none. -/
theorem longer_segment (steps : List (Step FileName)) {segment : Bytes}
    (plain : byte '/' ∉ segment) : Longer steps (steps ++ stepsOf segment) := by
  rw [stepsOf, strSplitFrom_plain plain, List.nil_append, List.filterMap_cons]
  cases stepOf segment with
  | none =>
    rw [List.filterMap_nil, List.append_nil]
    exact .same
  | some step => exact .step step

/-- A C string has the characters of its string. -/
theorem cstr_subset {s : Bytes} {c : UInt8} (member : c ∈ cstr s) : c ∈ s :=
  (cstr_front s).subset member

/-- Behind a separator comes one more step or none, up to the next separator. -/
theorem longer_behind (front : Bytes) {segment : Bytes} (plain : byte '/' ∉ segment) :
    Longer (stepsOf (cstr front)) (stepsOf (cstr (front ++ byte '/' :: segment))) := by
  rw [cstr_append]
  split
  · exact .same
  next seen =>
    have slash : cstr (byte '/' :: segment) = byte '/' :: cstr segment := rfl
    rw [slash, stepsOf_append, cstr_plain seen]
    exact longer_segment _ fun member => plain (cstr_subset member)

/-- So it does from the second character on, if the first is a separator. -/
theorem longer_first (c : UInt8) {segment : Bytes} (plain : byte '/' ∉ segment) :
    Longer [] (stepsOf (cstr (c :: segment))) := by
  by_cases slash : c = byte '/'
  · rw [slash]
    exact longer_behind [] plain
  · refine longer_segment [] fun member => ?_
    obtain same | later := List.mem_cons.mp (cstr_subset member)
    · exact slash same.symm
    · exact plain later

/-- A part without separators has no slash. -/
theorem no_separator {s : Bytes} {start stop : Nat}
    (plain : ∀ i, start ≤ i → i < stop → ¬ At isSeparator s i) :
    byte '/' ∉ slice s (start, stop) := by
  intro member
  obtain ⟨i, low, high, found⟩ := mem_slice member
  exact plain i low high (at_separator_iff.mpr found)

/-- From a position on, up to the next separator, fronts of a string have no more than one
step more. -/
def Ready (s : Bytes) (pos : Nat) (steps : List (Step FileName)) : Prop :=
  ∀ stop, pos ≤ stop → stop ≤ s.length → (∀ i, pos ≤ i → i < stop → ¬ At isSeparator s i) →
    Longer steps (stepsOf (cstr (s.take stop)))

/-- The loop starts behind the first character. -/
theorem ready_first (s : Bytes) : Ready s 1 [] := by
  intro stop low high plain
  cases s with
  | nil => exact absurd (Nat.le_trans low high) (by decide)
  | cons c rest =>
    obtain ⟨length, rfl⟩ := Nat.exists_eq_add_of_le' low
    rw [List.take_succ_cons]
    exact longer_first c (no_separator plain)

/-- Behind a slash the loop has the front of the path behind it. -/
theorem ready_next {s : Bytes} {i : Nat} (found : s[i]? = some (byte '/')) :
    Ready s (i + 1) (stepsOf (cstr (s.take i))) := by
  intro stop low _ plain
  have inside := (List.getElem?_eq_some_iff.mp found).1
  obtain ⟨length, rfl⟩ := Nat.exists_eq_add_of_le low
  have front : s.take (i + 1 + length) =
      s.take i ++ byte '/' :: slice s (i + 1, i + 1 + length) := by
    have one : s.take (i + 1) = s.take i ++ [byte '/'] := by
      rw [List.take_add_one, found, Option.toList_some]
    rw [List.take_add, one, slice, Nat.add_sub_cancel_left, List.append_assoc]
    rfl
  rw [front]
  exact longer_behind _ (no_separator plain)

/-- A front of a string starts like the string. -/
theorem head_front (s : Bytes) {stop : Nat} (some_front : 1 ≤ stop) :
    (cstr (s.take stop)).head? = (cstr s).head? := by
  obtain ⟨length, rfl⟩ := Nat.exists_eq_add_of_le' some_front
  cases s with
  | nil => rfl
  | cons c rest =>
    rw [List.take_succ_cons, cstr, cstr, List.takeWhile_cons, List.takeWhile_cons]
    split <;> rfl

/-- A front is empty to the system when the whole string is. -/
theorem cstr_front_eq_nil_iff (s : Bytes) {stop : Nat} (some_front : 1 ≤ stop) :
    cstr (s.take stop) = [] ↔ cstr s = [] := by
  rw [← List.head?_eq_none_iff, head_front s some_front, List.head?_eq_none_iff]

/-- The route of a front is the front of the route. -/
theorem routeOf_front (s : Bytes) {stop : Nat} (some_front : 1 ≤ stop) :
    routeOf (s.take stop) = ⟨(routeOf s).absolute, stepsOf (cstr (s.take stop))⟩ := by
  rw [routeOf, pathOf, head_front s some_front]
  rfl

/-- The route is that of the C string. -/
theorem routeOf_congr {s other : Bytes} (same : cstr s = cstr other) :
    routeOf s = routeOf other := by
  rw [routeOf, routeOf, pathOf, pathOf, same]

/-- The steps up to a separator are the first ones. -/
theorem steps_front {s : Bytes} {i : Nat} (found : s[i]? = some (byte '/')) :
    stepsOf (cstr (s.take i)) <+: stepsOf (cstr s) := by
  have whole : cstr s = cstr (s.take i ++ byte '/' :: s.drop (i + 1)) :=
    congrArg cstr (split_at found)
  rw [whole, cstr_append]
  split
  · exact List.prefix_rfl
  next plain =>
    have slash : cstr (byte '/' :: s.drop (i + 1)) = byte '/' :: cstr (s.drop (i + 1)) := rfl
    rw [slash, stepsOf_append, cstr_plain plain]
    exact List.prefix_append _ _

section

variable {sys : System} {before fs : Tree} {absolute : Bool} {steps : List (Step FileName)}

/-- One call makes what the next front names, or it is an error, and the way is blocked. -/
theorem mkdir_next (made : Made sys.refuses before defaultMode absolute steps fs) {path : Bytes}
    (seen : cstr path ≠ []) {further : List (Step FileName)}
    (route : routeOf path = ⟨absolute, further⟩) (longer : Longer steps further) :
    (∃ code message, mkdir sys path defaultMode fs = (.failed code message, fs) ∧
        Blocked sys.refuses before absolute further) ∨
      ∃ after, mkdir sys path defaultMode fs = (.okStatus, after) ∧
        Made sys.refuses before defaultMode absolute further after := by
  unfold mkdir callMkdir
  rw [if_neg seen, route]
  obtain ⟨errno, failed, other, blocked⟩ | ⟨failed, kept⟩ | ⟨after, added, made⟩ :=
    made.next longer
  · rw [failed]
    exact .inl ⟨_, _, if_pos other, blocked⟩
  · rw [failed]
    exact .inr ⟨fs, if_neg (not_not.mpr rfl), kept⟩
  · rw [added]
    exact .inr ⟨after, rfl, made⟩

/-- The places that the steps of a path lead to. -/
def along (path : Bytes) (fs : Tree) : List (Place FileName) :=
  visited (fs.start (routeOf path).absolute) (routeOf path).steps

/-- What the loop returns: everything is made, or the way is blocked. -/
def Ends (sys : System) (path : Bytes) (before : Tree) (status : Status) (after : Tree) : Prop :=
  (status = .okStatus ∧
      Made sys.refuses before defaultMode (routeOf path).absolute (routeOf path).steps after) ∨
    status ≠ .okStatus ∧
      Blocked sys.refuses before (routeOf path).absolute (routeOf path).steps ∧
      Grown before defaultMode (along path before) after

/-- A turn makes the front up to the separator, or it is the last. -/
theorem mkdirAllLoop_turn {buf : Bytes} (seen : cstr buf ≠ []) {pos i : Nat} (low : 1 ≤ pos)
    (ready : Ready buf pos steps) (front : steps <+: (routeOf buf).steps)
    (made : Made sys.refuses before defaultMode (routeOf buf).absolute steps fs)
    (found : findFrom isSeparator buf pos = some i) :
    (∃ status, (∀ turns, mkdirAllLoop sys (turns + 1) buf (some i) fs = some (status, fs)) ∧
        Ends sys buf before status fs) ∨
      ∃ after, (∀ turns, mkdirAllLoop sys (turns + 1) buf (some i) fs =
          mkdirAllLoop sys turns buf (findFrom isSeparator buf (i + 1)) after) ∧
        Made sys.refuses before defaultMode (routeOf buf).absolute
          (stepsOf (cstr (buf.take i))) after := by
  obtain ⟨later, here, plain⟩ := findFrom_some found
  have slash := at_separator_iff.mp here
  have high := here.lt
  have positive := low.trans later
  have cut := cstr_cut high
  have route : routeOf (buf.set i 0) =
      ⟨(routeOf buf).absolute, stepsOf (cstr (buf.take i))⟩ := by
    rw [routeOf_congr cut, routeOf_front buf positive]
  have seen_cut : cstr (buf.set i 0) ≠ [] := by
    rwa [cut, ne_eq, cstr_front_eq_nil_iff buf positive]
  obtain ⟨code, message, failed, blocked⟩ | ⟨after, added, more⟩ :=
    mkdir_next made seen_cut route (ready i later high.le plain)
  · refine .inl ⟨.failed code message, fun turns => ?_, .inr ⟨nofun, ?_, ?_⟩⟩
    · unfold mkdirAllLoop
      simp only [failed]
      rfl
    · exact blocked.more (steps_front slash)
    · exact made.grown.more fun place => visited_front _ place front
  · refine .inr ⟨after, fun turns => ?_, more⟩
    rw [mkdirAllLoop, added, restored slash]
    rfl

/-- Behind the last separator the path is left. -/
theorem mkdirAllLoop_last {buf : Bytes} (seen : cstr buf ≠ []) {pos : Nat} (high : pos ≤ buf.length)
    (ready : Ready buf pos steps) (front : steps <+: (routeOf buf).steps)
    (made : Made sys.refuses before defaultMode (routeOf buf).absolute steps fs)
    (missing : findFrom isSeparator buf pos = none) :
    ∃ status after, (∀ turns, mkdirAllLoop sys (turns + 1) buf none fs = some (status, after)) ∧
      Ends sys buf before status after := by
  have longer := ready buf.length high (Nat.le_refl _)
    fun i later _ => findFrom_none missing i later
  rw [List.take_length] at longer
  obtain ⟨code, message, failed, blocked⟩ | ⟨after, added, more⟩ :=
    mkdir_next made seen (rfl : routeOf buf = ⟨(routeOf buf).absolute, (routeOf buf).steps⟩) longer
  · refine ⟨.failed code message, fs, fun turns => ?_, .inr ⟨nofun, blocked, ?_⟩⟩
    · rw [mkdirAllLoop, failed]
    · exact made.grown.more fun place => visited_front _ place front
  · refine ⟨.okStatus, after, fun turns => ?_, .inl ⟨rfl, more⟩⟩
    rw [mkdirAllLoop, added]

/-- The loop returns, from a search position on. -/
theorem mkdirAllLoop_ends {buf : Bytes} (seen : cstr buf ≠ []) {pos : Nat} (low : 1 ≤ pos)
    (high : pos ≤ buf.length) (ready : Ready buf pos steps)
    (front : steps <+: (routeOf buf).steps)
    (made : Made sys.refuses before defaultMode (routeOf buf).absolute steps fs) :
    ∃ status after, (∀ turns, buf.length - pos < turns →
        mkdirAllLoop sys turns buf (findFrom isSeparator buf pos) fs = some (status, after)) ∧
      Ends sys buf before status after := by
  -- The position of the search increases.
  induction left : buf.length - pos using Nat.strongRecOn generalizing pos steps fs with
  | _ left inductionHypothesis =>
    cases found : findFrom isSeparator buf pos with
    | none =>
      obtain ⟨status, after, returns, ends⟩ := mkdirAllLoop_last seen high ready front made found
      refine ⟨status, after, fun turns enough => ?_, ends⟩
      obtain ⟨others, rfl⟩ := Nat.exists_eq_add_of_le' (Nat.one_le_of_lt enough)
      exact returns others
    | some i =>
      obtain ⟨later, here, _⟩ := findFrom_some found
      have inside := here.lt
      have slash := at_separator_iff.mp here
      obtain ⟨status, returns, ends⟩ | ⟨between, goes_on, more⟩ :=
        mkdirAllLoop_turn seen low ready front made found
      · refine ⟨status, fs, fun turns enough => ?_, ends⟩
        obtain ⟨others, rfl⟩ := Nat.exists_eq_add_of_le' (Nat.one_le_of_lt enough)
        exact returns others
      · obtain ⟨status, after, returns, ends⟩ :=
          inductionHypothesis (buf.length - (i + 1)) (by omega) (Nat.le_add_left 1 i) inside
            (ready_next slash) (steps_front slash) more rfl
        refine ⟨status, after, fun turns enough => ?_, ends⟩
        obtain ⟨rest, rfl⟩ := Nat.exists_eq_add_of_le' (Nat.one_le_of_lt enough)
        rw [goes_on]
        exact returns rest (by omega)

theorem mkdir_empty {path : Bytes} (empty : cstr path = []) :
    mkdir sys path defaultMode fs =
      (.errnoToStatus sys.strerror ENOENT (text "failed to mkdir: " ++ path), fs) := by
  rw [mkdir, callMkdir, if_pos empty]
  rfl

/-- A path that is seen as empty is an error. -/
theorem mkdirAll_empty {path : Bytes} (empty : cstr path = []) (mode : Nat) :
    ∃ status, status ≠ .okStatus ∧
      ∀ turns ≥ 1, mkdirAll sys turns path mode fs = some (status, fs) := by
  unfold mkdirAll
  cases found : findFrom isSeparator path 1 with
  | none =>
    refine ⟨.errnoToStatus sys.strerror ENOENT (text "failed to mkdir: " ++ path), nofun, ?_⟩
    intro turns enough
    obtain ⟨others, rfl⟩ := Nat.exists_eq_add_of_le' enough
    rw [mkdirAllLoop, mkdir_empty empty]
  | some i =>
    obtain ⟨later, here, _⟩ := findFrom_some found
    have cut : cstr (path.set i 0) = [] := by
      rwa [cstr_cut here.lt, cstr_front_eq_nil_iff path later]
    refine ⟨.errnoToStatus sys.strerror ENOENT (text "failed to mkdir: " ++ path.set i 0), nofun,
      ?_⟩
    intro turns enough
    obtain ⟨others, rfl⟩ := Nat.exists_eq_add_of_le' enough
    rw [mkdirAllLoop, mkdir_empty cut]
    rfl

/-- The call returns. -/
theorem mkdirAll_ends (sys : System) {path : Bytes} (seen : cstr path ≠ []) (mode : Nat)
    (before : Tree) :
    ∃ status after, (∀ turns ≥ path.length, mkdirAll sys turns path mode before =
        some (status, after)) ∧ Ends sys path before status after := by
  have nonempty : 0 < path.length := by
    rw [List.length_pos_iff]
    rintro rfl
    exact seen rfl
  obtain ⟨status, after, returns, ends⟩ :=
    mkdirAllLoop_ends seen (Nat.le_refl 1) nonempty (ready_first path) List.nil_prefix
      (.nothing before defaultMode _)
  exact ⟨status, after, fun turns enough => returns turns (by omega), ends⟩

end

/-- A directory is where a path leads to. -/
def IsDirectoryAt (fs : Tree) (path : Bytes) : Prop :=
  cstr path ≠ [] ∧ fs.walk (fs.start (routeOf path).absolute) (routeOf path).steps =
    .ok (finish (fs.start (routeOf path).absolute) (routeOf path).steps)

/-- A path, or what is in front of a separator in it. -/
inductive Front (path : Bytes) : Bytes → Prop
  | whole : Front path path
  | before {i : Nat} : 1 ≤ i → path[i]? = some (byte '/') → Front path (path.take i)

/-- A success makes a directory of each front, with the mode that is asked for where there
was none, and changes nothing else. An error changes nothing but to add directories. -/
structure Creates (path : Bytes) (mode : Nat) (before : Tree) (status : Status) (after : Tree) :
    Prop where
  directories : status = .okStatus → ∀ front, Front path front → IsDirectoryAt after front
  modes : status = .okStatus → Grown before mode (along path before) after
  others : status ≠ .okStatus → ∀ place, after.node place = before.node place ∨
    before.node place = none ∧ place ∈ along path before ∧ after.IsDirectory place

/-- The place that a path leads to. -/
def target (path : Bytes) (fs : Tree) : Place FileName :=
  finish (fs.start (routeOf path).absolute) (routeOf path).steps

section

variable {sys : System} {before after : Tree} {path : Bytes}

/-- A front starts like the path, and its steps are the first ones. -/
theorem Front.route {front : Bytes} (is_front : Front path front) (seen : cstr path ≠ []) :
    cstr front ≠ [] ∧ (routeOf front).absolute = (routeOf path).absolute ∧
      (routeOf front).steps <+: (routeOf path).steps := by
  cases is_front with
  | whole => exact ⟨seen, rfl, List.prefix_rfl⟩
  | before some_front slash =>
    rw [routeOf_front path some_front]
    exact ⟨mt (cstr_front_eq_nil_iff path some_front).mp seen, rfl, steps_front slash⟩

/-- Everything that is made is a directory, unless there is a file at the end. -/
theorem made_directory
    (made : Made sys.refuses before defaultMode (routeOf path).absolute (routeOf path).steps after)
    (unlike : before.node (target path before) ≠ some .file) {place : Place FileName}
    (member : place ∈ along path before) : after.IsDirectory place := by
  apply made.grown.directory (made.present place member)
  intro file
  rcases visited_last _ place member with earlier | rfl
  · exact made.free (.inl ⟨place, earlier, file⟩)
  · exact unlike file

/-- All fronts are directories when that is so. -/
theorem made_directories (seen : cstr path ≠ [])
    (made : Made sys.refuses before defaultMode (routeOf path).absolute (routeOf path).steps
      after) :
    (∀ front, Front path front → IsDirectoryAt after front) ↔
      before.node (target path before) ≠ some .file := by
  have start := made.grown.start (routeOf path).absolute
  constructor
  · intro all file
    obtain ⟨_, walked⟩ := all path .whole
    obtain ⟨mode, directory⟩ := Volume.walk_directory (after.start_directory _) walked
    rw [start] at directory
    cases directory.symm.trans (made.grown.file file)
  · intro unlike front is_front
    obtain ⟨some_front, absolute, steps⟩ := is_front.route seen
    refine ⟨some_front, ?_⟩
    rw [after.walk_ok_iff, absolute, start]
    exact fun place member => made_directory made unlike (visited_front _ place steps member)

/-- The mode is the one that is asked for when it is the default, or when nothing is new. -/
theorem made_modes (mode : Nat)
    (made : Made sys.refuses before defaultMode (routeOf path).absolute (routeOf path).steps
      after) :
    Grown before mode (along path before) after ↔
      mode = defaultMode ∨ ∀ place ∈ along path before, before.node place ≠ none := by
  constructor
  · intro grown
    by_contra neither
    rw [not_or] at neither
    obtain ⟨different, some_new⟩ := neither
    push Not at some_new
    obtain ⟨place, member, missing⟩ := some_new
    have present := made.present place member
    obtain same | ⟨_, _, default⟩ := made.grown.node place
    · exact present (same.trans missing)
    obtain same | ⟨_, _, asked⟩ := grown.node place
    · exact present (same.trans missing)
    · cases asked.symm.trans default
      exact different rfl
  · rintro (rfl | all)
    · exact made.grown
    · refine ⟨made.grown.cwd, fun place => ?_⟩
      obtain same | ⟨missing, member, _⟩ := made.grown.node place
      · exact .inl same
      · exact absurd missing (all place member)

end

/-- The tree is made as it is asked for when an error is returned, or when there is no file
where the path leads to, and the mode is the default or nothing is missing. -/
theorem mkdirAll_creates_iff (sys : System) (path : Bytes) (mode : Nat) (before : Tree) :
    ∃ enough status after,
      (∀ turns ≥ enough, mkdirAll sys turns path mode before = some (status, after)) ∧
      (Creates path mode before status after ↔
        cstr path = [] ∨
        Blocked sys.refuses before (routeOf path).absolute (routeOf path).steps ∨
        before.node (target path before) ≠ some .file ∧
          (mode = defaultMode ∨ ∀ place ∈ along path before, before.node place ≠ none)) := by
  by_cases seen : cstr path = []
  · obtain ⟨status, failed, returns⟩ := mkdirAll_empty seen mode
    refine ⟨1, status, before, returns, iff_of_true ?_ (.inl seen)⟩
    exact ⟨fun okay => absurd okay failed, fun okay => absurd okay failed,
      fun _ _ => .inl rfl⟩
  · obtain ⟨status, after, returns, ⟨rfl, made⟩ | ⟨failed, blocked, grown⟩⟩ :=
      mkdirAll_ends sys seen mode before
    · refine ⟨path.length, .okStatus, after, returns, ?_⟩
      rw [or_iff_right seen, or_iff_right made.free, ← made_directories seen made,
        ← made_modes mode made]
      constructor
      · exact fun creates => ⟨creates.directories rfl, creates.modes rfl⟩
      · exact fun ⟨directories, modes⟩ =>
          ⟨fun _ => directories, fun _ => modes, fun failed => absurd rfl failed⟩
    · refine ⟨path.length, status, after, returns, iff_of_true ?_ (.inr (.inl blocked))⟩
      refine ⟨fun okay => absurd okay failed, fun okay => absurd okay failed, fun _ place => ?_⟩
      obtain same | ⟨missing, member, found⟩ := grown.node place
      · exact .inl same
      · exact .inr ⟨missing, member, _, found⟩

/-- A system that refuses nothing. -/
def plainSystem : System := ⟨fun _ => none, fun _ => []⟩

/-- A root directory with a file in it. -/
def oneFile : Tree where
  node place :=
    if place = [] then some (.directory 0o755) else if place = [nameF] then some .file else none
  cwd := []
  root := ⟨0o755, rfl⟩
  working := ⟨0o755, rfl⟩
  closed := by
    intro directory name found
    rw [if_neg (by simp)] at found
    split at found
    next same =>
      have outer : directory = [] := (List.append_eq_singleton_iff.mp same).elim And.left (by simp)
      exact ⟨0o755, if_pos outer⟩
    next => exact absurd rfl found

/-- A directory is made with the default mode although another one is asked for, and a file
is taken for a directory that exists. -/
theorem mode_dropped_and_file_accepted :
    (∃ after, (∀ turns ≥ 1, mkdirAll plainSystem turns (text "d") 0o700 oneFile =
        some (.okStatus, after)) ∧ after.node [nameD] = some (.directory 0o755) ∧
      ¬ Creates (text "d") 0o700 oneFile .okStatus after) ∧
    ∃ after, (∀ turns ≥ 1, mkdirAll plainSystem turns (text "f") 0o755 oneFile =
        some (.okStatus, after)) ∧ after.node [nameF] = some .file ∧
      ¬ Creates (text "f") 0o755 oneFile .okStatus after := by
  have made_one {name : FileName} (mode : Nat) (path : Bytes) (seen : cstr path ≠ [])
      (one : path.length = 1) (route : routeOf path = ⟨false, [.enter name]⟩) :
      ∃ after, (∀ turns ≥ 1, mkdirAll plainSystem turns path mode oneFile =
          some (.okStatus, after)) ∧
        Made plainSystem.refuses oneFile defaultMode (routeOf path).absolute (routeOf path).steps
          after := by
    obtain ⟨status, after, returns, ⟨rfl, made⟩ | ⟨_, blocked, _⟩⟩ :=
      mkdirAll_ends plainSystem seen mode oneFile
    · exact ⟨after, by rwa [one] at returns, made⟩
    · rw [route] at blocked
      obtain ⟨_, member, _⟩ | ⟨_, _, _, refused⟩ := blocked
      · cases member
      · exact absurd rfl refused
  constructor
  · have seen : cstr (text "d") ≠ [] := by decide
    have route : routeOf (text "d") = ⟨false, [.enter nameD]⟩ := by decide
    obtain ⟨after, returns, made⟩ := made_one 0o700 (text "d") seen rfl route
    have member : [nameD] ∈ along (text "d") oneFile := by
      rw [along, route]
      exact List.mem_singleton_self _
    have missing : oneFile.node [nameD] = none := by decide
    refine ⟨after, returns, ?_, fun creates => ?_⟩
    · obtain same | ⟨_, _, added⟩ := made.grown.node [nameD]
      · exact absurd (same.trans missing) (made.present _ member)
      · exact added
    · obtain default | present := (made_modes 0o700 made).mp (creates.modes rfl)
      · exact absurd default (by decide)
      · exact present _ member missing
  · have seen : cstr (text "f") ≠ [] := by decide
    have route : routeOf (text "f") = ⟨false, [.enter nameF]⟩ := by decide
    obtain ⟨after, returns, made⟩ := made_one 0o755 (text "f") seen rfl route
    have file : oneFile.node [nameF] = some .file := by decide
    refine ⟨after, returns, made.grown.file file, fun creates => ?_⟩
    apply (made_directories seen made).mp (creates.directories rfl)
    rw [target, route]
    exact file

end Cppboot.MakeDirs
