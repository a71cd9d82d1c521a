import Cppboot.StrUtil

/-!
# File names as strings

Joining paths, splitting them into components, and taking them apart at the last
separator.

Joining trims the separators where two parts meet and puts one there. A part of
nothing but separators is not trimmed, which does no harm: splitting skips empty
components. A first part that is empty is another matter, because the separator
behind it makes the whole path absolute.

`Dir` looks for the last separator in the view it is given. `Basename` looks for
it in the C string that begins where the view begins, and prefers a slash to a
backslash. The two agree on the C strings in which no backslash follows a slash.
-/

namespace Cppboot.Fs

def kPathSeparator : Bytes := text "/"

/-- Join two parts with one separator between them. -/
def pathJoin (a b : Bytes) : Bytes :=
  strTrimRight a kPathSeparator ++ kPathSeparator ++ strTrim b kPathSeparator

/-- Put one more part behind a path. -/
def appendPart (result part : Bytes) : Bytes :=
  result ++ kPathSeparator ++ strTrim part kPathSeparator

/-- What the overloads of `PathJoin` have in common. -/
def pathJoinParts (a : Bytes) (parts : List Bytes) : Bytes :=
  parts.foldl appendPart (strTrimRight a kPathSeparator)

def pathJoin3 (a b c : Bytes) : Bytes := pathJoinParts a [b, c]

def pathJoin4 (a b c d : Bytes) : Bytes := pathJoinParts a [b, c, d]

def pathJoin5 (a b c d e : Bytes) : Bytes := pathJoinParts a [b, c, d, e]

def isAbsolute (path : Bytes) : Bool := path.head? = some (byte '/')

/-- The root, if the path is absolute, and its parts that are not empty. -/
def pathSplit (path : Bytes) : List Bytes :=
  if path.isEmpty then []
  else
    (if isAbsolute path then [text "/"] else []) ++
      (strSplit path (byte '/')).filter (!·.isEmpty)

/-- The components without the root in front of them. -/
def comps (path : Bytes) : List Bytes :=
  if (pathSplit path).head? = some (text "/") then (pathSplit path).tail else pathSplit path

/-- The texts between separators. -/
def segments (s : Bytes) : List Bytes := (strSplitFrom (byte '/') [] s).filter (!·.isEmpty)

/-- The parts of a path are its segments. -/
theorem pathSplit_eq (path : Bytes) :
    pathSplit path = (if isAbsolute path then [text "/"] else []) ++ segments path := by
  cases path with
  | nil => rfl
  | cons c path => rfl

/-- No segment is the root. -/
theorem root_not_segment (s : Bytes) : text "/" ∉ segments s := by
  intro member
  have plain : byte '/' ∉ text "/" :=
    strSplitFrom_unstopped List.not_mem_nil s _ (List.mem_of_mem_filter member)
  exact plain (List.mem_singleton.mpr rfl)

theorem comps_eq (path : Bytes) : comps path = segments path := by
  unfold comps
  rw [pathSplit_eq]
  by_cases absolute : isAbsolute path = true
  · rw [if_pos absolute]
    exact if_pos rfl
  · rw [if_neg absolute, List.nil_append, if_neg]
    exact fun root => root_not_segment path (List.mem_of_mem_head? root)

/-- A slash separates the segments in front of it from those behind. -/
theorem segments_append (front behind : Bytes) :
    segments (front ++ byte '/' :: behind) = segments front ++ segments behind := by
  rw [segments, strSplitFrom_append, List.filter_append]
  rfl

/-- Slashes at the end are in no segment. -/
theorem segments_slashes (front : Bytes) {slashes : Bytes} (all : ∀ c ∈ slashes, c = byte '/') :
    segments (front ++ slashes) = segments front := by
  induction slashes generalizing front with
  | nil => rw [List.append_nil]
  | cons c slashes inductionHypothesis =>
    obtain ⟨rfl, others⟩ := List.forall_mem_cons.mp all
    have nothing : segments slashes = segments [] := inductionHypothesis [] others
    rw [segments_append, nothing]
    exact List.append_nil _

/-- Slashes in front are in no segment. -/
theorem slashes_segments {slashes : Bytes} (all : ∀ c ∈ slashes, c = byte '/') (s : Bytes) :
    segments (slashes ++ s) = segments s := by
  induction slashes with
  | nil => rfl
  | cons c slashes inductionHypothesis =>
    obtain ⟨rfl, others⟩ := List.forall_mem_cons.mp all
    have behind := segments_append [] (slashes ++ s)
    rw [List.nil_append] at behind
    rw [List.cons_append, behind, inductionHypothesis others]
    rfl

/-- The trimmed characters are slashes. -/
theorem separator_of_cutset {c : UInt8} (cut : (cutsetOf kPathSeparator).contains c = true) :
    c = byte '/' := by
  have cutset : cutsetOf kPathSeparator = [byte '/'] := rfl
  rw [cutset] at cut
  simpa using cut

/-- Trimming takes slashes off the front. -/
theorem strTrimLeft_separator (s : Bytes) :
    ∃ slashes, s = slashes ++ strTrimLeft s kPathSeparator ∧ ∀ c ∈ slashes, c = byte '/' := by
  unfold strTrimLeft
  dsimp only
  split
  next => exact ⟨[], rfl, by simp⟩
  next =>
    refine ⟨_, List.takeWhile_append_dropWhile.symm, ?_⟩
    intro c member
    exact separator_of_cutset (List.mem_takeWhile_imp member)

/-- Trimming takes slashes off the end. -/
theorem strTrimRight_separator (s : Bytes) :
    ∃ slashes, s = strTrimRight s kPathSeparator ++ slashes ∧ ∀ c ∈ slashes, c = byte '/' := by
  unfold strTrimRight
  dsimp only
  split
  next => exact ⟨[], (List.append_nil s).symm, by simp⟩
  next =>
    refine ⟨(s.reverse.takeWhile ((cutsetOf kPathSeparator).contains ·)).reverse, ?_, ?_⟩
    · rw [← List.reverse_append, List.takeWhile_append_dropWhile, List.reverse_reverse]
    · intro c member
      exact separator_of_cutset (List.mem_takeWhile_imp (List.mem_reverse.mp member))

/-- Something is left of a path when slashes are trimmed off. -/
theorem strTrimRight_ne_nil {s : Bytes} (nonempty : s ≠ []) :
    strTrimRight s kPathSeparator ≠ [] := by
  unfold strTrimRight
  dsimp only
  split
  next => exact nonempty
  next kept =>
    intro nothing
    rw [nothing] at kept
    exact kept rfl

/-- Slashes at the end make no segment. -/
theorem segments_trimRight (s : Bytes) :
    segments (strTrimRight s kPathSeparator) = segments s := by
  obtain ⟨slashes, split, all⟩ := strTrimRight_separator s
  conv_rhs => rw [split, segments_slashes _ all]

/-- Slashes on both sides make none. -/
theorem segments_trim (s : Bytes) : segments (strTrim s kPathSeparator) = segments s := by
  obtain ⟨slashes, split, all⟩ := strTrimLeft_separator s
  rw [strTrim, segments_trimRight]
  conv_rhs => rw [split, slashes_segments all]

/-- The first character of a path is that of its trimmed form. -/
theorem head_trimRight {s : Bytes} (nonempty : s ≠ []) :
    (strTrimRight s kPathSeparator).head? = s.head? := by
  obtain ⟨slashes, split, _⟩ := strTrimRight_separator s
  conv_rhs => rw [split, List.head?_append_of_ne_nil _ (strTrimRight_ne_nil nonempty)]

/-- The segments of a join are those of its parts, in order. -/
theorem segments_parts (result : Bytes) (parts : List Bytes) :
    segments (parts.foldl appendPart result) = segments result ++ parts.flatMap segments := by
  induction parts generalizing result with
  | nil => exact (List.append_nil _).symm
  | cons part parts inductionHypothesis =>
    have appended : segments (appendPart result part) = segments result ++ segments part := by
      have separated : appendPart result part =
          result ++ byte '/' :: strTrim part kPathSeparator := by
        rw [appendPart, List.append_assoc]
        rfl
      rw [separated, segments_append, segments_trim]
    rw [List.foldl_cons, inductionHypothesis, appended, List.append_assoc, List.flatMap_cons]

/-- What is put behind a path leaves its first character alone. -/
theorem head_parts {result : Bytes} (nonempty : result ≠ []) (parts : List Bytes) :
    (parts.foldl appendPart result).head? = result.head? := by
  induction parts generalizing result with
  | nil => rfl
  | cons part parts inductionHypothesis =>
    have front : appendPart result part =
        result ++ (kPathSeparator ++ strTrim part kPathSeparator) := List.append_assoc ..
    have longer : appendPart result part ≠ [] := by
      rw [front]
      exact List.append_ne_nil_of_left_ne_nil nonempty _
    rw [List.foldl_cons, inductionHypothesis longer, front, List.head?_append_of_ne_nil _ nonempty]

/-- A join is absolute when its first part is. -/
theorem isAbsolute_parts {a : Bytes} (nonempty : a ≠ []) (parts : List Bytes) :
    isAbsolute (pathJoinParts a parts) = isAbsolute a := by
  rw [isAbsolute, pathJoinParts, head_parts (strTrimRight_ne_nil nonempty), head_trimRight nonempty]
  rfl

/-- A join onto the empty path begins with the separator. -/
theorem isAbsolute_nothing (b : Bytes) (parts : List Bytes) :
    isAbsolute (pathJoinParts [] (b :: parts)) = true := by
  have longer : appendPart (strTrimRight [] kPathSeparator) b ≠ [] := nofun
  rw [isAbsolute, pathJoinParts, List.foldl_cons, head_parts longer]
  rfl

/-- A join has the components of the first part and, behind them, those of the others; it
is relative when the first part is. -/
structure Joins (joined a : Bytes) (parts : List Bytes) : Prop where
  components : pathSplit joined = pathSplit a ++ parts.flatMap comps
  relative : isAbsolute a = false → isAbsolute joined = false

/-- A join does what it should unless its first part is empty. -/
theorem joins_iff (a b : Bytes) (parts : List Bytes) :
    Joins (pathJoinParts a (b :: parts)) a (b :: parts) ↔ a ≠ [] := by
  constructor
  · rintro ⟨_, relative⟩ rfl
    have absolute := isAbsolute_nothing b parts
    rw [relative rfl] at absolute
    exact Bool.noConfusion absolute
  · intro nonempty
    have same := isAbsolute_parts nonempty (b :: parts)
    have inside : segments (pathJoinParts a (b :: parts)) =
        segments a ++ (b :: parts).flatMap segments := by
      rw [pathJoinParts, segments_parts, segments_trimRight]
    have plain : comps = segments := funext comps_eq
    refine ⟨?_, fun relative => same.trans relative⟩
    rw [pathSplit_eq, pathSplit_eq, same, inside, plain, List.append_assoc]

/-- Joining and splitting agree unless the first part is empty, for every number of parts. -/
theorem path_join_split_iff (a b c d e : Bytes) :
    (Joins (pathJoin a b) a [b] ↔ a ≠ []) ∧
      (Joins (pathJoin3 a b c) a [b, c] ↔ a ≠ []) ∧
      (Joins (pathJoin4 a b c d) a [b, c, d] ↔ a ≠ []) ∧
      (Joins (pathJoin5 a b c d e) a [b, c, d, e] ↔ a ≠ []) :=
  ⟨joins_iff a b [], joins_iff a b [c], joins_iff a b [c, d], joins_iff a b [c, d, e]⟩

/-- The default directory of the plugin loader is empty, and the plugin is looked for in the
root of the file system. -/
theorem empty_directory_rooted :
    pathJoin [] (text "libplugin_x.so") = text "/libplugin_x.so" ∧
      pathSplit (pathJoin [] (text "libplugin_x.so")) = [text "/", text "libplugin_x.so"] ∧
      pathSplit [] ++ comps (text "libplugin_x.so") = [text "libplugin_x.so"] ∧
      ¬ Joins (pathJoin [] (text "libplugin_x.so")) [] [text "libplugin_x.so"] := by
  refine ⟨by decide, by decide, by decide, ?_⟩
  rintro ⟨_, relative⟩
  exact absurd (relative rfl) (by decide)

/-- The position of the last character of a set. -/
def findLastOfAny (s chars : Bytes) : Option Nat :=
  (s.reverse.findIdx? (chars.contains ·)).map fun behind => s.length - 1 - behind

/-- `Dir`: what stands in front of the last separator. -/
def dir (path : Bytes) : Bytes :=
  match findLastOfAny path (text "/\\") with
  | some pos => path.take pos
  | none => []

/-- Where a search through memory ends: what it found, from there on, and how many
characters it looked at. -/
structure Search where
  found : Option Bytes
  looked : Nat

/-- The last such character of the C string at the beginning of memory. Without a NUL in
memory the search leaves it, and there is no result. -/
def strrchr : Bytes → UInt8 → Option Search
  | [], _ => none
  | b :: rest, c =>
    let here := if b = c then some (b :: rest) else none
    if b = 0 then some ⟨here, 1⟩
    else (strrchr rest c).map fun later => ⟨later.found.or here, later.looked + 1⟩

/-- The name, and how many characters are looked at to find it. A view has `path` in it,
and `behind` is the memory that follows; a null view is an empty one with none. -/
def basename (path behind : Bytes) : Option (Bytes × Nat) :=
  match strrchr (path ++ behind) (byte '/') with
  | none => none
  | some ⟨some slash, looked⟩ => some (cstr (slash.drop 1), looked)
  | some ⟨none, _⟩ =>
    match strrchr (path ++ behind) (byte '\\') with
    | none => none
    | some ⟨some slash, looked⟩ => some (cstr (slash.drop 1), looked)
    | some ⟨none, looked⟩ => some (path, looked)

/-- Both kinds of slashes separate here. -/
def isSeparator (c : UInt8) : Bool := c = byte '/' ∨ c = byte '\\'

/-- The last separator of a path. -/
def lastSeparator (path : Bytes) : Option UInt8 := path.reverse.find? isSeparator

/-- The directory, the last separator and this name make up the path. Without a separator
the name is the whole path. -/
def Decomposes (path base : Bytes) : Prop :=
  match lastSeparator path with
  | some s => path = dir path ++ s :: base
  | none => dir path = [] ∧ base = path

/-- `Dir` and `Basename` take the path apart. -/
def Decomposed (path behind : Bytes) : Prop :=
  ∃ base looked, basename path behind = some (base, looked) ∧ Decomposes path base

/-- `Basename` looks at characters of the view only. -/
def WithinView (path behind : Bytes) : Prop :=
  ∃ base looked, basename path behind = some (base, looked) ∧ looked ≤ path.length

/-- What stands behind the last slash of a text, or behind its last backslash when there is
no slash. -/
def lastName (s : Bytes) : Bytes :=
  if byte '/' ∈ s then s.rtakeWhile (· ≠ byte '/') else s.rtakeWhile (· ≠ byte '\\')

/-- Neither of the two separators is there. -/
theorem unseparated {s : Bytes} (slash : byte '/' ∉ s) (backslash : byte '\\' ∉ s) :
    ∀ c ∈ s, isSeparator c = false := by
  intro c member
  rw [Bool.eq_false_iff]
  intro separator
  rcases of_decide_eq_true separator with rfl | rfl
  · exact slash member
  · exact backslash member

theorem contains_separators (c : UInt8) : (text "/\\").contains c = isSeparator c := by
  have chars : text "/\\" = [byte '/', byte '\\'] := rfl
  rw [chars, isSeparator]
  simp

/-- `Dir` is what stands in front of the last separator. -/
theorem dir_cut (front : Bytes) {s : UInt8} {name : Bytes} (stops : isSeparator s = true)
    (plain : ∀ c ∈ name, isSeparator c = false) : dir (front ++ s :: name) = front := by
  rw [dir, findLastOfAny, funext contains_separators, findIdx?_reverse_behind front stops plain]
  simp

/-- Without a separator there is no directory. -/
theorem dir_plain {path : Bytes} (plain : ∀ c ∈ path, isSeparator c = false) :
    dir path = [] := by
  rw [dir, findLastOfAny, funext contains_separators, findIdx?_reverse_none plain]
  rfl

/-- Without a separator the whole path is the name. -/
theorem whole_plain {path : Bytes} (plain : ∀ c ∈ path, isSeparator c = false) :
    path.rtakeWhile (!isSeparator ·) = path :=
  List.rtakeWhile_eq_self_iff.mpr fun c member => by simp [plain c member]

/-- What follows the last separator, when this is the last one. -/
theorem behind_separator (front : Bytes) {s : UInt8} {name : Bytes} (stops : isSeparator s = true)
    (plain : ∀ c ∈ name, isSeparator c = false) :
    (front ++ s :: name).rtakeWhile (!isSeparator ·) = name :=
  rtakeWhile_behind front (by simp [stops]) fun c member => by simp [plain c member]

/-- A path without separators has no last one. -/
theorem lastSeparator_plain {path : Bytes} (plain : ∀ c ∈ path, isSeparator c = false) :
    lastSeparator path = none := by
  apply List.find?_eq_none.mpr
  intro c member
  rw [plain c (List.mem_reverse.mp member)]
  exact Bool.false_ne_true

/-- In front of a plain name stands the last separator. -/
theorem lastSeparator_cut (front : Bytes) {s : UInt8} {name : Bytes} (stops : isSeparator s = true)
    (plain : ∀ c ∈ name, isSeparator c = false) :
    lastSeparator (front ++ s :: name) = some s := by
  have nothing : name.reverse.find? isSeparator = none := lastSeparator_plain plain
  rw [lastSeparator, List.reverse_append, List.reverse_cons, List.append_assoc,
    List.singleton_append, List.find?_append, nothing, Option.none_or,
    List.find?_cons_of_pos stops]

/-- A name decomposes a path only when it is what follows the last separator. -/
theorem decomposes_iff (path base : Bytes) :
    Decomposes path base ↔ base = path.rtakeWhile (!isSeparator ·) := by
  unfold Decomposes
  by_cases separated : ∃ c ∈ path, isSeparator c = true
  · obtain ⟨front, s, name, rfl, stops, plain⟩ := last_where separated
    rw [lastSeparator_cut front stops plain, dir_cut front stops plain,
      behind_separator front stops plain]
    constructor
    · intro same
      simpa using same.symm
    · rintro rfl
      rfl
  · have plain : ∀ c ∈ path, isSeparator c = false := fun c member =>
      Bool.eq_false_iff.mpr fun stops => separated ⟨c, member, stops⟩
    rw [lastSeparator_plain plain, whole_plain plain]
    exact ⟨fun both => both.2, fun same => ⟨dir_plain plain, same⟩⟩

instance (path base : Bytes) : Decidable (Decomposes path base) :=
  decidable_of_iff _ (decomposes_iff path base).symm

/-- Memory without a NUL has no C string at its beginning. -/
theorem strrchr_outside {memory : Bytes} (unended : 0 ∉ memory) (c : UInt8) :
    strrchr memory c = none := by
  induction memory with
  | nil => rfl
  | cons b memory inductionHypothesis =>
    rw [List.mem_cons, not_or] at unended
    rw [strrchr, if_neg (Ne.symm unended.1), inductionHypothesis unended.2]
    rfl

/-- A character that the C string does not hold is not found. -/
theorem strrchr_none {seen : Bytes} {c : UInt8} (plain : 0 ∉ seen) (nonzero : c ≠ 0)
    (absent : c ∉ seen) (rest : Bytes) :
    strrchr (seen ++ 0 :: rest) c = some ⟨none, seen.length + 1⟩ := by
  induction seen with
  | nil =>
    rw [List.nil_append, strrchr, if_neg (Ne.symm nonzero), if_pos rfl]
    rfl
  | cons b seen inductionHypothesis =>
    rw [List.mem_cons, not_or] at plain absent
    rw [List.cons_append, strrchr, if_neg (Ne.symm absent.1), if_neg (Ne.symm plain.1),
      inductionHypothesis plain.2 absent.2]
    rfl

/-- The last occurrence in the C string is found. -/
theorem strrchr_last {front name : Bytes} {c : UInt8} (plain : 0 ∉ front ++ c :: name)
    (last : c ∉ name) (rest : Bytes) :
    strrchr ((front ++ c :: name) ++ 0 :: rest) c =
      some ⟨some (c :: name ++ 0 :: rest), (front ++ c :: name).length + 1⟩ := by
  induction front with
  | nil =>
    rw [List.nil_append, List.mem_cons, not_or] at plain
    rw [List.nil_append, List.cons_append, strrchr, if_neg (Ne.symm plain.1),
      strrchr_none plain.2 (Ne.symm plain.1) last, if_pos rfl]
    rfl
  | cons b front inductionHypothesis =>
    rw [List.cons_append, List.mem_cons, not_or] at plain
    rw [List.cons_append, List.cons_append, strrchr, if_neg (Ne.symm plain.1),
      inductionHypothesis plain.2]
    rfl

/-- The C string behind a character of another one. -/
theorem cstr_name {front name : Bytes} {c : UInt8} (plain : 0 ∉ front ++ c :: name)
    (rest : Bytes) : cstr ((c :: name ++ 0 :: rest).drop 1) = name := by
  have ended : 0 ∉ name := fun nul => plain (by simp [nul])
  exact (cut_at_stop ended rest).1

/-- Without a NUL in memory there is no name. -/
theorem basename_outside {path behind : Bytes} (unended : 0 ∉ path ++ behind) :
    basename path behind = none := by
  rw [basename, strrchr_outside unended]

/-- The name is found in the C string that begins where the view does. -/
theorem basename_cstring {path behind seen rest : Bytes}
    (memory : path ++ behind = seen ++ 0 :: rest) (plain : 0 ∉ seen) :
    basename path behind =
      some (if seen.any isSeparator then lastName seen else path, seen.length + 1) := by
  rw [basename, memory, lastName]
  by_cases slash : byte '/' ∈ seen
  · have separated : seen.any isSeparator = true := List.any_eq_true.mpr ⟨_, slash, rfl⟩
    rw [if_pos separated, if_pos slash]
    obtain ⟨front, name, rfl, unslashed⟩ := last_stop slash
    rw [strrchr_last plain unslashed, rtakeWhile_stop front unslashed]
    dsimp only
    rw [cstr_name plain]
  · rw [strrchr_none plain (by decide) slash, if_neg slash]
    by_cases backslash : byte '\\' ∈ seen
    · have separated : seen.any isSeparator = true := List.any_eq_true.mpr ⟨_, backslash, rfl⟩
      rw [if_pos separated]
      obtain ⟨front, name, rfl, unslashed⟩ := last_stop backslash
      rw [strrchr_last plain unslashed, rtakeWhile_stop front unslashed]
      dsimp only
      rw [cstr_name plain]
    · have nothing : seen.any isSeparator = false :=
        List.any_eq_false.mpr fun c member => by simp [unseparated slash backslash c member]
      rw [strrchr_none plain (by decide) backslash, nothing]
      rfl

/-- In a view without a NUL, `Basename` looks for one behind it. -/
theorem within_view_iff (path behind : Bytes) : WithinView path behind ↔ 0 ∈ path := by
  constructor
  · rintro ⟨base, looked, named, bounded⟩
    by_contra plain
    by_cases ended : 0 ∈ behind
    · obtain ⟨more, rest, rfl, unended⟩ := List.eq_append_cons_of_mem ended
      have memory : path ++ (more ++ 0 :: rest) = (path ++ more) ++ 0 :: rest := by simp
      have seen : 0 ∉ path ++ more := by simp [plain, unended]
      rw [basename_cstring memory seen] at named
      obtain ⟨_, rfl⟩ := Prod.mk.inj (Option.some.inj named)
      rw [List.length_append] at bounded
      omega
    · rw [basename_outside (by simp [plain, ended])] at named
      cases named
  · intro nul
    obtain ⟨seen, rest, rfl, plain⟩ := List.eq_append_cons_of_mem nul
    have memory : (seen ++ 0 :: rest) ++ behind = seen ++ 0 :: (rest ++ behind) := by simp
    refine ⟨_, _, basename_cstring memory plain, ?_⟩
    rw [List.length_append, List.length_cons]
    omega

/-- The name that is found decomposes the view when it is what follows the last separator. -/
theorem decomposed_iff {path behind seen rest : Bytes}
    (memory : path ++ behind = seen ++ 0 :: rest) (plain : 0 ∉ seen) :
    Decomposed path behind ↔
      (if seen.any isSeparator then lastName seen else path) =
        path.rtakeWhile (!isSeparator ·) := by
  unfold Decomposed
  rw [basename_cstring memory plain, ← decomposes_iff]
  constructor
  · rintro ⟨base, looked, named, decomposes⟩
    obtain ⟨rfl, _⟩ := Prod.mk.inj (Option.some.inj named)
    exact decomposes
  · exact fun decomposes => ⟨_, _, rfl, decomposes⟩

/-- The preference for a slash matters when a backslash follows the last one. -/
theorem lastName_iff (path : Bytes) :
    lastName path = path.rtakeWhile (!isSeparator ·) ↔
      ¬ (byte '/' ∈ path ∧ byte '\\' ∈ path.rtakeWhile (· ≠ byte '/')) := by
  unfold lastName
  by_cases slash : byte '/' ∈ path
  · rw [if_pos slash]
    obtain ⟨front, name, rfl, unslashed⟩ := last_stop slash
    rw [rtakeWhile_stop front unslashed]
    constructor
    · rintro same ⟨_, backslash⟩
      rw [same] at backslash
      exact absurd (List.mem_rtakeWhile_imp backslash) (by decide)
    · intro unmixed
      have unbackslashed : byte '\\' ∉ name := fun member => unmixed ⟨slash, member⟩
      exact (behind_separator front rfl (unseparated unslashed unbackslashed)).symm
  · rw [if_neg slash]
    refine ⟨fun _ both => slash both.1, fun _ => ?_⟩
    by_cases backslash : byte '\\' ∈ path
    · obtain ⟨front, name, rfl, unbackslashed⟩ := last_stop backslash
      have unslashed : byte '/' ∉ name := fun member => slash (by simp [member])
      rw [rtakeWhile_stop front unbackslashed,
        behind_separator front rfl (unseparated unslashed unbackslashed)]
    · rw [whole_plain (unseparated slash backslash)]
      exact List.rtakeWhile_eq_self_iff.mpr (kept_of_not_mem backslash)

/-- The same name stands in front of the first NUL and at the end, each time behind a
separator; in front of the NUL this is a backslash only when there is no slash. -/
def NamedTwice (path : Bytes) : Prop :=
  ∃ front q name middle s,
    path = (front ++ q :: name) ++ 0 :: (middle ++ s :: name) ∧ 0 ∉ front ++ q :: name ∧
      isSeparator q = true ∧ isSeparator s = true ∧ (∀ c ∈ name, isSeparator c = false) ∧
      (q = byte '\\' → byte '/' ∉ front)

/-- Where the last name of a text is cut off. -/
theorem lastName_split {seen : Bytes} (separated : ∃ c ∈ seen, isSeparator c = true) :
    ∃ front q, seen = front ++ q :: lastName seen ∧ isSeparator q = true ∧
      (q = byte '\\' → byte '/' ∉ front) := by
  unfold lastName
  by_cases slash : byte '/' ∈ seen
  · rw [if_pos slash]
    obtain ⟨front, name, rfl, unslashed⟩ := last_stop slash
    rw [rtakeWhile_stop front unslashed]
    exact ⟨front, byte '/', rfl, rfl, fun other => absurd other (by decide)⟩
  · have backslash : byte '\\' ∈ seen := by
      by_contra backslash
      obtain ⟨c, member, separator⟩ := separated
      rw [unseparated slash backslash c member] at separator
      cases separator
    rw [if_neg slash]
    obtain ⟨front, name, rfl, unslashed⟩ := last_stop backslash
    rw [rtakeWhile_stop front unslashed]
    exact ⟨front, byte '\\', rfl, rfl, fun _ member => slash (List.mem_append_left _ member)⟩

/-- Behind the last separator stands the last name. -/
theorem lastName_cut {front name : Bytes} {q : UInt8} (stops : isSeparator q = true)
    (plain : ∀ c ∈ name, isSeparator c = false) (alone : q = byte '\\' → byte '/' ∉ front) :
    lastName (front ++ q :: name) = name := by
  have unslashed : byte '/' ∉ name := fun member => nomatch plain _ member
  have unbackslashed : byte '\\' ∉ name := fun member => nomatch plain _ member
  unfold lastName
  rcases of_decide_eq_true stops with rfl | rfl
  · rw [if_pos (by simp), rtakeWhile_stop front unslashed]
  · have slash : byte '/' ∉ front ++ byte '\\' :: name := by
      rw [List.mem_append, List.mem_cons, not_or, not_or]
      exact ⟨alone rfl, by decide, unslashed⟩
    rw [if_neg slash, rtakeWhile_stop front unbackslashed]

/-- The name in front of the NUL is the right one when it stands there a second time. -/
theorem named_twice_iff {seen : Bytes} (plain : 0 ∉ seen) (rest : Bytes)
    (separated : ∃ c ∈ seen, isSeparator c = true) :
    lastName seen = (seen ++ 0 :: rest).rtakeWhile (!isSeparator ·) ↔
      NamedTwice (seen ++ 0 :: rest) := by
  constructor
  · intro same
    obtain ⟨front, q, cut, stops, alone⟩ := lastName_split separated
    obtain ⟨c, member, separator⟩ := separated
    obtain ⟨start, s, name, whole, last, unnamed⟩ :=
      last_where ⟨c, List.mem_append_left (0 :: rest) member, separator⟩
    rw [whole, behind_separator start last unnamed] at same
    rw [same] at cut
    have nonzero : 0 ∉ s :: name := by
      rw [List.mem_cons, not_or]
      refine ⟨?_, fun nul => plain (by rw [cut]; simp [nul])⟩
      rintro rfl
      cases last
    -- The last separator is not in front of the NUL, because no NUL follows it.
    have reached : 0 ∈ start := by
      have nul : 0 ∈ start ++ s :: name := whole ▸ List.mem_append_right _ List.mem_cons_self
      exact (List.mem_append.mp nul).resolve_right nonzero
    obtain ⟨middle, _, behind⟩ := cut_behind_stop plain whole.symm reached
    refine ⟨front, q, name, middle, s, ?_, cut ▸ plain, stops, last, unnamed, alone⟩
    rw [← cut, behind]
  · rintro ⟨front, q, name, middle, s, whole, unended, stops, last, unnamed, alone⟩
    obtain ⟨rfl, rfl⟩ := same_cut plain unended whole
    have regrouped : (front ++ q :: name) ++ 0 :: (middle ++ s :: name) =
        ((front ++ q :: name) ++ 0 :: middle) ++ s :: name := by simp
    rw [lastName_cut stops unnamed alone, regrouped, behind_separator _ last unnamed]

/-- With a NUL in the view, the name is found in front of the first one. -/
theorem decomposed_nul_iff {path : Bytes} (nul : 0 ∈ path) (behind : Bytes) :
    Decomposed path behind ↔ (∀ c ∈ path, isSeparator c = false) ∨ NamedTwice path := by
  obtain ⟨seen, rest, rfl, plain⟩ := List.eq_append_cons_of_mem nul
  have memory : (seen ++ 0 :: rest) ++ behind = seen ++ 0 :: (rest ++ behind) := by simp
  rw [decomposed_iff memory plain]
  by_cases separated : ∃ c ∈ seen, isSeparator c = true
  · rw [if_pos (List.any_eq_true.mpr separated), named_twice_iff plain rest separated]
    refine ⟨.inr, fun either => either.resolve_left fun nothing => ?_⟩
    obtain ⟨c, member, separator⟩ := separated
    rw [nothing c (List.mem_append_left _ member)] at separator
    cases separator
  · -- Without a separator in front of the NUL the result is the whole view.
    rw [if_neg fun found => separated (List.any_eq_true.mp found), eq_comm,
      List.rtakeWhile_eq_self_iff]
    constructor
    · exact fun kept => .inl fun c member => by simpa using kept c member
    · rintro (nothing | ⟨front, q, name, middle, s, whole, unended, stops, _⟩)
      · exact fun c member => by simp [nothing c member]
      · obtain ⟨rfl, _⟩ := same_cut plain unended whole
        exact absurd ⟨q, by simp, stops⟩ separated

/-- A C string is taken apart unless a backslash follows its last slash. -/
theorem decomposed_cstring_iff {path : Bytes} (plain : 0 ∉ path) (more : Bytes) :
    Decomposed path (0 :: more) ↔
      ¬ (byte '/' ∈ path ∧ byte '\\' ∈ path.rtakeWhile (· ≠ byte '/')) := by
  rw [decomposed_iff rfl plain, ← lastName_iff]
  by_cases separated : path.any isSeparator = true
  · rw [if_pos separated]
  · have nothing : ∀ c ∈ path, isSeparator c = false := by simpa using separated
    have slash : byte '/' ∉ path := fun member => nomatch nothing _ member
    have backslash : byte '\\' ∉ path := fun member => nomatch nothing _ member
    rw [if_neg separated, lastName, if_neg slash,
      List.rtakeWhile_eq_self_iff.mpr (kept_of_not_mem backslash)]

/-- `Dir` and `Basename` take a view apart without looking behind it only when there is a NUL
in it, and no separator or the same name twice. They take a C string apart, with a look at its
NUL, unless a backslash follows its last slash. -/
theorem dir_basename_iff (path behind : Bytes) :
    (Decomposed path behind ∧ WithinView path behind ↔
      0 ∈ path ∧ ((∀ c ∈ path, isSeparator c = false) ∨ NamedTwice path)) ∧
      (0 ∉ path → behind.head? = some 0 →
        (Decomposed path behind ↔
          ¬ (byte '/' ∈ path ∧ byte '\\' ∈ path.rtakeWhile (· ≠ byte '/')))) := by
  constructor
  · rw [within_view_iff, and_comm]
    exact and_congr_right fun nul => decomposed_nul_iff nul behind
  · intro plain ended
    obtain ⟨more, rfl⟩ := List.head?_eq_some_iff.mp ended
    exact decomposed_cstring_iff plain more

/-- A path to a file, and a name with a NUL behind it. -/
theorem file_path_decomposed :
    Decomposed (text "/path/to/file") [0] ∧
      Decomposed (text "name" ++ [0]) [] ∧ WithinView (text "name" ++ [0]) [] :=
  ⟨((dir_basename_iff (text "/path/to/file") [0]).2 (by decide) rfl).mpr
      (by decide),
    (dir_basename_iff (text "name" ++ [0]) []).1.mpr ⟨by decide +kernel, .inl (by decide +kernel)⟩⟩

/-- `Basename` prefers the slash to the backslash behind it, looks at the NUL behind the view,
and takes the name of a slice from the string it was cut out of. -/
theorem mixed_path_misnamed :
    dir (text "a/b\\c") = text "a/b" ∧
      basename (text "a/b\\c") [0] = some (text "b\\c", 6) ∧
      ¬ Decomposed (text "a/b\\c") [0] ∧ ¬ WithinView (text "a/b\\c") [0] ∧
      basename (text "a") (text "/b" ++ [0]) = some (text "b", 4) ∧
      ¬ Decomposed (text "a") (text "/b" ++ [0]) := by
  have mixed : basename (text "a/b\\c") [0] = some (text "b\\c", 6) := by decide
  have slice : basename (text "a") (text "/b" ++ [0]) = some (text "b", 4) := by decide
  refine ⟨by decide, mixed, ?_, ?_, slice, ?_⟩
  · rintro ⟨base, looked, named, decomposes⟩
    obtain ⟨rfl, _⟩ := Prod.mk.inj (Option.some.inj (mixed.symm.trans named))
    exact absurd decomposes (by decide)
  · rintro ⟨base, looked, named, bounded⟩
    obtain ⟨_, rfl⟩ := Prod.mk.inj (Option.some.inj (mixed.symm.trans named))
    exact absurd bounded (by decide)
  · rintro ⟨base, looked, named, decomposes⟩
    obtain ⟨rfl, _⟩ := Prod.mk.inj (Option.some.inj (slice.symm.trans named))
    exact absurd decomposes (by decide)

end Cppboot.Fs
