import Mathlib.Data.List.Infix
import Cppboot.Decimal
import Cppboot.Inodes
import Cppboot.StatusState

/-!
# Copying a file

`CopyFile` opens both files before it reads anything. Opening the copy for writing empties
it, and with it the original if that is the same file, under the same name or another.
Nothing is left to be read then, and this is a success.

A copy that ends with a success is complete as far as `fwrite` tells. What is still in
the buffer of the stream is written by `fclose`, whose result is not looked at.
-/

namespace Cppboot.Copy

open Inodes

/-- Names are what the system sees of a string. -/
abbrev Disk := Files Bytes UInt8

/-- How a file is opened. -/
inductive Access where
  | read
  | write
deriving DecidableEq, Repr

/-- What the system does with the files during a call. -/
structure Io where
  /-- The error that a file cannot be opened for. -/
  refuses : Access → Bytes → Option Int
  /-- Reading fails from this position on. -/
  readError : Option Nat
  /-- So many bytes are accepted for writing. -/
  room : Option Nat
  /-- So many of the last ones do not reach the file. -/
  lost : Nat
  strerror : Int → Bytes

def ENOENT : Int := 2

section

variable (io : Io)

/-- Open a file that exists. -/
def fopenRead (path : Bytes) (fs : Disk) : Except Int Nat :=
  match io.refuses .read (cstr path) with
  | some errno => .error errno
  | none =>
    match fs.find (cstr path) with
    | none => .error ENOENT
    | some inode => .ok inode

/-- Open a file and empty it, or make it. -/
def fopenWrite (path : Bytes) (fs : Disk) : Except Int (Nat × Disk) :=
  match io.refuses .write (cstr path) with
  | some errno => .error errno
  | none =>
    match fs.openWrite (cstr path) with
    | none => .error ENOENT
    | some opened => .ok opened

/-- What can be read of a content. -/
def readable (content : Bytes) : Bytes :=
  match io.readError with
  | none => content
  | some stop => content.take stop

/-- The bytes that are read at a position into a buffer. -/
def fread (size : Nat) (content : Bytes) (pos : Nat) : Bytes :=
  ((readable io content).drop pos).take size

/-- Whether the position is one where reading fails, as `ferror` tells it. -/
def ferrorRead (pos : Nat) : Int :=
  match io.readError with
  | none => 0
  | some stop => if stop ≤ pos then 1 else 0

/-- How many of the bytes are written at a position. -/
def fwrite (nread pos : Nat) : Nat :=
  match io.room with
  | none => nread
  | some room => min nread (room - pos)

/-- `ferror` where fewer were written. -/
def ferrorWrite : Int := 1

def fclose (inode : Nat) (fs : Disk) : Disk :=
  fs.store inode ((fs.contents inode).take ((fs.contents inode).length - io.lost))

def bufferSize : Nat := 32 * 1024

/-- The loop, up to a number of turns. As much has been read as written. -/
def copyLoop (fsrc fdst : Nat) : Nat → Nat → Disk → Option (Status × Disk)
  | 0, _, _ => none
  | turns + 1, pos, fs =>
    let buffer := fread io bufferSize (fs.contents fsrc) pos
    let nread := buffer.length
    if nread = 0 then
      let err := ferrorRead io pos
      if err ≠ 0 then
        some (.errnoToStatus io.strerror err (text "failed to read src file"), fs)
      else some (.okStatus, fs)
    else
      let nwrite := fwrite io nread pos
      let after := fs.writeAt fdst pos (buffer.take nwrite)
      if nwrite ≠ nread then
        some (.errnoToStatus io.strerror ferrorWrite
          (text "failed to write dst file with " ++ Decimal.numeral nread), after)
      else copyLoop fsrc fdst turns (pos + nread) after

/-- `CopyFile`, with so many turns of its loop. -/
def copyFile (turns : Nat) (src dst : Bytes) (fs : Disk) : Option (Status × Disk) :=
  match fopenRead io src fs with
  | .error errno =>
    some (.errnoToStatus io.strerror errno (text "failed to open src " ++ src), fs)
  | .ok fsrc =>
    match fopenWrite io dst fs with
    | .error errno =>
      some (.errnoToStatus io.strerror errno (text "failed to create dst " ++ src), fs)
    | .ok (fdst, opened) =>
      (copyLoop io fsrc fdst turns 0 opened).map fun ended => (ended.1, fclose io fdst ended.2)

end

section

variable {io : Io} {content : Bytes} {fsrc fdst : Nat}

/-- Reading or writing fails before so much is copied. -/
def Reports (io : Io) (content : Bytes) : Prop :=
  (∃ stop, io.readError = some stop ∧ stop ≤ content.length) ∨
    ∃ room, io.room = some room ∧ room < content.length

/-- The loop before a turn: the copy has what was read. -/
structure Copied (io : Io) (content : Bytes) (fsrc fdst pos : Nat) (fs : Disk) : Prop where
  source : fs.contents fsrc = content
  copy : fs.contents fdst = content.take pos
  read : pos ≤ (readable io content).length
  written : ∀ room, io.room = some room → pos ≤ room

/-- The loop after its last turn. -/
structure Ended (io : Io) (content : Bytes) (fdst : Nat) (before : Disk) (status : Status)
    (after : Disk) : Prop where
  ok : status = .okStatus ↔ ¬ Reports io content
  copy : status = .okStatus → after.contents fdst = content
  only : before.OnlyAt fdst after

/-- What can be read is the front of the content. -/
theorem readable_front (io : Io) (content : Bytes) : readable io content <+: content := by
  unfold readable
  split
  · exact List.prefix_rfl
  · exact List.take_prefix _ _

/-- What is read at a position stands there. -/
theorem fread_front (io : Io) (content : Bytes) (pos : Nat) :
    fread io bufferSize content pos =
      (content.drop pos).take (fread io bufferSize content pos).length := by
  have front : fread io bufferSize content pos <+: content.drop pos :=
    (List.take_prefix _ _).trans ((readable_front io content).drop pos)
  exact List.prefix_iff_eq_take.mp front

/-- No more is read than can be read. -/
theorem fread_bounded {pos : Nat} (read : pos ≤ (readable io content).length) :
    pos + (fread io bufferSize content pos).length ≤ (readable io content).length := by
  rw [fread, List.length_take, List.length_drop]
  omega

/-- Nothing is read only where nothing is left. -/
theorem fread_nothing {pos : Nat} (read : pos ≤ (readable io content).length)
    (nothing : (fread io bufferSize content pos).length = 0) :
    pos = (readable io content).length := by
  rw [fread, List.length_take, List.length_drop, bufferSize] at nothing
  omega

/-- At the end of what can be read, `ferror` tells whether that is all. -/
theorem ferrorRead_iff (io : Io) (content : Bytes) :
    ferrorRead io (readable io content).length ≠ 0 ↔
      ∃ stop, io.readError = some stop ∧ stop ≤ content.length := by
  unfold ferrorRead readable
  cases io.readError with
  | none => simp
  | some stop =>
    simp only [List.length_take, Option.some.injEq, exists_eq_left']
    split <;> simp <;> omega

/-- Without an error all of it can be read. -/
theorem readable_complete
    (complete : ¬ ∃ stop, io.readError = some stop ∧ stop ≤ content.length) :
    readable io content = content := by
  unfold readable
  split
  · rfl
  next stop fails =>
    apply List.take_of_length_le
    by_contra short
    exact complete ⟨stop, fails, by omega⟩

/-- Fewer bytes are written only where there is no room for all. -/
theorem fwrite_short {pos nread : Nat} (short : fwrite io nread pos ≠ nread) :
    ∃ room, io.room = some room ∧ room < pos + nread := by
  unfold fwrite at short
  split at short
  · exact absurd rfl short
  next room bounded => exact ⟨room, bounded, by omega⟩

/-- What is written whole had room. -/
theorem fwrite_all {pos nread : Nat} (all : fwrite io nread pos = nread) (some_read : nread ≠ 0)
    (room : Nat) (bounded : io.room = some room) : pos + nread ≤ room := by
  unfold fwrite at all
  rw [bounded] at all
  dsimp only at all
  omega

/-- A turn that reads nothing is the last. -/
theorem Copied.last {pos : Nat} {fs : Disk} (copied : Copied io content fsrc fdst pos fs)
    (nothing : (fread io bufferSize content pos).length = 0) :
    ∃ status, (∀ turns, copyLoop io fsrc fdst (turns + 1) pos fs = some (status, fs)) ∧
      Ended io content fdst fs status fs := by
  have stopped := fread_nothing copied.read nothing
  have error_iff := ferrorRead_iff io content
  rw [← stopped] at error_iff
  by_cases error : ferrorRead io pos ≠ 0
  · refine ⟨.errnoToStatus io.strerror (ferrorRead io pos) (text "failed to read src file"),
      fun turns => ?_, ?_⟩
    · rw [copyLoop, copied.source]
      simp only [nothing, if_true, if_pos error]
    · have reported : Reports io content := .inl (error_iff.mp error)
      exact ⟨iff_of_false nofun (not_not.mpr reported), nofun, .refl fdst fs⟩
  · refine ⟨.okStatus, fun turns => ?_, ?_⟩
    · rw [copyLoop, copied.source]
      simp only [nothing, if_true, if_neg error]
    · rw [readable_complete (mt error_iff.mpr error)] at stopped
      refine ⟨iff_of_true rfl ?_, fun _ => ?_, .refl fdst fs⟩
      · rintro (failing | ⟨room, limited, short⟩)
        · exact error (error_iff.mpr failing)
        · have enough := copied.written room limited
          omega
      · rw [copied.copy, stopped, List.take_length]

/-- So is one that cannot write all it has read. -/
theorem Copied.short {pos : Nat} {fs : Disk} (copied : Copied io content fsrc fdst pos fs)
    {nread : Nat} (bytes : (fread io bufferSize content pos).length = nread)
    (some_read : nread ≠ 0) (short : fwrite io nread pos ≠ nread) :
    ∃ status after, (∀ turns, copyLoop io fsrc fdst (turns + 1) pos fs = some (status, after)) ∧
      Ended io content fdst fs status after := by
  refine ⟨.errnoToStatus io.strerror ferrorWrite
    (text "failed to write dst file with " ++ Decimal.numeral nread),
    fs.writeAt fdst pos ((fread io bufferSize content pos).take (fwrite io nread pos)),
    fun turns => ?_, ?_⟩
  · rw [copyLoop, copied.source]
    simp only [bytes, if_neg some_read, if_pos short]
  · have reported : Reports io content := by
      obtain ⟨room, limited, too_small⟩ := fwrite_short short
      have bounded := fread_bounded copied.read
      have complete := (readable_front io content).length_le
      exact .inr ⟨room, limited, by omega⟩
    exact ⟨iff_of_false nofun (not_not.mpr reported), nofun, fs.onlyAt_writeAt fdst pos _⟩

/-- A turn that reads and writes. -/
theorem Copied.turn {pos : Nat} {fs : Disk} (copied : Copied io content fsrc fdst pos fs)
    (apart : fsrc ≠ fdst) {nread : Nat}
    (bytes : (fread io bufferSize content pos).length = nread) (some_read : nread ≠ 0)
    (all : fwrite io nread pos = nread) :
    ∃ after, (∀ turns, copyLoop io fsrc fdst (turns + 1) pos fs =
        copyLoop io fsrc fdst turns (pos + nread) after) ∧
      Copied io content fsrc fdst (pos + nread) after ∧ fs.OnlyAt fdst after := by
  have bounded := fread_bounded copied.read
  have complete := (readable_front io content).length_le
  have length : (fs.contents fdst).length = pos := by
    rw [copied.copy, List.length_take]
    omega
  have only := fs.onlyAt_writeAt fdst pos (fread io bufferSize content pos)
  refine ⟨fs.writeAt fdst pos (fread io bufferSize content pos), fun turns => ?_,
    ⟨?_, ?_, by rwa [← bytes], fwrite_all all some_read⟩, only⟩
  · rw [copyLoop, copied.source]
    simp only [bytes, if_neg some_read, all, ne_eq, not_true_eq_false, if_false]
    rw [← bytes, List.take_length]
  · rw [only.others fsrc apart, copied.source]
  · have grown := fs.writeAt_end fdst (fread io bufferSize content pos)
    rw [length] at grown
    rw [grown, copied.copy, fread_front, bytes, List.take_add]

/-- The loop ends. It reports an error if there is one, and has copied everything
otherwise. -/
theorem copyLoop_ends (apart : fsrc = fdst → content = []) {pos : Nat} {fs : Disk}
    (copied : Copied io content fsrc fdst pos fs) :
    ∃ status after, (∀ turns, content.length - pos < turns →
        copyLoop io fsrc fdst turns pos fs = some (status, after)) ∧
      Ended io content fdst fs status after := by
  -- Every turn that goes on has read something.
  induction left : content.length - pos using Nat.strongRecOn generalizing pos fs with
  | _ left inductionHypothesis =>
    generalize bytes : (fread io bufferSize content pos).length = nread
    by_cases nothing : nread = 0
    · obtain ⟨status, returns, ended⟩ := copied.last (bytes.trans nothing)
      refine ⟨status, fs, fun turns enough => ?_, ended⟩
      obtain ⟨others, rfl⟩ := Nat.exists_eq_add_of_le' (Nat.one_le_of_lt enough)
      exact returns others
    by_cases all : fwrite io nread pos = nread
    · have bounded := fread_bounded copied.read
      have complete := (readable_front io content).length_le
      have distinct : fsrc ≠ fdst := by
        intro same
        have empty := congrArg List.length (apart same)
        rw [List.length_nil] at empty
        omega
      obtain ⟨between, goes_on, later, only⟩ := copied.turn distinct bytes nothing all
      obtain ⟨status, after, returns, ended⟩ :=
        inductionHypothesis (content.length - (pos + nread)) (by omega) later rfl
      refine ⟨status, after, fun turns enough => ?_, ended.ok, ended.copy, only.trans ended.only⟩
      obtain ⟨rest, rfl⟩ := Nat.exists_eq_add_of_le' (Nat.one_le_of_lt enough)
      rw [goes_on]
      exact returns rest (by omega)
    · obtain ⟨status, after, returns, ended⟩ := copied.short bytes nothing all
      refine ⟨status, after, fun turns enough => ?_, ended⟩
      obtain ⟨others, rfl⟩ := Nat.exists_eq_add_of_le' (Nat.one_le_of_lt enough)
      exact returns others

/-- Both files can be opened. -/
structure Opens (io : Io) (src dst : Bytes) (fs : Disk) : Prop where
  readable : io.refuses .read (cstr src) = none
  writable : io.refuses .write (cstr dst) = none
  exists_ : fs.find (cstr src) ≠ none
  leads : fs.links (cstr dst) ≠ none

/-- What there is to read behind the opened files. -/
def remaining (src dst : Bytes) (fs : Disk) : Bytes :=
  if fs.find (cstr src) = fs.find (cstr dst) then [] else (fs.contentsOf (cstr src)).getD []

/-- If the call is a success, the copy has what the original had, and so does the original. -/
def Preserves (src dst : Bytes) (before : Disk) (status : Status) (after : Disk) : Prop :=
  status = .okStatus →
    after.contentsOf (cstr dst) = before.contentsOf (cstr src) ∧
      after.contentsOf (cstr src) = before.contentsOf (cstr src)

/-- A file that cannot be opened is an error. -/
theorem copyFile_unopened {src dst : Bytes} {fs : Disk} (unopened : ¬ Opens io src dst fs) :
    ∃ code message, ∀ turns, copyFile io turns src dst fs = some (.failed code message, fs) := by
  unfold copyFile fopenRead fopenWrite
  cases refused : io.refuses .read (cstr src) with
  | some errno => exact ⟨_, _, fun _ => rfl⟩
  | none =>
    cases found : fs.find (cstr src) with
    | none => exact ⟨_, _, fun _ => rfl⟩
    | some fsrc =>
      cases denied : io.refuses .write (cstr dst) with
      | some errno => exact ⟨_, _, fun _ => rfl⟩
      | none =>
        have nowhere : fs.links (cstr dst) = none := by
          by_contra leads
          exact unopened ⟨refused, denied, by rw [found]; exact nofun, leads⟩
        have missing : fs.openWrite (cstr dst) = none := by
          rw [Files.openWrite, nowhere, Option.map_none]
        rw [missing]
        exact ⟨_, _, fun _ => rfl⟩

/-- Between opened files the loop runs, and the copy is closed. -/
theorem copyFile_opened {src dst : Bytes} {fs : Disk} (opens : Opens io src dst fs) :
    ∃ fsrc fdst opened, fs.find (cstr src) = some fsrc ∧
      fs.openWrite (cstr dst) = some (fdst, opened) ∧
      ∀ turns, copyFile io turns src dst fs =
        (copyLoop io fsrc fdst turns 0 opened).map fun ended =>
          (ended.1, fclose io fdst ended.2) := by
  obtain ⟨fsrc, found⟩ := Option.ne_none_iff_exists'.mp opens.exists_
  obtain ⟨name, leads⟩ := Option.ne_none_iff_exists'.mp opens.leads
  obtain ⟨⟨fdst, opened⟩, open_⟩ : ∃ opened, fs.openWrite (cstr dst) = some opened := by
    rw [Files.openWrite, leads]
    exact ⟨_, rfl⟩
  refine ⟨fsrc, fdst, opened, found, open_, fun turns => ?_⟩
  unfold copyFile fopenRead fopenWrite
  rw [opens.readable, found, opens.writable, open_]

/-- The call returns. An error in the loop is not a success. A success leaves in the original
what there was to read, and in the copy that without what is lost. -/
theorem copyFile_returns {src dst : Bytes} {fs : Disk} (opens : Opens io src dst fs) :
    ∃ enough status after,
      (∀ turns ≥ enough, copyFile io turns src dst fs = some (status, after)) ∧
      (status = .okStatus ↔ ¬ Reports io (remaining src dst fs)) ∧
      (status = .okStatus →
        after.contentsOf (cstr dst) =
          some ((remaining src dst fs).take ((remaining src dst fs).length - io.lost)) ∧
        after.contentsOf (cstr src) = some (remaining src dst fs)) := by
  obtain ⟨fsrc, fdst, opened, found, open_, run⟩ := copyFile_opened opens
  obtain ⟨source, target, empty, kept, same_iff⟩ := Files.openWrite_some found open_
  have same : fsrc = fdst → remaining src dst fs = [] := fun same => if_pos (same_iff.mp same)
  have left : opened.contents fsrc = remaining src dst fs := by
    by_cases one : fsrc = fdst
    · rw [same one, one, empty]
    · rw [kept one, remaining, if_neg (mt same_iff.mpr one), Files.contentsOf, found]
      rfl
  have start : Copied io (remaining src dst fs) fsrc fdst 0 opened :=
    ⟨left, empty.trans List.take_zero.symm, Nat.zero_le _, fun room _ => Nat.zero_le room⟩
  obtain ⟨status, after, returns, ended⟩ := copyLoop_ends same start
  refine ⟨(remaining src dst fs).length + 1, status, fclose io fdst after, ?_, ended.ok, ?_⟩
  · intro turns enough
    rw [run, returns turns (by omega), Option.map_some]
  · intro fine
    have copy := ended.copy fine
    have names (path : Bytes) : (fclose io fdst after).find path = opened.find path :=
      ended.only.names path
    rw [Files.contentsOf, names, target, Files.contentsOf, names, source, Option.map_some,
      Option.map_some, fclose, Files.store_self, copy]
    refine ⟨rfl, congrArg some ?_⟩
    by_cases one : fsrc = fdst
    · rw [one, Files.store_self, same one, List.take_nil]
    · rw [Files.store_other _ one, ended.only.others fsrc one, left]

/-- Nothing is lost, or there was nothing. -/
theorem take_all_iff (content : Bytes) (lost : Nat) :
    content.take (content.length - lost) = content ↔ lost = 0 ∨ content = [] := by
  rw [List.take_eq_self_iff, ← List.length_eq_zero_iff]
  omega

/-- A file is copied and kept unless the two paths lead to one file that is not empty, or
something is lost when the copy is closed. Neither matters where an error is returned. -/
theorem copyFile_preserves_iff (io : Io) (src dst : Bytes) (fs : Disk) :
    ∃ enough status after,
      (∀ turns ≥ enough, copyFile io turns src dst fs = some (status, after)) ∧
      (Preserves src dst fs status after ↔
        ¬ Opens io src dst fs ∨ Reports io (remaining src dst fs) ∨
          (fs.find (cstr src) = fs.find (cstr dst) → fs.contentsOf (cstr src) = some []) ∧
            (io.lost = 0 ∨ fs.contentsOf (cstr src) = some [])) := by
  by_cases opens : Opens io src dst fs
  · obtain ⟨enough, status, after, returns, fine_iff, fine⟩ := copyFile_returns opens
    refine ⟨enough, status, after, returns, ?_⟩
    obtain ⟨fsrc, found⟩ := Option.ne_none_iff_exists'.mp opens.exists_
    have before : fs.contentsOf (cstr src) = some (fs.contents fsrc) := by
      rw [Files.contentsOf, found, Option.map_some]
    by_cases reports : Reports io (remaining src dst fs)
    · have failed : status ≠ .okStatus := fun okay => fine_iff.mp okay reports
      exact iff_of_true (fun okay => absurd okay failed) (.inr (.inl reports))
    · have okay := fine_iff.mpr reports
      obtain ⟨copy, source⟩ := fine okay
      rw [or_iff_right (not_not.mpr opens), or_iff_right reports, Preserves,
        forall_prop_of_true okay, copy, source, before]
      simp only [Option.some_inj]
      by_cases same : fs.find (cstr src) = fs.find (cstr dst)
      · have nothing : remaining src dst fs = [] := if_pos same
        rw [nothing, List.take_nil, forall_prop_of_true same, and_self, eq_comm]
        exact (and_iff_left_of_imp .inr).symm
      · have everything : remaining src dst fs = fs.contents fsrc := by
          rw [remaining, if_neg same, before, Option.getD_some]
        rw [everything, take_all_iff, and_iff_left rfl, forall_prop_of_false same, true_and]
  · obtain ⟨code, message, returns⟩ := copyFile_unopened opens
    exact ⟨0, _, fs, fun turns _ => returns turns, iff_of_true nofun (.inl opens)⟩

end

/-- A system where nothing fails. -/
def plainIo : Io := ⟨fun _ _ => none, none, none, 0, fun _ => []⟩

/-- One file under two names, and a symbolic link to the first of them. -/
def linkedTwice : Disk where
  links path := if path = text "c" then some (text "a") else some path
  entries := [(text "a", 1), (text "b", 1)]
  contents _ := text "x"

/-- A file is copied to itself, to another name of it and to a link to it. It is empty
afterwards, and this is a success. -/
theorem copy_to_itself_empties :
    linkedTwice.contentsOf (text "a") = some (text "x") ∧
      ∀ dst ∈ [text "a", text "b", text "c"], ∃ enough after,
        (∀ turns ≥ enough, copyFile plainIo turns (text "a") dst linkedTwice =
          some (.okStatus, after)) ∧
        after.contentsOf (text "a") = some [] ∧
        ¬ Preserves (text "a") dst linkedTwice .okStatus after := by
  have plain : cstr (text "a") = text "a" := by decide
  have content : linkedTwice.contentsOf (cstr (text "a")) = some (text "x") := by decide
  refine ⟨by rwa [plain] at content, fun dst member => ?_⟩
  have same : linkedTwice.find (cstr (text "a")) = linkedTwice.find (cstr dst) := by
    revert dst
    decide
  have opens : Opens plainIo (text "a") dst linkedTwice := by
    refine ⟨rfl, rfl, by decide, ?_⟩
    unfold linkedTwice
    dsimp only
    split <;> exact nofun
  obtain ⟨enough, status, after, returns, fine_iff, fine⟩ := copyFile_returns opens
  have okay : status = .okStatus := by
    rw [fine_iff]
    rintro (⟨_, never, _⟩ | ⟨_, never, _⟩) <;> cases never
  subst okay
  obtain ⟨_, source⟩ := fine rfl
  rw [remaining, if_pos same] at source
  refine ⟨enough, after, returns, by rwa [plain] at source, fun preserves => ?_⟩
  have kept := (preserves rfl).2
  rw [source, content] at kept
  exact absurd kept (by decide)

end Cppboot.Copy
