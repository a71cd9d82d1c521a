import Mathlib.Data.List.Basic
import Mathlib.Logic.Function.Basic

/-!
# Files under several names

A file has a number, and its contents are found by that number. A name leads to another
one through symbolic links, or to itself, and that has a number if the file exists. Two
names that have one number are hard links of one file.

Opening a file for writing creates it where the name has no number yet, and empties it
otherwise. Only then is it seen whether another file that was opened before is the same.

Names and characters are of any type.
-/

namespace Cppboot.Inodes

variable {ν α : Type}

/-- Names of files, the numbers they stand for, and the content under each number. -/
structure Files (ν α : Type) where
  /-- The name that a path leads to. There is none if a link on the way leads nowhere. -/
  links : ν → Option ν
  entries : List (ν × Nat)
  contents : Nat → List α

namespace Files

/-- Give a number a new content. -/
def store (fs : Files ν α) (inode : Nat) (content : List α) : Files ν α :=
  { fs with contents := Function.update fs.contents inode content }

/-- Write at a position, over what is there. -/
def writeAt (fs : Files ν α) (inode pos : Nat) (bytes : List α) : Files ν α :=
  fs.store inode ((fs.contents inode).take pos ++ bytes ++
    (fs.contents inode).drop (pos + bytes.length))

/-- A number that no file has. -/
def fresh (fs : Files ν α) : Nat := (fs.entries.map Prod.snd).foldr max 0 + 1

def create (fs : Files ν α) (name : ν) : Files ν α :=
  { fs.store fs.fresh [] with entries := (name, fs.fresh) :: fs.entries }

@[simp] theorem store_self (fs : Files ν α) (inode : Nat) (content : List α) :
    (fs.store inode content).contents inode = content := Function.update_self ..

theorem store_other (fs : Files ν α) {inode other : Nat} (apart : other ≠ inode)
    (content : List α) : (fs.store inode content).contents other = fs.contents other :=
  Function.update_of_ne apart ..

/-- A file that is written at its end grows. -/
theorem writeAt_end (fs : Files ν α) (inode : Nat) (bytes : List α) :
    (fs.writeAt inode (fs.contents inode).length bytes).contents inode =
      fs.contents inode ++ bytes := by
  rw [writeAt, store_self, List.take_length, List.drop_eq_nil_of_le (Nat.le_add_right _ _),
    List.append_nil]

section

variable [DecidableEq ν]

/-- The number of the file that a path leads to. -/
def find (fs : Files ν α) (path : ν) : Option Nat :=
  (fs.links path).bind fun name => fs.entries.lookup name

def contentsOf (fs : Files ν α) (path : ν) : Option (List α) := (fs.find path).map fs.contents

/-- The file that is opened for writing, and what opening it does. -/
def openWrite (fs : Files ν α) (path : ν) : Option (Nat × Files ν α) :=
  (fs.links path).map fun name =>
    match fs.entries.lookup name with
    | some inode => (inode, fs.store inode [])
    | none => (fs.fresh, fs.create name)

@[simp] theorem store_find (fs : Files ν α) (inode : Nat) (content : List α) (path : ν) :
    (fs.store inode content).find path = fs.find path := rfl

/-- Nothing differs but what is in one file. -/
structure OnlyAt (inode : Nat) (before after : Files ν α) : Prop where
  others : ∀ other, other ≠ inode → after.contents other = before.contents other
  names : ∀ path, after.find path = before.find path

theorem OnlyAt.refl (inode : Nat) (fs : Files ν α) : OnlyAt inode fs fs :=
  ⟨fun _ _ => rfl, fun _ => rfl⟩

theorem OnlyAt.trans {inode : Nat} {before between after : Files ν α}
    (first : OnlyAt inode before between) (second : OnlyAt inode between after) :
    OnlyAt inode before after :=
  ⟨fun other apart => (second.others other apart).trans (first.others other apart),
    fun path => (second.names path).trans (first.names path)⟩

/-- Storing changes the content under one number only. -/
theorem onlyAt_store (fs : Files ν α) (inode : Nat) (content : List α) :
    OnlyAt inode fs (fs.store inode content) :=
  ⟨fun _ apart => fs.store_other apart content, fun _ => rfl⟩

/-- Writing changes the content under one number only. -/
theorem onlyAt_writeAt (fs : Files ν α) (inode pos : Nat) (bytes : List α) :
    OnlyAt inode fs (fs.writeAt inode pos bytes) := fs.onlyAt_store inode _

/-- A file that exists does not have the number of a new one. -/
theorem fresh_ne {fs : Files ν α} {path : ν} {inode : Nat} (found : fs.find path = some inode) :
    inode ≠ fs.fresh := by
  obtain ⟨name, _, listed⟩ := Option.bind_eq_some_iff.mp found
  have below : ∀ {entries : List (ν × Nat)}, entries.lookup name = some inode →
      inode ≤ (entries.map Prod.snd).foldr max 0 := by
    intro entries
    induction entries with
    | nil => exact nofun
    | cons entry entries inductionHypothesis =>
      intro here
      rw [List.lookup_cons] at here
      split at here
      · cases here
        exact Nat.le_max_left _ _
      · exact Nat.le_trans (inductionHypothesis here) (Nat.le_max_right _ _)
  have bounded := below listed
  unfold fresh
  omega

/-- Opening a file for writing keeps what names lead to. It empties the file, and no other. -/
theorem openWrite_some {fs opened : Files ν α} {src dst : ν} {fsrc fdst : Nat}
    (found : fs.find src = some fsrc) (open_ : fs.openWrite dst = some (fdst, opened)) :
    opened.find src = some fsrc ∧ opened.find dst = some fdst ∧ opened.contents fdst = [] ∧
      (fsrc ≠ fdst → opened.contents fsrc = fs.contents fsrc) ∧
      (fsrc = fdst ↔ fs.find src = fs.find dst) := by
  obtain ⟨name, leads, same⟩ := Option.map_eq_some_iff.mp open_
  have target : fs.find dst = fs.entries.lookup name := by rw [find, leads, Option.bind_some]
  rw [found, target]
  cases listed : fs.entries.lookup name with
  | some inode =>
    rw [listed] at same
    cases same
    refine ⟨found, target.trans listed, store_self .., fun apart => store_other fs apart _, ?_⟩
    rw [Option.some_inj]
  | none =>
    rw [listed] at same
    cases same
    have other := fresh_ne found
    obtain ⟨origin, reads, source⟩ := Option.bind_eq_some_iff.mp found
    -- The name of a file that exists is not the one that is added.
    have distinct : (origin == name) = false := by
      rw [beq_eq_false_iff_ne]
      rintro rfl
      rw [listed] at source
      cases source
    refine ⟨?_, ?_, store_self .., fun apart => store_other fs apart _, ?_⟩
    · have kept : (fs.create name).links src = some origin := reads
      rw [find, kept, Option.bind_some, create, List.lookup_cons, distinct]
      exact source
    · have kept : (fs.create name).links dst = some name := leads
      rw [find, kept, Option.bind_some, create, List.lookup_cons, beq_self_eq_true]
    · exact iff_of_false other nofun

end

end Files

end Cppboot.Inodes
