import Cppboot.MapEntries
import Cppboot.Paths
import Cppboot.PluginManager

/-!
# The loader of plugin libraries

A loader opens the library of a plugin, keeps the handle under the name it was
asked for, and closes it when the name is unloaded. What is still open when the
loader is destroyed is closed then.

The dynamic linker counts. Opening a library that is open already gives the same
handle and adds a reference, and a library is unmapped when its last reference is
given back. Here the references of a process are a list that has a handle once for
every `dlopen` that no `dlclose` has answered. Closing a handle that is not open
fails and changes nothing.

Nothing compares the name with those that are kept. Loading a name again replaces
the handle under it and leaves the old reference to nobody; apart from that the map
and the references agree, so that closing never fails.
-/

namespace Cppboot

open Std

/-- A library as `dlopen` names it: one library, one handle. -/
abbrev Handle := Nat

/-- The libraries as one call finds them: what opening a path leads to, or else the
text of the error, and the text if closing fails. -/
structure Libraries where
  dlopen : Bytes → Except Bytes Handle
  dlerror : Bytes

/-- The directory of the libraries, and the handles by the names they were loaded under. -/
structure DllLoader where
  dir_ : Bytes
  handles_ : ExtTreeMap Bytes Handle

/-- A process with a loader, and its references to libraries. -/
structure Process where
  loader : DllLoader
  references : List Handle

/-- Give a reference back. There has to be one. -/
def dlclose (references : List Handle) (handle : Handle) : Bool × List Handle :=
  (references.contains handle, references.erase handle)

namespace Process

/-- A new loader, in a process that has opened nothing. A missing directory is an
empty one. -/
def fresh (dir : Option Bytes) : Process := ⟨⟨dir.getD [], ∅⟩, []⟩

end Process

namespace DllLoader

/-- The file in which a plugin is looked for. -/
def getPluginPath (loader : DllLoader) (name : Bytes) : Bytes :=
  Fs.pathJoin loader.dir_ (text "libplugin_" ++ name ++ text ".so")

/-- The number of names under which a handle is kept. -/
def held (loader : DllLoader) (handle : Handle) : Nat :=
  (loader.handles_.toList.map Prod.snd).count handle

/-- A handle is kept under one name more, in place of what the name had. -/
theorem held_insert (loader : DllLoader) (name : Bytes) (handle other : Handle) :
    held { loader with handles_ := loader.handles_.insert name handle } other =
      held { loader with handles_ := loader.handles_.erase name } other +
        if handle == other then 1 else 0 := by
  have listed := (MapEntries.entries_insert loader.handles_ name handle).map Prod.snd
  rw [held, listed.count_eq, List.map_cons, List.count_cons]
  rfl

/-- Without a name its handle is kept under one name less. -/
theorem held_erase {loader : DllLoader} {name : Bytes} {handle : Handle}
    (found : loader.handles_[name]? = some handle) (other : Handle) :
    loader.held other =
      held { loader with handles_ := loader.handles_.erase name } other +
        if handle == other then 1 else 0 := by
  have listed := (MapEntries.entries_of_found found).map Prod.snd
  rw [held, listed.count_eq, List.map_cons, List.count_cons]
  rfl

/-- Erasing a name that is not there changes nothing. -/
theorem held_missing {loader : DllLoader} {name : Bytes}
    (missing : loader.handles_[name]? = none) (other : Handle) :
    held { loader with handles_ := loader.handles_.erase name } other = loader.held other :=
  ((MapEntries.entries_of_missing missing).map Prod.snd).count_eq other

/-- A handle that is kept under a name is counted. -/
theorem held_pos {loader : DllLoader} {name : Bytes} {handle : Handle}
    (found : loader.handles_[name]? = some handle) : 0 < loader.held handle := by
  rw [held_erase found, if_pos BEq.rfl]
  exact Nat.succ_pos _

end DllLoader

namespace Process

/-- What the libraries export as `cppboot_plugin_entry`. -/
abbrev Entries := Handle → Option cppboot_plugin

variable (dlsym : Entries)

/-- Load the plugin of the given name: a status and, if it is good, the header. The
receiver of the header may be missing. -/
def load (process : Process) (libraries : Libraries) (name : Option Bytes) (result : Bool) :
    (Status × Option cppboot_plugin) × Process :=
  match name with
  | none => ((.invalidArgumentError (text "no name"), none), process)
  | some [] => ((.invalidArgumentError (text "no name"), none), process)
  | some name =>
    if !result then ((.invalidArgumentError (text "invalid result"), none), process)
    else
      match libraries.dlopen (process.loader.getPluginPath name) with
      | .error dlerror =>
        ((.cancelledError (text "load plugin " ++ name ++ text " failed: " ++ dlerror), none),
          process)
      | .ok handle =>
        match dlsym handle with
        | none =>
          ((.cancelledError (text "load plugin " ++ name ++
              text " failed: no symbol cppboot_plugin_entry"), none),
            { process with references := (dlclose (handle :: process.references) handle).2 })
        | some hdr =>
          ((.okStatus, some hdr),
            { loader :=
                { process.loader with handles_ := process.loader.handles_.insert name handle }
              references := handle :: process.references })

/-- Unload the plugin of the given name. If its library cannot be closed, the handle
is kept. -/
def unload (process : Process) (libraries : Libraries) (name : Option Bytes) :
    Status × Process :=
  match name with
  | none => (.invalidArgumentError (text "no name"), process)
  | some [] => (.invalidArgumentError (text "no name"), process)
  | some name =>
    match process.loader.handles_[name]? with
    | none => (.notFoundError name, process)
    | some it =>
      let closed := dlclose process.references it
      if !closed.1 then
        (.failed .kUnknown libraries.dlerror, { process with references := closed.2 })
      else
        (.okStatus,
          { loader := { process.loader with handles_ := process.loader.handles_.erase name }
            references := closed.2 })

/-- The references that are left when the loader is destroyed. -/
def destroy (process : Process) : List Handle :=
  process.loader.handles_.toList.foldl (fun left h => (dlclose left h.2).2) process.references

/-- A load that succeeds opens the library of a non-empty name, finds its entry and
keeps the handle under the name. A load that fails leaves the process as it was. -/
theorem load_cases (process : Process) (libraries : Libraries) (name : Option Bytes)
    (result : Bool) :
    (∃ n handle hdr, name = some n ∧ n ≠ [] ∧ dlsym handle = some hdr ∧
      libraries.dlopen (process.loader.getPluginPath n) = .ok handle ∧
      process.load dlsym libraries name result = ((.okStatus, some hdr),
        { loader :=
            { process.loader with handles_ := process.loader.handles_.insert n handle }
          references := handle :: process.references })) ∨
    (process.load dlsym libraries name result).1.1.ok = false ∧
      (process.load dlsym libraries name result).2 = process := by
  match name with
  | none => exact .inr ⟨rfl, rfl⟩
  | some [] => exact .inr ⟨rfl, rfl⟩
  | some (c :: rest) =>
    unfold load
    cases result with
    | false => exact .inr ⟨rfl, rfl⟩
    | true =>
      simp only [Bool.not_true, Bool.false_eq_true, if_false]
      cases opened : libraries.dlopen (process.loader.getPluginPath (c :: rest)) with
      | error dlerror => exact .inr ⟨rfl, rfl⟩
      | ok handle =>
        simp only
        cases found : dlsym handle with
        | none =>
          refine .inr ⟨rfl, ?_⟩
          simp only [dlclose, List.erase_cons_head]
        | some hdr =>
          exact .inl ⟨c :: rest, handle, hdr, rfl, List.cons_ne_nil c rest, found, opened, rfl⟩

/-- Unloading gives back the reference under a name that is kept. Otherwise it fails:
the name is missing, empty or unknown and nothing changes, or the handle that is kept
is not open. -/
theorem unload_cases (process : Process) (libraries : Libraries) (name : Option Bytes) :
    (∃ n handle, name = some n ∧ n ≠ [] ∧ process.loader.handles_[n]? = some handle ∧
      handle ∈ process.references ∧
      process.unload libraries name = (.okStatus,
        { loader := { process.loader with handles_ := process.loader.handles_.erase n }
          references := process.references.erase handle })) ∨
    (∃ n handle, name = some n ∧ process.loader.handles_[n]? = some handle ∧
      handle ∉ process.references) ∨
    (process.unload libraries name).1.ok = false ∧
      (process.unload libraries name).2 = process ∧
      (∀ message, (process.unload libraries name).1 ≠ .failed .kUnknown message) ∧
      ∀ n, name = some n → n ≠ [] → process.loader.handles_[n]? = none := by
  match name with
  | none => exact .inr (.inr ⟨rfl, rfl, by rintro _ ⟨⟩, by rintro _ ⟨⟩⟩)
  | some [] =>
    refine .inr (.inr ⟨rfl, rfl, by rintro _ ⟨⟩, ?_⟩)
    rintro _ ⟨⟩ named
    exact absurd rfl named
  | some (c :: rest) =>
    unfold unload
    cases found : process.loader.handles_[c :: rest]? with
    | none =>
      refine .inr (.inr ⟨?_, ?_, ?_, ?_⟩)
      · simp only [found, Status.notFoundError, Status.ok]
      · simp only [found]
      · simp only [found, Status.notFoundError]
        rintro _ ⟨⟩
      · rintro _ ⟨⟩ _
        exact found
    | some handle =>
      by_cases open_ : handle ∈ process.references
      · refine .inl ⟨c :: rest, handle, rfl, List.cons_ne_nil c rest, found, open_, ?_⟩
        simp only [found, dlclose, List.contains_iff_mem.mpr open_, Bool.not_true,
          Bool.false_eq_true, if_false]
      · exact .inr (.inl ⟨c :: rest, handle, rfl, found, open_⟩)

/-- Closing handles one after the other takes out one reference for each, as long as
there is one. -/
theorem close_all (handles references lost : List Handle)
    (covered : ∀ handle, references.count handle = handles.count handle + lost.count handle)
    (handle : Handle) :
    (handles.foldl (fun left h => (dlclose left h).2) references).count handle =
      lost.count handle := by
  induction handles generalizing references with
  | nil => simpa using covered handle
  | cons first handles inductionHypothesis =>
    refine inductionHypothesis (references.erase first) fun other => ?_
    have counted := covered other
    rw [List.count_cons] at counted
    rw [List.count_erase]
    by_cases same : (first == other) = true
    · rw [if_pos same] at counted ⊢
      omega
    · rw [if_neg same] at counted ⊢
      omega

/-- What happens to a loader. -/
inductive Event where
  | load (libraries : Libraries) (name : Option Bytes) (result : Bool)
  | unload (libraries : Libraries) (name : Option Bytes)

/-- The process after a call, whatever it returned. -/
def after (process : Process) : Event → Process
  | .load libraries name result => (process.load dlsym libraries name result).2
  | .unload libraries name => (process.unload libraries name).2

/-- The handle that a load replaces, if it succeeds. -/
def replaced (process : Process) : Event → List Handle
  | .load libraries (some n) result =>
    if (process.load dlsym libraries (some n) result).1.1.ok then
      process.loader.handles_[n]?.toList
    else []
  | _ => []

/-- A process with the handles that were replaced so far. -/
structure Accounted where
  process : Process
  lost : List Handle

namespace Accounted

def fresh (dir : Option Bytes) : Accounted := ⟨Process.fresh dir, []⟩

def after (s : Accounted) (event : Event) : Accounted :=
  ⟨s.process.after dlsym event, s.process.replaced dlsym event ++ s.lost⟩

def Step (before : Accounted) (event : Event) (next : Accounted) : Prop :=
  next = before.after dlsym event

/-- Every reference belongs to a name under which its handle is kept, or to a handle
that was replaced. -/
def Balanced (s : Accounted) : Prop :=
  ∀ handle, s.process.references.count handle =
    s.process.loader.held handle + s.lost.count handle

variable {dlsym}

/-- At the start there are no references and no names. -/
theorem fresh_balanced (dir : Option Bytes) : (fresh dir).Balanced := by
  intro handle
  have nothing : (fresh dir).process.loader.handles_.toList = [] :=
    ExtTreeMap.toList_eq_nil_iff.mpr rfl
  rw [DllLoader.held, nothing]
  rfl

/-- In a balanced process every handle that is kept is open. -/
theorem Balanced.kept_open {s : Accounted} (balanced : s.Balanced) {name : Bytes}
    {handle : Handle} (found : s.process.loader.handles_[name]? = some handle) :
    handle ∈ s.process.references := by
  have counted := balanced handle
  have kept := DllLoader.held_pos found
  exact List.count_pos_iff.mp (by omega)

/-- Loading keeps the balance: the new reference belongs to the new name, and the one
that it replaces is lost. -/
theorem Balanced.load {s : Accounted} (balanced : s.Balanced) (libraries : Libraries)
    (name : Option Bytes) (result : Bool) :
    (s.after dlsym (.load libraries name result)).Balanced := by
  intro other
  simp only [after, Process.after]
  obtain ⟨n, handle, hdr, rfl, _, _, _, loaded⟩ | ⟨failed, same⟩ :=
    s.process.load_cases dlsym libraries name result
  · have counted := balanced other
    have entered := s.process.loader.held_insert n handle other
    simp only [replaced, loaded, Status.ok, if_true, List.count_cons, List.count_append]
    cases found : s.process.loader.handles_[n]? with
    | none =>
      have kept := DllLoader.held_missing found other
      simp only [Option.toList_none, List.count_nil]
      omega
    | some old =>
      have before := DllLoader.held_erase found other
      simp only [Option.toList_some, List.count_singleton]
      omega
  · rw [same]
    have nothing : s.process.replaced dlsym (.load libraries name result) = [] := by
      cases name with
      | none => rfl
      | some n => rw [replaced, failed, if_neg Bool.false_ne_true]
    rw [nothing]
    exact balanced other

/-- Unloading keeps the balance: the name and its reference go together. -/
theorem Balanced.unload {s : Accounted} (balanced : s.Balanced) (libraries : Libraries)
    (name : Option Bytes) : (s.after dlsym (.unload libraries name)).Balanced := by
  intro other
  simp only [after, Process.after, replaced, List.nil_append]
  obtain ⟨n, handle, rfl, _, found, _, unloaded⟩ | ⟨n, handle, _, found, closed⟩ | ⟨_, same, _⟩ :=
    s.process.unload_cases libraries name
  · have counted := balanced other
    have before := DllLoader.held_erase found other
    simp only [unloaded, List.count_erase]
    omega
  · exact absurd (balanced.kept_open found) closed
  · rw [same]
    exact balanced other

/-- In a balanced process only the lost references remain when the loader is destroyed. -/
theorem Balanced.destroy {s : Accounted} (balanced : s.Balanced) :
    s.process.destroy.Perm s.lost := by
  rw [List.perm_iff_count]
  intro handle
  have closed := close_all (s.process.loader.handles_.toList.map Prod.snd) s.process.references
    s.lost balanced handle
  rwa [List.foldl_map] at closed

/-- In every state that calls lead to, the references of the process are those of the
handles that are kept, one for every name, and those that were replaced. So every
handle that is kept is open, closing it never fails, and what destroying the loader
leaves open is what was replaced. -/
theorem references_accounted {dir : Option Bytes} {events : List Event} {s : Accounted}
    (run : Runs.Run (Step dlsym) (fresh dir) events s) :
    s.Balanced ∧ s.process.destroy.Perm s.lost ∧
      (∀ (name : Bytes) (handle : Handle),
        s.process.loader.handles_[name]? = some handle → handle ∈ s.process.references) ∧
      ∀ (libraries : Libraries) (name : Option Bytes) (message : Bytes),
        (s.process.unload libraries name).1 ≠ .failed .kUnknown message := by
  have balanced : s.Balanced := by
    refine run.preserves Balanced ?_ (fresh_balanced dir)
    rintro before _ event balanced rfl
    cases event with
    | load libraries name result => exact balanced.load libraries name result
    | unload libraries name => exact balanced.unload libraries name
  refine ⟨balanced, balanced.destroy, fun name handle found => balanced.kept_open found, ?_⟩
  intro libraries name message
  obtain ⟨n, handle, rfl, _, _, _, unloaded⟩ | ⟨n, handle, _, found, closed⟩ | ⟨_, _, other, _⟩ :=
    s.process.unload_cases libraries name
  · rw [unloaded]
    rintro ⟨⟩
  · exact absurd (balanced.kept_open found) closed
  · exact other message

/-- A library that every path leads to, and its entry. -/
def oneLibrary : Libraries := ⟨fun _ => .ok 0, text "not open"⟩

def entryOfA (_ : Handle) : Option cppboot_plugin :=
  some { name := some (text "a"), depends := none, init := some fun _ => 0, exit := true }

/-- The process after the plugin is loaded twice and unloaded once. -/
def loadedTwice : Accounted :=
  (((fresh none).after entryOfA (.load oneLibrary (some (text "a")) true)).after entryOfA
    (.load oneLibrary (some (text "a")) true)).after entryOfA (.unload oneLibrary (some (text "a")))

/-- Its library stays open for good. -/
theorem loaded_twice_stays :
    loadedTwice.lost = [0] ∧ loadedTwice.process.destroy.Perm loadedTwice.lost :=
  ⟨by decide, (references_accounted (.next rfl (.next rfl (.next rfl (.done _))))).2.1⟩

end Accounted

end Process

end Cppboot
