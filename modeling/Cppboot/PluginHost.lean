import Cppboot.DllLoader
import Cppboot.PluginNames

/-!
# The plugin manager over the library loader

A host is a manager whose loader opens libraries. A call of the manager may reach the
loader: loading asks it for the name, and gives the plugin back under that name if it
cannot be initialised; unloading gives back the name in the header.

The manager looks plugins up under the name in the header and the loader keeps
libraries under the name it was asked for. As long as every header that is accepted has
the name asked for, the names that the loader keeps are those of the loaded plugins,
every loaded plugin is backed by an open library, and nothing is left open at the end.
The first accepted header with another name breaks this at once: its library is kept
under a name that no plugin has.
-/

namespace Cppboot

open Std

namespace PluginManager

/-- Initialising a plugin makes no other calls than of its function. -/
theorem initPulgin_inits (mgr : PluginManager) (me : PluginPtr) (hdr : Option cppboot_plugin)
    (param : Bytes) :
    ∃ made, (mgr.initPulgin me hdr param).2.calls = mgr.calls ++ made ∧
      ∀ call ∈ made, call = .init me param := by
  have nothing (mgr : PluginManager) :
      ∃ made, mgr.calls = mgr.calls ++ made ∧ ∀ call ∈ made, call = .init me param :=
    ⟨[], (List.append_nil _).symm, by simp⟩
  simp only [initPulgin]
  cases verifyPluginHeader hdr with
  | error st => exact nothing mgr
  | ok checked =>
    simp only [verifyDependence_eq]
    split
    · have called : ∃ made, mgr.calls ++ [.init me param] = mgr.calls ++ made ∧
          ∀ call ∈ made, call = .init me param :=
        ⟨[.init me param], rfl, by simp⟩
      split <;> simpa only [linkAll_calls] using called
    · simpa only [linkAll_calls] using nothing mgr

/-- A load that reaches the header gives the plugin back exactly when the header is not
accepted. -/
theorem load_gives_back {mgr : PluginManager} {loader : PluginLoader} {name : Bytes}
    (param : Option Bytes) (reaches : mgr.Reaches loader name) :
    ∃ made, (∀ call ∈ made, ∃ plugin param, call = .init plugin param) ∧
      (mgr.load loader (some name) param).2.calls = mgr.calls ++ made ++
        if accepts mgr.mods_ (loader name).2 (param.getD []) = true then []
        else [.unload (some name)] := by
  obtain ⟨named, absent, answered⟩ := reaches
  obtain ⟨c, rest, rfl⟩ := List.exists_cons_of_ne_nil named
  have missing : ¬ mgr.mods_.contains (c :: rest) = true := by
    rw [ExtTreeMap.contains_eq_isSome_getElem?, absent]
    simp
  obtain ⟨status, _⟩ := initPulgin_spec (mgr.make (loader (c :: rest)).2)
    mgr.heap.length (loader (c :: rest)).2 (param.getD [])
  obtain ⟨made, calls, inits⟩ := initPulgin_inits (mgr.make (loader (c :: rest)).2)
    mgr.heap.length (loader (c :: rest)).2 (param.getD [])
  refine ⟨made, fun call member => ⟨_, _, inits call member⟩, ?_⟩
  have same : (mgr.make (loader (c :: rest)).2).mods_ = mgr.mods_ := rfl
  rw [same] at status
  simp only [load, if_neg missing, answered, Bool.not_true, Bool.false_eq_true, if_false, status]
  by_cases accepted : accepts mgr.mods_ (loader (c :: rest)).2 (param.getD []) = true
  · simp only [accepted, Bool.not_true, Bool.false_eq_true, if_false, if_true]
    rw [List.append_nil]
    exact calls
  · simp only [accepted, Bool.not_false, Bool.false_eq_true, if_false, if_true]
    rw [dismiss, calls]
    rfl

end PluginManager

/-- A plugin manager, and the process in which its loader opens libraries. -/
structure PluginHost where
  mgr : PluginManager
  process : Process

namespace PluginHost

variable (dlsym : Process.Entries)

def fresh (dir : Option Bytes) : PluginHost := ⟨PluginManager.fresh, Process.fresh dir⟩

/-- The loader as it answers the manager's call. -/
def answers (process : Process) (libraries : Libraries) : PluginLoader :=
  fun name => (process.load dlsym libraries (some name) true).1

/-- Loading asks the loader for a new, non-empty name. -/
def asks (mgr : PluginManager) (name : Bytes) : Bool := !name.isEmpty && !mgr.mods_.contains name

/-- Of the calls that the manager makes outside, those to unload reach the loader. -/
def perform (libraries : Libraries) (process : Process) : PluginCall → Process
  | .unload name => (process.unload libraries name).2
  | .init _ _ => process
  | .exit _ => process

/-- The process after the calls that the manager has made in a step. -/
def performed (libraries : Libraries) (process : Process) (before after : PluginManager) :
    Process :=
  (after.calls.drop before.calls.length).foldl (perform libraries) process

/-- `Load` of the manager, with what the loader does meanwhile. -/
def load (host : PluginHost) (libraries : Libraries) (name param : Option Bytes) :
    Status × PluginHost :=
  let result := host.mgr.load (answers dlsym host.process libraries) name param
  let opened :=
    match name with
    | none => host.process
    | some n =>
      if asks host.mgr n then (host.process.load dlsym libraries (some n) true).2
      else host.process
  (result.1, ⟨result.2, performed libraries opened host.mgr result.2⟩)

/-- `Unload` of the manager, with what the loader does meanwhile. -/
def unload (host : PluginHost) (libraries : Libraries) (name : Option Bytes) :
    Status × PluginHost :=
  let result := host.mgr.unload name
  (result.1, ⟨result.2, performed libraries host.process host.mgr result.2⟩)

inductive Event where
  | load (libraries : Libraries) (name param : Option Bytes)
  | unload (libraries : Libraries) (name : Option Bytes)

def after (host : PluginHost) : Event → PluginHost
  | .load libraries name param => (host.load dlsym libraries name param).2
  | .unload libraries name => (host.unload libraries name).2

def Step (before : PluginHost) (event : Event) (next : PluginHost) : Prop :=
  next = before.after dlsym event

/-- A load that succeeds finds the name in the header that it was asked for. -/
def SameName (host : PluginHost) : Event → Prop
  | .load libraries name param => ∀ n, name = some n →
      host.mgr.Reaches (answers dlsym host.process libraries) n →
      PluginManager.accepts host.mgr.mods_ (answers dlsym host.process libraries n).2
        (param.getD []) = true →
      headerName (answers dlsym host.process libraries n).2 = n
  | .unload _ _ => True

/-- The loader keeps a library under exactly the names of the loaded plugins. -/
def NamesAgree (host : PluginHost) : Prop :=
  ∀ name : Bytes, host.process.loader.handles_[name]?.isSome = host.mgr.mods_[name]?.isSome

/-- The invariant. -/
structure Tied (host : PluginHost) : Prop where
  bounded : host.mgr.Bounded
  named : ∀ {name : Bytes} {plugin : PluginPtr}, host.mgr.mods_[name]? = some plugin →
    headerName (host.mgr.deref plugin).hdr = name
  names : host.NamesAgree
  entry : ∀ {name : Bytes} {plugin : PluginPtr} {handle : Handle},
    host.mgr.mods_[name]? = some plugin → host.process.loader.handles_[name]? = some handle →
      (host.mgr.deref plugin).hdr = dlsym handle
  balanced : ∀ handle, host.process.references.count handle = host.process.loader.held handle

variable {dlsym}

/-- Calls of initialisation functions do not reach the loader. -/
theorem perform_inits (libraries : Libraries) (process : Process) {made : List PluginCall}
    (inits : ∀ call ∈ made, ∃ plugin param, call = .init plugin param) :
    made.foldl (perform libraries) process = process := by
  induction made with
  | nil => rfl
  | cons call made inductionHypothesis =>
    obtain ⟨plugin, param, rfl⟩ := inits call List.mem_cons_self
    exact inductionHypothesis fun other member => inits other (List.mem_cons_of_mem _ member)

/-- Of the calls of a step those that initialize do not reach the loader. -/
theorem performed_eq (libraries : Libraries) (process : Process) {before after : PluginManager}
    {made last : List PluginCall} (calls : after.calls = before.calls ++ made ++ last)
    (inits : ∀ call ∈ made, ∃ plugin param, call = .init plugin param) :
    performed libraries process before after = last.foldl (perform libraries) process := by
  rw [performed, calls, List.append_assoc, List.drop_left, List.foldl_append,
    perform_inits libraries process inits]

/-- A manager that makes no call leaves the process as it is. -/
theorem performed_same (libraries : Libraries) (process : Process) (mgr : PluginManager) :
    performed libraries process mgr mgr = process := by
  rw [performed, List.drop_length]
  rfl

/-- Every handle that is kept is open. -/
theorem Tied.kept_open {host : PluginHost} (tied : host.Tied dlsym) {name : Bytes} {handle : Handle}
    (found : host.process.loader.handles_[name]? = some handle) :
    handle ∈ host.process.references := by
  have counted := tied.balanced handle
  have kept := DllLoader.held_pos found
  exact List.count_pos_iff.mp (by omega)

/-- A loader that just opened a library under a new name closes it again. -/
theorem unload_opened {process : Process} {name : Bytes} (named : name ≠ [])
    (missing : process.loader.handles_[name]? = none) (handle : Handle) (libraries : Libraries) :
    (Process.unload
      { loader :=
          { process.loader with handles_ := process.loader.handles_.insert name handle }
        references := handle :: process.references } libraries (some name)).2 = process := by
  have found : (process.loader.handles_.insert name handle)[name]? = some handle :=
    ExtTreeMap.getElem?_insert_self
  have back : (process.loader.handles_.insert name handle).erase name =
      process.loader.handles_ := by
    refine ExtTreeMap.ext_getElem? fun other => ?_
    rw [ExtTreeMap.getElem?_erase, ExtTreeMap.getElem?_insert]
    by_cases same : compare name other = .eq
    · rw [if_pos same, ← LawfulEqCmp.compare_eq_iff_eq.mp same, missing]
    · rw [if_neg same, if_neg same]
  obtain ⟨n, kept, ⟨⟩, _, same, _, unloaded⟩ | ⟨n, kept, ⟨⟩, same, closed⟩ | ⟨_, _, _, absent⟩ :=
    Process.unload_cases
      { loader :=
          { process.loader with handles_ := process.loader.handles_.insert name handle }
        references := handle :: process.references } libraries (some name)
  · obtain rfl := Option.some.inj (found.symm.trans same)
    rw [unloaded]
    simp only [back, List.erase_cons_head]
  · obtain rfl := Option.some.inj (found.symm.trans same)
    exact absurd List.mem_cons_self closed
  · cases found.symm.trans (absent name rfl named)

/-- What a call of `Load` does to a tied host: nothing where the header is not reached or
not accepted, but for the objects; else the library is kept under the name asked for and
the plugin entered under the name in the header. -/
theorem load_cases {host : PluginHost} (tied : host.Tied dlsym) (libraries : Libraries)
    (name param : Option Bytes) :
    ((∀ n, name = some n → host.mgr.Reaches (answers dlsym host.process libraries) n →
        ¬ PluginManager.accepts host.mgr.mods_ (answers dlsym host.process libraries n).2
          (param.getD []) = true) ∧
      (host.load dlsym libraries name param).2.process = host.process ∧
      (host.load dlsym libraries name param).2.mgr.mods_ = host.mgr.mods_) ∨
    ∃ n handle, name = some n ∧ host.mgr.Reaches (answers dlsym host.process libraries) n ∧
      PluginManager.accepts host.mgr.mods_ (answers dlsym host.process libraries n).2
        (param.getD []) = true ∧
      (answers dlsym host.process libraries n).2 = dlsym handle ∧
      (host.load dlsym libraries name param).2.process =
        { loader :=
            { host.process.loader with
              handles_ := host.process.loader.handles_.insert n handle }
          references := handle :: host.process.references } ∧
      (host.load dlsym libraries name param).2.mgr.mods_ =
        host.mgr.mods_.insert (headerName (dlsym handle)) host.mgr.heap.length := by
  obtain ⟨refused, _, same⟩ | ⟨n, rfl, reaches, status, links, mods⟩ :=
    PluginManager.load_cases tied.bounded (answers dlsym host.process libraries) name param
  · refine .inl ⟨fun n asked reaches _ => refused n asked reaches, ?_, ?_⟩
    · simp only [load, same, performed_same]
      cases name with
      | none => rfl
      | some n =>
        simp only
        split
        next asked =>
          rw [asks, Bool.and_eq_true, Bool.not_eq_true', Bool.not_eq_true',
            List.isEmpty_eq_false_iff] at asked
          have absent := ExtTreeMap.getElem?_eq_none_of_contains_eq_false asked.2
          obtain ⟨_, handle, hdr, ⟨⟩, _, _, _, loaded⟩ | ⟨_, unchanged⟩ :=
            host.process.load_cases dlsym libraries (some n) true
          · refine absurd ⟨asked.1, absent, ?_⟩ (refused n rfl)
            rw [answers, loaded]
            rfl
          · exact unchanged
        next => rfl
    · simp only [load, same]
  · have absent : host.process.loader.handles_[n]? = none := by
      have agree := tied.names n
      rw [reaches.unloaded] at agree
      exact Option.isNone_iff_eq_none.mp (Option.isSome_eq_false_iff.mp agree)
    have asked : asks host.mgr n = true := by
      rw [asks, Bool.and_eq_true, Bool.not_eq_true', Bool.not_eq_true',
        List.isEmpty_eq_false_iff, ExtTreeMap.contains_eq_isSome_getElem?, reaches.unloaded]
      exact ⟨reaches.named, rfl⟩
    obtain ⟨made, inits, calls⟩ := PluginManager.load_gives_back param reaches
    obtain ⟨_, handle, hdr, ⟨⟩, named, found, _, loaded⟩ | ⟨failed, _⟩ :=
      host.process.load_cases dlsym libraries (some n) true
    · have header : (answers dlsym host.process libraries n).2 = dlsym handle := by
        rw [answers, loaded, found]
      have after := performed_eq libraries (host.process.load dlsym libraries (some n) true).2
        calls inits
      rw [loaded] at after
      by_cases accepted : PluginManager.accepts host.mgr.mods_
          (answers dlsym host.process libraries n).2 (param.getD []) = true
      · rw [if_pos accepted] at after mods
        refine .inr ⟨n, handle, rfl, reaches, accepted, header, ?_, ?_⟩
        · simp only [load, if_pos asked, loaded]
          exact after
        · simp only [load, mods, header]
      · rw [if_neg accepted] at after mods
        refine .inl ⟨?_, ?_, ?_⟩
        · rintro _ ⟨⟩ _
          exact accepted
        · simp only [load, if_pos asked, loaded]
          exact after.trans (unload_opened named absent handle libraries)
        · simp only [load, mods]
    · have answered := reaches.answered
      rw [answers, failed] at answered
      cases answered

/-- A load leaves the headers of the objects that were there. -/
theorem load_headers {host : PluginHost} (bounded : host.mgr.Bounded) (libraries : Libraries)
    (name param : Option Bytes) {plugin : PluginPtr} (inside : plugin < host.mgr.heap.length) :
    ((host.load dlsym libraries name param).2.mgr.deref plugin).hdr =
      (host.mgr.deref plugin).hdr := by
  obtain ⟨_, _, same⟩ | ⟨n, rfl, _, _, links, _⟩ :=
    PluginManager.load_cases bounded (answers dlsym host.process libraries) name param
  · simp only [load, same]
  · exact links.header inside

/-- At the start nothing is loaded and nothing is open. -/
theorem fresh_tied (dir : Option Bytes) : (fresh dir).Tied dlsym where
  bounded := PluginManager.fresh_bounded
  named found := by
    rw [fresh, PluginManager.fresh, ExtTreeMap.getElem?_empty] at found
    cases found
  names name := by
    simp only [fresh, Process.fresh, PluginManager.fresh, ExtTreeMap.getElem?_empty]
  entry found := by
    rw [fresh, PluginManager.fresh, ExtTreeMap.getElem?_empty] at found
    cases found
  balanced handle := by
    exact Process.Accounted.fresh_balanced dir handle

/-- A load under one name keeps a host tied. -/
theorem Tied.load {host : PluginHost} (tied : host.Tied dlsym) {libraries : Libraries}
    {name param : Option Bytes} (same : host.SameName dlsym (.load libraries name param)) :
    (host.after dlsym (.load libraries name param)).Tied dlsym := by
  have bounded := PluginManager.load_bounded tied.bounded
    (answers dlsym host.process libraries) name param
  obtain ⟨_, process, mods⟩ | ⟨n, handle, rfl, reaches, accepted, header, process, mods⟩ :=
    load_cases tied libraries name param
  · have kept {name' : Bytes} {plugin : PluginPtr}
        (found : host.mgr.mods_[name']? = some plugin) :
        ((host.after dlsym (.load libraries name param)).mgr.deref plugin).hdr =
          (host.mgr.deref plugin).hdr :=
      load_headers tied.bounded libraries name param (tied.bounded.loaded found)
    constructor
    · exact bounded
    · intro other plugin found
      rw [after, mods] at found
      rw [kept found]
      exact tied.named found
    · intro other
      rw [after, process, mods]
      exact tied.names other
    · intro other plugin handle found held
      rw [after, mods] at found
      rw [after, process] at held
      rw [kept found]
      exact tied.entry found held
    · intro handle
      rw [after, process]
      exact tied.balanced handle
  · have named := same n rfl reaches accepted
    rw [header] at named
    rw [named] at mods
    have new_header : ((host.after dlsym (.load libraries (some n) param)).mgr.deref
        host.mgr.heap.length).hdr = dlsym handle := by
      obtain ⟨refused, _⟩ | ⟨_, ⟨⟩, _, _, links, _⟩ :=
        PluginManager.load_cases tied.bounded (answers dlsym host.process libraries) (some n) param
      · exact absurd reaches (refused n rfl)
      · exact links.new_header.trans header
    constructor
    · exact bounded
    · intro other plugin found
      rw [after, mods] at found
      obtain ⟨rfl, rfl⟩ | known := PluginManager.getElem?_entered found
      · rw [new_header, named]
      · rw [after, load_headers tied.bounded libraries _ param (tied.bounded.loaded known)]
        exact tied.named known
    · intro other
      have agree := tied.names other
      rw [after, process, mods]
      simp only [ExtTreeMap.getElem?_insert]
      split
      · rfl
      · exact agree
    · intro other plugin kept found held
      rw [after, mods] at found
      rw [after, process, ExtTreeMap.getElem?_insert] at held
      obtain ⟨rfl, rfl⟩ | known := PluginManager.getElem?_entered found
      · rw [if_pos ReflCmp.compare_self] at held
        rw [new_header, Option.some.inj held]
      · have other_name : ¬ compare n other = .eq := by
          intro equal
          rw [← LawfulEqCmp.compare_eq_iff_eq.mp equal, reaches.unloaded] at known
          cases known
        rw [if_neg other_name] at held
        rw [after, load_headers tied.bounded libraries _ param (tied.bounded.loaded known)]
        exact tied.entry known held
    · intro other
      have counted := tied.balanced other
      have entered := host.process.loader.held_insert n handle other
      have missing : host.process.loader.handles_[n]? = none := by
        have agree := tied.names n
        rw [reaches.unloaded] at agree
        exact Option.isNone_iff_eq_none.mp (Option.isSome_eq_false_iff.mp agree)
      have kept := DllLoader.held_missing missing other
      rw [after, process, entered, List.count_cons, kept, counted]

/-- What a call of `Unload` does to a tied host: nothing, or the plugin of the name and
the library under it go together. -/
theorem unload_cases {host : PluginHost} (tied : host.Tied dlsym) (libraries : Libraries)
    (name : Option Bytes) :
    (host.unload libraries name).2 = host ∨
    ∃ n me handle, name = some n ∧ host.mgr.Removes n me ∧
      host.process.loader.handles_[n]? = some handle ∧
      (host.unload libraries name).2.process =
        { loader :=
            { host.process.loader with handles_ := host.process.loader.handles_.erase n }
          references := host.process.references.erase handle } := by
  obtain ⟨n, me, rfl, removes⟩ | ⟨_, same⟩ := host.mgr.unload_cases name
  · have agree := tied.names n
    rw [removes.loaded, Option.isSome_some] at agree
    obtain ⟨handle, held⟩ := Option.isSome_iff_exists.mp agree
    refine .inr ⟨n, me, handle, rfl, removes, held, ?_⟩
    have calls := PluginManager.unload_calls removes
    have header : (host.mgr.deref me).hdr.bind (·.name) = some n := by
      have named := tied.named removes.loaded
      unfold headerName at named
      cases found : (host.mgr.deref me).hdr.bind (·.name) with
      | none =>
        rw [found] at named
        exact absurd named.symm removes.named
      | some other =>
        rw [found] at named
        exact congrArg some named
    rw [header] at calls
    simp only [unload, performed, calls, List.drop_left, List.foldl_cons, List.foldl_nil, perform]
    obtain ⟨_, kept, ⟨⟩, _, found, _, unloaded⟩ | ⟨_, kept, ⟨⟩, found, closed⟩ |
        ⟨_, _, _, absent⟩ :=
      host.process.unload_cases libraries (some n)
    · rw [unloaded, ← Option.some.inj (held.symm.trans found)]
    · exact absurd (tied.kept_open found) closed
    · cases held.symm.trans (absent n rfl removes.named)
  · left
    simp only [unload, same, performed_same]

/-- Unloading keeps a host tied. -/
theorem Tied.unload {host : PluginHost} (tied : host.Tied dlsym) (libraries : Libraries)
    (name : Option Bytes) : (host.after dlsym (.unload libraries name)).Tied dlsym := by
  obtain same | ⟨n, me, handle, rfl, removes, held, process⟩ := unload_cases tied libraries name
  · rw [after, same]
    exact tied
  · obtain ⟨_, mods, objects⟩ := PluginManager.unload_removes removes
    have remaining {other : Bytes} {plugin : PluginPtr}
        (found : (host.unload libraries (some n)).2.mgr.mods_[other]? = some plugin) :
        host.mgr.mods_[other]? = some plugin := by
      simp only [PluginHost.unload, mods, ExtTreeMap.getElem?_erase] at found
      split at found
      · cases found
      · exact found
    constructor
    · exact PluginManager.unload_bounded tied.bounded (some n)
    · intro other plugin found
      have before := remaining found
      have header := (objects (tied.bounded.loaded before)).2.1
      exact (congrArg headerName header).trans (tied.named before)
    · intro other
      have agree := tied.names other
      simp only [after, process]
      simp only [PluginHost.unload, mods, ExtTreeMap.getElem?_erase]
      split
      · rfl
      · exact agree
    · intro other plugin kept found opened
      have before := remaining found
      have header := (objects (tied.bounded.loaded before)).2.1
      rw [after, process, ExtTreeMap.getElem?_erase] at opened
      split at opened
      · cases opened
      · exact header.trans (tied.entry before opened)
    · intro other
      have counted := tied.balanced other
      have before := DllLoader.held_erase held other
      simp only [after, process, List.count_erase]
      omega

/-- Every call keeps libraries and plugins tied. -/
theorem Tied.after {host : PluginHost} (tied : host.Tied dlsym) {event : Event}
    (same : host.SameName dlsym event) : (host.after dlsym event).Tied dlsym := by
  cases event with
  | load libraries name param => exact tied.load same
  | unload libraries name => exact tied.unload libraries name

/-- From a tied host, the names agree after a call exactly when an accepted header has
the name asked for: one with another name leaves its library under a name that no
plugin has. -/
theorem Tied.names_agree_iff {host : PluginHost} (tied : host.Tied dlsym) (event : Event) :
    host.SameName dlsym event ↔ (host.after dlsym event).NamesAgree := by
  refine ⟨fun same => (tied.after same).names, fun agree => ?_⟩
  cases event with
  | unload libraries name => trivial
  | load libraries name param =>
    rintro n rfl reaches accepted
    obtain ⟨refused, _, _⟩ | ⟨_, handle, ⟨⟩, _, _, header, process, mods⟩ :=
      load_cases tied libraries (some n) param
    · exact absurd accepted (refused n rfl reaches)
    · have here := agree n
      rw [PluginHost.after, process, mods, ExtTreeMap.getElem?_insert_self] at here
      obtain ⟨plugin, found⟩ := Option.isSome_iff_exists.mp here.symm
      rw [header]
      obtain ⟨same, _⟩ | known := PluginManager.getElem?_entered found
      · exact same.symm
      · rw [reaches.unloaded] at known
        cases known

/-- Every loaded plugin is backed by an open library, which the loader keeps under the
plugin's name and which exports its header. -/
def Backed (dlsym : Process.Entries) (host : PluginHost) : Prop :=
  ∀ (name : Bytes) (plugin : PluginPtr), host.mgr.mods_[name]? = some plugin →
    ∃ handle, host.process.loader.handles_[name]? = some handle ∧
      handle ∈ host.process.references ∧ (host.mgr.deref plugin).hdr = dlsym handle

theorem Tied.backed {host : PluginHost} (tied : host.Tied dlsym) : host.Backed dlsym := by
  intro name plugin found
  have agree := tied.names name
  rw [found, Option.isSome_some] at agree
  obtain ⟨handle, held⟩ := Option.isSome_iff_exists.mp agree
  exact ⟨handle, held, tied.kept_open held, tied.entry found held⟩

/-- Destroying the loader of a tied host leaves nothing open. -/
theorem Tied.destroy {host : PluginHost} (tied : host.Tied dlsym) : host.process.destroy = [] := by
  have balanced : Process.Accounted.Balanced ⟨host.process, []⟩ := tied.balanced
  exact List.perm_nil.mp balanced.destroy

/-- The runs in which every accepted header has the name asked for are those in which,
after every call, the loader keeps libraries under the names of the loaded plugins and
no others. In every state they reach each loaded plugin is backed by an open library
that exports its header, and destroying the loader leaves no library open. -/
theorem libraries_follow_plugins {dir : Option Bytes} {events : List Event} {host : PluginHost} :
    (Runs.Run (Runs.Guarded (SameName dlsym) (Step dlsym)) (fresh dir) events host ↔
      Runs.Run (Runs.Guarded (fun before event => (before.after dlsym event).NamesAgree)
        (Step dlsym)) (fresh dir) events host) ∧
    (Runs.Run (Runs.Guarded (SameName dlsym) (Step dlsym)) (fresh dir) events host →
      host.NamesAgree ∧ host.Backed dlsym ∧ host.process.destroy = []) := by
  constructor
  · refine Runs.Run.guards_agree (Tied dlsym) ?_ ?_ (fresh_tied dir)
    · intro before _ event tied _
      exact tied.names_agree_iff event
    · rintro before _ event tied same rfl
      exact tied.after same
  · intro run
    have tied : host.Tied dlsym := by
      refine run.preserves (Tied dlsym) ?_ (fresh_tied dir)
      rintro before _ event tied ⟨same, rfl⟩
      exact tied.after same
    exact ⟨tied.names, tied.backed, tied.destroy⟩

/-- The host after a plugin `a` is loaded from its library. -/
def hostOfA : PluginHost :=
  (fresh none).after Process.Accounted.entryOfA
    (.load Process.Accounted.oneLibrary (some (text "a")) none)

/-- A plugin is loaded, and its library is open. -/
theorem loaded_plugin_backed :
    hostOfA.mgr.mods_[text "a"]? = some 0 ∧ hostOfA.Backed Process.Accounted.entryOfA := by
  have same : (fresh none).SameName Process.Accounted.entryOfA
      (.load Process.Accounted.oneLibrary (some (text "a")) none) := by
    rintro _ ⟨⟩ _ _
    rfl
  exact ⟨by decide, (libraries_follow_plugins.2 (.next ⟨same, rfl⟩ (.done _))).2.1⟩

end PluginHost

end Cppboot
