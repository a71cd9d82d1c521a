import Mathlib.Data.List.Basic
import Cppboot.Runs
import Cppboot.Status
import Cppboot.StrUtil

/-!
# The plugin manager

A manager keeps the loaded plugins by name. A plugin object knows the plugins it
depends on and those that depend on it. The objects are shared and found by
address: here an object is a position in the list of all objects ever made, and
making one appends it.

Loading looks the name up, asks the loader for a header, makes an object, checks
the header, links the object to the plugins its header names, one after the
other, runs its initialisation, and only then enters it under the name in the
header. When a step fails, the links that were already made stay. Unloading is
refused while another plugin depends on the object; otherwise it removes the
object from the plugins it depends on and from the map.

What the loader and the initialisation do is not known to the manager. Every
call of `Load` is given the loader as it behaves at that moment.
-/

namespace Cppboot

open Std

/-- The address of a plugin object. -/
abbrev PluginPtr := Nat

/-- The header of a plugin: two strings and two functions, each of which may be
missing. `exit` takes and returns nothing, so only its presence matters. -/
structure cppboot_plugin where
  name : Option Bytes
  depends : Option Bytes
  init : Option (Bytes → Int32)
  exit : Bool

/-- A plugin, what it says of itself, and the plugins it is linked with. -/
structure Plugin where
  hdr : Option cppboot_plugin
  param : Bytes := []
  /-- What plugins depend on me? -/
  sources : ExtTreeSet PluginPtr := ∅
  /-- What plugins do I depend on? -/
  targets : ExtTreeSet PluginPtr := ∅

/-- What the manager calls outside. -/
inductive PluginCall where
  | init (plugin : PluginPtr) (param : Bytes)
  | exit (plugin : PluginPtr)
  | unload (name : Option Bytes)
deriving DecidableEq, Repr

/-- A loader as it answers one call: a status, and the header where that is
good. -/
abbrev PluginLoader := Bytes → Status × Option cppboot_plugin

/-- The plugins by name, with memory and the calls that were made outside. -/
structure PluginManager where
  heap : List Plugin
  mods_ : ExtTreeMap Bytes PluginPtr
  calls : List PluginCall

/-- The parts of a header that has been checked. -/
structure CheckedHeader where
  name : Bytes
  depends : Option Bytes
  init : Bytes → Int32
  named : name ≠ []

/-- Check a header. What `OkStatus` promises is the result. -/
def verifyPluginHeader : Option cppboot_plugin → Except Status CheckedHeader
  | none => .error (.invalidArgumentError (text "no plugin"))
  | some hdr =>
    match hdr.name with
    | none => .error (.invalidArgumentError (text "no name"))
    | some [] => .error (.invalidArgumentError (text "no name"))
    | some (c :: rest) =>
      match hdr.init with
      | none => .error (.invalidArgumentError (text "no init func"))
      | some init =>
        if hdr.exit then .ok ⟨c :: rest, hdr.depends, init, by simp⟩
        else .error (.invalidArgumentError (text "no exit func"))

/-- The name in a header. -/
def headerName (hdr : Option cppboot_plugin) : Bytes := (hdr.bind (·.name)).getD []

namespace PluginManager

/-- A manager without plugins. -/
def fresh : PluginManager := ⟨[], ∅, []⟩

/-- The object at an address. All addresses in use lie in the list. -/
def deref (mgr : PluginManager) (plugin : PluginPtr) : Plugin :=
  mgr.heap.getD plugin { hdr := none }

/-- Plugin `a` uses `b`. -/
def addpluginUsage (mgr : PluginManager) (a b : PluginPtr) : PluginManager :=
  let used := mgr.heap.modify b fun plugin => { plugin with sources := plugin.sources.insert a }
  { mgr with
    heap := used.modify a fun plugin => { plugin with targets := plugin.targets.insert b } }

/-- Link a plugin to those that the entries of its list name, up to the first that
is not loaded. The message shows the entry without its leading blanks. -/
def verifyDependence (plugin : PluginPtr) : PluginManager → List Bytes → Status × PluginManager
  | mgr, [] => (.okStatus, mgr)
  | mgr, i :: rest =>
    let name := strTrim i (text " ")
    if name.isEmpty then verifyDependence plugin mgr rest
    else
      match mgr.mods_[name]? with
      | none => (.notFoundError (text "depend on " ++ strTrimLeft i (text " ")), mgr)
      | some it => verifyDependence plugin (mgr.addpluginUsage plugin it) rest

/-- The entries of a dependency list. -/
def requireList : Option Bytes → List Bytes
  | none => []
  | some depends => strSplit depends (byte ',')

/-- Check a plugin's header, link it and initialise it. -/
def initPulgin (mgr : PluginManager) (plugin : PluginPtr) (hdr : Option cppboot_plugin)
    (param : Bytes) : Status × PluginManager :=
  match verifyPluginHeader hdr with
  | .error st => (st, mgr)
  | .ok checked =>
    let linked := verifyDependence plugin mgr (requireList checked.depends)
    if linked.1.ok then
      let called := { linked.2 with calls := linked.2.calls ++ [.init plugin param] }
      if checked.init param ≠ 0 then (.invalidArgumentError (text "init retrn error"), called)
      else (linked.1, called)
    else linked

/-- A new object for a header. -/
def make (mgr : PluginManager) (hdr : Option cppboot_plugin) : PluginManager :=
  { mgr with heap := mgr.heap ++ [{ hdr := hdr }] }

/-- Give a plugin back to the loader that could not be initialised. -/
def dismiss (mgr : PluginManager) (name : Bytes) : PluginManager :=
  { mgr with calls := mgr.calls ++ [.unload (some name)] }

/-- Keep the parameter of a plugin and enter it into the map. -/
def enter (mgr : PluginManager) (name : Bytes) (me : PluginPtr) (param : Bytes) : PluginManager :=
  { mgr with
    heap := mgr.heap.modify me fun plugin => { plugin with param := param }
    mods_ := mgr.mods_.insert name me }

/-- Load the plugin of the given name. A missing parameter is an empty one. -/
def load (mgr : PluginManager) (loader : PluginLoader) (name param : Option Bytes) :
    Status × PluginManager :=
  match name with
  | none => (.invalidArgumentError (text "no plugin name"), mgr)
  | some [] => (.invalidArgumentError (text "no plugin name"), mgr)
  | some name =>
    if mgr.mods_.contains name then (.alreadyExistsError name, mgr)
    else
      let answer := loader name
      if !answer.1.ok then (answer.1, mgr)
      else
        let me := mgr.heap.length
        let ready := (mgr.make answer.2).initPulgin me answer.2 (param.getD [])
        if !ready.1.ok then (ready.1, ready.2.dismiss name)
        else (.okStatus, ready.2.enter (headerName answer.2) me (param.getD []))

/-- The target forgets that a plugin depends on it. -/
def eraseSource (source : PluginPtr) (heap : List Plugin) (target : PluginPtr) : List Plugin :=
  heap.modify target fun plugin => { plugin with sources := plugin.sources.erase source }

/-- Unload the plugin of the given name, unless another depends on it. -/
def unload (mgr : PluginManager) (name : Option Bytes) : Status × PluginManager :=
  match name with
  | none => (.invalidArgumentError (text "empty plugin name"), mgr)
  | some [] => (.invalidArgumentError (text "empty plugin name"), mgr)
  | some name =>
    match mgr.mods_[name]? with
    | none => (.notFoundError name, mgr)
    | some it =>
      let me := mgr.deref it
      if !me.sources.isEmpty then (.cancelledError (text "has depend on by others"), mgr)
      else
        (.okStatus,
          { heap := me.targets.foldl (eraseSource it) mgr.heap
            mods_ := mgr.mods_.erase name
            calls := mgr.calls ++ [.exit it, .unload (me.hdr.bind (·.name))] })

/-- What happens to a manager. -/
inductive Event where
  | load (loader : PluginLoader) (name param : Option Bytes)
  | unload (name : Option Bytes)

/-- The manager after a call, whatever it returned. -/
def after (mgr : PluginManager) : Event → PluginManager
  | .load loader name param => (mgr.load loader name param).2
  | .unload name => (mgr.unload name).2

/-- The manager as a system that handles one call after the other. -/
def Step (before : PluginManager) (event : Event) (next : PluginManager) : Prop :=
  next = before.after event

end PluginManager

end Cppboot
