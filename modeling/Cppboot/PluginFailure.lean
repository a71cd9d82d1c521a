import Cppboot.PluginLinks

/-!
# Plugin loads that fail

A load that fails before it has made a link leaves the loaded plugins as they
were. One that has made a link leaves it behind: the plugin that was found keeps
the object of the failed load among its sources, and from then on it cannot be
unloaded. Both happen, and which one is decided by the header and the map.
-/

namespace Cppboot.PluginManager

open Std

/-- The loaded plugins and their links are as before, and what could be unloaded
still can. -/
structure Unchanged (before after : PluginManager) : Prop where
  mods : after.mods_ = before.mods_
  sources : ∀ {name : Bytes} {plugin : PluginPtr}, before.mods_[name]? = some plugin →
    (after.deref plugin).sources = (before.deref plugin).sources
  targets : ∀ {name : Bytes} {plugin : PluginPtr}, before.mods_[name]? = some plugin →
    (after.deref plugin).targets = (before.deref plugin).targets
  unloadable : ∀ name, (before.unload name).1.ok = true → (after.unload name).1.ok = true

/-- The call makes a link and fails after it: the name is new and the loader
answers with a good header, the first entry of its list that is not blank is
loaded, and a later entry is not or the initialisation fails. -/
def Strands (mgr : PluginManager) (loader : PluginLoader) (name param : Option Bytes) : Prop :=
  ∃ n, name = some n ∧ mgr.Reaches loader n ∧ madeLinks mgr.mods_ (loader n).2 ≠ [] ∧
    accepts mgr.mods_ (loader n).2 (param.getD []) = false

/-- A plugin that is unloaded was loaded, and nothing depended on it. -/
theorem unload_ok {mgr : PluginManager} {name : Option Bytes}
    (unloaded : (mgr.unload name).1.ok = true) : ∃ n me, name = some n ∧ mgr.Removes n me := by
  obtain removed | ⟨failed, _⟩ := mgr.unload_cases name
  · exact removed
  · rw [failed] at unloaded
    cases unloaded

/-- What can be unloaded depends on the map and the sources alone. -/
theorem unloadable_of {before after : PluginManager} (mods : after.mods_ = before.mods_)
    (sources : ∀ {name : Bytes} {plugin : PluginPtr}, before.mods_[name]? = some plugin →
      (after.deref plugin).sources = (before.deref plugin).sources)
    (name : Option Bytes) (unloaded : (before.unload name).1.ok = true) :
    (after.unload name).1.ok = true := by
  obtain ⟨n, me, rfl, removes⟩ := unload_ok unloaded
  have still : after.Removes n me := by
    refine ⟨removes.named, mods ▸ removes.loaded, ?_⟩
    rw [sources removes.loaded]
    exact removes.free
  exact (unload_removes still).1

/-- A new object without links changes no plugin that was there. -/
theorem unlinked_unchanged {mgr next : PluginManager} {hdr : Option cppboot_plugin}
    (bounded : mgr.Bounded) (links : Linked mgr hdr next)
    (unlinked : madeLinks mgr.mods_ hdr = []) (mods : next.mods_ = mgr.mods_) :
    Unchanged mgr next := by
  have sources : ∀ {name : Bytes} {plugin : PluginPtr}, mgr.mods_[name]? = some plugin →
      (next.deref plugin).sources = (mgr.deref plugin).sources := by
    intro name plugin found
    apply ExtTreeSet.ext_mem
    intro source
    rw [links.sources (bounded.loaded found), unlinked]
    simp only [List.not_mem_nil, and_false, false_or]
  refine ⟨mods, sources, ?_, unloadable_of mods sources⟩
  intro name plugin found
  exact links.targets (bounded.loaded found)

/-- A link that stays is a source that was not there. -/
theorem linked_changed {mgr next : PluginManager} {hdr : Option cppboot_plugin}
    (bounded : mgr.Bounded) (links : Linked mgr hdr next)
    (found : madeLinks mgr.mods_ hdr ≠ []) : ¬ Unchanged mgr next := by
  intro unchanged
  obtain ⟨target, others, listed⟩ := List.exists_cons_of_ne_nil found
  have member : target ∈ madeLinks mgr.mods_ hdr := by
    rw [listed]
    exact List.mem_cons_self
  obtain ⟨name, loaded⟩ := madeLinks_loaded member
  have inside := bounded.loaded loaded
  have stranded : mgr.heap.length ∈ (next.deref target).sources :=
    (links.sources inside _).mpr (.inl ⟨rfl, member⟩)
  rw [unchanged.sources loaded] at stranded
  exact Nat.lt_irrefl _ (bounded.sources inside stranded)

/-- In every state that can be reached, with every loader, a failed load changes
nothing exactly when it does not fail after a link. -/
theorem failed_load_unchanged_iff {events : List Event} {mgr : PluginManager}
    (run : Runs.Run Step fresh events mgr) (loader : PluginLoader) (name param : Option Bytes) :
    ((mgr.load loader name param).1.ok = false →
      Unchanged mgr (mgr.load loader name param).2) ↔ ¬ mgr.Strands loader name param := by
  have bounded := run_bounded run
  constructor
  · rintro unchanged ⟨n, rfl, reaches, linked, refused⟩
    rcases load_cases bounded loader (some n) param with ⟨refuses, _⟩ |
      ⟨_, same, _, status, links, _⟩
    · exact refuses n rfl reaches
    · cases same
      exact linked_changed bounded links linked (unchanged (status.trans refused))
  · intro clean failed
    rcases load_cases bounded loader name param with ⟨_, _, same⟩ |
      ⟨n, named, reaches, status, links, mods⟩
    · rw [same]
      exact ⟨rfl, fun _ => rfl, fun _ => rfl, fun _ ok => ok⟩
    · have refused := status.symm.trans failed
      have unlinked : madeLinks mgr.mods_ (loader n).2 = [] := by
        by_contra linked
        exact clean ⟨n, named, reaches, linked, refused⟩
      rw [refused] at mods
      exact unlinked_unchanged bounded links unlinked mods

/-- A loader of a plugin `a` without dependencies, and of `b` and `d`, which need
`a` and a plugin that does not exist, in this order and in the other. -/
def twoPlugins (name : Bytes) : Status × Option cppboot_plugin :=
  let header (depends : Option Bytes) : cppboot_plugin :=
    ⟨some name, depends, some fun _ => 0, true⟩
  if name = text "a" then (.okStatus, some (header none))
  else if name = text "b" then (.okStatus, some (header (some (text "a, c"))))
  else if name = text "d" then (.okStatus, some (header (some (text "c, a"))))
  else (.notFoundError [], none)

/-- The manager after plugin `a` is loaded. -/
def withA : PluginManager := (fresh.load twoPlugins (some (text "a")) none).2

theorem withA_run :
    Runs.Run Step fresh [.load twoPlugins (some (text "a")) none] withA :=
  .next rfl (.done _)

/-- A load that fails at its first dependency changes nothing. -/
theorem missing_first_unchanged :
    (withA.load twoPlugins (some (text "d")) none).1.ok = false ∧
      Unchanged withA (withA.load twoPlugins (some (text "d")) none).2 := by
  have failed : (withA.load twoPlugins (some (text "d")) none).1.ok = false := by decide
  have unlinked : madeLinks withA.mods_ (twoPlugins (text "d")).2 = [] := by decide
  refine ⟨failed, (failed_load_unchanged_iff withA_run twoPlugins _ none).mpr ?_ failed⟩
  rintro ⟨_, ⟨⟩, _, linked, _⟩
  exact linked unlinked

/-- A load that fails at its second dependency leaves the first one linked, and it
can no longer be unloaded. -/
theorem missing_second_strands :
    Runs.Run Step fresh [.load twoPlugins (some (text "a")) none] withA ∧
      (withA.load twoPlugins (some (text "b")) none).1.ok = false ∧
      ¬ Unchanged withA (withA.load twoPlugins (some (text "b")) none).2 := by
  have before : (withA.unload (some (text "a"))).1.ok = true := by decide
  have after : ((withA.load twoPlugins (some (text "b")) none).2.unload
      (some (text "a"))).1.ok = false := by decide
  refine ⟨withA_run, by decide, ?_⟩
  intro unchanged
  have still := unchanged.unloadable _ before
  rw [after] at still
  cases still

end Cppboot.PluginManager
