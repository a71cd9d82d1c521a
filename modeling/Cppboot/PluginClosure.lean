import Mathlib.Logic.Relation
import Cppboot.PluginLinks

/-!
# Dependencies of loaded plugins

When the loader answers with the plugin that was asked for, a loaded plugin keeps
the plugins it was linked to: each of them is still loaded under its name, and
unloading it is refused. The invariant ties the two sets of links to the map and
to the identity of the objects: a target of a loaded plugin is loaded, is older,
and has the plugin among its sources. Failed loads only add sources, and a
plugin with sources is not removed, so the invariant survives every call.
-/

namespace Cppboot.PluginManager

open Std

/-- The loader answers a name with a header of that name. -/
def Faithful (_ : PluginManager) : Event → Prop
  | .load loader name _ => ∀ n hdr, name = some n → (loader n).2 = some hdr → hdr.name = some n
  | .unload _ => True

/-- The plugin is in the map. -/
def IsLoaded (mgr : PluginManager) (plugin : PluginPtr) : Prop :=
  ∃ name : Bytes, mgr.mods_[name]? = some plugin

/-- The invariant of the manager. -/
structure Closed (mgr : PluginManager) : Prop where
  bounded : mgr.Bounded
  named : ∀ {name : Bytes} {plugin : PluginPtr}, mgr.mods_[name]? = some plugin →
    headerName (mgr.deref plugin).hdr = name
  older : ∀ {plugin target : PluginPtr}, plugin < mgr.heap.length →
    target ∈ (mgr.deref plugin).targets → target < plugin
  kept : ∀ {plugin target : PluginPtr}, mgr.IsLoaded plugin →
    target ∈ (mgr.deref plugin).targets →
    mgr.IsLoaded target ∧ plugin ∈ (mgr.deref target).sources

/-- One plugin is loaded and depends on the other. -/
def DependsOn (mgr : PluginManager) (plugin target : PluginPtr) : Prop :=
  mgr.IsLoaded plugin ∧ target ∈ (mgr.deref plugin).targets

theorem fresh_closed : fresh.Closed where
  bounded := fresh_bounded
  named found := by
    rw [fresh, ExtTreeMap.getElem?_empty] at found
    cases found
  older inside := absurd inside (Nat.not_lt_zero _)
  kept loaded := by
    obtain ⟨name, found⟩ := loaded
    rw [fresh, ExtTreeMap.getElem?_empty] at found
    cases found

/-- A header that is accepted under a faithful loader has the name asked for. -/
theorem accepted_name {mgr : PluginManager} {loader : PluginLoader} {name param : Option Bytes}
    {n : Bytes} (faithful : Faithful mgr (.load loader name param)) (asked : name = some n)
    (accepted : accepts mgr.mods_ (loader n).2 (param.getD []) = true) :
    headerName (loader n).2 = n := by
  cases answer : (loader n).2 with
  | none =>
    rw [answer] at accepted
    cases accepted
  | some hdr =>
    have same := faithful n hdr asked answer
    simp only [headerName, Option.bind_some, same, Option.getD_some]

/-- A new object with its links keeps every object older than what depends on it. -/
theorem Linked.older {mgr next : PluginManager} {hdr : Option cppboot_plugin}
    (links : Linked mgr hdr next) (closed : mgr.Closed) {plugin target : PluginPtr}
    (inside : plugin < next.heap.length) (member : target ∈ (next.deref plugin).targets) :
    target < plugin := by
  rw [links.length] at inside
  rcases Nat.lt_succ_iff_lt_or_eq.mp inside with known | rfl
  · rw [links.targets known] at member
    exact closed.older known member
  · obtain ⟨name, loaded⟩ := madeLinks_loaded ((links.new_targets target).mp member)
    exact closed.bounded.loaded loaded

/-- A plugin that was loaded keeps its dependencies when an object is linked. -/
theorem Linked.kept {mgr next : PluginManager} {hdr : Option cppboot_plugin}
    (links : Linked mgr hdr next) (closed : mgr.Closed) {plugin target : PluginPtr}
    (loaded : mgr.IsLoaded plugin) (member : target ∈ (next.deref plugin).targets) :
    mgr.IsLoaded target ∧ plugin ∈ (next.deref target).sources := by
  obtain ⟨name, found⟩ := loaded
  rw [links.targets (closed.bounded.loaded found)] at member
  obtain ⟨target_loaded, mirrored⟩ := closed.kept ⟨name, found⟩ member
  obtain ⟨other, other_found⟩ := target_loaded
  refine ⟨⟨other, other_found⟩, ?_⟩
  exact (links.sources (closed.bounded.loaded other_found) plugin).mpr (.inr mirrored)

/-- What the map holds after a new name is entered. -/
theorem getElem?_entered {mods : ExtTreeMap Bytes PluginPtr} {name other : Bytes}
    {me plugin : PluginPtr} (found : (mods.insert name me)[other]? = some plugin) :
    (other = name ∧ plugin = me) ∨ mods[other]? = some plugin := by
  rw [ExtTreeMap.getElem?_insert] at found
  split at found
  next same =>
    cases found
    exact .inl ⟨(LawfulEqCmp.compare_eq_iff_eq.mp same).symm, rfl⟩
  next => exact .inr found

/-- Entering a new name takes nothing away. -/
theorem getElem?_kept {mods : ExtTreeMap Bytes PluginPtr} {name other : Bytes}
    {me plugin : PluginPtr} (new : mods[name]? = none) (found : mods[other]? = some plugin) :
    (mods.insert name me)[other]? = some plugin := by
  rw [ExtTreeMap.getElem?_insert, if_neg, found]
  rw [LawfulEqCmp.compare_eq_iff_eq]
  rintro rfl
  rw [new] at found
  cases found

/-- A load that fails leaves the invariant as it was. -/
theorem Linked.closed {mgr next : PluginManager} {hdr : Option cppboot_plugin}
    (links : Linked mgr hdr next) (closed : mgr.Closed) (bounded : next.Bounded)
    (mods : next.mods_ = mgr.mods_) : next.Closed where
  bounded := bounded
  named found := by
    rw [mods] at found
    rw [links.header (closed.bounded.loaded found)]
    exact closed.named found
  older := links.older closed
  kept loaded member := by
    unfold IsLoaded at loaded ⊢
    rw [mods] at loaded ⊢
    exact links.kept closed loaded member

/-- A load that succeeds extends the invariant to the new plugin. -/
theorem Linked.closed_entered {mgr next : PluginManager} {hdr : Option cppboot_plugin}
    {name : Bytes} (links : Linked mgr hdr next) (closed : mgr.Closed) (bounded : next.Bounded)
    (unloaded : mgr.mods_[name]? = none) (named : headerName hdr = name)
    (mods : next.mods_ = mgr.mods_.insert name mgr.heap.length) : next.Closed := by
  have still_loaded : ∀ {plugin : PluginPtr}, mgr.IsLoaded plugin → next.IsLoaded plugin := by
    rintro plugin ⟨other, found⟩
    refine ⟨other, ?_⟩
    rw [mods]
    exact getElem?_kept unloaded found
  refine ⟨bounded, ?_, links.older closed, ?_⟩
  · intro other plugin found
    rw [mods] at found
    rcases getElem?_entered found with ⟨rfl, rfl⟩ | known
    · rw [links.new_header]
      exact named
    · rw [links.header (closed.bounded.loaded known)]
      exact closed.named known
  · rintro plugin target ⟨other, found⟩ member
    rw [mods] at found
    rcases getElem?_entered found with ⟨_, rfl⟩ | known
    · have made := (links.new_targets target).mp member
      obtain ⟨target_name, target_found⟩ := madeLinks_loaded made
      refine ⟨still_loaded ⟨target_name, target_found⟩, ?_⟩
      exact (links.sources (closed.bounded.loaded target_found) _).mpr (.inl ⟨rfl, made⟩)
    · obtain ⟨target_loaded, mirrored⟩ := links.kept closed ⟨other, known⟩ member
      exact ⟨still_loaded target_loaded, mirrored⟩

theorem load_closed {mgr : PluginManager} (closed : mgr.Closed) {loader : PluginLoader}
    {name param : Option Bytes} (faithful : Faithful mgr (.load loader name param)) :
    (mgr.load loader name param).2.Closed := by
  have bounded := load_bounded closed.bounded loader name param
  rcases load_cases closed.bounded loader name param with ⟨_, _, same⟩ |
    ⟨n, asked, reaches, _, links, mods⟩
  · rw [same]
    exact closed
  · by_cases accepted : accepts mgr.mods_ (loader n).2 (param.getD []) = true
    · have named := accepted_name faithful asked accepted
      rw [if_pos accepted, named] at mods
      exact links.closed_entered closed bounded reaches.unloaded named mods
    · rw [if_neg accepted] at mods
      exact links.closed closed bounded mods

/-- Removing a plugin on which nothing depends keeps the invariant: no loaded
plugin has it as a target, and the sources it leaves are only its own. -/
theorem unload_closed {mgr : PluginManager} (closed : mgr.Closed) (name : Option Bytes) :
    (mgr.unload name).2.Closed := by
  obtain ⟨n, me, rfl, removes⟩ | ⟨_, same⟩ := mgr.unload_cases name
  · obtain ⟨_, mods, objects⟩ := unload_removes removes
    have length := (objects (closed.bounded.loaded removes.loaded)).1
    have free : ∀ source, source ∉ (mgr.deref me).sources := by
      intro source member
      rw [ExtTreeSet.isEmpty_iff.mp removes.free] at member
      exact ExtTreeSet.not_mem_empty member
    have remaining : ∀ {other : Bytes} {plugin : PluginPtr},
        (mgr.unload (some n)).2.mods_[other]? = some plugin ↔
          other ≠ n ∧ mgr.mods_[other]? = some plugin := by
      intro other plugin
      rw [mods, ExtTreeMap.getElem?_erase]
      simp only [LawfulEqCmp.compare_eq_iff_eq]
      by_cases same : n = other
      · simp [same]
      · simp [same, Ne.symm same]
    refine ⟨unload_bounded closed.bounded _, ?_, ?_, ?_⟩
    · intro other plugin found
      have known := (remaining.mp found).2
      rw [(objects (closed.bounded.loaded known)).2.1]
      exact closed.named known
    · intro plugin target inside member
      rw [length] at inside
      rw [(objects inside).2.2.1] at member
      exact closed.older inside member
    · rintro plugin target ⟨other, found⟩ member
      obtain ⟨different, known⟩ := remaining.mp found
      rw [(objects (closed.bounded.loaded known)).2.2.1] at member
      obtain ⟨⟨target_name, target_found⟩, mirrored⟩ := closed.kept ⟨other, known⟩ member
      have target_stays : target_name ≠ n := by
        rintro rfl
        rw [removes.loaded] at target_found
        cases target_found
        exact free plugin mirrored
      have not_me : plugin ≠ me := by
        rintro rfl
        exact different ((closed.named known).symm.trans (closed.named removes.loaded))
      refine ⟨⟨target_name, remaining.mpr ⟨target_stays, target_found⟩⟩, ?_⟩
      refine ((objects (closed.bounded.loaded target_found)).2.2.2 plugin).mpr ⟨mirrored, ?_⟩
      exact fun same => not_me same.1
  · rw [same]
    exact closed

/-- The invariant holds in every state that can be reached. -/
theorem run_closed {events : List Event} {mgr : PluginManager}
    (run : Runs.Run (Runs.Guarded Faithful Step) fresh events mgr) : mgr.Closed := by
  refine run.preserves Closed ?_ fresh_closed
  rintro before _ event closed ⟨faithful, rfl⟩
  cases event with
  | load loader name param => exact load_closed closed faithful
  | unload name => exact unload_closed closed name

/-- The objects of one manager are still there in another, with their headers and
their targets. -/
def Keeps (mgr next : PluginManager) : Prop :=
  ∀ plugin : PluginPtr, plugin < mgr.heap.length → plugin < next.heap.length ∧
    (next.deref plugin).hdr = (mgr.deref plugin).hdr ∧
    (next.deref plugin).targets = (mgr.deref plugin).targets

theorem Keeps.trans {mgr next last : PluginManager} (first : Keeps mgr next)
    (second : Keeps next last) : Keeps mgr last := by
  intro plugin inside
  obtain ⟨still, header, targets⟩ := first plugin inside
  obtain ⟨later, later_header, later_targets⟩ := second plugin still
  exact ⟨later, later_header.trans header, later_targets.trans targets⟩

/-- No call changes the header or the targets of an object. -/
theorem after_keeps {mgr : PluginManager} (bounded : mgr.Bounded) (event : Event) :
    Keeps mgr (mgr.after event) := by
  intro plugin inside
  cases event with
  | load loader name param =>
    simp only [after]
    rcases load_cases bounded loader name param with ⟨_, _, same⟩ | ⟨_, _, _, _, links, _⟩
    · rw [same]
      exact ⟨inside, rfl, rfl⟩
    · refine ⟨?_, links.header inside, links.targets inside⟩
      rw [links.length]
      exact Nat.lt_succ_of_lt inside
  | unload name =>
    simp only [after]
    obtain ⟨n, me, rfl, removes⟩ | ⟨_, same⟩ := mgr.unload_cases name
    · obtain ⟨length, header, targets, _⟩ := (unload_removes removes).2.2 inside
      exact ⟨length ▸ inside, header, targets⟩
    · rw [same]
      exact ⟨inside, rfl, rfl⟩

/-- Nor does a run. -/
theorem run_keeps {events : List Event} {mgr final : PluginManager} (closed : mgr.Closed)
    (run : Runs.Run (Runs.Guarded Faithful Step) mgr events final) : Keeps mgr final := by
  have both : final.Closed ∧ Keeps mgr final := by
    refine run.preserves (fun next => next.Closed ∧ Keeps mgr next) ?_
      ⟨closed, fun _ inside => ⟨inside, rfl, rfl⟩⟩
    rintro before _ event ⟨before_closed, keeps⟩ ⟨faithful, rfl⟩
    refine ⟨?_, keeps.trans (after_keeps before_closed.bounded event)⟩
    cases event with
    | load loader name param => exact load_closed before_closed faithful
    | unload name => exact unload_closed before_closed name
  exact both.2

/-- The check of a header passes its list of dependencies on. -/
theorem verifyPluginHeader_depends {hdr : cppboot_plugin} {checked : CheckedHeader}
    (good : verifyPluginHeader (some hdr) = .ok checked) : checked.depends = hdr.depends := by
  simp only [verifyPluginHeader] at good
  repeat' split at good
  all_goals cases good
  all_goals rfl

/-- An accepted header is linked to every plugin its list names. -/
theorem accepted_links {mods : ExtTreeMap Bytes PluginPtr} {hdr : cppboot_plugin} {param : Bytes}
    (accepted : accepts mods (some hdr) param = true) {i : Bytes}
    (listed : i ∈ requireList hdr.depends) (names : strTrim i (text " ") ≠ []) :
    ∃ target, mods[strTrim i (text " ")]? = some target ∧ target ∈ madeLinks mods (some hdr) := by
  simp only [accepts, madeLinks] at accepted ⊢
  cases good : verifyPluginHeader (some hdr) with
  | error st => simp [good] at accepted
  | ok checked =>
    simp only [good, Bool.and_eq_true, Option.isNone_iff_eq_none] at accepted ⊢
    rw [verifyPluginHeader_depends good] at accepted ⊢
    refine resolved_all accepted.1 listed ?_
    rw [blankEntry, ne_eq, List.isEmpty_iff]
    exact names

/-- A plugin on which a loaded one depends is loaded under its name, and unloading
it is refused. -/
theorem Closed.refuses {mgr : PluginManager} (closed : mgr.Closed) {plugin target : PluginPtr}
    (depends : mgr.DependsOn plugin target) :
    let name := headerName (mgr.deref target).hdr
    mgr.mods_[name]? = some target ∧ (mgr.unload (some name)).1.ok = false ∧
      (mgr.unload (some name)).2 = mgr := by
  obtain ⟨⟨name, found⟩, mirrored⟩ := closed.kept depends.1 depends.2
  simp only [closed.named found]
  refine ⟨found, unload_refused ?_⟩
  rintro n me ⟨⟩ removes
  cases found.symm.trans removes.loaded
  have empty := removes.free
  rw [ExtTreeSet.isEmpty_iff.mp empty] at mirrored
  exact ExtTreeSet.not_mem_empty mirrored

/-- The plugins a plugin depends on are older, so dependencies make no cycle. -/
theorem Closed.acyclic {mgr : PluginManager} (closed : mgr.Closed) {plugin target : PluginPtr}
    (path : Relation.TransGen mgr.DependsOn plugin target) : target < plugin := by
  have older : ∀ {plugin target : PluginPtr}, mgr.DependsOn plugin target → target < plugin := by
    rintro plugin target ⟨⟨name, found⟩, member⟩
    exact closed.older (closed.bounded.loaded found) member
  induction path with
  | single edge => exact older edge
  | tail _ edge inductionHypothesis => exact Nat.lt_trans (older edge) inductionHypothesis

/-- The dependencies of loaded plugins stay.

In every state that calls of `Load` and `Unload` with a faithful loader can
reach: if the object that an earlier, successful load made is in the map, then
for every entry of its dependency list that is not blank, the plugin it was
linked to is still in the map under that name, and unloading it fails and leaves
the map as it is. And no plugin depends on itself, directly or through others. -/
theorem dependencies_stay {events : List Event} {final : PluginManager}
    (run : Runs.Run (Runs.Guarded Faithful Step) fresh events final) :
    (∀ {prior later : List Event} {before : PluginManager} {loader : PluginLoader} {n : Bytes}
      {param : Option Bytes} {hdr : cppboot_plugin},
      Runs.Run (Runs.Guarded Faithful Step) fresh prior before →
      Faithful before (.load loader (some n) param) → (loader n).2 = some hdr →
      (before.load loader (some n) param).1.ok = true →
      Runs.Run (Runs.Guarded Faithful Step) (before.load loader (some n) param).2 later final →
      final.IsLoaded before.heap.length →
      ∀ i ∈ requireList hdr.depends, strTrim i (text " ") ≠ [] →
        ∃ target, before.mods_[strTrim i (text " ")]? = some target ∧
          final.mods_[strTrim i (text " ")]? = some target ∧
          (final.unload (some (strTrim i (text " ")))).1.ok = false ∧
          (final.unload (some (strTrim i (text " ")))).2.mods_ = final.mods_) ∧
    ∀ plugin, ¬ Relation.TransGen final.DependsOn plugin plugin := by
  have closed := run_closed run
  refine ⟨?_, fun plugin cycle => Nat.lt_irrefl _ (closed.acyclic cycle)⟩
  intro prior later before loader n param hdr prior_run faithful answer ok rest still i listed names
  have before_closed := run_closed prior_run
  rcases load_cases before_closed.bounded loader (some n) param with ⟨_, failed, _⟩ |
    ⟨_, ⟨⟩, _, status, links, _⟩
  · rw [failed] at ok
    cases ok
  rw [answer] at status links
  obtain ⟨target, found, made⟩ := accepted_links (status.symm.trans ok) listed names
  have keeps := run_keeps (load_closed before_closed faithful) rest
  have inside := before_closed.bounded.loaded found
  have target_header : (final.deref target).hdr = (before.deref target).hdr := by
    have kept : target < (before.load loader (some n) param).2.heap.length := by
      rw [links.length]
      exact Nat.lt_succ_of_lt inside
    exact (keeps target kept).2.1.trans (links.header inside)
  have depends : final.DependsOn before.heap.length target := by
    refine ⟨still, ?_⟩
    have new : before.heap.length < (before.load loader (some n) param).2.heap.length := by
      rw [links.length]
      exact Nat.lt_succ_self _
    rw [(keeps _ new).2.2]
    exact (links.new_targets target).mpr made
  obtain ⟨loaded, refused, same⟩ := closed.refuses depends
  rw [target_header, before_closed.named found] at loaded refused same
  exact ⟨target, found, loaded, refused, congrArg PluginManager.mods_ same⟩

/-- A loader of a plugin `a` without dependencies and of others that need `a`. -/
def needsA (name : Bytes) : Status × Option cppboot_plugin :=
  (.okStatus, some
    { name := some name
      depends := if name = text "a" then none else some (text " a")
      init := some fun _ => 0
      exit := true })

theorem needsA_faithful (mgr : PluginManager) (name param : Option Bytes) :
    Faithful mgr (.load needsA name param) := by
  rintro n _ rfl ⟨⟩
  rfl

/-- The manager after `a` is loaded, and then `b`. -/
def onlyA : PluginManager := (fresh.load needsA (some (text "a")) none).2
def bothLoaded : PluginManager := (onlyA.load needsA (some (text "b")) none).2

/-- With `b` loaded, `a` stays. -/
theorem needed_plugin_stays :
    bothLoaded.mods_[text "a"]? = some 0 ∧ (bothLoaded.unload (some (text "a"))).1.ok = false := by
  have first : Runs.Run (Runs.Guarded Faithful Step) fresh
      [.load needsA (some (text "a")) none] onlyA :=
    .next ⟨needsA_faithful _ _ _, rfl⟩ (.done _)
  have both : Runs.Run (Runs.Guarded Faithful Step) fresh
      ([.load needsA (some (text "a")) none] ++ [.load needsA (some (text "b")) none]) bothLoaded :=
    first.append (.next ⟨needsA_faithful _ _ _, rfl⟩ (.done _))
  have loaded : bothLoaded.IsLoaded onlyA.heap.length := ⟨text "b", by decide⟩
  obtain ⟨target, found, kept, refused, _⟩ := (dependencies_stay both).1 first
    (needsA_faithful _ _ _) rfl (by decide) (.done _) loaded (text " a") (by decide)
    (by decide)
  have trimmed : strTrim (text " a") (text " ") = text "a" := by decide
  rw [trimmed] at found kept refused
  have first_object : onlyA.mods_[text "a"]? = some 0 := by decide
  cases first_object.symm.trans found
  exact ⟨kept, refused⟩

end Cppboot.PluginManager
