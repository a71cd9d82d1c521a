import Cppboot.PluginClosure

/-!
# The two names of a plugin

A plugin is asked for under one name and entered under another, the one in its
header. The manager looks for the first when it loads, and for the second when it
unloads; the loader is asked to unload the second. Nothing compares the two.

What the calls should come to is kept in books beside the manager: for every name
the plugin that the last successful `Load` of it loaded, and all plugins that were
ever loaded. The manager agrees with its books along a run exactly when every load
that succeeds finds the name in the header that it was asked for. If a header has
another name, the books and the map differ from that load on.
-/

namespace Cppboot.PluginManager

open Std

/-- What the calls should have come to: the plugin that was loaded last under each
name and is not unloaded, and all plugins that were loaded. -/
structure Books where
  current : ExtTreeMap Bytes PluginPtr
  loaded : List PluginPtr

/-- What a call adds to the books, if it succeeds. -/
def Books.record (books : Books) (mgr : PluginManager) : Event → Books
  | .load loader name param =>
    match name with
    | none => books
    | some n =>
      if (mgr.load loader (some n) param).1.ok then
        ⟨books.current.insert n mgr.heap.length, mgr.heap.length :: books.loaded⟩
      else books
  | .unload name =>
    match name with
    | none => books
    | some n =>
      if (mgr.unload (some n)).1.ok then { books with current := books.current.erase n } else books

/-- A manager with its books. -/
structure Recorded where
  mgr : PluginManager
  books : Books

namespace Recorded

def fresh : Recorded := ⟨PluginManager.fresh, ⟨∅, []⟩⟩

def after (s : Recorded) (event : Event) : Recorded :=
  ⟨s.mgr.after event, s.books.record s.mgr event⟩

def Step (before : Recorded) (event : Event) (next : Recorded) : Prop := next = before.after event

/-- A load that succeeds finds the name in the header that it was asked for. -/
def SameName (s : Recorded) : Event → Prop
  | .load loader name param => ∀ n, name = some n → s.mgr.Reaches loader n →
      accepts s.mgr.mods_ (loader n).2 (param.getD []) = true → headerName (loader n).2 = n
  | .unload _ => True

/-- The calls that an event makes outside call no `exit`, and ask the loader to
unload nothing but the given name. -/
def Quiet (name : Option Bytes) (made : List PluginCall) : Prop :=
  (∀ plugin, .exit plugin ∉ made) ∧ ∀ other, .unload other ∈ made → other = name

/-- The names are handled consistently in one call. A load that succeeds replaces
nothing, and `Unload` would find the new plugin under the name asked for; if it
gives a plugin back to the loader, then under that name. `Unload` looks at the
plugin that was loaded last under its name. If it unloads it, it calls its `exit`
once and asks the loader to unload that name. -/
def Consistent (s : Recorded) : Event → Prop
  | .load loader name param =>
      ((s.mgr.load loader name param).1.ok = true →
        (∀ (other : Bytes) (plugin : PluginPtr), s.mgr.mods_[other]? = some plugin →
          (s.mgr.load loader name param).2.mods_[other]? = some plugin) ∧
        ∃ n, name = some n ∧
          (s.mgr.load loader name param).2.mods_[n]? = some s.mgr.heap.length) ∧
      ∃ made, (s.mgr.load loader name param).2.calls = s.mgr.calls ++ made ∧ Quiet name made
  | .unload name => ∀ n, name = some n →
      s.mgr.mods_[n]? = s.books.current[n]? ∧
      ((s.mgr.unload name).1.ok = true → ∃ plugin, s.books.current[n]? = some plugin ∧
        (s.mgr.unload name).2.calls = s.mgr.calls ++ [.exit plugin, .unload (some n)])

/-- The map is the one of the books, and of the plugins that were ever loaded
`exit` was called once for those that are not loaded any more, and for no other. -/
structure Settled (s : Recorded) : Prop where
  current : ∀ name : Bytes, s.mgr.mods_[name]? = s.books.current[name]?
  running : ∀ plugin ∈ s.books.loaded, s.mgr.IsLoaded plugin →
    s.mgr.calls.count (.exit plugin) = 0
  exited : ∀ plugin ∈ s.books.loaded, ¬ s.mgr.IsLoaded plugin →
    s.mgr.calls.count (.exit plugin) = 1

end Recorded

@[simp] theorem linkAll_calls (mgr : PluginManager) (plugin : PluginPtr)
    (targets : List PluginPtr) : (mgr.linkAll plugin targets).calls = mgr.calls := by
  induction targets generalizing mgr with
  | nil => rfl
  | cons target targets inductionHypothesis => exact inductionHypothesis _

/-- Nothing is called. -/
theorem Recorded.Quiet.nothing (calls : List PluginCall) (name : Option Bytes) :
    ∃ made, calls = calls ++ made ∧ Recorded.Quiet name made :=
  ⟨[], (List.append_nil _).symm, by simp [Recorded.Quiet]⟩

/-- Initialising a plugin calls its function at most. -/
theorem initPulgin_calls (mgr : PluginManager) (me : PluginPtr) (hdr : Option cppboot_plugin)
    (param : Bytes) (name : Option Bytes) :
    ∃ made, (mgr.initPulgin me hdr param).2.calls = mgr.calls ++ made ∧
      Recorded.Quiet name made := by
  simp only [initPulgin]
  split
  next => exact Recorded.Quiet.nothing mgr.calls name
  next checked _ =>
    simp only [verifyDependence_eq]
    split
    next =>
      have called : ∃ made, mgr.calls ++ [.init me param] = mgr.calls ++ made ∧
          Recorded.Quiet name made :=
        ⟨[.init me param], rfl, by simp [Recorded.Quiet]⟩
      split
      · simpa only [linkAll_calls] using called
      · simpa only [linkAll_calls] using called
    next => simpa only [linkAll_calls] using Recorded.Quiet.nothing mgr.calls name

/-- A load calls no `exit`, and it gives a plugin back under the name asked for. -/
theorem load_calls (mgr : PluginManager) (loader : PluginLoader) (name param : Option Bytes) :
    ∃ made, (mgr.load loader name param).2.calls = mgr.calls ++ made ∧
      Recorded.Quiet name made := by
  by_cases reached : ∃ n, name = some n ∧ mgr.Reaches loader n
  · obtain ⟨n, rfl, named, absent, answered⟩ := reached
    obtain ⟨c, rest, rfl⟩ := List.exists_cons_of_ne_nil named
    have missing : ¬ mgr.mods_.contains (c :: rest) = true := by
      rw [ExtTreeMap.contains_eq_isSome_getElem?, absent]
      simp
    obtain ⟨made, calls, quiet⟩ := (mgr.make (loader (c :: rest)).2).initPulgin_calls
      mgr.heap.length (loader (c :: rest)).2 (param.getD []) (some (c :: rest))
    simp only [load, if_neg missing, answered, Bool.not_true, Bool.false_eq_true, if_false]
    split
    · refine ⟨made ++ [.unload (some (c :: rest))], ?_, ?_⟩
      · rw [dismiss, calls, List.append_assoc]
        rfl
      · refine ⟨fun plugin member => ?_, fun other member => ?_⟩
        · obtain earlier | last := List.mem_append.mp member
          · exact quiet.1 plugin earlier
          · cases List.mem_singleton.mp last
        · obtain earlier | last := List.mem_append.mp member
          · exact quiet.2 other earlier
          · cases List.mem_singleton.mp last
            rfl
    · exact ⟨made, calls, quiet⟩
  · have refused : ∀ n, name = some n → ¬ mgr.Reaches loader n :=
      fun n same reaches => reached ⟨n, same, reaches⟩
    rw [(load_refused param refused).2]
    exact Recorded.Quiet.nothing mgr.calls name

/-- Removing a plugin calls its `exit`, and asks to unload the name in its header. -/
theorem unload_calls {mgr : PluginManager} {name : Bytes} {me : PluginPtr}
    (removes : mgr.Removes name me) :
    (mgr.unload (some name)).2.calls =
      mgr.calls ++ [.exit me, .unload ((mgr.deref me).hdr.bind (·.name))] := by
  obtain ⟨named, loaded, free⟩ := removes
  obtain ⟨c, rest, rfl⟩ := List.exists_cons_of_ne_nil named
  simp only [unload, loaded, free, Bool.not_true, Bool.false_eq_true, if_false]

namespace Recorded

/-- The invariant. Beside what is wanted it says that a loaded plugin has the name
in its header under which it is found, so that no plugin is found under two names. -/
structure Sound (s : Recorded) : Prop extends Settled s where
  bounded : s.mgr.Bounded
  named : ∀ {name : Bytes} {plugin : PluginPtr}, s.mgr.mods_[name]? = some plugin →
    headerName (s.mgr.deref plugin).hdr = name
  known : ∀ plugin ∈ s.books.loaded, plugin < s.mgr.heap.length
  entered : ∀ {plugin : PluginPtr}, s.mgr.IsLoaded plugin → plugin ∈ s.books.loaded
  unborn : ∀ plugin, s.mgr.heap.length ≤ plugin → s.mgr.calls.count (.exit plugin) = 0

theorem fresh_sound : fresh.Sound where
  current name := by
    rw [fresh, PluginManager.fresh, ExtTreeMap.getElem?_empty]
  running _ member := absurd member List.not_mem_nil
  exited _ member := absurd member List.not_mem_nil
  bounded := fresh_bounded
  named found := by
    rw [fresh, PluginManager.fresh, ExtTreeMap.getElem?_empty] at found
    cases found
  known _ member := absurd member List.not_mem_nil
  entered loaded := by
    obtain ⟨name, found⟩ := loaded
    rw [fresh, PluginManager.fresh, ExtTreeMap.getElem?_empty] at found
    cases found
  unborn _ _ := rfl

/-- Calls without an `exit` do not count. -/
theorem Quiet.count {name : Option Bytes} {made : List PluginCall} (quiet : Quiet name made)
    (calls : List PluginCall) (plugin : PluginPtr) :
    (calls ++ made).count (.exit plugin) = calls.count (.exit plugin) := by
  rw [List.count_append, List.count_eq_zero.mpr (quiet.1 plugin), Nat.add_zero]

/-- What a load that is not entered leaves behind keeps the invariant. -/
theorem Sound.linked {s : Recorded} (sound : s.Sound) {hdr : Option cppboot_plugin}
    {next : PluginManager} {name : Option Bytes} {made : List PluginCall}
    (links : Linked s.mgr hdr next) (bounded : next.Bounded)
    (calls : next.calls = s.mgr.calls ++ made) (quiet : Quiet name made)
    (mods : next.mods_ = s.mgr.mods_) : Sound ⟨next, s.books⟩ where
  current := by
    rw [mods]
    exact sound.current
  running plugin member loaded := by
    unfold IsLoaded at loaded
    rw [mods] at loaded
    rw [calls, quiet.count]
    exact sound.running plugin member loaded
  exited plugin member unloaded := by
    unfold IsLoaded at unloaded
    rw [mods] at unloaded
    rw [calls, quiet.count]
    exact sound.exited plugin member unloaded
  bounded := bounded
  named found := by
    rw [mods] at found
    rw [links.header (sound.bounded.loaded found)]
    exact sound.named found
  known plugin member := by
    rw [links.length]
    exact Nat.lt_succ_of_lt (sound.known plugin member)
  entered loaded := by
    unfold IsLoaded at loaded
    rw [mods] at loaded
    exact sound.entered loaded
  unborn plugin beyond := by
    rw [links.length] at beyond
    rw [calls, quiet.count]
    exact sound.unborn plugin (Nat.le_of_succ_le beyond)

/-- A plugin that is entered under the name asked for is entered in the books too. -/
theorem Sound.entered_load {s : Recorded} (sound : s.Sound) {hdr : Option cppboot_plugin}
    {next : PluginManager} {name : Bytes} {made : List PluginCall}
    (links : Linked s.mgr hdr next) (bounded : next.Bounded)
    (calls : next.calls = s.mgr.calls ++ made) (quiet : Quiet (some name) made)
    (unloaded : s.mgr.mods_[name]? = none) (named : headerName hdr = name)
    (mods : next.mods_ = s.mgr.mods_.insert name s.mgr.heap.length) :
    Sound ⟨next, s.books.current.insert name s.mgr.heap.length,
      s.mgr.heap.length :: s.books.loaded⟩ := by
  have still_loaded {plugin : PluginPtr} (loaded : s.mgr.IsLoaded plugin) :
      next.IsLoaded plugin := by
    obtain ⟨other, found⟩ := loaded
    refine ⟨other, ?_⟩
    rw [mods]
    exact getElem?_kept unloaded found
  have was_loaded {plugin : PluginPtr} (loaded : next.IsLoaded plugin) :
      plugin = s.mgr.heap.length ∨ s.mgr.IsLoaded plugin := by
    obtain ⟨other, found⟩ := loaded
    rw [mods] at found
    obtain ⟨_, new⟩ | known := getElem?_entered found
    · exact .inl new
    · exact .inr ⟨other, known⟩
  have new_loaded : next.IsLoaded s.mgr.heap.length := by
    refine ⟨name, ?_⟩
    rw [mods]
    exact ExtTreeMap.getElem?_insert_self
  have count (plugin : PluginPtr) :
      next.calls.count (.exit plugin) = s.mgr.calls.count (.exit plugin) := by
    rw [calls]
    exact quiet.count _ _
  constructor
  · constructor
    · intro other
      have same := sound.current other
      simp only [mods, ExtTreeMap.getElem?_insert, LawfulEqCmp.compare_eq_iff_eq, same]
    · intro plugin member loaded
      rw [count]
      obtain rfl | known := List.mem_cons.mp member
      · exact sound.unborn _ (Nat.le_refl _)
      · obtain rfl | before := was_loaded loaded
        · exact sound.unborn _ (Nat.le_refl _)
        · exact sound.running plugin known before
    · intro plugin member gone
      rw [count]
      obtain rfl | known := List.mem_cons.mp member
      · exact absurd new_loaded gone
      · exact sound.exited plugin known fun before => gone (still_loaded before)
  · exact bounded
  · intro other plugin found
    rw [mods] at found
    obtain ⟨rfl, rfl⟩ | known := getElem?_entered found
    · rw [links.new_header]
      exact named
    · rw [links.header (sound.bounded.loaded known)]
      exact sound.named known
  · intro plugin member
    rw [links.length]
    obtain rfl | known := List.mem_cons.mp member
    · exact Nat.lt_succ_self _
    · exact Nat.lt_succ_of_lt (sound.known plugin known)
  · intro plugin loaded
    obtain rfl | before := was_loaded loaded
    · exact List.mem_cons_self
    · exact List.mem_cons_of_mem _ (sound.entered before)
  · intro plugin beyond
    rw [links.length] at beyond
    rw [count]
    exact sound.unborn plugin (Nat.le_of_succ_le beyond)

/-- What a load writes into the books. -/
theorem record_load (books : Books) (mgr : PluginManager) (loader : PluginLoader) (n : Bytes)
    (param : Option Bytes) :
    books.record mgr (.load loader (some n) param) =
      if (mgr.load loader (some n) param).1.ok then
        ⟨books.current.insert n mgr.heap.length, mgr.heap.length :: books.loaded⟩
      else books := rfl

/-- A load that fails writes nothing. -/
theorem record_failed (books : Books) {mgr : PluginManager} {loader : PluginLoader}
    {name param : Option Bytes} (failed : (mgr.load loader name param).1.ok = false) :
    books.record mgr (.load loader name param) = books := by
  cases name with
  | none => rfl
  | some n => rw [record_load, failed, if_neg Bool.false_ne_true]

/-- Every load whose names agree keeps the invariant. -/
theorem load_sound {s : Recorded} (sound : s.Sound) {loader : PluginLoader}
    {name param : Option Bytes} (same : s.SameName (.load loader name param)) :
    (s.after (.load loader name param)).Sound := by
  obtain ⟨made, calls, quiet⟩ := s.mgr.load_calls loader name param
  have bounded := load_bounded sound.bounded loader name param
  simp only [after, PluginManager.after]
  obtain ⟨_, failed, unchanged⟩ | ⟨n, rfl, reaches, status, links, mods⟩ :=
    load_cases sound.bounded loader name param
  · rw [record_failed _ failed, unchanged]
    exact sound
  · by_cases accepted : accepts s.mgr.mods_ (loader n).2 (param.getD []) = true
    · have named := same n rfl reaches accepted
      rw [if_pos accepted, named] at mods
      rw [record_load, status, if_pos accepted]
      exact sound.entered_load links bounded calls quiet reaches.unloaded named mods
    · have failed := status.trans (Bool.eq_false_iff.mpr accepted)
      rw [if_neg accepted] at mods
      rw [record_failed _ failed]
      exact sound.linked links bounded calls quiet mods

/-- A plugin that is found under a name has it in its header. -/
theorem Sound.header_name {s : Recorded} (sound : s.Sound) {name : Bytes} {me : PluginPtr}
    (removes : s.mgr.Removes name me) : (s.mgr.deref me).hdr.bind (·.name) = some name := by
  have named := sound.named removes.loaded
  unfold headerName at named
  cases found : (s.mgr.deref me).hdr.bind (·.name) with
  | none =>
    rw [found] at named
    exact absurd named.symm removes.named
  | some other =>
    rw [found] at named
    exact congrArg some named

/-- Unloading keeps the invariant. -/
theorem unload_sound {s : Recorded} (sound : s.Sound) (name : Option Bytes) :
    (s.after (.unload name)).Sound := by
  obtain ⟨n, me, rfl, removes⟩ | ⟨failed, same⟩ := s.mgr.unload_cases name
  · obtain ⟨ok, mods, objects⟩ := unload_removes removes
    have length := (objects (sound.bounded.loaded removes.loaded)).1
    have calls := unload_calls removes
    have books : s.books.record s.mgr (.unload (some n)) =
        { s.books with current := s.books.current.erase n } := if_pos ok
    have me_loaded : s.mgr.IsLoaded me := ⟨n, removes.loaded⟩
    have remaining {plugin : PluginPtr} :
        (s.mgr.unload (some n)).2.IsLoaded plugin ↔ plugin ≠ me ∧ s.mgr.IsLoaded plugin := by
      unfold IsLoaded
      simp only [mods, ExtTreeMap.getElem?_erase, LawfulEqCmp.compare_eq_iff_eq]
      constructor
      · rintro ⟨other, found⟩
        split at found
        next => cases found
        next different =>
          refine ⟨?_, other, found⟩
          rintro rfl
          exact different ((sound.named removes.loaded).symm.trans (sound.named found))
      · rintro ⟨different, other, found⟩
        refine ⟨other, ?_⟩
        rw [if_neg, found]
        rintro rfl
        exact different (Option.some.inj (found.symm.trans removes.loaded))
    have count (plugin : PluginPtr) : (s.mgr.unload (some n)).2.calls.count (.exit plugin) =
        s.mgr.calls.count (.exit plugin) + if plugin = me then 1 else 0 := by
      rw [calls, List.count_append]
      congr 1
      by_cases same : plugin = me
      · simp [same]
      · simp [same, Ne.symm same]
    simp only [after, PluginManager.after]
    rw [books]
    constructor
    · constructor
      · intro other
        have same := sound.current other
        simp only [mods, ExtTreeMap.getElem?_erase, LawfulEqCmp.compare_eq_iff_eq, same]
      · intro plugin member loaded
        obtain ⟨different, before⟩ := remaining.mp loaded
        rw [count, if_neg different, sound.running plugin member before]
      · intro plugin member gone
        rw [count]
        by_cases same : plugin = me
        · rw [if_pos same, same, sound.running me (sound.entered me_loaded) me_loaded]
        · rw [if_neg same]
          exact sound.exited plugin member fun before => gone (remaining.mpr ⟨same, before⟩)
    · exact unload_bounded sound.bounded _
    · intro other plugin found
      have before : s.mgr.mods_[other]? = some plugin := by
        rw [mods, ExtTreeMap.getElem?_erase] at found
        split at found
        · cases found
        · exact found
      rw [(objects (sound.bounded.loaded before)).2.1]
      exact sound.named before
    · intro plugin member
      rw [length]
      exact sound.known plugin member
    · intro plugin loaded
      exact sound.entered (remaining.mp loaded).2
    · intro plugin beyond
      rw [length] at beyond
      have different : plugin ≠ me := by
        rintro rfl
        exact absurd (sound.bounded.loaded removes.loaded) (Nat.not_lt.mpr beyond)
      rw [count, if_neg different, sound.unborn plugin beyond]
  · have books : s.books.record s.mgr (.unload name) = s.books := by
      cases name with
      | none => rfl
      | some n => exact if_neg (by rw [failed]; exact Bool.false_ne_true)
    simp only [after, PluginManager.after]
    rw [books, same]
    exact sound

/-- From a sound state a call is consistent exactly when the names agree.

Proof: a plugin is entered under the name of its header. If that is the one asked
for, nothing was there under it. If `Unload` finds the new plugin under the name
asked for, where nothing was, then it is the name it was entered under. -/
theorem Sound.consistent_iff {s : Recorded} (sound : s.Sound) (event : Event) :
    s.SameName event ↔ s.Consistent event := by
  cases event with
  | load loader name param =>
    have calls := s.mgr.load_calls loader name param
    simp only [SameName, Consistent]
    rw [and_iff_left calls]
    obtain ⟨refused, failed, _⟩ | ⟨n, rfl, reaches, status, _, mods⟩ :=
      load_cases sound.bounded loader name param
    · constructor
      · intro _ ok
        rw [failed] at ok
        cases ok
      · intro _ n asked reaches _
        exact absurd reaches (refused n asked)
    · constructor
      · intro same ok
        have accepted := status.symm.trans ok
        rw [if_pos accepted, same n rfl reaches accepted] at mods
        rw [mods]
        refine ⟨?_, n, rfl, ExtTreeMap.getElem?_insert_self⟩
        intro other plugin found
        exact getElem?_kept reaches.unloaded found
      · rintro consistent _ ⟨⟩ _ accepted
        obtain ⟨_, _, ⟨⟩, found⟩ := consistent (status.trans accepted)
        rw [if_pos accepted] at mods
        rw [mods] at found
        obtain ⟨same, _⟩ | before := getElem?_entered found
        · exact same.symm
        · rw [reaches.unloaded] at before
          cases before
  | unload name =>
    refine iff_of_true trivial ?_
    rintro n rfl
    refine ⟨sound.current n, fun ok => ?_⟩
    obtain ⟨_, me, ⟨⟩, removes⟩ | ⟨failed, _⟩ := s.mgr.unload_cases (some n)
    · refine ⟨me, (sound.current n).symm.trans removes.loaded, ?_⟩
      rw [unload_calls removes, sound.header_name removes]
    · rw [failed] at ok
      cases ok

theorem after_sound {s : Recorded} (sound : s.Sound) {event : Event} (same : s.SameName event) :
    (s.after event).Sound := by
  cases event with
  | load loader name param => exact load_sound sound same
  | unload name => exact unload_sound sound name

/-- The runs in which every load that succeeds finds the name asked for in its
header are the runs in which the names are handled consistently in every call; and
in every state they reach the manager agrees with its books. -/
theorem names_consistent_iff {events : List Event} {s : Recorded} :
    (Runs.Run (Runs.Guarded SameName Step) fresh events s ↔
      Runs.Run (Runs.Guarded Consistent Step) fresh events s) ∧
    (Runs.Run (Runs.Guarded SameName Step) fresh events s → s.Settled) := by
  constructor
  · refine Runs.Run.guards_agree Sound ?_ ?_ fresh_sound
    · intro before _ event sound _
      exact sound.consistent_iff event
    · rintro before _ event sound same rfl
      exact after_sound sound same
  · intro run
    have sound : s.Sound := by
      refine run.preserves Sound ?_ fresh_sound
      rintro before _ event sound ⟨same, rfl⟩
      exact after_sound sound same
    exact sound.toSettled

/-- A loader that answers every name with a plugin `b`. -/
def alwaysB (_ : Bytes) : Status × Option cppboot_plugin :=
  (.okStatus,
    some { name := some (text "b"), depends := none, init := some fun _ => 0, exit := true })

/-- The manager after `b` is loaded, and then `a`. -/
def onlyB : Recorded := fresh.after (.load alwaysB (some (text "b")) none)
def replaced : Recorded := onlyB.after (.load alwaysB (some (text "a")) none)

/-- Loading `a` replaces the plugin `b`. Its `exit` is never called, `Unload` does
not find `a`, and for `b` it unloads the plugin that was loaded as `a`. -/
theorem loaded_plugin_replaced :
    Runs.Run Step fresh
      [.load alwaysB (some (text "b")) none, .load alwaysB (some (text "a")) none] replaced ∧
    ¬ onlyB.Consistent (.load alwaysB (some (text "a")) none) ∧
    onlyB.mgr.mods_[text "b"]? = some 0 ∧ replaced.mgr.mods_[text "b"]? = some 1 ∧
    (replaced.mgr.unload (some (text "a"))).1 = .notFoundError (text "a") ∧
    (replaced.mgr.unload (some (text "b"))).2.calls =
      [.init 0 [], .init 1 [], .exit 1, .unload (some (text "b"))] := by
  have first : onlyB.mgr.mods_[text "b"]? = some 0 := by decide
  have second : replaced.mgr.mods_[text "b"]? = some 1 := by decide
  refine ⟨.next rfl (.next rfl (.done _)), ?_, first, second, by decide,
    by decide⟩
  rintro ⟨consistent, _⟩
  have kept := (consistent (by decide)).1 _ _ first
  cases second.symm.trans kept

end Recorded

end Cppboot.PluginManager
