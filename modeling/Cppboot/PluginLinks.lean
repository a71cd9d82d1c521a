import Cppboot.PluginManager

/-!
# What the calls of the plugin manager do

`Load` and `Unload` change the objects only through links. Here each of them is
described once: which links are made and removed, and what stays as it was. The
invariants of the manager are derived from these descriptions.
-/

namespace Cppboot.PluginManager

open Std

/-- The entry names nothing: it is skipped. -/
def blankEntry (i : Bytes) : Bool := (strTrim i (text " ")).isEmpty

/-- The plugins that the entries of a list name, up to the first that is not
loaded. -/
def resolved (mods : ExtTreeMap Bytes PluginPtr) : List Bytes → List PluginPtr
  | [] => []
  | i :: rest =>
    if blankEntry i then resolved mods rest
    else
      match mods[strTrim i (text " ")]? with
      | none => []
      | some it => it :: resolved mods rest

/-- The first entry that names a plugin that is not loaded. -/
def firstMissing (mods : ExtTreeMap Bytes PluginPtr) : List Bytes → Option Bytes
  | [] => none
  | i :: rest =>
    if blankEntry i then firstMissing mods rest
    else
      match mods[strTrim i (text " ")]? with
      | none => some i
      | some _ => firstMissing mods rest

/-- What checking the dependencies reports. -/
def dependenceStatus (mods : ExtTreeMap Bytes PluginPtr) (entries : List Bytes) : Status :=
  match firstMissing mods entries with
  | none => .okStatus
  | some i => .notFoundError (text "depend on " ++ strTrimLeft i (text " "))

/-- Link a plugin to others, one after the other. -/
def linkAll (mgr : PluginManager) (plugin : PluginPtr) (targets : List PluginPtr) :
    PluginManager :=
  targets.foldl (fun mgr target => mgr.addpluginUsage plugin target) mgr

/-- Linking changes no entry of the map. -/
@[simp] theorem linkAll_mods (mgr : PluginManager) (plugin : PluginPtr)
    (targets : List PluginPtr) : (mgr.linkAll plugin targets).mods_ = mgr.mods_ := by
  induction targets generalizing mgr with
  | nil => rfl
  | cons target targets inductionHypothesis => exact inductionHypothesis _

/-- Linking makes no plugin. -/
@[simp] theorem linkAll_length (mgr : PluginManager) (plugin : PluginPtr)
    (targets : List PluginPtr) : (mgr.linkAll plugin targets).heap.length = mgr.heap.length := by
  induction targets generalizing mgr with
  | nil => rfl
  | cons target targets inductionHypothesis =>
    refine (inductionHypothesis _).trans ?_
    simp only [addpluginUsage, List.length_modify]

/-- Checking the dependencies links the plugin to those that are found before the
first that is missing. -/
theorem verifyDependence_eq (plugin : PluginPtr) (mgr : PluginManager) (entries : List Bytes) :
    verifyDependence plugin mgr entries =
      (dependenceStatus mgr.mods_ entries,
        mgr.linkAll plugin (resolved mgr.mods_ entries)) := by
  induction entries generalizing mgr with
  | nil => rfl
  | cons i rest inductionHypothesis =>
    by_cases blank : blankEntry i = true
    · have skipped : (strTrim i (text " ")).isEmpty = true := blank
      simp only [dependenceStatus, firstMissing, resolved, if_pos blank, verifyDependence,
        if_pos skipped]
      exact inductionHypothesis mgr
    · have names : ¬ (strTrim i (text " ")).isEmpty = true := blank
      simp only [dependenceStatus, firstMissing, resolved, if_neg blank, verifyDependence,
        if_neg names]
      cases found : mgr.mods_[strTrim i (text " ")]? with
      | none => rfl
      | some it => exact inductionHypothesis (mgr.addpluginUsage plugin it)

/-- If none is missing, every entry that is not blank is found. -/
theorem resolved_all {mods : ExtTreeMap Bytes PluginPtr} {entries : List Bytes}
    (complete : firstMissing mods entries = none) {i : Bytes} (listed : i ∈ entries)
    (names : blankEntry i ≠ true) :
    ∃ it, mods[strTrim i (text " ")]? = some it ∧ it ∈ resolved mods entries := by
  induction entries with
  | nil => cases listed
  | cons head rest inductionHypothesis =>
    by_cases blank : blankEntry head = true
    · simp only [firstMissing, resolved, if_pos blank] at complete ⊢
      rcases List.mem_cons.mp listed with rfl | later
      · exact absurd blank names
      · exact inductionHypothesis complete later
    · simp only [firstMissing, resolved, if_neg blank] at complete ⊢
      cases found : mods[strTrim head (text " ")]? with
      | none => simp [found] at complete
      | some it =>
        simp only [found] at complete ⊢
        rcases List.mem_cons.mp listed with rfl | later
        · exact ⟨it, found, List.mem_cons_self⟩
        · obtain ⟨other, other_found, member⟩ := inductionHypothesis complete later
          exact ⟨other, other_found, List.mem_cons_of_mem it member⟩

/-- Only loaded plugins are found. -/
theorem resolved_loaded {mods : ExtTreeMap Bytes PluginPtr} {entries : List Bytes}
    {it : PluginPtr} (member : it ∈ resolved mods entries) :
    ∃ name : Bytes, mods[name]? = some it := by
  induction entries with
  | nil => cases member
  | cons head rest inductionHypothesis =>
    by_cases blank : blankEntry head = true
    · simp only [resolved, if_pos blank] at member
      exact inductionHypothesis member
    · simp only [resolved, if_neg blank] at member
      cases found : mods[strTrim head (text " ")]? with
      | none => simp [found] at member
      | some first =>
        simp only [found] at member
        rcases List.mem_cons.mp member with rfl | later
        · exact ⟨_, found⟩
        · exact inductionHypothesis later

theorem mem_insert_iff (set : ExtTreeSet PluginPtr) (plugin other : PluginPtr) :
    other ∈ set.insert plugin ↔ other = plugin ∨ other ∈ set := by
  rw [ExtTreeSet.mem_insert, LawfulEqCmp.compare_eq_iff_eq, eq_comm]

theorem mem_erase_iff (set : ExtTreeSet PluginPtr) (plugin other : PluginPtr) :
    other ∈ set.erase plugin ↔ other ≠ plugin ∧ other ∈ set := by
  rw [ExtTreeSet.mem_erase, ne_eq, LawfulEqCmp.compare_eq_iff_eq, eq_comm]

/-- An object after a change to one of them. -/
theorem getD_modify (heap : List Plugin) (changed plugin : PluginPtr) (change : Plugin → Plugin)
    (missing : Plugin) (inside : plugin < heap.length) :
    (heap.modify changed change).getD plugin missing =
      if changed = plugin then change (heap.getD plugin missing)
      else heap.getD plugin missing := by
  simp only [List.getD_eq_getElem?_getD, List.getElem?_modify, List.getElem?_eq_getElem inside]
  split <;> rfl

/-- One link: the target knows the plugin, and the plugin knows the target. -/
theorem addpluginUsage_deref (mgr : PluginManager) (a b : PluginPtr) {plugin : PluginPtr}
    (inside : plugin < mgr.heap.length) :
    ((mgr.addpluginUsage a b).deref plugin).hdr = (mgr.deref plugin).hdr ∧
    (∀ source, source ∈ ((mgr.addpluginUsage a b).deref plugin).sources ↔
      (source = a ∧ plugin = b) ∨ source ∈ (mgr.deref plugin).sources) ∧
    ∀ target, target ∈ ((mgr.addpluginUsage a b).deref plugin).targets ↔
      (target = b ∧ plugin = a) ∨ target ∈ (mgr.deref plugin).targets := by
  simp only [deref, addpluginUsage]
  rw [getD_modify _ _ _ _ _ (by rw [List.length_modify]; exact inside),
    getD_modify _ _ _ _ _ inside]
  by_cases source : a = plugin <;> by_cases target : b = plugin
  · simp only [source, target, if_true, mem_insert_iff, and_true, implies_true, and_self]
  · simp only [source, target, Ne.symm target, if_true, if_false, mem_insert_iff, and_true,
      and_false, false_or, implies_true, and_self]
  · simp only [source, target, Ne.symm source, if_true, if_false, mem_insert_iff, and_true,
      and_false, false_or, implies_true, and_self]
  · simp only [source, target, Ne.symm source, Ne.symm target, if_false, and_false, false_or,
      implies_true, and_self]

/-- All links of a plugin: its targets know it, and it knows its targets. -/
theorem linkAll_deref (mgr : PluginManager) (me : PluginPtr) (targets : List PluginPtr)
    {plugin : PluginPtr} (inside : plugin < mgr.heap.length) :
    ((mgr.linkAll me targets).deref plugin).hdr = (mgr.deref plugin).hdr ∧
    (∀ source, source ∈ ((mgr.linkAll me targets).deref plugin).sources ↔
      (source = me ∧ plugin ∈ targets) ∨ source ∈ (mgr.deref plugin).sources) ∧
    ∀ target, target ∈ ((mgr.linkAll me targets).deref plugin).targets ↔
      (target ∈ targets ∧ plugin = me) ∨ target ∈ (mgr.deref plugin).targets := by
  induction targets generalizing mgr with
  | nil => simp [linkAll]
  | cons first targets inductionHypothesis =>
    obtain ⟨header, sources, mine⟩ := addpluginUsage_deref mgr me first inside
    have still : plugin < (mgr.addpluginUsage me first).heap.length := by
      simpa only [addpluginUsage, List.length_modify] using inside
    obtain ⟨later_header, later_sources, later_mine⟩ := inductionHypothesis _ still
    refine ⟨later_header.trans header, ?_, ?_⟩
    · intro source
      refine (later_sources source).trans ?_
      rw [sources, List.mem_cons]
      tauto
    · intro target
      refine (later_mine target).trans ?_
      rw [mine, List.mem_cons]
      tauto

/-- The links that initialising a plugin with this header makes. -/
def madeLinks (mods : ExtTreeMap Bytes PluginPtr) (hdr : Option cppboot_plugin) :
    List PluginPtr :=
  match verifyPluginHeader hdr with
  | .error _ => []
  | .ok checked => resolved mods (requireList checked.depends)

/-- The header is good, all its dependencies are loaded, and it initialises. -/
def accepts (mods : ExtTreeMap Bytes PluginPtr) (hdr : Option cppboot_plugin) (param : Bytes) :
    Bool :=
  match verifyPluginHeader hdr with
  | .error _ => false
  | .ok checked =>
    (firstMissing mods (requireList checked.depends)).isNone && checked.init param == 0

/-- The dependences are there when none is missing. -/
theorem dependenceStatus_ok (mods : ExtTreeMap Bytes PluginPtr) (entries : List Bytes) :
    (dependenceStatus mods entries).ok = (firstMissing mods entries).isNone := by
  unfold dependenceStatus
  cases firstMissing mods entries <;> rfl

/-- The errors of the header check are errors. -/
theorem verifyPluginHeader_error {hdr : Option cppboot_plugin} {st : Status}
    (refused : verifyPluginHeader hdr = .error st) : st.ok = false := by
  unfold verifyPluginHeader at refused
  repeat' split at refused
  all_goals cases refused
  all_goals rfl

/-- Initialising a plugin makes its links, and calls its function at most. -/
theorem initPulgin_spec (mgr : PluginManager) (me : PluginPtr) (hdr : Option cppboot_plugin)
    (param : Bytes) :
    (mgr.initPulgin me hdr param).1.ok = accepts mgr.mods_ hdr param ∧
    ∃ calls, (mgr.initPulgin me hdr param).2 =
      { mgr.linkAll me (madeLinks mgr.mods_ hdr) with calls := calls } := by
  simp only [initPulgin, accepts, madeLinks]
  cases checks : verifyPluginHeader hdr with
  | error st => exact ⟨verifyPluginHeader_error checks, mgr.calls, rfl⟩
  | ok checked =>
    simp only [verifyDependence_eq, dependenceStatus_ok]
    by_cases complete : (firstMissing mgr.mods_ (requireList checked.depends)).isNone = true
    · simp only [complete, if_true, Bool.true_and]
      by_cases fails : checked.init param ≠ 0
      · rw [if_pos fails]
        exact ⟨(beq_eq_false_iff_ne.mpr fails).symm, _, rfl⟩
      · rw [if_neg fails]
        refine ⟨?_, _, rfl⟩
        rw [dependenceStatus_ok, complete, not_not.mp fails]
        rfl
    · simp only [complete, Bool.false_eq_true, if_false, Bool.false_and]
      refine ⟨?_, _, rfl⟩
      rw [dependenceStatus_ok]
      exact Bool.eq_false_iff.mpr complete

/-- The call reaches the header: the name is new, and the loader answers. -/
structure Reaches (mgr : PluginManager) (loader : PluginLoader) (name : Bytes) : Prop where
  named : name ≠ []
  unloaded : mgr.mods_[name]? = none
  answered : (loader name).1.ok = true

/-- The manager with a new, linked object. -/
def linked (mgr : PluginManager) (hdr : Option cppboot_plugin) : PluginManager :=
  (mgr.make hdr).linkAll mgr.heap.length (madeLinks mgr.mods_ hdr)

/-- A call that does not reach the header fails and changes nothing. -/
theorem load_refused {mgr : PluginManager} {loader : PluginLoader} {name : Option Bytes}
    (param : Option Bytes) (refused : ∀ n, name = some n → ¬ mgr.Reaches loader n) :
    (mgr.load loader name param).1.ok = false ∧ (mgr.load loader name param).2 = mgr := by
  match name, refused with
  | none, _ => exact ⟨rfl, rfl⟩
  | some [], _ => exact ⟨rfl, rfl⟩
  | some (c :: rest), refused =>
    simp only [load]
    by_cases present : mgr.mods_.contains (c :: rest) = true
    · rw [if_pos present]
      exact ⟨rfl, rfl⟩
    rw [if_neg present]
    by_cases answered : (loader (c :: rest)).1.ok = true
    · have absent : mgr.mods_[c :: rest]? = none :=
        ExtTreeMap.getElem?_eq_none_of_contains_eq_false (Bool.eq_false_iff.mpr present)
      exact absurd ⟨by simp, absent, answered⟩ (refused _ rfl)
    · simp only [answered, Bool.not_false, if_true]
      exact ⟨trivial, trivial⟩

/-- A call that reaches the header makes an object and links it. It enters the
object when the header is accepted; otherwise it fails and the links stay. -/
theorem load_reached {mgr : PluginManager} {loader : PluginLoader} {name : Bytes}
    (param : Option Bytes) (reaches : mgr.Reaches loader name) :
    let hdr := (loader name).2
    let result := mgr.load loader (some name) param
    result.1.ok = accepts mgr.mods_ hdr (param.getD []) ∧
    ∃ calls,
      if accepts mgr.mods_ hdr (param.getD []) = true then
        result.2 = { mgr.linked hdr with calls := calls }.enter (headerName hdr) mgr.heap.length
          (param.getD [])
      else result.2 = { mgr.linked hdr with calls := calls } := by
  obtain ⟨named, absent, answered⟩ := reaches
  obtain ⟨c, rest, rfl⟩ := List.exists_cons_of_ne_nil named
  have missing : ¬ mgr.mods_.contains (c :: rest) = true := by
    rw [ExtTreeMap.contains_eq_isSome_getElem?, absent]
    simp
  obtain ⟨status, calls, result⟩ := initPulgin_spec (mgr.make (loader (c :: rest)).2)
    mgr.heap.length (loader (c :: rest)).2 (param.getD [])
  simp only [load, if_neg missing, answered, Bool.not_true, Bool.false_eq_true, if_false, status,
    result]
  have same : (mgr.make (loader (c :: rest)).2).mods_ = mgr.mods_ := rfl
  rw [same]
  by_cases accepted : accepts mgr.mods_ (loader (c :: rest)).2 (param.getD []) = true
  · simp only [accepted, Bool.not_true, Bool.false_eq_true, if_false, if_true]
    exact ⟨rfl, calls, rfl⟩
  · simp only [accepted, Bool.not_false, Bool.false_eq_true, if_false, if_true]
    refine ⟨?_, _, rfl⟩
    rw [status]
    exact Bool.eq_false_iff.mpr accepted

theorem make_old (mgr : PluginManager) (hdr : Option cppboot_plugin) {plugin : PluginPtr}
    (inside : plugin < mgr.heap.length) : (mgr.make hdr).deref plugin = mgr.deref plugin := by
  simp only [deref, make, List.getD_eq_getElem?_getD, List.getElem?_append_left inside]

theorem make_new (mgr : PluginManager) (hdr : Option cppboot_plugin) :
    (mgr.make hdr).deref mgr.heap.length = { hdr := hdr } := by
  simp only [deref, make, List.getD_eq_getElem?_getD, List.getElem?_concat_length, Option.getD_some]

/-- Making and linking a plugin changes no entry of the map. -/
@[simp] theorem linked_mods (mgr : PluginManager) (hdr : Option cppboot_plugin) :
    (mgr.linked hdr).mods_ = mgr.mods_ := linkAll_mods _ _ _

/-- One plugin is made. -/
@[simp] theorem linked_length (mgr : PluginManager) (hdr : Option cppboot_plugin) :
    (mgr.linked hdr).heap.length = mgr.heap.length + 1 := by
  simp only [linked, linkAll_length, make, List.length_append, List.length_singleton]

/-- An object that was there keeps its header and its targets; the new object is
among its sources if it is one of the targets. -/
theorem linked_old (mgr : PluginManager) (hdr : Option cppboot_plugin) {plugin : PluginPtr}
    (inside : plugin < mgr.heap.length) :
    ((mgr.linked hdr).deref plugin).hdr = (mgr.deref plugin).hdr ∧
    (∀ source, source ∈ ((mgr.linked hdr).deref plugin).sources ↔
      (source = mgr.heap.length ∧ plugin ∈ madeLinks mgr.mods_ hdr) ∨
        source ∈ (mgr.deref plugin).sources) ∧
    ((mgr.linked hdr).deref plugin).targets = (mgr.deref plugin).targets := by
  have still : plugin < (mgr.make hdr).heap.length := by
    simp only [make, List.length_append, List.length_singleton]
    exact Nat.lt_succ_of_lt inside
  have links := linkAll_deref (mgr.make hdr) mgr.heap.length (madeLinks mgr.mods_ hdr) still
  rw [make_old mgr hdr inside] at links
  refine ⟨links.1, links.2.1, ExtTreeSet.ext_mem fun target => ?_⟩
  refine (links.2.2 target).trans ?_
  have other : plugin ≠ mgr.heap.length := Nat.ne_of_lt inside
  simp only [other, and_false, false_or]

/-- The new object has its header, and as targets the links that were made. -/
theorem linked_new (mgr : PluginManager) (hdr : Option cppboot_plugin)
    (older : ∀ target ∈ madeLinks mgr.mods_ hdr, target < mgr.heap.length) :
    ((mgr.linked hdr).deref mgr.heap.length).hdr = hdr ∧
    (∀ source, source ∉ ((mgr.linked hdr).deref mgr.heap.length).sources) ∧
    ∀ target, target ∈ ((mgr.linked hdr).deref mgr.heap.length).targets ↔
      target ∈ madeLinks mgr.mods_ hdr := by
  have inside : mgr.heap.length < (mgr.make hdr).heap.length := by
    simp only [make, List.length_append, List.length_singleton]
    omega
  have links := linkAll_deref (mgr.make hdr) mgr.heap.length (madeLinks mgr.mods_ hdr) inside
  rw [make_new] at links
  refine ⟨links.1, ?_, ?_⟩
  · intro source member
    rcases (links.2.1 source).mp member with ⟨_, self⟩ | nothing
    · exact Nat.lt_irrefl _ (older _ self)
    · exact ExtTreeSet.not_mem_empty nothing
  · intro target
    refine (links.2.2 target).trans ?_
    simp only [and_true, or_iff_left_iff_imp]
    intro nothing
    exact absurd nothing ExtTreeSet.not_mem_empty

/-- Entering an object changes its parameter and the map. -/
theorem enter_deref (mgr : PluginManager) (name : Bytes) (me : PluginPtr) (param : Bytes)
    {plugin : PluginPtr} (inside : plugin < mgr.heap.length) :
    ((mgr.enter name me param).deref plugin).hdr = (mgr.deref plugin).hdr ∧
    ((mgr.enter name me param).deref plugin).sources = (mgr.deref plugin).sources ∧
    ((mgr.enter name me param).deref plugin).targets = (mgr.deref plugin).targets := by
  simp only [deref, enter]
  rw [getD_modify _ _ _ _ _ inside]
  split
  · exact ⟨rfl, rfl, rfl⟩
  · exact ⟨rfl, rfl, rfl⟩

/-- Targets that forget a plugin; nothing else changes. -/
theorem eraseSource_foldl (me : PluginPtr) (targets : List PluginPtr) (heap : List Plugin)
    (missing : Plugin) {plugin : PluginPtr} (inside : plugin < heap.length) :
    (targets.foldl (eraseSource me) heap).length = heap.length ∧
    ((targets.foldl (eraseSource me) heap).getD plugin missing).hdr =
      (heap.getD plugin missing).hdr ∧
    ((targets.foldl (eraseSource me) heap).getD plugin missing).targets =
      (heap.getD plugin missing).targets ∧
    ∀ source, source ∈ ((targets.foldl (eraseSource me) heap).getD plugin missing).sources ↔
      source ∈ (heap.getD plugin missing).sources ∧ ¬ (source = me ∧ plugin ∈ targets) := by
  induction targets generalizing heap with
  | nil => simp
  | cons target targets inductionHypothesis =>
    have still : plugin < (eraseSource me heap target).length := by
      simpa only [eraseSource, List.length_modify] using inside
    obtain ⟨length, header, mine, sources⟩ := inductionHypothesis _ still
    have same : (eraseSource me heap target).length = heap.length := List.length_modify _ _ _
    have one : (eraseSource me heap target).getD plugin missing = _ :=
      getD_modify heap target plugin _ missing inside
    rw [one] at header mine sources
    by_cases here : target = plugin
    · rw [if_pos here] at header mine sources
      refine ⟨length.trans same, header, mine, fun source => (sources source).trans ?_⟩
      simp only [mem_erase_iff, here, List.mem_cons, true_or, and_true]
      tauto
    · rw [if_neg here] at header mine sources
      refine ⟨length.trans same, header, mine, fun source => (sources source).trans ?_⟩
      simp only [List.mem_cons, Ne.symm here, false_or]

/-- The call removes a plugin: it is loaded, and nothing depends on it. -/
structure Removes (mgr : PluginManager) (name : Bytes) (me : PluginPtr) : Prop where
  named : name ≠ []
  loaded : mgr.mods_[name]? = some me
  free : (mgr.deref me).sources.isEmpty = true

/-- A call that removes no plugin fails and changes nothing. -/
theorem unload_refused {mgr : PluginManager} {name : Option Bytes}
    (refused : ∀ n me, name = some n → ¬ mgr.Removes n me) :
    (mgr.unload name).1.ok = false ∧ (mgr.unload name).2 = mgr := by
  match name, refused with
  | none, _ => exact ⟨rfl, rfl⟩
  | some [], _ => exact ⟨rfl, rfl⟩
  | some (c :: rest), refused =>
    simp only [unload]
    cases found : mgr.mods_[c :: rest]? with
    | none => exact ⟨rfl, rfl⟩
    | some me =>
      by_cases free : (mgr.deref me).sources.isEmpty = true
      · exact absurd ⟨by simp, found, free⟩ (refused _ me rfl)
      · simp only [free, Bool.not_false, if_true]
        exact ⟨rfl, trivial⟩

/-- A call of `Unload` removes a plugin, or it fails and changes nothing. -/
theorem unload_cases (mgr : PluginManager) (name : Option Bytes) :
    (∃ n me, name = some n ∧ mgr.Removes n me) ∨
      (mgr.unload name).1.ok = false ∧ (mgr.unload name).2 = mgr := by
  by_cases removed : ∃ n me, name = some n ∧ mgr.Removes n me
  · exact .inl removed
  · exact .inr (unload_refused fun n me same removes => removed ⟨n, me, same, removes⟩)

/-- Removing a plugin takes it out of the map and out of the sources of its
targets. -/
theorem unload_removes {mgr : PluginManager} {name : Bytes} {me : PluginPtr}
    (removes : mgr.Removes name me) :
    let result := mgr.unload (some name)
    result.1.ok = true ∧ result.2.mods_ = mgr.mods_.erase name ∧
    ∀ {plugin : PluginPtr}, plugin < mgr.heap.length →
      result.2.heap.length = mgr.heap.length ∧
      (result.2.deref plugin).hdr = (mgr.deref plugin).hdr ∧
      (result.2.deref plugin).targets = (mgr.deref plugin).targets ∧
      ∀ source, source ∈ (result.2.deref plugin).sources ↔
        source ∈ (mgr.deref plugin).sources ∧
          ¬ (source = me ∧ plugin ∈ (mgr.deref me).targets) := by
  obtain ⟨named, loaded, free⟩ := removes
  obtain ⟨c, rest, rfl⟩ := List.exists_cons_of_ne_nil named
  simp only [unload, loaded, free, Bool.not_true, Bool.false_eq_true, if_false]
  refine ⟨rfl, trivial, ?_⟩
  intro plugin inside
  simp only [ExtTreeSet.foldl_eq_foldl_toList]
  obtain ⟨length, header, mine, sources⟩ := eraseSource_foldl me (mgr.deref me).targets.toList
    mgr.heap { hdr := none } inside
  refine ⟨length, header, mine, fun source => (sources source).trans ?_⟩
  rw [ExtTreeSet.mem_toList]
  rfl

/-- All addresses in use lie in the list of objects. -/
structure Bounded (mgr : PluginManager) : Prop where
  loaded : ∀ {name : Bytes} {plugin : PluginPtr}, mgr.mods_[name]? = some plugin →
    plugin < mgr.heap.length
  sources : ∀ {plugin source : PluginPtr}, plugin < mgr.heap.length →
    source ∈ (mgr.deref plugin).sources → source < mgr.heap.length

/-- One manager follows another by one new object with the given header, linked to
the plugins its header names. -/
structure Linked (mgr : PluginManager) (hdr : Option cppboot_plugin) (next : PluginManager) :
    Prop where
  length : next.heap.length = mgr.heap.length + 1
  header : ∀ {plugin : PluginPtr}, plugin < mgr.heap.length →
    (next.deref plugin).hdr = (mgr.deref plugin).hdr
  targets : ∀ {plugin : PluginPtr}, plugin < mgr.heap.length →
    (next.deref plugin).targets = (mgr.deref plugin).targets
  sources : ∀ {plugin : PluginPtr}, plugin < mgr.heap.length → ∀ source : PluginPtr,
    (source ∈ (next.deref plugin).sources ↔
      (source = mgr.heap.length ∧ plugin ∈ madeLinks mgr.mods_ hdr) ∨
        source ∈ (mgr.deref plugin).sources)
  new_header : (next.deref mgr.heap.length).hdr = hdr
  new_sources : ∀ source, source ∉ (next.deref mgr.heap.length).sources
  new_targets : ∀ target, target ∈ (next.deref mgr.heap.length).targets ↔
    target ∈ madeLinks mgr.mods_ hdr

/-- Links are made to loaded plugins only. -/
theorem madeLinks_loaded {mods : ExtTreeMap Bytes PluginPtr} {hdr : Option cppboot_plugin}
    {target : PluginPtr} (member : target ∈ madeLinks mods hdr) :
    ∃ name : Bytes, mods[name]? = some target := by
  unfold madeLinks at member
  split at member
  · cases member
  · exact resolved_loaded member

/-- A plugin that was made and linked is linked to its dependences. -/
theorem linked_linked {mgr : PluginManager} (bounded : mgr.Bounded)
    (hdr : Option cppboot_plugin) (calls : List PluginCall) :
    Linked mgr hdr { mgr.linked hdr with calls := calls } := by
  have older : ∀ target ∈ madeLinks mgr.mods_ hdr, target < mgr.heap.length := by
    intro target member
    obtain ⟨name, found⟩ := madeLinks_loaded member
    exact bounded.loaded found
  obtain ⟨header, sources, targets⟩ := mgr.linked_new hdr older
  exact
    { length := mgr.linked_length hdr
      header := fun inside => (mgr.linked_old hdr inside).1
      targets := fun inside => (mgr.linked_old hdr inside).2.2
      sources := fun inside => (mgr.linked_old hdr inside).2.1
      new_header := header
      new_sources := sources
      new_targets := targets }

/-- Entering the new object changes nothing about its links. -/
theorem Linked.enter {mgr next : PluginManager} {hdr : Option cppboot_plugin}
    (links : Linked mgr hdr next) (name : Bytes) (me : PluginPtr) (param : Bytes) :
    Linked mgr hdr (next.enter name me param) := by
  have old : ∀ {plugin : PluginPtr}, plugin < mgr.heap.length → plugin < next.heap.length := by
    intro plugin inside
    rw [links.length]
    exact Nat.lt_succ_of_lt inside
  have new : mgr.heap.length < next.heap.length := by
    rw [links.length]
    exact Nat.lt_succ_self _
  refine ⟨?_, ?_, ?_, ?_, ?_, ?_, ?_⟩
  · simp only [PluginManager.enter, List.length_modify, links.length]
  · intro plugin inside
    rw [(next.enter_deref name me param (old inside)).1, links.header inside]
  · intro plugin inside
    rw [(next.enter_deref name me param (old inside)).2.2, links.targets inside]
  · intro plugin inside
    rw [(next.enter_deref name me param (old inside)).2.1]
    exact links.sources inside
  · rw [(next.enter_deref name me param new).1, links.new_header]
  · rw [(next.enter_deref name me param new).2.1]
    exact links.new_sources
  · rw [(next.enter_deref name me param new).2.2]
    exact links.new_targets

/-- What a call of `Load` can do. -/
theorem load_cases {mgr : PluginManager} (bounded : mgr.Bounded) (loader : PluginLoader)
    (name param : Option Bytes) :
    ((∀ n, name = some n → ¬ mgr.Reaches loader n) ∧
      (mgr.load loader name param).1.ok = false ∧ (mgr.load loader name param).2 = mgr) ∨
    ∃ n, name = some n ∧ mgr.Reaches loader n ∧
      (mgr.load loader name param).1.ok = accepts mgr.mods_ (loader n).2 (param.getD []) ∧
      Linked mgr (loader n).2 (mgr.load loader name param).2 ∧
      (mgr.load loader name param).2.mods_ =
        if accepts mgr.mods_ (loader n).2 (param.getD []) = true then
          mgr.mods_.insert (headerName (loader n).2) mgr.heap.length
        else mgr.mods_ := by
  by_cases reached : ∃ n, name = some n ∧ mgr.Reaches loader n
  · obtain ⟨n, rfl, reaches⟩ := reached
    obtain ⟨status, calls, result⟩ := load_reached param reaches
    refine .inr ⟨n, rfl, reaches, status, ?_⟩
    have links := linked_linked bounded (loader n).2 calls
    split at result
    next accepted =>
      rw [result, if_pos accepted]
      refine ⟨links.enter _ _ _, ?_⟩
      simp only [PluginManager.enter, linked_mods]
    next refused =>
      rw [result, if_neg refused]
      exact ⟨links, linked_mods _ _⟩
  · have refused : ∀ n, name = some n → ¬ mgr.Reaches loader n :=
      fun n same reaches => reached ⟨n, same, reaches⟩
    exact .inl ⟨refused, load_refused param refused⟩

/-- A new object and its links stay in the list. -/
theorem Bounded.linked {mgr next : PluginManager} {hdr : Option cppboot_plugin}
    (bounded : mgr.Bounded) (links : Linked mgr hdr next) {plugin source : PluginPtr}
    (inside : plugin < next.heap.length) (member : source ∈ (next.deref plugin).sources) :
    source < next.heap.length := by
  rw [links.length] at inside ⊢
  rcases Nat.lt_succ_iff_lt_or_eq.mp inside with older | rfl
  · rcases (links.sources older source).mp member with ⟨rfl, _⟩ | known
    · exact Nat.lt_succ_self _
    · exact Nat.lt_succ_of_lt (bounded.sources older known)
  · exact absurd member (links.new_sources source)

theorem fresh_bounded : fresh.Bounded where
  loaded found := by
    rw [fresh, ExtTreeMap.getElem?_empty] at found
    cases found
  sources inside := absurd inside (Nat.not_lt_zero _)

theorem load_bounded {mgr : PluginManager} (bounded : mgr.Bounded) (loader : PluginLoader)
    (name param : Option Bytes) : (mgr.load loader name param).2.Bounded := by
  rcases load_cases bounded loader name param with ⟨_, _, same⟩ | ⟨n, _, _, _, links, mods⟩
  · rw [same]
    exact bounded
  · refine ⟨?_, bounded.linked links⟩
    intro other plugin found
    rw [links.length]
    rw [mods] at found
    split at found
    · rw [ExtTreeMap.getElem?_insert] at found
      split at found
      · cases found
        exact Nat.lt_succ_self _
      · exact Nat.lt_succ_of_lt (bounded.loaded found)
    · exact Nat.lt_succ_of_lt (bounded.loaded found)

theorem unload_bounded {mgr : PluginManager} (bounded : mgr.Bounded) (name : Option Bytes) :
    (mgr.unload name).2.Bounded := by
  obtain ⟨n, me, rfl, removes⟩ | ⟨_, same⟩ := mgr.unload_cases name
  · obtain ⟨_, mods, objects⟩ := unload_removes removes
    have length := (objects (bounded.loaded removes.loaded)).1
    refine ⟨?_, ?_⟩
    · intro other plugin found
      rw [mods, ExtTreeMap.getElem?_erase] at found
      split at found
      · cases found
      · rw [length]
        exact bounded.loaded found
    · intro plugin source inside member
      rw [length] at inside ⊢
      exact bounded.sources inside (((objects inside).2.2.2 source).mp member).1
  · rw [same]
    exact bounded

/-- In every state the addresses in use lie in the list of objects. -/
theorem run_bounded {events : List Event} {mgr : PluginManager}
    (run : Runs.Run Step fresh events mgr) : mgr.Bounded := by
  refine run.preserves Bounded ?_ fresh_bounded
  rintro before _ event bounded rfl
  cases event with
  | load loader name param => exact load_bounded bounded loader name param
  | unload name => exact unload_bounded bounded name

end Cppboot.PluginManager
