import Mathlib.Data.List.Sort
import Cppboot.HttpRequest
import Cppboot.StrUtil

/-!
# Handing requests to handlers

A mux holds handlers by pattern, and those whose pattern ends in a slash also in
a list that is kept sorted, longer patterns first. A request goes to the handler
of exactly its path, otherwise to the first one in the list whose pattern its
path starts with, ignoring case. Only the second way sets the subpath, also for a
handler that both lead to.

Which handler that is can be told from the calls of `set_handler` alone: the
pattern is the longest that fits, and among those of that length the one that was
registered first. Handlers are opaque; what is modelled is which of them is
called, and with which request.
-/

namespace Cppboot.Http

open Std

/-- The status of a reply. -/
inductive StatusType where
  | ok
  | created
  | accepted
  | no_content
  | multiple_choices
  | moved_permanently
  | moved_temporarily
  | not_modified
  | bad_request
  | unauthorized
  | forbidden
  | not_found
  | internal_server_error
  | not_implemented
  | bad_gateway
  | service_unavailable
deriving DecidableEq, Repr

variable {φ : Type}

/-- A handler under its pattern. -/
structure FuncEntry (φ : Type) where
  pattern : Bytes
  fn : φ

/-- The handlers by pattern, and those with a slash at the end by length. -/
structure ServeMux (φ : Type) where
  funcs_ : ExtTreeMap Bytes (FuncEntry φ)
  prefix_funcs_ : List (FuncEntry φ)

/-- What `ServeHttp` does: it calls one handler, or writes a text itself. -/
inductive Dispatch (φ : Type) where
  | called (fn : φ) (req : Request)
  | wrote (code : StatusType) (body : Bytes)

namespace ServeMux

def create : ServeMux φ := ⟨∅, []⟩

/-- Insert in front of the first entry with a shorter pattern. -/
def insertEntry (entry : FuncEntry φ) (entries : List (FuncEntry φ)) : List (FuncEntry φ) :=
  entries.orderedInsert (fun new it => new.pattern.length > it.pattern.length) entry

/-- An empty pattern and one that is taken are ignored. -/
def setHandler (mux : ServeMux φ) (pattern : Bytes) (func : φ) : ServeMux φ :=
  if pattern.isEmpty then mux
  else if mux.funcs_.contains pattern then mux
  else
    let entry : FuncEntry φ := ⟨pattern, func⟩
    { funcs_ := mux.funcs_.insert pattern entry
      prefix_funcs_ :=
        if pattern.getLast? = some (byte '/') then insertEntry entry mux.prefix_funcs_
        else mux.prefix_funcs_ }

/-- The handler of the path itself, or else of the longest pattern that it starts with. -/
def serveHttp (mux : ServeMux φ) (req : Request) : Dispatch φ :=
  match mux.funcs_[req.path]? with
  | some entry => .called entry.fn req
  | none =>
    match mux.prefix_funcs_.find? fun i => startsWithIgnoreCase req.path i.pattern with
    | some i => .called i.fn { req with subpath := req.path.drop (i.pattern.length - 1) }
    | none => .wrote .not_found (text "Not found")

/-- The mux after some calls of `set_handler`. -/
def ofCalls (calls : List (Bytes × φ)) : ServeMux φ :=
  calls.foldl (fun mux call => mux.setHandler call.1 call.2) create

/-- The pattern covers the paths that start with it. -/
def Covers (path pattern : Bytes) : Prop :=
  pattern.getLast? = some (byte '/') ∧ startsWithIgnoreCase path pattern = true

/-- The choice among the patterns that cover a path: of maximal length, and the
first of that length to be registered. Without a choice there is no such
pattern. -/
def Chosen (calls : List (Bytes × φ)) (path : Bytes) : Option (FuncEntry φ) → Prop
  | some entry => ∃ before after, calls = before ++ (entry.pattern, entry.fn) :: after ∧
      Covers path entry.pattern ∧
      (∀ call ∈ before, Covers path call.1 → call.1.length < entry.pattern.length) ∧
      ∀ call ∈ after, Covers path call.1 → call.1.length ≤ entry.pattern.length
  | none => ∀ call ∈ calls, ¬ Covers path call.1

/-- Longer patterns first. -/
def Sorted (entries : List (FuncEntry φ)) : Prop :=
  entries.Pairwise fun one other => other.pattern.length ≤ one.pattern.length

/-- Inserting an entry keeps longer patterns first. -/
theorem insertEntry_sorted {entries : List (FuncEntry φ)} (sorted : Sorted entries)
    (entry : FuncEntry φ) : Sorted (insertEntry entry entries) := by
  induction entries with
  | nil => exact List.pairwise_singleton _ _
  | cons it rest inductionHypothesis =>
    obtain ⟨shorter, rest_sorted⟩ := List.pairwise_cons.mp sorted
    rw [insertEntry, List.orderedInsert_cons]
    split
    next longer =>
      refine List.pairwise_cons.mpr ⟨?_, sorted⟩
      intro other member
      rcases List.mem_cons.mp member with rfl | member
      · exact Nat.le_of_lt longer
      · exact (shorter other member).trans (Nat.le_of_lt longer)
    next longest =>
      refine List.pairwise_cons.mpr ⟨?_, inductionHypothesis rest_sorted⟩
      intro other member
      rcases (List.mem_orderedInsert _).mp member with rfl | member
      · exact Nat.le_of_not_lt longest
      · exact shorter other member

/-- The first fitting entry after an insertion: the new one if it fits and is
longer than the one found before. -/
theorem insertEntry_find? {entries : List (FuncEntry φ)} (sorted : Sorted entries)
    (entry : FuncEntry φ) (fits : FuncEntry φ → Bool) :
    (insertEntry entry entries).find? fits =
      if fits entry = true ∧
        ∀ found, entries.find? fits = some found → found.pattern.length < entry.pattern.length
      then some entry else entries.find? fits := by
  induction entries with
  | nil =>
    cases fit : fits entry <;> simp [insertEntry, fit]
  | cons it rest inductionHypothesis =>
    obtain ⟨shorter, rest_sorted⟩ := List.pairwise_cons.mp sorted
    rw [insertEntry, List.orderedInsert_cons]
    split
    next longer =>
      have beaten : ∀ found, (it :: rest).find? fits = some found →
          found.pattern.length < entry.pattern.length := by
        intro found first
        rcases List.mem_cons.mp (List.mem_of_find?_eq_some first) with rfl | member
        · exact longer
        · exact (shorter found member).trans_lt longer
      cases fit : fits entry with
      | true =>
        rw [if_pos ⟨rfl, beaten⟩]
        exact List.find?_cons_of_pos fit
      | false => simp [fit]
    next longest =>
      rw [List.find?_cons, List.find?_cons]
      cases fit : fits it with
      | true =>
        have kept : ¬ it.pattern.length < entry.pattern.length := longest
        simp [kept]
      | false => exact inductionHypothesis rest_sorted

/-- What the mux holds after some calls. -/
structure Holds (calls : List (Bytes × φ)) (mux : ServeMux φ) : Prop where
  funcs : ∀ pattern : Bytes, mux.funcs_[pattern]? =
    if pattern = [] then none else (calls.lookup pattern).map (FuncEntry.mk pattern)
  sorted : Sorted mux.prefix_funcs_
  chosen : ∀ path, Chosen calls path
    (mux.prefix_funcs_.find? fun i => startsWithIgnoreCase path i.pattern)

/-- A call that covers nothing longer than the choice does not change it. -/
theorem Chosen.snoc {calls : List (Bytes × φ)} {path : Bytes} {choice : Option (FuncEntry φ)}
    (chosen : Chosen calls path choice) (call : Bytes × φ)
    (beaten : Covers path call.1 → ∃ entry, choice = some entry ∧
      call.1.length ≤ entry.pattern.length) :
    Chosen (calls ++ [call]) path choice := by
  cases choice with
  | none =>
    intro other member
    rcases List.mem_append.mp member with old | new
    · exact chosen other old
    · rw [List.mem_singleton.mp new]
      intro covers
      obtain ⟨entry, none_some, _⟩ := beaten covers
      cases none_some
  | some entry =>
    obtain ⟨before, after, rfl, covers, earlier, later⟩ := chosen
    refine ⟨before, after ++ [call], by simp, covers, earlier, ?_⟩
    intro other member
    rcases List.mem_append.mp member with old | new
    · exact later other old
    · rw [List.mem_singleton.mp new]
      intro call_covers
      obtain ⟨chosen_entry, same, shorter⟩ := beaten call_covers
      rw [Option.some.inj same]
      exact shorter

/-- A pattern that covers the path is not longer than the choice. -/
theorem Chosen.longest {calls : List (Bytes × φ)} {path : Bytes} {choice : Option (FuncEntry φ)}
    (chosen : Chosen calls path choice) {call : Bytes × φ} (member : call ∈ calls)
    (covers : Covers path call.1) :
    ∃ entry, choice = some entry ∧ call.1.length ≤ entry.pattern.length := by
  cases choice with
  | none => exact absurd covers (chosen call member)
  | some entry =>
    obtain ⟨before, after, rfl, _, earlier, later⟩ := chosen
    refine ⟨entry, rfl, ?_⟩
    rcases List.mem_append.mp member with old | new
    · exact Nat.le_of_lt (earlier call old covers)
    · rcases List.mem_cons.mp new with rfl | new
      · exact Nat.le_refl _
      · exact later call new covers

/-- The chosen pattern was registered and covers the path. -/
theorem Chosen.spec {calls : List (Bytes × φ)} {path : Bytes} {entry : FuncEntry φ}
    (chosen : Chosen calls path (some entry)) :
    (entry.pattern, entry.fn) ∈ calls ∧ Covers path entry.pattern := by
  obtain ⟨before, after, rfl, covers, _⟩ := chosen
  exact ⟨List.mem_append_right _ List.mem_cons_self, covers⟩

/-- A new pattern that covers the path and is longer than the choice is chosen. -/
theorem Chosen.replace {calls : List (Bytes × φ)} {path pattern : Bytes} {func : φ}
    {choice : Option (FuncEntry φ)} (chosen : Chosen calls path choice)
    (covers : Covers path pattern)
    (longer : ∀ entry, choice = some entry → entry.pattern.length < pattern.length) :
    Chosen (calls ++ [(pattern, func)]) path (some ⟨pattern, func⟩) := by
  refine ⟨calls, [], rfl, covers, ?_, by simp⟩
  intro call member call_covers
  obtain ⟨entry, same, shorter⟩ := chosen.longest member call_covers
  exact shorter.trans_lt (longer entry same)

/-- At the start nothing is registered. -/
theorem create_holds : Holds ([] : List (Bytes × φ)) create where
  funcs pattern := by simp [create]
  sorted := List.Pairwise.nil
  chosen path call member := by cases member

/-- A call that changes nothing: its pattern is empty or taken. -/
theorem Holds.ignored {calls : List (Bytes × φ)} {mux : ServeMux φ} (holds : Holds calls mux)
    {pattern : Bytes} (func : φ) (ignored : pattern = [] ∨ (calls.lookup pattern).isSome) :
    Holds (calls ++ [(pattern, func)]) mux where
  funcs other := by
    rw [holds.funcs, List.lookup_append]
    split
    next => rfl
    next named =>
      by_cases same : other = pattern
      · subst same
        obtain ⟨first, found⟩ := Option.isSome_iff_exists.mp (ignored.resolve_left named)
        rw [found, Option.some_or]
      · simp [List.lookup_cons, beq_eq_false_iff_ne.mpr same]
  sorted := holds.sorted
  chosen path := by
    apply (holds.chosen path).snoc (pattern, func)
    intro covers
    rcases ignored with rfl | taken
    · cases covers.1
    · obtain ⟨first, found⟩ := Option.isSome_iff_exists.mp taken
      obtain ⟨before, after, split, _⟩ := List.lookup_eq_some_iff.mp found
      have member : (pattern, first) ∈ calls := by
        rw [split]
        exact List.mem_append_right _ List.mem_cons_self
      obtain ⟨entry, chosen, shorter⟩ := (holds.chosen path).longest member covers
      exact ⟨entry, chosen, shorter⟩

/-- A call that enters a handler. -/
theorem Holds.entered {calls : List (Bytes × φ)} {mux : ServeMux φ} (holds : Holds calls mux)
    {pattern : Bytes} (func : φ) (named : pattern ≠ []) (free : calls.lookup pattern = none) :
    Holds (calls ++ [(pattern, func)])
      { funcs_ := mux.funcs_.insert pattern ⟨pattern, func⟩
        prefix_funcs_ := if pattern.getLast? = some (byte '/')
          then insertEntry ⟨pattern, func⟩ mux.prefix_funcs_ else mux.prefix_funcs_ } where
  funcs other := by
    simp only [ExtTreeMap.getElem?_insert, LawfulEqCmp.compare_eq_iff_eq, holds.funcs,
      List.lookup_append]
    by_cases same : other = pattern
    · subst same
      simp [named, free]
    · simp [List.lookup_cons, beq_eq_false_iff_ne.mpr same, Ne.symm same]
  sorted := by
    dsimp only
    split
    · exact insertEntry_sorted holds.sorted _
    · exact holds.sorted
  chosen path := by
    dsimp only
    split
    next slash =>
      rw [insertEntry_find? holds.sorted]
      split
      next replaces => exact (holds.chosen path).replace ⟨slash, replaces.1⟩ replaces.2
      next stays =>
        apply (holds.chosen path).snoc (pattern, func)
        intro covers
        have found := not_and.mp stays covers.2
        push Not at found
        exact found
    next plain =>
      apply (holds.chosen path).snoc (pattern, func)
      intro covers
      exact absurd covers.1 plain

theorem Holds.setHandler {calls : List (Bytes × φ)} {mux : ServeMux φ} (holds : Holds calls mux)
    (pattern : Bytes) (func : φ) :
    Holds (calls ++ [(pattern, func)]) (mux.setHandler pattern func) := by
  unfold ServeMux.setHandler
  split
  next empty => exact holds.ignored func (.inl (List.isEmpty_iff.mp empty))
  next nonempty =>
    have named : pattern ≠ [] := fun same => nonempty (List.isEmpty_iff.mpr same)
    split
    next taken =>
      rw [ExtTreeMap.contains_eq_isSome_getElem?, holds.funcs, if_neg named,
        Option.isSome_map] at taken
      exact holds.ignored func (.inr taken)
    next free =>
      rw [ExtTreeMap.contains_eq_isSome_getElem?, holds.funcs, if_neg named, Option.isSome_map,
        Bool.not_eq_true, Option.isSome_eq_false_iff, Option.isNone_iff_eq_none] at free
      exact holds.entered func named free

/-- Every mux holds what its calls say. -/
theorem ofCalls_holds (calls : List (Bytes × φ)) : Holds calls (ofCalls calls) := by
  have continues (later earlier : List (Bytes × φ)) (mux : ServeMux φ) (holds : Holds earlier mux) :
      Holds (earlier ++ later)
        (later.foldl (fun mux call => mux.setHandler call.1 call.2) mux) := by
    induction later generalizing earlier mux with
    | nil => simpa using holds
    | cons call later inductionHypothesis =>
      rw [List.foldl_cons, List.append_cons]
      exact inductionHypothesis _ _ (holds.setHandler call.1 call.2)
  exact continues calls [] create create_holds

/-- What a request is to get after some calls: the function that was registered
first for exactly its path, else that of the chosen pattern, else a 404. -/
inductive Serves (calls : List (Bytes × φ)) (req : Request) : Dispatch φ → Prop
  | exactly (fn : φ) (named : req.path ≠ []) (first : calls.lookup req.path = some fn) :
      Serves calls req (.called fn req)
  | longest (entry : FuncEntry φ) (unregistered : req.path = [] ∨ calls.lookup req.path = none)
      (chosen : Chosen calls req.path (some entry)) :
      Serves calls req
        (.called entry.fn { req with subpath := req.path.drop (entry.pattern.length - 1) })
  | nothing (unregistered : req.path = [] ∨ calls.lookup req.path = none)
      (chosen : Chosen calls req.path none) :
      Serves calls req (.wrote .not_found (text "Not found"))

theorem Holds.serves {calls : List (Bytes × φ)} {mux : ServeMux φ} (holds : Holds calls mux)
    (req : Request) : Serves calls req (mux.serveHttp req) := by
  have registered := holds.funcs req.path
  have chosen := holds.chosen req.path
  unfold serveHttp
  cases found : mux.funcs_[req.path]? with
  | some entry =>
    rw [found] at registered
    split at registered
    · cases registered
    next named =>
      obtain ⟨fn, first, rfl⟩ := Option.map_eq_some_iff.mp registered.symm
      exact .exactly fn named first
  | none =>
    have unregistered : req.path = [] ∨ calls.lookup req.path = none := by
      rw [found] at registered
      split at registered
      next empty => exact .inl empty
      next => exact .inr (Option.map_eq_none_iff.mp registered.symm)
    dsimp only
    cases picked : mux.prefix_funcs_.find? fun i => startsWithIgnoreCase req.path i.pattern with
    | some entry =>
      rw [picked] at chosen
      exact .longest entry unregistered chosen
    | none =>
      rw [picked] at chosen
      exact .nothing unregistered chosen

/-- No two patterns are equal ignoring case. -/
def Distinct (calls : List (Bytes × φ)) : Prop :=
  (calls.map fun call => call.1.map toLower).Nodup

instance (calls : List (Bytes × φ)) : Decidable (Distinct calls) :=
  inferInstanceAs (Decidable (List.Nodup _))

/-- The calls with patterns that are equal ignoring case are the same call. -/
theorem Distinct.same {calls : List (Bytes × φ)} (distinct : Distinct calls)
    {one other : Bytes × φ} (one_member : one ∈ calls) (other_member : other ∈ calls)
    (equal : one.1.map toLower = other.1.map toLower) : one = other :=
  List.inj_on_of_nodup_map distinct one_member other_member equal

theorem Distinct.lookup_iff {calls : List (Bytes × φ)} (distinct : Distinct calls)
    (pattern : Bytes) (fn : φ) : calls.lookup pattern = some fn ↔ (pattern, fn) ∈ calls := by
  constructor
  · intro found
    obtain ⟨before, after, rfl, _⟩ := List.lookup_eq_some_iff.mp found
    exact List.mem_append_right _ List.mem_cons_self
  · intro member
    cases found : calls.lookup pattern with
    | none =>
      have apart := List.lookup_eq_none_iff.mp found (pattern, fn) member
      simp at apart
    | some first =>
      obtain ⟨before, after, split, _⟩ := List.lookup_eq_some_iff.mp found
      have listed : (pattern, first) ∈ calls := by
        rw [split]
        exact List.mem_append_right _ List.mem_cons_self
      cases distinct.same member listed rfl
      rfl

/-- Patterns of one length that cover a path are equal ignoring case. -/
theorem Covers.equal {path one other : Bytes} (one_covers : Covers path one)
    (other_covers : Covers path other) (length : one.length = other.length) :
    one.map toLower = other.map toLower := by
  have fits (pattern : Bytes) (covers : Covers path pattern) :
      (path.take pattern.length).map toLower = pattern.map toLower := by
    have starts := of_decide_eq_true covers.2
    exact (equalsIgnoreCase_iff _ _).mp starts.2
  rw [← fits one one_covers, ← fits other other_covers, length]

/-- The choice among distinct patterns does not depend on their order. -/
theorem Distinct.chosen_unique {calls others : List (Bytes × φ)} (distinct : Distinct calls)
    (perm : calls.Perm others) {path : Bytes} {one other : Option (FuncEntry φ)}
    (one_chosen : Chosen calls path one) (other_chosen : Chosen others path other) :
    one = other := by
  cases one with
  | none =>
    cases other with
    | none => rfl
    | some entry =>
      obtain ⟨member, covers⟩ := other_chosen.spec
      exact absurd covers (one_chosen _ (perm.mem_iff.mpr member))
  | some entry =>
    obtain ⟨member, covers⟩ := one_chosen.spec
    obtain ⟨another, rfl, shorter⟩ := other_chosen.longest (perm.mem_iff.mp member) covers
    obtain ⟨other_member, other_covers⟩ := other_chosen.spec
    obtain ⟨again, same, longer⟩ :=
      one_chosen.longest (perm.mem_iff.mpr other_member) other_covers
    cases same
    have equal := covers.equal other_covers (Nat.le_antisymm shorter longer)
    have pair := distinct.same member (perm.mem_iff.mpr other_member) equal
    obtain ⟨patterns, fns⟩ := Prod.mk.inj pair
    cases entry
    cases another
    cases patterns
    cases fns
    rfl

/-- The mux serves what its calls say. When no two patterns are equal ignoring
case, it serves the same for every order of the calls. -/
theorem serveHttp_dispatches (calls : List (Bytes × φ)) (req : Request) :
    Serves calls req ((ofCalls calls).serveHttp req) ∧
      (Distinct calls → ∀ others : List (Bytes × φ), calls.Perm others →
        (ofCalls others).serveHttp req = (ofCalls calls).serveHttp req) := by
  refine ⟨(ofCalls_holds calls).serves req, ?_⟩
  intro distinct others perm
  have mine := ofCalls_holds calls
  have theirs := ofCalls_holds others
  have distinct_others : Distinct others := (perm.map _).nodup_iff.mp distinct
  have same_lookup : others.lookup req.path = calls.lookup req.path := by
    apply Option.ext
    intro fn
    rw [distinct.lookup_iff, distinct_others.lookup_iff, perm.mem_iff]
  unfold serveHttp
  rw [mine.funcs, theirs.funcs, same_lookup,
    distinct.chosen_unique perm (mine.chosen req.path) (theirs.chosen req.path)]

/-- Three nested patterns, in two orders. -/
theorem nested_patterns_served :
    (ofCalls [(text "/a/b/", 1), (text "/a/b", 3), (text "/a/", 2)]).serveHttp
        { path := text "/A/b/c" } =
      .called 1 { path := text "/A/b/c", subpath := text "/c" } := by
  have distinct : Distinct [(text "/a/", 2), (text "/a/b", 3), (text "/a/b/", 1)] := by
    decide
  rw [(serveHttp_dispatches [(text "/a/", 2), (text "/a/b", 3), (text "/a/b/", 1)]
    { path := text "/A/b/c" }).2 distinct _ (by decide)]
  rfl

/-- The entry whose handler gets a path. -/
def selected (mux : ServeMux φ) (path : Bytes) : Option (FuncEntry φ) :=
  mux.funcs_[path]?.or
    (mux.prefix_funcs_.find? fun i => startsWithIgnoreCase path i.pattern)

/-- A handler is selected for exactly its path, which leaves the request as it
is, or for a path that its pattern covers, which sets the subpath. -/
theorem Holds.selects {calls : List (Bytes × φ)} {mux : ServeMux φ} (holds : Holds calls mux)
    {req : Request} {entry : FuncEntry φ} (selects : mux.selected req.path = some entry) :
    (req.path = entry.pattern ∧ mux.serveHttp req = .called entry.fn req) ∨
      (req.path ≠ entry.pattern ∧ Covers req.path entry.pattern ∧
        mux.serveHttp req = .called entry.fn
          { req with subpath := req.path.drop (entry.pattern.length - 1) }) := by
  have registered := holds.funcs req.path
  unfold selected at selects
  unfold serveHttp
  cases found : mux.funcs_[req.path]? with
  | some other =>
    rw [found] at registered selects
    cases selects
    split at registered
    · cases registered
    next =>
      obtain ⟨fn, _, rfl⟩ := Option.map_eq_some_iff.mp registered.symm
      exact .inl ⟨rfl, rfl⟩
  | none =>
    rw [found, Option.none_or] at selects
    have chosen := holds.chosen req.path
    rw [selects] at chosen ⊢
    obtain ⟨member, covers⟩ := chosen.spec
    refine .inr ⟨?_, covers, rfl⟩
    -- A pattern that is the path would have been found in the map.
    intro same
    rw [found, same] at registered
    have named : entry.pattern ≠ [] := by
      intro nothing
      rw [nothing] at covers
      cases covers.1
    rw [if_neg named] at registered
    have absent := Option.map_eq_none_iff.mp registered.symm
    have apart := List.lookup_eq_none_iff.mp absent _ member
    simp at apart

/-- The part of a path behind a pattern that covers it starts with the slash of
the pattern. -/
theorem Covers.behind {path pattern : Bytes} (covers : Covers path pattern) :
    ∃ rest, path.drop (pattern.length - 1) = byte '/' :: rest := by
  obtain ⟨front, rfl⟩ := List.getLast?_eq_some_iff.mp covers.1
  obtain ⟨fits, equal⟩ := of_decide_eq_true covers.2
  rw [equalsIgnoreCase_iff] at equal
  rw [List.length_append, List.length_singleton] at fits equal ⊢
  rw [Nat.add_sub_cancel, List.drop_eq_getElem_cons fits]
  have slash : toLower path[front.length] = toLower (byte '/') := by
    have last := congrArg (fun bytes => bytes[front.length]?) equal
    simpa [fits] using last
  have alone : ∀ c, toLower c = toLower (byte '/') → c = byte '/' := every_byte (by decide +kernel)
  exact ⟨_, by rw [alone _ slash]⟩

/-- A handler of a subtree gets the part of the path behind its pattern, unless the
path is the pattern and the request comes with another subpath: the exact match
does not set it. -/
theorem subtree_subpath_iff (calls : List (Bytes × φ)) (req : Request) {entry : FuncEntry φ}
    (selects : (ofCalls calls).selected req.path = some entry)
    (subtree : entry.pattern.getLast? = some (byte '/')) :
    (∃ rest, req.path.drop (entry.pattern.length - 1) = byte '/' :: rest) ∧
    (req.path = entry.pattern → req.path.drop (entry.pattern.length - 1) = text "/") ∧
    ∃ handed, (ofCalls calls).serveHttp req = .called entry.fn handed ∧
      (handed.subpath = req.path.drop (entry.pattern.length - 1) ↔
        req.path ≠ entry.pattern ∨ req.subpath = text "/") := by
  have own : entry.pattern.drop (entry.pattern.length - 1) = text "/" := by
    obtain ⟨front, ends⟩ := List.getLast?_eq_some_iff.mp subtree
    rw [ends, List.length_append, List.length_singleton, Nat.add_sub_cancel, List.drop_left]
    rfl
  obtain ⟨same, served⟩ | ⟨apart, covers, served⟩ := (ofCalls_holds calls).selects selects
  · rw [same, own]
    refine ⟨⟨[], rfl⟩, fun _ => rfl, req, served, ?_⟩
    simp
  · refine ⟨covers.behind, fun same => absurd same apart, _, served, ?_⟩
    exact iff_of_true rfl (.inl apart)

/-- A file below a directory. -/
theorem below_directory_served :
    ∃ handed, (ofCalls [(text "/static/", 1)]).serveHttp { path := text "/STATIC/x" } =
        .called 1 handed ∧ handed.subpath = text "/x" := by
  have selects : (ofCalls [(text "/static/", 1)]).selected (text "/STATIC/x") =
      some ⟨text "/static/", 1⟩ := rfl
  obtain ⟨_, _, handed, served, same⟩ := subtree_subpath_iff [(text "/static/", 1)]
    { path := text "/STATIC/x" } selects (by decide)
  exact ⟨handed, served, same.mpr (.inl (by decide))⟩

/-- The directory itself: its handler is called without a subpath. -/
theorem directory_without_subpath :
    (ofCalls [(text "/static/", 1)]).selected (text "/static/") = some ⟨text "/static/", 1⟩ ∧
      (ofCalls [(text "/static/", 1)]).serveHttp { path := text "/static/" } =
        .called 1 { path := text "/static/", subpath := [] } ∧
      (text "/static/").drop ((text "/static/").length - 1) = text "/" :=
  ⟨rfl, rfl, rfl⟩

end ServeMux

end Cppboot.Http
