import Cppboot.HttpUrl

/-!
# What the constructor of a URL looks at

The constructor of `Url` once more, with a record of the indices that it reads. A
string of length n has a NUL byte at index n, and nothing may be read behind it. A
computation is cut off at the first index that is out of range, so it stays in
range exactly when it has a result. The constructor does so exactly for the empty
string and for strings with a colon: without one its pointer is moved from the end
of the string to the place behind the NUL byte and looked through there.
-/

namespace Cppboot.Http

/-- A computation with the indices that it reads. It has no result when it reads
something that is not there. -/
structure Traced (α : Type) where
  reads : List Nat
  result : Option α

namespace Traced

variable {α β : Type}

/-- Go on with the result, if there is one. -/
def andThen (first : Traced α) (next : α → Traced β) : Traced β :=
  match first.result with
  | none => ⟨first.reads, none⟩
  | some value => ⟨first.reads ++ (next value).reads, (next value).result⟩

instance : Monad Traced where
  pure value := ⟨[], some value⟩
  bind := andThen

theorem result_pure (value : α) : (pure value : Traced α).result = some value := rfl

theorem result_bind (first : Traced α) (next : α → Traced β) :
    (first >>= next).result = first.result.bind fun value => (next value).result := by
  have unfolded : (first >>= next).result = (first.andThen next).result := rfl
  rw [unfolded, andThen]
  cases first.result <;> rfl

/-- The computation has a result exactly when it reads nothing behind index n. -/
def Honest (n : Nat) (t : Traced α) : Prop := (∀ i ∈ t.reads, i ≤ n) ↔ t.result.isSome

/-- A value without any read is honest. -/
theorem honest_pure (n : Nat) (value : α) : Honest n (pure value : Traced α) := by
  constructor
  · exact fun _ => rfl
  · exact fun _ i member => absurd member List.not_mem_nil

/-- Honest computations stay so one after the other. -/
theorem Honest.bind {n : Nat} {first : Traced α} {next : α → Traced β}
    (honest : first.Honest n) (rest : ∀ value, (next value).Honest n) :
    (first >>= next).Honest n := by
  have unfolded : first >>= next = first.andThen next := rfl
  rw [unfolded, andThen]
  unfold Honest at *
  cases ran : first.result with
  | none =>
    rw [ran] at honest
    exact honest
  | some value =>
    rw [ran] at honest
    have before := honest.mpr rfl
    rw [← rest value]
    constructor
    · exact fun all i member => all i (List.mem_append_right _ member)
    · intro after i member
      obtain earlier | later := List.mem_append.mp member
      · exact before i earlier
      · exact after i later

end Traced

namespace Url

open Traced

/-- Look at one character. -/
def readAt (raw_url : Bytes) (p : Nat) : Traced UInt8 := ⟨[p], charAt raw_url p⟩

/-- `ConsumeUtil`: every character up to the next `util` is looked at, and that one
too unless the end comes first. Behind the end the first one is out of range. -/
def readUtil (raw_url : Bytes) (start : Nat) (util : UInt8) : Traced (Bytes × Nat) where
  reads :=
    if raw_url.length < start then [start]
    else
      let view := (raw_url.drop start).takeWhile (· ≠ util)
      List.range' start (min (view.length + 1) (raw_url.length - start))
  result := consumeUtil raw_url start util

/-- The characters from a place to the end. -/
def readRest (raw_url : Bytes) (p : Nat) : Traced Bytes :=
  ⟨List.range' p (raw_url.length - p), some (raw_url.drop p)⟩

/-- The constructor with the indices that it reads. -/
def read (raw_url : Bytes) : Traced Url := do
  let (scheme_view, p) ← readUtil raw_url 0 (byte ':')
  if scheme_view.isEmpty then return {}
  let url : Url := { scheme := scheme_view }
  let p := p + 1
  if (← readAt raw_url p) ≠ byte '/' then return url
  if (← readAt raw_url (p + 1)) ≠ byte '/' then return url
  if (← readAt raw_url (p + 2)) = byte '/' then return url
  let (host_view, p) ← readUtil raw_url (p + 2) (byte '/')
  if host_view.isEmpty then return url
  let (path_view, p) ← readUtil raw_url p (byte '?')
  let url : Url := { url with host := host_view, raw_path := path_view }
  if (← readAt raw_url p) = byte '?' then
    return { url with raw_query := ← readRest raw_url (p + 1) }
  return url

/-- The record changes nothing about the result. -/
theorem read_result (raw_url : Bytes) : (read raw_url).result = create raw_url := by
  unfold read create
  simp only [result_bind, apply_ite Traced.result, result_pure]
  rfl

/-- There is a character up to the terminating NUL. -/
theorem charAt_isSome (raw_url : Bytes) (p : Nat) :
    (charAt raw_url p).isSome ↔ p ≤ raw_url.length := by
  unfold charAt
  split
  next last => simp [last]
  next inside =>
    rw [isSome_getElem?]
    omega

theorem readAt_honest (raw_url : Bytes) (p : Nat) :
    (readAt raw_url p).Honest raw_url.length := by
  unfold Honest readAt
  rw [charAt_isSome]
  simp

theorem readUtil_honest (raw_url : Bytes) (start : Nat) (util : UInt8) :
    (readUtil raw_url start util).Honest raw_url.length := by
  unfold Honest readUtil consumeUtil
  split
  next outside => simpa using outside
  next inside =>
    simp only [List.mem_range'_1, Option.isSome_some, iff_true]
    intro i bounds
    omega

theorem readRest_honest (raw_url : Bytes) (p : Nat) :
    (readRest raw_url p).Honest raw_url.length := by
  unfold Honest readRest
  simp only [List.mem_range'_1, Option.isSome_some, iff_true]
  intro i bounds
  omega

/-- The constructor reads nothing out of range exactly when it has a result. -/
theorem read_honest (raw_url : Bytes) : (read raw_url).Honest raw_url.length := by
  unfold read
  refine (readUtil_honest _ _ _).bind fun ⟨scheme_view, p⟩ => ?_
  dsimp only
  split
  · exact honest_pure _ _
  refine (readAt_honest _ _).bind fun first => ?_
  split
  · exact honest_pure _ _
  refine (readAt_honest _ _).bind fun second => ?_
  split
  · exact honest_pure _ _
  refine (readAt_honest _ _).bind fun third => ?_
  split
  · exact honest_pure _ _
  refine (readUtil_honest _ _ _).bind fun ⟨host_view, p⟩ => ?_
  dsimp only
  split
  · exact honest_pure _ _
  refine (readUtil_honest _ _ _).bind fun ⟨path_view, p⟩ => ?_
  refine (readAt_honest _ _).bind fun last => ?_
  split
  · exact (readRest_honest _ _).bind fun raw_query => honest_pure _ _
  · exact honest_pure _ _

/-- A character that is not NUL stands in front of the end. -/
theorem charAt_inside {raw_url : Bytes} {p : Nat} {c : UInt8}
    (found : charAt raw_url p = some c) (visible : c ≠ 0) : p < raw_url.length := by
  unfold charAt at found
  split at found
  next => exact absurd (Option.some.inj found).symm visible
  next => exact (List.getElem?_eq_some_iff.mp found).1

/-- From a place in the string the next stop is one too. -/
theorem consumeUtil_inside {raw_url : Bytes} {start : Nat} (inside : start ≤ raw_url.length)
    (util : UInt8) :
    ∃ view stop, consumeUtil raw_url start util = some (view, stop) ∧ stop ≤ raw_url.length := by
  refine ⟨_, _, if_neg (by omega), ?_⟩
  have shorter := (List.takeWhile_prefix (fun c => decide (c ≠ util))
    (l := raw_url.drop start)).length_le
  rw [List.length_drop] at shorter
  omega

theorem charAt_some {raw_url : Bytes} {p : Nat} (inside : p ≤ raw_url.length) :
    ∃ c, charAt raw_url p = some c :=
  Option.isSome_iff_exists.mp ((charAt_isSome raw_url p).mpr inside)

/-- A string with a colon is taken apart: every character that is passed is one of
the string, since it is not NUL. The scheme is what stands in front of the colon. -/
theorem create_of_colon {scheme : Bytes} (plain : byte ':' ∉ scheme) (more : Bytes) :
    ∃ url, create (scheme ++ byte ':' :: more) = some url ∧ url.scheme = scheme := by
  have scheme_read : consumeUtil (scheme ++ byte ':' :: more) 0 (byte ':') =
      some (scheme, 0 + scheme.length) :=
    consumeUtil_front [] scheme (byte ':' :: more) rfl rfl plain (.inr ⟨more, rfl⟩)
  have behind : 0 + scheme.length + 1 ≤ (scheme ++ byte ':' :: more).length := by
    simp
  generalize scheme ++ byte ':' :: more = raw_url at *
  have slash_visible : byte '/' ≠ 0 := by decide
  unfold create
  simp only [Option.bind_eq_bind]
  rw [scheme_read, Option.bind_some]
  dsimp only
  by_cases unnamed : scheme.isEmpty = true
  · rw [if_pos unnamed]
    exact ⟨_, rfl, (List.isEmpty_iff.mp unnamed).symm⟩
  rw [if_neg unnamed]
  obtain ⟨first, first_read⟩ := charAt_some behind
  rw [first_read, Option.bind_some]
  by_cases slash : first = byte '/'
  swap
  · rw [if_pos slash]
    exact ⟨_, rfl, rfl⟩
  rw [if_neg (not_not.mpr slash)]
  have first_inside := charAt_inside first_read (slash ▸ slash_visible)
  obtain ⟨second, second_read⟩ := charAt_some first_inside
  rw [second_read, Option.bind_some]
  by_cases slash : second = byte '/'
  swap
  · rw [if_pos slash]
    exact ⟨_, rfl, rfl⟩
  rw [if_neg (not_not.mpr slash)]
  have second_inside := charAt_inside second_read (slash ▸ slash_visible)
  obtain ⟨third, third_read⟩ := charAt_some second_inside
  rw [third_read, Option.bind_some]
  by_cases slash : third = byte '/'
  · rw [if_pos slash]
    exact ⟨_, rfl, rfl⟩
  rw [if_neg slash]
  obtain ⟨host_view, host_end, host_read, host_inside⟩ :=
    consumeUtil_inside second_inside (byte '/')
  rw [host_read, Option.bind_some]
  dsimp only
  by_cases hostless : host_view.isEmpty = true
  · rw [if_pos hostless]
    exact ⟨_, rfl, rfl⟩
  rw [if_neg hostless]
  obtain ⟨path_view, path_end, path_read, path_inside⟩ :=
    consumeUtil_inside host_inside (byte '?')
  obtain ⟨last, last_read⟩ := charAt_some path_inside
  rw [path_read, Option.bind_some]
  dsimp only
  rw [last_read, Option.bind_some]
  by_cases query : last = byte '?'
  · rw [if_pos query]
    exact ⟨_, rfl, rfl⟩
  · rw [if_neg query]
    exact ⟨_, rfl, rfl⟩

/-- Without a colon the character behind the NUL byte is looked at. -/
theorem create_without_colon {raw_url : Bytes} (nonempty : raw_url ≠ [])
    (colon : byte ':' ∉ raw_url) : create raw_url = none := by
  have scheme_read : consumeUtil raw_url 0 (byte ':') = some (raw_url, 0 + raw_url.length) :=
    consumeUtil_front [] raw_url [] (by simp) rfl colon (.inl rfl)
  have outside : charAt raw_url (0 + raw_url.length + 1) = none := by
    rw [← Option.not_isSome_iff_eq_none, charAt_isSome]
    omega
  have present : raw_url.isEmpty = false := by simpa using nonempty
  unfold create
  simp only [scheme_read, Option.bind_eq_bind, Option.bind_some, present, outside]
  rfl

/-- The constructor reads nothing behind the NUL byte exactly for the empty string
and for strings with a colon. -/
theorem reads_inside_iff (raw_url : Bytes) :
    (∀ i ∈ (read raw_url).reads, i ≤ raw_url.length) ↔ raw_url = [] ∨ byte ':' ∈ raw_url := by
  have honest := read_honest raw_url
  unfold Honest at honest
  rw [honest, read_result]
  constructor
  · intro defined
    by_contra neither
    rw [not_or] at neither
    rw [create_without_colon neither.1 neither.2] at defined
    cases defined
  · rintro (rfl | colon)
    · rfl
    · obtain ⟨scheme, more, rfl, plain⟩ := List.eq_append_cons_of_mem colon
      obtain ⟨url, made, _⟩ := create_of_colon plain more
      rw [made]
      rfl

/-- A word without a colon is read two places behind its last character. -/
theorem word_read_outside :
    (read (text "abc")).reads = [0, 1, 2, 4] ∧
      ¬ ∀ i ∈ (read (text "abc")).reads, i ≤ (text "abc").length := by
  have listed : (read (text "abc")).reads = [0, 1, 2, 4] := by decide
  rw [listed]
  exact ⟨rfl, by decide⟩

end Url

end Cppboot.Http
