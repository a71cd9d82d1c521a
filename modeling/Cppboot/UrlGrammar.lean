import Cppboot.UrlReads

/-!
# The grammar of URLs

A complete URL is a scheme, a host, an optional path and an optional query:
`scheme://host/path?query`. The constructor of `Url` reads its text from the left
and stops where something is missing, but validity is only asked of the scheme, so
a text that goes wrong behind its first colon is valid all the same. The host is
read up to the next slash, and a query that follows it at once becomes a part of it.

So the constructor agrees with the grammar exactly on the texts that have no scheme
and on those that go on with `://` and a host without a question mark up to the next
slash.
-/

namespace Cppboot.Http.Url

/-- The components of a complete URL. -/
structure Parts where
  scheme : Bytes
  host : Bytes
  path : Bytes
  query : Option Bytes
  scheme_nonempty : scheme ≠ []
  scheme_plain : byte ':' ∉ scheme
  host_nonempty : host ≠ []
  host_plain : byte '/' ∉ host ∧ byte '?' ∉ host
  path_rooted : path = [] ∨ ∃ rest, path = byte '/' :: rest
  path_plain : byte '?' ∉ path

namespace Parts

/-- The query with its question mark, if there is one. -/
def tail (parts : Parts) : Bytes := parts.query.elim [] (byte '?' :: ·)

/-- The text of the components. -/
def spelled (parts : Parts) : Bytes :=
  parts.scheme ++ text "://" ++ parts.host ++ (parts.path ++ parts.tail)

/-- The components as the fields of a URL. -/
def url (parts : Parts) : Url :=
  { scheme := parts.scheme
    host := parts.host
    raw_path := parts.path
    raw_query := parts.query.getD [] }

theorem tail_form (parts : Parts) : parts.tail = [] ∨ ∃ rest, parts.tail = byte '?' :: rest := by
  unfold tail
  cases parts.query with
  | none => exact .inl rfl
  | some query => exact .inr ⟨query, rfl⟩

theorem tail_query (parts : Parts) : parts.tail.drop 1 = parts.query.getD [] := by
  unfold tail
  cases parts.query <;> rfl

end Parts

/-- The constructor decides the grammar, and it recovers the components. -/
def Decided (raw_url : Bytes) : Prop :=
  ∃ url, create raw_url = some url ∧
    (url.isValid = true ↔ ∃ parts : Parts, raw_url = parts.spelled) ∧
    ∀ parts : Parts, raw_url = parts.spelled → url = parts.url

/-- What stands in front of the first colon. -/
def schemePart (raw_url : Bytes) : Bytes := raw_url.takeWhile (· ≠ byte ':')

/-- What follows the scheme, beginning with the colon. -/
def behindScheme (raw_url : Bytes) : Bytes := raw_url.dropWhile (· ≠ byte ':')

/-- The text between the two slashes and the next one. -/
def authority (raw_url : Bytes) : Bytes :=
  ((behindScheme raw_url).drop 3).takeWhile (· ≠ byte '/')

/-- The text has no scheme, or it goes on with a host that has no question mark. -/
def Regular (raw_url : Bytes) : Prop :=
  schemePart raw_url = [] ∨
    text "://" <+: behindScheme raw_url ∧ authority raw_url ≠ [] ∧ byte '?' ∉ authority raw_url

instance (raw_url : Bytes) : Decidable (Regular raw_url) :=
  inferInstanceAs (Decidable (_ ∨ _ ∧ _ ∧ _))

/-- The scheme of a text is cut off at its first colon. -/
theorem scheme_cut {scheme : Bytes} (plain : byte ':' ∉ scheme) (more : Bytes) :
    schemePart (scheme ++ byte ':' :: more) = scheme ∧
      behindScheme (scheme ++ byte ':' :: more) = byte ':' :: more := by
  refine takeWhile_front (kept_of_not_mem plain) ?_
  rintro c ⟨⟩
  exact decide_eq_false fun other => other rfl

/-- Where a text with a scheme begins to be looked at. -/
theorem authority_of_slashes {scheme : Bytes} (plain : byte ':' ∉ scheme) (rest : Bytes) :
    schemePart (scheme ++ text "://" ++ rest) = scheme ∧
      behindScheme (scheme ++ text "://" ++ rest) = text "://" ++ rest ∧
      authority (scheme ++ text "://" ++ rest) = rest.takeWhile (· ≠ byte '/') := by
  have split : scheme ++ text "://" ++ rest =
      scheme ++ byte ':' :: (byte '/' :: byte '/' :: rest) := by
    rw [List.append_assoc]
    rfl
  obtain ⟨front, behind⟩ := scheme_cut plain (byte '/' :: byte '/' :: rest)
  unfold authority
  rw [split, front, behind]
  exact ⟨rfl, rfl, rfl⟩

namespace Parts

/-- The host and the query that follows it at once are not told apart. -/
theorem authority_spelled (parts : Parts) :
    schemePart parts.spelled = parts.scheme ∧
      text "://" <+: behindScheme parts.spelled ∧
      authority parts.spelled =
        if parts.path = [] then parts.host ++ parts.tail.takeWhile (· ≠ byte '/')
        else parts.host := by
  have grouped : parts.spelled =
      parts.scheme ++ text "://" ++ (parts.host ++ (parts.path ++ parts.tail)) :=
    List.append_assoc _ _ _
  obtain ⟨front, behind, host⟩ := authority_of_slashes parts.scheme_plain
    (parts.host ++ (parts.path ++ parts.tail))
  rw [grouped, front, behind, host]
  refine ⟨rfl, List.prefix_append _ _, ?_⟩
  have kept := kept_of_not_mem parts.host_plain.1
  split
  next pathless => rw [pathless, List.nil_append, List.takeWhile_append_of_pos kept]
  next pathful =>
    obtain ⟨rest, rooted⟩ := parts.path_rooted.resolve_left pathful
    rw [rooted]
    exact (cut_at_stop parts.host_plain.1 (rest ++ parts.tail)).1

/-- The text of the components is regular unless a query follows the host at once. -/
theorem regular_iff (parts : Parts) :
    Regular parts.spelled ↔ parts.path ≠ [] ∨ parts.query = none := by
  obtain ⟨front, slashes, host⟩ := parts.authority_spelled
  unfold Regular
  rw [front, host]
  have named := parts.scheme_nonempty
  by_cases pathless : parts.path = []
  · rw [if_pos pathless]
    unfold tail
    cases parts.query with
    | none =>
      refine iff_of_true (.inr ⟨slashes, ?_, ?_⟩) (.inr rfl)
      · simpa using parts.host_nonempty
      · simpa using parts.host_plain.2
    | some query =>
      refine iff_of_false ?_ (by simp [pathless])
      rintro (unnamed | ⟨_, _, unmarked⟩)
      · exact named unnamed
      · refine unmarked (List.mem_append_right _ ?_)
        rw [Option.elim_some, List.takeWhile_cons_of_pos (by decide)]
        exact List.mem_cons_self
  · rw [if_neg pathless]
    exact iff_of_true (.inr ⟨slashes, parts.host_nonempty, parts.host_plain.2⟩) (.inl pathless)

/-- A regular text of components is taken apart into them. -/
theorem create_spelled {parts : Parts} (regular : Regular parts.spelled) :
    create parts.spelled = some parts.url := by
  have rooted : parts.path ++ parts.tail = [] ∨
      ∃ rest, parts.path ++ parts.tail = byte '/' :: rest := by
    rcases parts.path_rooted with pathless | ⟨rest, rooted⟩
    · have unasked := (parts.regular_iff.mp regular).resolve_left (not_not.mpr pathless)
      left
      rw [pathless, tail, unasked]
      rfl
    · right
      rw [rooted]
      exact ⟨rest ++ parts.tail, rfl⟩
  rw [spelled, create_authority parts.scheme_nonempty parts.scheme_plain parts.host_nonempty
    parts.host_plain.1 parts.path_plain rooted parts.tail_form, tail_query]
  rfl

end Parts

/-- A regular text with a scheme has components. -/
theorem Regular.parts {raw_url : Bytes} (regular : Regular raw_url)
    (named : schemePart raw_url ≠ []) : ∃ parts : Parts, raw_url = parts.spelled := by
  obtain ⟨⟨rest, slashes⟩, hosted, unmarked⟩ := regular.resolve_left named
  have whole : schemePart raw_url ++ behindScheme raw_url = raw_url :=
    List.takeWhile_append_dropWhile
  have found : authority raw_url = rest.takeWhile (· ≠ byte '/') := by
    rw [authority, ← slashes]
    rfl
  rw [found] at hosted unmarked
  have split : rest.takeWhile (· ≠ byte '/') ++ rest.dropWhile (· ≠ byte '/') = rest :=
    List.takeWhile_append_dropWhile
  have unslashed := stop_not_mem_front rest (byte '/')
  have rooted := dropWhile_stop rest (byte '/')
  generalize rest.takeWhile (· ≠ byte '/') = host at *
  -- the path and the query are what follows the host
  generalize rest.dropWhile (· ≠ byte '/') = behind at *
  have cut : behind.takeWhile (· ≠ byte '?') ++ behind.dropWhile (· ≠ byte '?') = behind :=
    List.takeWhile_append_dropWhile
  obtain ⟨query, queried⟩ : ∃ query : Option Bytes,
      behind.dropWhile (· ≠ byte '?') = query.elim [] (byte '?' :: ·) := by
    obtain ended | ⟨query, asked⟩ := dropWhile_stop behind (byte '?')
    · exact ⟨none, ended⟩
    · exact ⟨some query, asked⟩
  have path_rooted : behind.takeWhile (· ≠ byte '?') = [] ∨
      ∃ more, behind.takeWhile (· ≠ byte '?') = byte '/' :: more := by
    rcases rooted with rfl | ⟨more, rfl⟩
    · exact .inl rfl
    · right
      rw [List.takeWhile_cons_of_pos (by decide)]
      exact ⟨_, rfl⟩
  refine ⟨⟨schemePart raw_url, host, behind.takeWhile (· ≠ byte '?'), query, named,
    stop_not_mem_front raw_url _, hosted, ⟨unslashed, unmarked⟩, path_rooted,
    stop_not_mem_front behind _⟩, ?_⟩
  · rw [Parts.spelled, Parts.tail]
    dsimp only
    rw [← queried, cut, List.append_assoc, split, List.append_assoc, slashes, whole]

/-- The constructor decides the grammar for regular texts. -/
theorem Regular.decided {raw_url : Bytes} (regular : Regular raw_url) : Decided raw_url := by
  by_cases named : schemePart raw_url = []
  · have read : consumeUtil raw_url 0 (byte ':') = some ([], 0) := by
      unfold consumeUtil
      rw [if_neg (Nat.not_lt_zero _), List.drop_zero]
      dsimp only
      unfold schemePart at named
      rw [named]
      rfl
    have made : create raw_url = some {} := by
      unfold create
      rw [read]
      rfl
    have unspelled (parts : Parts) : raw_url ≠ parts.spelled := by
      rintro rfl
      rw [parts.authority_spelled.1] at named
      exact parts.scheme_nonempty named
    refine ⟨{}, made, ?_, fun parts spelled => absurd spelled (unspelled parts)⟩
    exact iff_of_false (by decide) fun ⟨parts, spelled⟩ => unspelled parts spelled
  · obtain ⟨parts, rfl⟩ := regular.parts named
    refine ⟨parts.url, Parts.create_spelled regular, ?_, fun others same => ?_⟩
    · have valid : parts.url.isValid = true := by
        simpa [isValid, Parts.url] using parts.scheme_nonempty
      exact iff_of_true valid ⟨parts, rfl⟩
    · have theirs := Parts.create_spelled (same ▸ regular)
      rw [← same, Parts.create_spelled regular] at theirs
      exact Option.some.inj theirs

/-- The host is read up to the next slash. -/
theorem create_host {scheme front : Bytes} (scheme_nonempty : scheme ≠ [])
    (scheme_plain : byte ':' ∉ scheme) (nonempty : front ≠ []) (plain : byte '/' ∉ front)
    (behind : Bytes) {url : Url}
    (made : create (scheme ++ text "://" ++ front ++ behind) = some url) :
    url.host = front ++ behind.takeWhile (· ≠ byte '/') := by
  have split : behind.takeWhile (· ≠ byte '/') ++ behind.dropWhile (· ≠ byte '/') = behind :=
    List.takeWhile_append_dropWhile
  have rooted := dropWhile_stop behind (byte '/')
  have unslashed : byte '/' ∉ front ++ behind.takeWhile (· ≠ byte '/') := by
    rw [List.mem_append, not_or]
    exact ⟨plain, stop_not_mem_front behind _⟩
  generalize behind.takeWhile (· ≠ byte '/') = more at *
  generalize behind.dropWhile (· ≠ byte '/') = rest at *
  have cut : rest.takeWhile (· ≠ byte '?') ++ rest.dropWhile (· ≠ byte '?') = rest :=
    List.takeWhile_append_dropWhile
  have unmarked := stop_not_mem_front rest (byte '?')
  have read := create_authority scheme_nonempty scheme_plain
    (fun none => nonempty (List.append_eq_nil_iff.mp none).1) unslashed unmarked (cut.symm ▸ rooted)
    (dropWhile_stop rest (byte '?'))
  rw [cut, List.append_assoc, List.append_assoc front, split, ← List.append_assoc, made] at read
  rw [Option.some.inj read]

/-- Any text with a scheme is valid if it is taken apart, and then it has to have the
components that are found. -/
theorem Decided.regular {raw_url : Bytes} (decided : Decided raw_url) : Regular raw_url := by
  by_cases named : schemePart raw_url = []
  · exact .inl named
  have nonempty : raw_url ≠ [] := by
    rintro rfl
    exact named rfl
  obtain ⟨url, made, grammar, recovered⟩ := decided
  have colon : byte ':' ∈ raw_url := by
    by_contra colon
    rw [create_without_colon nonempty colon] at made
    cases made
  have valid : url.isValid = true := by
    obtain ⟨scheme, more, rfl, plain⟩ := List.eq_append_cons_of_mem colon
    obtain ⟨other, remade, front⟩ := create_of_colon plain more
    rw [made] at remade
    cases remade
    rw [(scheme_cut plain more).1, ← front] at named
    simpa [isValid] using named
  obtain ⟨parts, rfl⟩ := grammar.mp valid
  have fields := recovered parts rfl
  -- the host that is read goes on up to the next slash
  rw [parts.regular_iff]
  by_contra irregular
  rw [not_or, not_not] at irregular
  obtain ⟨pathless, queried⟩ := irregular
  obtain ⟨query, asked⟩ := Option.ne_none_iff_exists'.mp queried
  have host := create_host parts.scheme_nonempty parts.scheme_plain parts.host_nonempty
    parts.host_plain.1 (parts.path ++ parts.tail) made
  have longer := congrArg List.length (host.symm.trans (congrArg Url.host fields))
  rw [pathless, Parts.tail, asked, Option.elim_some, List.nil_append,
    List.takeWhile_cons_of_pos (by decide)] at longer
  simp [Parts.url] at longer

/-- The constructor decides the grammar of URLs and recovers their components exactly
for the regular texts. -/
theorem grammar_decided_iff (raw_url : Bytes) : Decided raw_url ↔ Regular raw_url :=
  ⟨Decided.regular, Regular.decided⟩

/-- A text without slashes is valid, and a query becomes a part of the host. -/
theorem incomplete_url_valid :
    (create (text "mailto:me")).map isValid = some true ∧ ¬ Decided (text "mailto:me") ∧
      (create (text "http://h?q=1")).map Url.host = some (text "h?q=1") ∧
      ¬ Decided (text "http://h?q=1") := by
  have slashless : ¬ Regular (text "mailto:me") := by decide
  have marked : ¬ Regular (text "http://h?q=1") := by decide
  exact ⟨by decide, fun decided => slashless decided.regular, by decide,
    fun decided => marked decided.regular⟩

end Cppboot.Http.Url
