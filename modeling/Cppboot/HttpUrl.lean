import Mathlib.Data.List.TakeWhile
import Cppboot.HttpRequest

/-!
# Taking a URL apart

The constructor of `Url` walks over its string with a pointer, and that of
`Request` takes the path and the query out of the URL. The string ends with a NUL
byte, which may be looked at. The pointer can step over it when the scheme is not
followed by a colon; what it would read there has no meaning, and the model says
so: then it has no result.
-/

namespace Cppboot.Http

namespace Url

def isValid (url : Url) : Bool := !url.scheme.isEmpty

/-- The character at an index of the string or of its end. -/
def charAt (raw_url : Bytes) (p : Nat) : Option UInt8 :=
  if p = raw_url.length then some 0 else raw_url[p]?

/-- The characters up to the next `util` or the end, and where that is. -/
def consumeUtil (raw_url : Bytes) (start : Nat) (util : UInt8) : Option (Bytes × Nat) :=
  if raw_url.length < start then none
  else
    let view := (raw_url.drop start).takeWhile (· ≠ util)
    some (view, start + view.length)

/-- The constructor. It leaves what it has so far when the URL goes wrong. -/
def create (raw_url : Bytes) : Option Url := do
  let (scheme_view, p) ← consumeUtil raw_url 0 (byte ':')
  if scheme_view.isEmpty then return {}
  let url : Url := { scheme := scheme_view }
  let p := p + 1
  if (← charAt raw_url p) ≠ byte '/' then return url
  if (← charAt raw_url (p + 1)) ≠ byte '/' then return url
  if (← charAt raw_url (p + 2)) = byte '/' then return url
  let (host_view, p) ← consumeUtil raw_url (p + 2) (byte '/')
  if host_view.isEmpty then return url
  let (path_view, p) ← consumeUtil raw_url p (byte '?')
  let url : Url := { url with host := host_view, raw_path := path_view }
  if (← charAt raw_url p) = byte '?' then return { url with raw_query := raw_url.drop (p + 1) }
  return url

/-- The character behind the front of a string. -/
theorem charAt_front {raw : Bytes} {p : Nat} (front : Bytes) (c : UInt8) (more : Bytes)
    (split : raw = front ++ c :: more) (place : p = front.length) : charAt raw p = some c := by
  subst split place
  unfold charAt
  rw [if_neg (by simp)]
  simp

theorem charAt_end (raw : Bytes) : charAt raw raw.length = some 0 := if_pos rfl

/-- The word behind the front of a string, up to the end or a stop. -/
theorem consumeUtil_front {raw : Bytes} {start : Nat} {util : UInt8} (front word more : Bytes)
    (split : raw = front ++ (word ++ more)) (place : start = front.length) (plain : util ∉ word)
    (stops : more = [] ∨ ∃ rest, more = util :: rest) :
    consumeUtil raw start util = some (word, start + word.length) := by
  subst split place
  have view : (word ++ more).takeWhile (· ≠ util) = word := by
    refine (takeWhile_front (kept_of_not_mem plain) ?_).1
    rintro c first
    rcases stops with rfl | ⟨rest, rfl⟩
    · cases first
    · cases first
      exact decide_eq_false fun other => other rfl
  unfold consumeUtil
  rw [if_neg (by simp)]
  simp only [List.drop_left, view]

/-- The parts of a URL with a scheme and a host. A path begins with a slash, and a
query with a question mark. -/
theorem create_authority {scheme host path tail : Bytes} (scheme_nonempty : scheme ≠ [])
    (scheme_plain : byte ':' ∉ scheme) (host_nonempty : host ≠ []) (host_plain : byte '/' ∉ host)
    (path_plain : byte '?' ∉ path)
    (rooted : path ++ tail = [] ∨ ∃ rest, path ++ tail = byte '/' :: rest)
    (query : tail = [] ∨ ∃ rest, tail = byte '?' :: rest) :
    create (scheme ++ text "://" ++ host ++ (path ++ tail)) =
      some { scheme, host, raw_path := path, raw_query := tail.drop 1 } := by
  have slashes : text "://" = [byte ':', byte '/', byte '/'] := rfl
  rw [slashes]
  obtain ⟨first, others, rfl⟩ := List.exists_cons_of_ne_nil host_nonempty
  have first_plain : first ≠ byte '/' := fun same => host_plain (same ▸ List.mem_cons_self)
  generalize whole : scheme ++ [byte ':', byte '/', byte '/'] ++ (first :: others) ++
    (path ++ tail) = raw
  have scheme_read : consumeUtil raw 0 (byte ':') = some (scheme, 0 + scheme.length) :=
    consumeUtil_front [] scheme (byte ':' :: byte '/' :: byte '/' :: first ::
      (others ++ (path ++ tail))) (by simp [← whole]) rfl scheme_plain (.inr ⟨_, rfl⟩)
  have slash_read : charAt raw (0 + scheme.length + 1) = some (byte '/') :=
    charAt_front (scheme ++ [byte ':']) _ (byte '/' :: first ::
      (others ++ (path ++ tail))) (by simp [← whole]) (by simp)
  have second_read : charAt raw (0 + scheme.length + 1 + 1) = some (byte '/') :=
    charAt_front (scheme ++ [byte ':', byte '/']) _ (first ::
      (others ++ (path ++ tail))) (by simp [← whole]) (by simp)
  have first_read : charAt raw (0 + scheme.length + 1 + 2) = some first :=
    charAt_front (scheme ++ [byte ':', byte '/', byte '/']) _
      (others ++ (path ++ tail)) (by simp [← whole]) (by simp)
  have host_read : consumeUtil raw (0 + scheme.length + 1 + 2) (byte '/') = some (first :: others,
      0 + scheme.length + 1 + 2 + (first :: others).length) :=
    consumeUtil_front (scheme ++ [byte ':', byte '/', byte '/']) _ (path ++ tail)
      (by simp [← whole]) (by simp) host_plain rooted
  generalize placed : 0 + scheme.length + 1 + 2 + (first :: others).length = p at host_read
  have path_read : consumeUtil raw p (byte '?') = some (path, p + path.length) :=
    consumeUtil_front (scheme ++ [byte ':', byte '/', byte '/'] ++ (first :: others)) _ tail
      (by simp [← whole]) (by simp [← placed]; omega) path_plain query
  generalize ended : p + path.length = q at path_read
  have scheme_present : scheme.isEmpty = false := by simpa using scheme_nonempty
  unfold create
  simp only [scheme_read, slash_read, second_read, first_read, host_read, path_read,
    Option.bind_eq_bind, Option.bind_some, scheme_present, if_neg first_plain]
  rcases query with rfl | ⟨rest, rfl⟩
  · have last : q = raw.length := by
      rw [← whole, ← ended, ← placed]
      simp
      omega
    have unmarked : ¬ (0 : UInt8) = byte '?' := by decide
    simp [last, charAt_end, unmarked]
  · have front : raw = scheme ++ [byte ':', byte '/', byte '/'] ++ (first :: others) ++
        path ++ byte '?' :: rest := by
      simp [← whole]
    have length : q = (scheme ++ [byte ':', byte '/', byte '/'] ++ (first :: others) ++
        path).length := by
      simp [← ended, ← placed]
      omega
    have marked : charAt raw q = some (byte '?') := charAt_front _ _ rest front length
    have behind : raw.drop (q + 1) = rest := by
      rw [front, length, ← List.drop_drop, List.drop_left]
      rfl
    simp [marked, behind]

/-- The parts of a URL with a scheme, a host and a path. -/
theorem create_parts {scheme host path tail : Bytes} (scheme_nonempty : scheme ≠ [])
    (scheme_plain : byte ':' ∉ scheme) (host_nonempty : host ≠ []) (host_plain : byte '/' ∉ host)
    (path_plain : byte '?' ∉ path) (query : tail = [] ∨ ∃ rest, tail = byte '?' :: rest) :
    create (scheme ++ text "://" ++ host ++ text "/" ++ (path ++ tail)) =
      some { scheme, host, raw_path := byte '/' :: path, raw_query := tail.drop 1 } := by
  have rooted_plain : byte '?' ∉ byte '/' :: path := by simpa using ⟨by decide, path_plain⟩
  have made := create_authority scheme_nonempty scheme_plain host_nonempty host_plain
    rooted_plain (.inr ⟨path ++ tail, rfl⟩) query
  have slash : text "/" = [byte '/'] := rfl
  rw [← made, slash]
  simp

end Url

/-- The request a client starts from. -/
def Request.create (method raw_url : Bytes) : Option Request :=
  (Url.create raw_url).map fun url =>
    if url.isValid then
      { method
        url
        path := url.raw_path
        uri := if url.raw_query.isEmpty then url.raw_path
          else url.raw_path ++ text "?" ++ url.raw_query
        host := url.host }
    else { method, url }

/-- Whether the URL is valid or not, the request has the method, the URL and no
header. -/
theorem Request.create_fields {raw_url : Bytes} {url : Url} (method : Bytes)
    (made : Url.create raw_url = some url) :
    ∃ req, Request.create method raw_url = some req ∧ req.method = method ∧ req.url = url ∧
      req.headers = [] := by
  rw [Request.create, made, Option.map_some]
  split
  · exact ⟨_, rfl, rfl, rfl, rfl⟩
  · exact ⟨_, rfl, rfl, rfl, rfl⟩

end Cppboot.Http
