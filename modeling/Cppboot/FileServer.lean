import Cppboot.ServeMux
import Cppboot.UrlDecode

/-!
# Serving files

`FileServer` answers a request for a subpath from a table of files in memory or
from the disk below its root. Three views of the path meet here. The check for
`..` and the extension are made on a string that may have NULs in it; the file is
opened through a C string, which ends at the first of them. So the server never
leaves its root, but the type it announces is that of the longer name.

A file in memory replaces the content of the reply, and a file on disk is added to
it in blocks of 512 bytes.
-/

namespace Cppboot.Http

open Std Incremental

/-- A reply to be sent to a client. -/
structure Response where
  status : StatusType
  headers : List Header
  content : Bytes
deriving DecidableEq, Repr

namespace Response

/-- The page of a stock reply. -/
def page (title heading : String) : Bytes :=
  text "<html><head><title>" ++ text title ++ text "</title></head><body><h1>" ++
    text heading ++ text "</h1></body></html>"

/-- The contents of the stock replies. -/
def stockText : StatusType → Bytes
  | .ok => []
  | .created => page "Created" "201 Created"
  | .accepted => page "Accepted" "202 Accepted"
  | .no_content => page "No Content" "204 Content"
  | .multiple_choices => page "Multiple Choices" "300 Multiple Choices"
  | .moved_permanently => page "Moved Permanently" "301 Moved Permanently"
  | .moved_temporarily => page "Moved Temporarily" "302 Moved Temporarily"
  | .not_modified => page "Not Modified" "304 Not Modified"
  | .bad_request => page "Bad Request" "400 Bad Request"
  | .unauthorized => page "Unauthorized" "401 Unauthorized"
  | .forbidden => page "Forbidden" "403 Forbidden"
  | .not_found => page "Not Found" "404 Not Found"
  | .internal_server_error => page "Internal Server Error" "500 Internal Server Error"
  | .not_implemented => page "Not Implemented" "501 Not Implemented"
  | .bad_gateway => page "Bad Gateway" "502 Bad Gateway"
  | .service_unavailable => page "Service Unavailable" "503 Service Unavailable"

/-- The first header of that name gets the value, or a new one is added. -/
def setHeader (rep : Response) (name value : Bytes) : Response :=
  { rep with headers := setHeaderIn name value rep.headers }

/-- The value of the first header of this name. -/
def header (rep : Response) (name : Bytes) : Bytes :=
  ((rep.headers.find? fun i => i.name = name).map Header.value).getD []

/-- The reply with a stock text for its status. -/
def stockReply (status : StatusType) : Response :=
  let rep : Response := ⟨status, [], stockText status⟩
  (rep.setHeader (text "Content-Length") (Decimal.numeral rep.content.length)).setHeader
    (text "Content-Type") (text "text/html")

end Response

/-- The types of the extensions that have one. -/
def mappings : List (Bytes × Bytes) :=
  [(text "gif", text "image/gif"), (text "htm", text "text/html"),
    (text "html", text "text/html"), (text "jpg", text "image/jpeg"),
    (text "png", text "image/png")]

def extensionToType (extension : Bytes) : Bytes :=
  match mappings.find? fun m => m.1 = extension with
  | some m => m.2
  | none => text "text/plain"

/-- The position of the last such character. -/
def findLastOf (s : Bytes) (c : UInt8) : Option Nat :=
  (s.reverse.findIdx? (· = c)).map fun behind => s.length - 1 - behind

/-- The extension that is announced. -/
def fileExtension (request_path : Bytes) : Bytes :=
  match findLastOf request_path (byte '.'), findLastOf request_path (byte '/') with
  | some last_dot_pos, some last_slash_pos =>
    if last_dot_pos > last_slash_pos then request_path.drop (last_dot_pos + 1) else []
  | _, _ => []

/-- What is served from memory, and the directory for everything else. -/
structure FileServer where
  root_ : Bytes
  files_ : ExtTreeMap Bytes Bytes

/-- What can be read from the file that a C string names, if it can be opened. A
directory can be, and nothing is read from it. -/
abbrev Disk := Bytes → Option Bytes

/-- Read blocks of 512 bytes up to the first that is empty, and add them to the
content. -/
def readBlocks (content is : Bytes) : Bytes :=
  let buf := is.take 512
  if _more : buf.length > 0 then readBlocks (content ++ buf) (is.drop 512) else content
termination_by is.length
decreasing_by
  rw [List.length_take] at _more
  rw [List.length_drop]
  omega

/-- The blocks that are read are the whole file. -/
theorem readBlocks_eq (content is : Bytes) : readBlocks content is = content ++ is := by
  induction length : is.length using Nat.strongRecOn generalizing content is with
  | _ size inductionHypothesis =>
    rw [readBlocks]
    split
    next more =>
      rw [List.length_take] at more
      have shorter : (is.drop 512).length < size := by
        rw [List.length_drop]
        omega
      rw [inductionHypothesis _ shorter _ _ rfl, List.append_assoc, List.take_append_drop]
    next ended =>
      have nothing : is = [] := by
        rw [List.length_take] at ended
        apply List.eq_nil_of_length_eq_zero
        omega
      rw [nothing, List.append_nil]

namespace FileServer

/-- The path is refused: it is not absolute, or it contains `..`. -/
def Refused (request_path : Bytes) : Prop :=
  request_path = [] ∨ request_path.head? ≠ some (byte '/') ∨ text ".." <:+: request_path

instance (request_path : Bytes) : Decidable (Refused request_path) :=
  inferInstanceAs (Decidable (_ ∨ _ ∨ _))

/-- The file that a path stands for: in a directory it is `index.html`. -/
def resolved (request_path : Bytes) : Bytes :=
  if request_path.getLast? = some (byte '/') then request_path ++ text "index.html"
  else request_path

/-- The reply for a file. The list of headers is cut or filled up to two, and both
are assigned. -/
def fillOut (rep : Response) (extension : Bytes) : Response :=
  let resized := rep.headers.take 2 ++ List.replicate (2 - rep.headers.length) ⟨[], []⟩
  { rep with
    status := .ok
    headers := (resized.set 0
        ⟨text "Content-Length", Decimal.numeral rep.content.length⟩).set 1
      ⟨text "Content-Type", extensionToType extension⟩ }

/-- The reply, and the C string that is opened, if one is. -/
def serveHttp (server : FileServer) (disk : Disk) (req : Request) (rep : Response) :
    Response × Option Bytes :=
  if Refused req.subpath then (.stockReply .bad_request, none)
  else
    let request_path := resolved req.subpath
    let extension := fileExtension request_path
    match server.files_[request_path]? with
    | some content => (fillOut { rep with content := content } extension, none)
    | none =>
      let full_path := cstr (server.root_ ++ request_path)
      match disk full_path with
      | none => (.stockReply .not_found, some full_path)
      | some is =>
        (fillOut { rep with content := readBlocks rep.content is } extension, some full_path)

/-- Serve a content under a path from memory. -/
def addFile (server : FileServer) (path content : Bytes) : FileServer :=
  { server with files_ := server.files_.insert path content }

/-- The reply for a file has two headers, whatever it had before. -/
theorem fillOut_eq (rep : Response) (extension : Bytes) :
    fillOut rep extension =
      ⟨.ok, [⟨text "Content-Length", Decimal.numeral rep.content.length⟩,
        ⟨text "Content-Type", extensionToType extension⟩], rep.content⟩ := by
  obtain ⟨status, headers, content⟩ := rep
  unfold fillOut
  match headers with
  | [] => rfl
  | [_] => rfl
  | _ :: _ :: _ => simp

/-- The reply with a file in memory. -/
theorem serveHttp_memory {server : FileServer} {req : Request} {content : Bytes}
    (accepted : ¬ Refused req.subpath)
    (found : server.files_[resolved req.subpath]? = some content) (disk : Disk)
    (rep : Response) :
    server.serveHttp disk req rep =
      (fillOut { rep with content := content } (fileExtension (resolved req.subpath)),
        none) := by
  unfold serveHttp
  rw [if_neg accepted]
  dsimp only
  rw [found]

/-- Without a file in memory the disk decides. -/
theorem serveHttp_open {server : FileServer} {req : Request} (accepted : ¬ Refused req.subpath)
    (absent : server.files_[resolved req.subpath]? = none) (disk : Disk) (rep : Response) :
    server.serveHttp disk req rep =
      match disk (cstr (server.root_ ++ resolved req.subpath)) with
      | none => (.stockReply .not_found, some (cstr (server.root_ ++ resolved req.subpath)))
      | some is =>
        (fillOut { rep with content := rep.content ++ is }
            (fileExtension (resolved req.subpath)),
          some (cstr (server.root_ ++ resolved req.subpath))) := by
  unfold serveHttp
  rw [if_neg accepted]
  dsimp only
  rw [absent]
  simp only [readBlocks_eq]

/-- The reply with a file on disk. -/
theorem serveHttp_disk {server : FileServer} {disk : Disk} {req : Request} {is : Bytes}
    (accepted : ¬ Refused req.subpath)
    (absent : server.files_[resolved req.subpath]? = none)
    (stored : disk (cstr (server.root_ ++ resolved req.subpath)) = some is) (rep : Response) :
    server.serveHttp disk req rep =
      (fillOut { rep with content := rep.content ++ is }
          (fileExtension (resolved req.subpath)),
        some (cstr (server.root_ ++ resolved req.subpath))) := by
  rw [serveHttp_open accepted absent, stored]

/-- The reply without a file. -/
theorem serveHttp_missing {server : FileServer} {disk : Disk} {req : Request}
    (accepted : ¬ Refused req.subpath)
    (absent : server.files_[resolved req.subpath]? = none)
    (unstored : disk (cstr (server.root_ ++ resolved req.subpath)) = none) (rep : Response) :
    server.serveHttp disk req rep =
      (.stockReply .not_found, some (cstr (server.root_ ++ resolved req.subpath))) := by
  rw [serveHttp_open accepted absent, unstored]

/-- What is opened when a file on disk is asked for. -/
theorem serveHttp_opened {server : FileServer} {disk : Disk} {req : Request} {rep : Response}
    {opened : Bytes} (opens : (server.serveHttp disk req rep).2 = some opened) :
    ¬ Refused req.subpath ∧ server.files_[resolved req.subpath]? = none ∧
      opened = cstr (server.root_ ++ resolved req.subpath) := by
  by_cases refused : Refused req.subpath
  · rw [serveHttp, if_pos refused] at opens
    cases opens
  · cases found : server.files_[resolved req.subpath]? with
    | some content =>
      rw [serveHttp_memory refused found] at opens
      cases opens
    | none =>
      refine ⟨refused, rfl, ?_⟩
      cases stored : disk (cstr (server.root_ ++ resolved req.subpath)) with
      | none =>
        rw [serveHttp_missing refused found stored] at opens
        exact (Option.some.inj opens).symm
      | some is =>
        rw [serveHttp_disk refused found stored] at opens
        exact (Option.some.inj opens).symm

/-- A path that is not refused starts with a slash and has no two dots in a row,
and so does the file it stands for. -/
theorem resolved_absolute {request_path : Bytes} (accepted : ¬ Refused request_path) :
    (∃ rest, resolved request_path = byte '/' :: rest) ∧
      ¬ text ".." <:+: resolved request_path := by
  obtain ⟨nonempty, absolute, undotted⟩ : request_path ≠ [] ∧
      request_path.head? = some (byte '/') ∧ ¬ text ".." <:+: request_path := by
    simpa [Refused] using accepted
  obtain ⟨rest, start⟩ := List.head?_eq_some_iff.mp absolute
  unfold resolved
  split
  next directory =>
    refine ⟨⟨rest ++ text "index.html", by rw [start]; rfl⟩, ?_⟩
    rw [List.infix_append_iff_ne_nil]
    rintro (before | name | ⟨_, behind, _, nonempty, split, _, starts⟩)
    · exact undotted before
    · exact absurd name (by decide +kernel)
    · -- The name starts with no dot.
      obtain ⟨c, more, rfl⟩ := List.exists_cons_of_ne_nil nonempty
      obtain ⟨_, same⟩ := starts
      have dot : c ∈ text ".." := by simp [split]
      cases (List.cons.inj same).1
      exact absurd dot (by decide +kernel)
  next => exact ⟨⟨rest, start⟩, undotted⟩

end FileServer

/-- Follow segments from a directory, given by the names that lead to it, the last
first. There is nothing above the root. -/
def follow (directory : List Bytes) : List Bytes → Option (List Bytes)
  | [] => some directory
  | segment :: rest =>
    if segment = [] ∨ segment = text "." then follow directory rest
    else if segment = text ".." then
      match directory with
      | [] => none
      | _ :: parent => follow parent rest
    else follow (segment :: directory) rest

/-- Without `..` nothing leads above the root. -/
theorem follow_below {segments : List Bytes} (forward : ∀ segment ∈ segments, segment ≠ text "..")
    (directory : List Bytes) : ∃ reached, follow directory segments = some reached := by
  induction segments generalizing directory with
  | nil => exact ⟨directory, rfl⟩
  | cons segment rest inductionHypothesis =>
    obtain ⟨first, others⟩ := List.forall_mem_cons.mp forward
    unfold follow
    rw [if_neg first]
    split
    · exact inductionHypothesis others directory
    · exact inductionHypothesis others (segment :: directory)

/-- The path leads from the root to a place below it. -/
structure Below (path : Bytes) : Prop where
  absolute : ∃ rest, path = byte '/' :: rest
  forward : ∀ segment ∈ strSplit path (byte '/'), segment ≠ text ".."
  reached : ∃ place, follow [] (strSplit path (byte '/')) = some place

namespace FileServer

/-- The part of an accepted path that a C function sees. -/
theorem resolved_below {request_path : Bytes} (accepted : ¬ Refused request_path) :
    Below (cstr (resolved request_path)) := by
  obtain ⟨⟨rest, start⟩, undotted⟩ := resolved_absolute accepted
  have forward : ∀ segment ∈ strSplit (cstr (resolved request_path)) (byte '/'),
      segment ≠ text ".." := by
    rintro segment member rfl
    exact undotted ((strSplit_parts _ _ _ member).trans (cstr_front _).isInfix)
  refine ⟨⟨cstr rest, ?_⟩, forward, follow_below forward []⟩
  rw [start]
  rfl

/-- The server never leaves its root.

Whatever is opened is the root and behind it a path that leads nowhere above it. A
root with a NUL in it is opened up to there, with nothing behind it. What is
refused opens nothing, and the answer is a 400. -/
theorem serveHttp_stays_below (server : FileServer) (disk : Disk) (req : Request)
    (rep : Response) :
    (∀ opened, (server.serveHttp disk req rep).2 = some opened →
      (0 ∉ server.root_ → ∃ path, opened = server.root_ ++ path ∧ Below path) ∧
      (0 ∈ server.root_ → opened = cstr server.root_)) ∧
    (Refused req.subpath →
      server.serveHttp disk req rep = (.stockReply .bad_request, none)) := by
  constructor
  · intro opened opens
    obtain ⟨accepted, _, rfl⟩ := serveHttp_opened opens
    rw [cstr_append]
    constructor
    · intro plain
      rw [if_neg plain]
      exact ⟨_, rfl, resolved_below accepted⟩
    · intro cut
      rw [if_pos cut]
  · intro refused
    exact if_pos refused

/-- A root without a NUL. -/
theorem plain_root_opened :
    ∃ path, text "r/d/index.html" = text "r" ++ path ∧ Below path := by
  let server : FileServer := ⟨text "r", ∅⟩
  have opens : (server.serveHttp (fun _ => none) { subpath := text "/d/" }
      (.stockReply .ok)).2 = some (text "r/d/index.html") := rfl
  exact ((serveHttp_stays_below server _ _ _).1 _ opens).1 (by decide +kernel)

/-- A root with a NUL: what is opened is not the root with something behind it. -/
theorem cut_root_opened :
    (FileServer.serveHttp ⟨text "a" ++ 0 :: text "b", ∅⟩ (fun _ => none)
        { subpath := text "/x" } (.stockReply .ok)).2 = some (text "a") ∧
      ¬ ∃ path, text "a" = (text "a" ++ 0 :: text "b") ++ path := by
  refine ⟨rfl, ?_⟩
  rintro ⟨path, same⟩
  exact absurd (congrArg List.length same) (by simp [text])

/-- A file in memory and the same file on disk give the same reply exactly when the
reply has no content yet: the content is replaced in one case and added to in the
other. -/
theorem memory_serves_like_disk_iff (server : FileServer) (disk : Disk) (req : Request)
    (rep : Response) (contents : Bytes) (accepted : ¬ Refused req.subpath)
    (absent : server.files_[resolved req.subpath]? = none)
    (stored : disk (cstr (server.root_ ++ resolved req.subpath)) = some contents) :
    ((server.addFile (resolved req.subpath) contents).serveHttp disk req rep).1 =
        (server.serveHttp disk req rep).1 ↔
      rep.content = [] := by
  have added : (server.addFile (resolved req.subpath) contents).files_[resolved req.subpath]? =
      some contents := ExtTreeMap.getElem?_insert_self
  rw [serveHttp_memory accepted added, serveHttp_disk accepted absent stored, fillOut_eq,
    fillOut_eq]
  constructor
  · intro same
    exact List.self_eq_append_left.mp (congrArg Response.content same)
  · intro nothing
    rw [nothing]
    rfl

/-- A server without files in memory. -/
def bare : FileServer := ⟨text "r", ∅⟩

/-- A disk where every file has the same contents. -/
def uniform : Disk := fun _ => some (text "b")

/-- A fresh reply. -/
theorem fresh_reply_same :
    ((bare.addFile (text "/x") (text "b")).serveHttp uniform { subpath := text "/x" }
        ⟨.ok, [], []⟩).1 =
      (bare.serveHttp uniform { subpath := text "/x" } ⟨.ok, [], []⟩).1 :=
  (memory_serves_like_disk_iff bare uniform { subpath := text "/x" } ⟨.ok, [], []⟩ (text "b")
    (by decide +kernel) ExtTreeMap.getElem?_empty rfl).mpr rfl

/-- A reply that has content already: the file in memory replaces it, the file on
disk is added to it. -/
theorem begun_reply_differs :
    ((bare.addFile (text "/x") (text "b")).serveHttp uniform { subpath := text "/x" }
        ⟨.ok, [], text "a"⟩).1.content = text "b" ∧
      (bare.serveHttp uniform { subpath := text "/x" } ⟨.ok, [], text "a"⟩).1.content =
        text "ab" := by
  have accepted : ¬ Refused (text "/x") := by decide +kernel
  have added : (bare.addFile (text "/x") (text "b")).files_[resolved (text "/x")]? =
      some (text "b") := ExtTreeMap.getElem?_insert_self
  have absent : bare.files_[resolved (text "/x")]? = none := ExtTreeMap.getElem?_empty
  have stored : uniform (cstr (bare.root_ ++ resolved (text "/x"))) = some (text "b") := rfl
  constructor
  · rw [serveHttp_memory accepted added]
    rfl
  · rw [serveHttp_disk accepted absent stored]
    rfl

end FileServer

/-- The last segment of a path. -/
def lastSegment (path : Bytes) : Bytes := path.rtakeWhile (· ≠ byte '/')

/-- The text behind the last dot of the last segment, if there is one. -/
def nameExtension (path : Bytes) : Bytes :=
  if byte '.' ∈ lastSegment path then (lastSegment path).rtakeWhile (· ≠ byte '.') else []

/-- The name ends in one of the extensions of this type. -/
def EndsAs (type path : Bytes) : Prop := ∃ m ∈ mappings, m.2 = type ∧ byte '.' :: m.1 <:+ path

/-- Two names have extensions of the same type. -/
def SameKind (one other : Bytes) : Prop := ∀ type, EndsAs type one ↔ EndsAs type other

/-- The position of the last stop. -/
theorem findLastOf_stop (front : Bytes) {behind : Bytes} {stop : UInt8}
    (plain : stop ∉ behind) : findLastOf (front ++ stop :: behind) stop = some front.length := by
  have others : ∀ c ∈ behind, decide (c = stop) = false := fun c member =>
    decide_eq_false fun same => plain (same ▸ member)
  rw [findLastOf, findIdx?_reverse_behind front (decide_eq_true rfl) others]
  simp

theorem findLastOf_none {s : Bytes} {stop : UInt8} (plain : stop ∉ s) :
    findLastOf s stop = none := by
  have others : ∀ c ∈ s, decide (c = stop) = false := fun c member =>
    decide_eq_false fun same => plain (same ▸ member)
  rw [findLastOf, findIdx?_reverse_none others]
  rfl

/-- The extension of a path depends on its last segment only. -/
theorem nameExtension_segment (front : Bytes) {name : Bytes} (plain : byte '/' ∉ name) :
    nameExtension (front ++ byte '/' :: name) =
      if byte '.' ∈ name then name.rtakeWhile (· ≠ byte '.') else [] := by
  rw [nameExtension, lastSegment, rtakeWhile_stop front plain]

/-- The extension that is announced is that of the path. -/
theorem fileExtension_segment (front : Bytes) {name : Bytes} (plain : byte '/' ∉ name) :
    fileExtension (front ++ byte '/' :: name) =
      if byte '.' ∈ name then name.rtakeWhile (· ≠ byte '.') else [] := by
  have slash := findLastOf_stop front plain
  unfold fileExtension
  rw [slash]
  by_cases dotted : byte '.' ∈ name
  · obtain ⟨base, extension, rfl, undotted⟩ := last_stop dotted
    have whole : front ++ byte '/' :: (base ++ byte '.' :: extension) =
        (front ++ byte '/' :: base) ++ byte '.' :: extension := by simp
    have dot := findLastOf_stop (front ++ byte '/' :: base) undotted
    have later : (front ++ byte '/' :: base).length > front.length := by
      simp only [List.length_append, List.length_cons]
      omega
    rw [if_pos dotted, rtakeWhile_stop base undotted, whole, dot]
    dsimp only
    rw [if_pos later, List.append_cons (front ++ byte '/' :: base)]
    exact List.drop_left' List.length_append
  · rw [if_neg dotted]
    by_cases earlier : byte '.' ∈ front
    · -- The last dot is in front of the last slash.
      obtain ⟨start, between, rfl, undotted⟩ := last_stop earlier
      have unstopped : byte '.' ∉ between ++ byte '/' :: name := by
        simp only [List.mem_append, List.mem_cons, not_or]
        exact ⟨undotted, by decide, dotted⟩
      rw [List.append_assoc, List.cons_append, findLastOf_stop start unstopped]
      dsimp only
      rw [if_neg]
      simp only [List.length_append]
      omega
    · have absent : byte '.' ∉ front ++ byte '/' :: name := by
        simp only [List.mem_append, List.mem_cons, not_or]
        exact ⟨earlier, by decide, dotted⟩
      rw [findLastOf_none absent]

/-- The extension that is announced for an absolute path is also that of the path
behind any root. -/
theorem fileExtension_below (root : Bytes) {path : Bytes}
    (absolute : ∃ rest, path = byte '/' :: rest) :
    fileExtension path = nameExtension (root ++ path) := by
  obtain ⟨rest, start⟩ := absolute
  have slash : byte '/' ∈ path := by simp [start]
  obtain ⟨front, name, rfl, plain⟩ := last_stop slash
  rw [fileExtension_segment front plain, ← List.append_assoc, nameExtension_segment _ plain]

/-- Every extension of the table is found there. None is empty or has a dot or a slash in it,
and none has the type of all others. -/
theorem mappings_distinct : ∀ m ∈ mappings,
    extensionToType m.1 = m.2 ∧ (m.1 ≠ [] ∧ byte '.' ∉ m.1 ∧ byte '/' ∉ m.1) ∧
      m.2 ≠ text "text/plain" := by
  decide +kernel

/-- Only the extensions of the table have a type of their own. -/
theorem extensionToType_iff {type : Bytes} (special : type ≠ text "text/plain")
    (extension : Bytes) :
    extensionToType extension = type ↔ ∃ m ∈ mappings, m.2 = type ∧ extension = m.1 := by
  constructor
  · intro typed
    unfold extensionToType at typed
    split at typed
    next m found =>
      have same : m.1 = extension := by simpa using List.find?_some found
      exact ⟨m, List.mem_of_find?_eq_some found, typed, same.symm⟩
    next => exact absurd typed.symm special
  · rintro ⟨m, member, rfl, rfl⟩
    exact (mappings_distinct m member).1

/-- An extension without dots and slashes is what a path ends in. -/
theorem nameExtension_iff {extension : Bytes} (nonempty : extension ≠ [])
    (undotted : byte '.' ∉ extension) (plain : byte '/' ∉ extension) (path : Bytes) :
    nameExtension path = extension ↔ byte '.' :: extension <:+ path := by
  constructor
  · intro same
    unfold nameExtension at same
    split at same
    next dotted =>
      obtain ⟨base, behind, name, unstopped⟩ := last_stop dotted
      rw [name, rtakeWhile_stop base unstopped] at same
      have ends : byte '.' :: extension <:+ lastSegment path := ⟨base, by rw [name, same]⟩
      exact ends.trans (List.rtakeWhile_suffix _ path)
    next => exact absurd same.symm nonempty
  · rintro ⟨front, rfl⟩
    have segment (base : Bytes) : (if byte '.' ∈ base ++ byte '.' :: extension then
        (base ++ byte '.' :: extension).rtakeWhile (· ≠ byte '.') else []) = extension := by
      rw [if_pos (by simp), rtakeWhile_stop base undotted]
    have slashless {base : Bytes} (unslashed : byte '/' ∉ base) :
        byte '/' ∉ base ++ byte '.' :: extension := by
      simp only [List.mem_append, List.mem_cons, not_or]
      exact ⟨unslashed, by decide, plain⟩
    by_cases slash : byte '/' ∈ front
    · obtain ⟨directory, base, rfl, unslashed⟩ := last_stop slash
      rw [List.append_assoc, List.cons_append,
        nameExtension_segment directory (slashless unslashed), segment]
    · have whole : lastSegment (front ++ byte '.' :: extension) =
          front ++ byte '.' :: extension := by
        rw [lastSegment, List.rtakeWhile_eq_self_iff]
        exact kept_of_not_mem (slashless slash)
      rw [nameExtension, whole, segment]

/-- A path is given the type that its name ends as. -/
theorem nameType_iff {type : Bytes} (special : type ≠ text "text/plain") (path : Bytes) :
    extensionToType (nameExtension path) = type ↔ EndsAs type path := by
  rw [extensionToType_iff special]
  apply exists_congr
  intro m
  apply and_congr_right
  intro member
  obtain ⟨nonempty, undotted, plain⟩ := (mappings_distinct m member).2.1
  rw [nameExtension_iff nonempty undotted plain]

/-- Two paths are given the same type exactly when they have extensions of the same
kind. -/
theorem sameKind_iff (one other : Bytes) :
    extensionToType (nameExtension one) = extensionToType (nameExtension other) ↔
      SameKind one other := by
  have untyped (path : Bytes) : ¬ EndsAs (text "text/plain") path := by
    rintro ⟨m, member, plain, _⟩
    exact (mappings_distinct m member).2.2 plain
  constructor
  · intro same type
    by_cases plain : type = text "text/plain"
    · rw [plain]
      exact iff_of_false (untyped one) (untyped other)
    · rw [← nameType_iff plain, ← nameType_iff plain, same]
  · intro kind
    by_cases plain : extensionToType (nameExtension one) = text "text/plain"
    · by_contra differ
      rw [plain] at differ
      have ends := (nameType_iff (Ne.symm differ) other).mp rfl
      exact differ (plain.symm.trans ((nameType_iff (Ne.symm differ) one).mpr ((kind _).mpr ends)))
    · have ends := (nameType_iff plain one).mp rfl
      exact ((nameType_iff plain other).mpr ((kind _).mp ends)).symm

namespace FileServer

/-- The type that is announced with a file from the disk is that of the file that was
opened exactly when the name up to its first NUL and the whole name have extensions
of the same type. -/
theorem served_type_iff {server : FileServer} {disk : Disk} {req : Request} {rep : Response}
    {opened : Bytes} (opens : (server.serveHttp disk req rep).2 = some opened)
    (served : (server.serveHttp disk req rep).1.status = .ok) :
    (server.serveHttp disk req rep).1.header (text "Content-Type") =
        extensionToType (nameExtension opened) ↔
      SameKind (cstr (server.root_ ++ resolved req.subpath))
        (server.root_ ++ resolved req.subpath) := by
  obtain ⟨accepted, absent, rfl⟩ := serveHttp_opened opens
  have announced : (server.serveHttp disk req rep).1.header (text "Content-Type") =
      extensionToType (nameExtension (server.root_ ++ resolved req.subpath)) := by
    rw [← fileExtension_below server.root_ (resolved_absolute accepted).1]
    cases stored : disk (cstr (server.root_ ++ resolved req.subpath)) with
    | none =>
      rw [serveHttp_missing accepted absent stored] at served
      cases served
    | some is =>
      rw [serveHttp_disk accepted absent stored, fillOut_eq]
      rfl
  rw [announced, ← sameKind_iff]
  exact eq_comm

/-- A disk with one file. -/
def textDisk : Disk := fun path => if path = text "r/a.txt" then some (text "b") else none

/-- The type of a file is announced with it. -/
theorem text_file_typed :
    (bare.serveHttp textDisk { subpath := text "/a.txt" } ⟨.ok, [], []⟩).1.header
        (text "Content-Type") = extensionToType (nameExtension (text "r/a.txt")) := by
  have accepted : ¬ Refused (text "/a.txt") := by decide +kernel
  have absent : bare.files_[resolved (text "/a.txt")]? = none := ExtTreeMap.getElem?_empty
  have stored : textDisk (cstr (bare.root_ ++ resolved (text "/a.txt"))) = some (text "b") := by
    decide +kernel
  have reply : bare.serveHttp textDisk { subpath := text "/a.txt" } ⟨.ok, [], []⟩ = _ :=
    serveHttp_disk accepted absent stored _
  refine (served_type_iff (by rw [reply]; rfl) (by rw [reply, fillOut_eq])).mpr ?_
  intro type
  rfl

/-- A text file with a NUL behind its name and another extension. -/
def nulPath : Bytes := text "/a.txt" ++ 0 :: text ".html"

/-- A mux hands the whole path to a handler of everything. -/
theorem nulPath_handed {req : Request} (path : req.path = nulPath) :
    ∃ handed, (ServeMux.ofCalls [(text "/", ())]).serveHttp req = .called () handed ∧
      handed.subpath = nulPath := by
  have selects : (ServeMux.ofCalls [(text "/", ())]).selected nulPath = some ⟨text "/", ()⟩ := rfl
  rw [← path] at selects
  obtain ⟨same, _⟩ | ⟨_, _, served⟩ := (ServeMux.ofCalls_holds _).selects selects
  · rw [path] at same
    exact absurd same (by decide +kernel)
  · exact ⟨_, served, path⟩

/-- The text file is opened, and announced as HTML. -/
theorem nulPath_served {req : Request} (subpath : req.subpath = nulPath) :
    bare.serveHttp textDisk req ⟨.ok, [], []⟩ =
      (fillOut ⟨.ok, [], text "b"⟩ (text "html"), some (text "r/a.txt")) := by
  have accepted : ¬ Refused req.subpath := by
    rw [subpath]
    decide +kernel
  have absent : bare.files_[resolved req.subpath]? = none := ExtTreeMap.getElem?_empty
  have opened : cstr (bare.root_ ++ resolved req.subpath) = text "r/a.txt" := by
    rw [subpath]
    decide +kernel
  have extension : fileExtension (resolved req.subpath) = text "html" := by
    rw [subpath]
    decide +kernel
  rw [serveHttp_disk accepted absent (by rw [opened]; rfl), opened, extension]
  rfl

/-- A request for it. -/
def nulHead : RequestHead := getHead (text "/a.txt%00.html") (by decide +kernel)

/-- The request reaches the server through the parser and a mux, and the text file is
announced as HTML. -/
theorem nul_request_mistyped :
    nulHead.bytes = text "GET /a.txt%00.html HTTP/1.0\r\n\r\n" ∧
    ∃ parsed handed, Reading.fresh.parse nulHead.bytes = some parsed ∧
      parsed.result = .good ∧
      (ServeMux.ofCalls [(text "/", ())]).serveHttp parsed.reading.req = .called () handed ∧
      (bare.serveHttp textDisk handed ⟨.ok, [], []⟩).2 = some (text "r/a.txt") ∧
      (bare.serveHttp textDisk handed ⟨.ok, [], []⟩).1.status = .ok ∧
      (bare.serveHttp textDisk handed ⟨.ok, [], []⟩).1.header (text "Content-Type") =
        text "text/html" ∧
      extensionToType (nameExtension (text "r/a.txt")) = text "text/plain" := by
  have path : (Reading.accept ⟨.expecting_newline_3, nulHead.request⟩ []).req.path = nulPath := by
    decide +kernel
  obtain ⟨handed, called, subpath⟩ := nulPath_handed path
  refine ⟨by decide +kernel, _, handed, parse_head nulHead, rfl, called, ?_⟩
  rw [nulPath_served subpath]
  refine ⟨rfl, rfl, ?_, ?_⟩
  · decide +kernel
  · decide +kernel

end FileServer

end Cppboot.Http
