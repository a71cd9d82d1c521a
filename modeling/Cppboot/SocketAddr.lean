import Cppboot.LongText
import Cppboot.Positions
import Cppboot.StrUtil

/-!
# Socket addresses

An address is the bytes of a socket address structure, or none when its text is not
accepted. The structures are those of the platform the source is written for, with the
length in the first byte and the family in the second.

A port is read by `atoi`, which takes the number at the front of a text for the whole,
with a sign and behind blanks, and is then cut to 16 bits. Only what is zero after that
is refused.

The length of a Unix address is computed in 8 bits, and so much memory is allocated. The
path is copied in full.
-/

namespace Cppboot.Net2

open Positions

/-- The number at the front of a text, as `atoi` reads it when it fits. -/
def leadingNumber (s : Bytes) : Int :=
  let signed := takeSign ((cstr s).dropWhile isSpace)
  let digits := signed.2.takeWhile Decimal.isDigit
  if signed.1 then -(Decimal.value digits : Int) else Decimal.value digits

/-- What is used of the C library: `atoi`, which is undefined for numbers that do not fit an
`int`, and `inet_pton` for the two families. -/
structure Libc where
  atoi : Bytes → Int
  atoi_fits : ∀ s, -2147483648 ≤ leadingNumber s → leadingNumber s ≤ 2147483647 →
    atoi s = leadingNumber s
  inet_pton4 : Bytes → Option { address : Bytes // address.length = 4 }
  inet_pton6 : Bytes → Option { address : Bytes // address.length = 16 }

/-- The conversion of an `int` to `unsigned short`. -/
def toUnsignedShort (n : Int) : Nat := (n % 65536).toNat

/-- The two bytes of `htons(port)` in memory. -/
def htons (port : Nat) : Bytes := [UInt8.ofNat (port / 256), UInt8.ofNat port]

/-- The families of addresses, as on the systems whose addresses have a length. -/
def AF_UNIX : UInt8 := 1

def AF_INET : UInt8 := 2

def AF_INET6 : UInt8 := 30

/-- An address: the network, its text, and the bytes of the socket address. -/
structure Addr where
  net_ : Bytes
  addr_ : Bytes
  data_ : Bytes
deriving DecidableEq, Repr

namespace Addr

def len (a : Addr) : Nat := a.data_.length

def isValid (a : Addr) : Bool := a.len ≠ 0

section

variable (libc : Libc)

/-- A `sockaddr_in`: length, family, port, address, padding. -/
def parseIpv4Addr (addr : Bytes) (port : Nat) : Bytes :=
  let header := [16, AF_INET] ++ htons port
  if addr.isEmpty then header ++ List.replicate 12 0
  else
    match libc.inet_pton4 (cstr addr) with
    | none => []
    | some sin_addr => header ++ sin_addr.1 ++ List.replicate 8 0

/-- A `sockaddr_in6`: length, family, port, flow, address, scope. -/
def parseIpv6Addr (addr : Bytes) (port : Nat) : Bytes :=
  let header := [28, AF_INET6] ++ htons port
  if addr.isEmpty then header ++ List.replicate 24 0
  else
    match libc.inet_pton6 (cstr addr) with
    | none => []
    | some sin6_addr => header ++ List.replicate 4 0 ++ sin6_addr.1 ++ List.replicate 4 0

/-- `ParseIpAddr`: a host and a port, cut at the colon, or at a bracket and a colon. -/
def parseIpAddr (addr_port : Bytes) : Bytes :=
  if addr_port.head? = some (byte '[') then
    match findText addr_port (text "]:") 0 with
    | none => []
    | some colon =>
      let port := toUnsignedShort (libc.atoi (cstr (addr_port.drop (colon + 2))))
      if port = 0 then [] else parseIpv6Addr libc ((addr_port.drop 1).take (colon - 1)) port
  else
    match findText addr_port (text ":") 0 with
    | none => []
    | some colon =>
      let port := toUnsignedShort (libc.atoi (cstr (addr_port.drop (colon + 1))))
      if port = 0 then [] else parseIpv4Addr libc (addr_port.take colon) port

end

/-- Write bytes into memory. There is no result where they do not fit into it. -/
def writeAt (memory : Bytes) (pos : Nat) (bytes : Bytes) : Option Bytes :=
  if pos + bytes.length ≤ memory.length then
    some (memory.take pos ++ bytes ++ memory.drop (pos + bytes.length))
  else none

/-- Where `sun_path` begins in a `sockaddr_un`, behind the length and the family. -/
def sunPathOffset : Nat := 2

/-- A `sockaddr_un`, with the writes in their order. -/
def parseUnixAddr (addr : Bytes) : Option Bytes :=
  if addr.isEmpty then some []
  else
    let sun_len := UInt8.ofNat (sunPathOffset + addr.length + 1)
    (writeAt (List.replicate sun_len.toNat 0) 0 [sun_len]).bind fun data_ =>
      (writeAt data_ 1 [AF_UNIX]).bind fun data_ => writeAt data_ sunPathOffset addr

/-- The constructor. There is no result where it writes outside of `data_`. -/
def create (libc : Libc) (network addr : Bytes) : Option Addr :=
  if network = text "tcp" ∨ network = text "udp" then
    some ⟨network, addr, parseIpAddr libc addr⟩
  else if network = text "unix" then (parseUnixAddr addr).map fun data_ => ⟨network, addr, data_⟩
  else some ⟨[], [], []⟩

/-- Where the text of an address is cut, and whether it begins with a bracket. -/
structure Cut where
  bracketed : Bool
  host : Bytes
  port : Bytes

/-- Cut the text of an address. -/
def cut (address : Bytes) : Option Cut :=
  if address.head? = some (byte '[') then
    (findText address (text "]:") 0).map fun colon =>
      ⟨true, (address.drop 1).take (colon - 1), address.drop (colon + 2)⟩
  else
    (findText address (text ":") 0).map fun colon =>
      ⟨false, address.take colon, address.drop (colon + 1)⟩

/-- No host is given, or one that `inet_pton` accepts. -/
def Cut.accepted (libc : Libc) (c : Cut) : Bool :=
  c.host.isEmpty ||
    if c.bracketed then (libc.inet_pton6 (cstr c.host)).isSome
    else (libc.inet_pton4 (cstr c.host)).isSome

/-- The number that is read for the port. -/
def Cut.number (libc : Libc) (c : Cut) : Nat := toUnsignedShort (libc.atoi (cstr c.port))

/-- The port in a socket address, as `ntohs` gives it. -/
def storedPort (data_ : Bytes) : Nat := (data_[2]?.getD 0).toNat * 256 + (data_[3]?.getD 0).toNat

/-- An `unsigned short` has 16 bits. -/
theorem toUnsignedShort_lt (n : Int) : toUnsignedShort n < 65536 := by
  unfold toUnsignedShort
  omega

/-- A port is stored in network order. -/
theorem storedPort_htons (first second : UInt8) {port : Nat} (bounded : port < 65536)
    (rest : Bytes) : storedPort ([first, second] ++ htons port ++ rest) = port := by
  have high : (UInt8.ofNat (port / 256)).toNat = port / 256 := by
    rw [UInt8.toNat_ofNat']
    omega
  have low : (UInt8.ofNat port).toNat = port % 256 := UInt8.toNat_ofNat'
  have stored : storedPort ([first, second] ++ htons port ++ rest) =
      (UInt8.ofNat (port / 256)).toNat * 256 + (UInt8.ofNat port).toNat := rfl
  rw [stored, high, low]
  omega

/-- What becomes of an address that is cut. -/
theorem parseIpAddr_cut (libc : Libc) {address : Bytes} {c : Cut} (found : cut address = some c) :
    parseIpAddr libc address =
      if c.number libc = 0 then []
      else if c.bracketed then parseIpv6Addr libc c.host (c.number libc)
      else parseIpv4Addr libc c.host (c.number libc) := by
  unfold cut at found
  unfold parseIpAddr
  split at found
  next bracket =>
    obtain ⟨colon, position, rfl⟩ := Option.map_eq_some_iff.mp found
    rw [if_pos bracket, position]
    rfl
  next plain =>
    obtain ⟨colon, position, rfl⟩ := Option.map_eq_some_iff.mp found
    rw [if_neg plain, position]
    rfl

/-- A text that cannot be cut gives no address. -/
theorem parseIpAddr_uncut (libc : Libc) {address : Bytes} (uncut : cut address = none) :
    parseIpAddr libc address = [] := by
  unfold cut at uncut
  unfold parseIpAddr
  split at uncut
  next bracket => rw [if_pos bracket, Option.map_eq_none_iff.mp uncut]
  next plain => rw [if_neg plain, Option.map_eq_none_iff.mp uncut]

/-- A structure with a port in it, or none. -/
def Built (accepted : Bool) (port : Nat) (data_ : Bytes) : Prop :=
  if accepted then ∃ first second rest, data_ = [first, second] ++ htons port ++ rest
  else data_ = []

/-- An IPv4 address is built when the host is accepted, and has the port. -/
theorem parseIpv4Addr_built (libc : Libc) (addr : Bytes) (port : Nat) :
    Built (addr.isEmpty || (libc.inet_pton4 (cstr addr)).isSome) port
      (parseIpv4Addr libc addr port) := by
  unfold parseIpv4Addr
  by_cases hostless : addr.isEmpty = true
  · rw [hostless, Bool.true_or, if_pos rfl]
    exact ⟨16, AF_INET, _, rfl⟩
  · rw [if_neg hostless, Bool.eq_false_iff.mpr hostless, Bool.false_or]
    cases libc.inet_pton4 (cstr addr) with
    | none => rfl
    | some sin_addr => exact ⟨16, AF_INET, _, rfl⟩

theorem parseIpv6Addr_built (libc : Libc) (addr : Bytes) (port : Nat) :
    Built (addr.isEmpty || (libc.inet_pton6 (cstr addr)).isSome) port
      (parseIpv6Addr libc addr port) := by
  unfold parseIpv6Addr
  by_cases hostless : addr.isEmpty = true
  · rw [hostless, Bool.true_or, if_pos rfl]
    exact ⟨28, AF_INET6, _, rfl⟩
  · rw [if_neg hostless, Bool.eq_false_iff.mpr hostless, Bool.false_or]
    cases libc.inet_pton6 (cstr addr) with
    | none => rfl
    | some sin6_addr => exact ⟨28, AF_INET6, _, rfl⟩

/-- A structure is built for a number that is not zero and a host that is accepted. -/
theorem parseIpAddr_built (libc : Libc) {address : Bytes} {c : Cut}
    (found : cut address = some c) :
    Built (c.number libc ≠ 0 ∧ c.accepted libc) (c.number libc) (parseIpAddr libc address) := by
  rw [parseIpAddr_cut libc found]
  by_cases refused : c.number libc = 0
  · rw [if_pos refused]
    simp [Built, refused]
  · have same : decide (c.number libc ≠ 0 ∧ c.accepted libc = true) = c.accepted libc := by
      simp [refused]
    rw [if_neg refused, same, Cut.accepted]
    split
    · exact parseIpv6Addr_built libc c.host _
    · exact parseIpv4Addr_built libc c.host _

/-- The text stands for a number that is a port. -/
def IsPort (d : Bytes) : Prop :=
  d ≠ [] ∧ (∀ c ∈ d, Decimal.isDigit c = true) ∧ 1 ≤ Decimal.value d ∧ Decimal.value d ≤ 65535

/-- The networks whose addresses have a port. -/
inductive IpNetwork where
  | tcp
  | udp

def IpNetwork.name : IpNetwork → Bytes
  | .tcp => text "tcp"
  | .udp => text "udp"

/-- A host and a port, with brackets around the host or without. -/
inductive HostPort where
  | plain (h d : Bytes)
  | bracketed (h d : Bytes)

namespace HostPort

/-- The text of a host and a port. -/
def spelled : HostPort → Bytes
  | .plain h d => h ++ byte ':' :: d
  | .bracketed h d => byte '[' :: h ++ text "]:" ++ d

def port : HostPort → Bytes
  | .plain _ d => d
  | .bracketed _ d => d

/-- The host does not have in it what the text is cut at. -/
def Separated : HostPort → Prop
  | .plain h _ => byte ':' ∉ h ∧ h.head? ≠ some (byte '[')
  | .bracketed h _ => byte ']' ∉ h

end HostPort

/-- An address that is accepted has a port behind its host, and this port in it. -/
def KeepsPort (libc : Libc) (network : IpNetwork) (address : HostPort) : Prop :=
  ∀ a, create libc network.name address.spelled = some a → a.isValid = true →
    IsPort address.port ∧ storedPort a.data_ = Decimal.value address.port

/-- There is nothing to cut the text at, the number read is a multiple of 65536, or the host
is not accepted. -/
def Rejected (libc : Libc) (address : Bytes) : Prop :=
  ∀ c, cut address = some c → c.number libc = 0 ∨ c.accepted libc = false

/-- The text that is cut off for the port is read as the port. -/
def ReadsPort (libc : Libc) (address : HostPort) : Prop :=
  ∃ c, cut address.spelled = some c ∧ c.number libc = Decimal.value address.port

/-- The networks with ports parse their address alike. -/
theorem create_ip (libc : Libc) (network : IpNetwork) (address : Bytes) :
    create libc network.name address =
      some ⟨network.name, address, parseIpAddr libc address⟩ := by
  rw [create, if_pos]
  cases network with
  | tcp => exact .inl rfl
  | udp => exact .inr rfl

/-- An address is valid when the number is not zero and the host is accepted, and then it has
the number for its port. -/
theorem parseIpAddr_valid (libc : Libc) {address : Bytes} {c : Cut}
    (found : cut address = some c) :
    (parseIpAddr libc address ≠ [] ↔ c.number libc ≠ 0 ∧ c.accepted libc = true) ∧
      (parseIpAddr libc address ≠ [] →
        storedPort (parseIpAddr libc address) = c.number libc) := by
  have built := parseIpAddr_built libc found
  unfold Built at built
  by_cases taken : c.number libc ≠ 0 ∧ c.accepted libc = true
  · rw [if_pos (decide_eq_true taken)] at built
    obtain ⟨first, second, rest, data⟩ := built
    rw [data]
    refine ⟨iff_of_true (List.cons_ne_nil _ _) taken, fun _ => ?_⟩
    exact storedPort_htons first second (toUnsignedShort_lt _) rest
  · rw [if_neg (by simpa using taken)] at built
    rw [built]
    exact ⟨iff_of_false (not_not.mpr rfl) taken, fun some_data => absurd rfl some_data⟩

theorem isValid_iff (a : Addr) : a.isValid = true ↔ a.data_ ≠ [] := by
  rw [isValid, len, decide_eq_true_iff, ne_eq, List.length_eq_zero_iff]

/-- A port is kept when the address is rejected, or when it is read as it is meant. -/
theorem keepsPort_iff (libc : Libc) (network : IpNetwork) (address : HostPort) :
    KeepsPort libc network address ↔
      Rejected libc address.spelled ∨ IsPort address.port ∧ ReadsPort libc address := by
  have made := create_ip libc network address.spelled
  constructor
  · intro keeps
    by_cases rejected : Rejected libc address.spelled
    · exact .inl rejected
    · unfold Rejected at rejected
      push Not at rejected
      obtain ⟨c, found, nonzero, unrejected⟩ := rejected
      obtain ⟨valid, stored⟩ := parseIpAddr_valid libc found
      have some_data := valid.mpr ⟨nonzero, eq_true_of_ne_false unrejected⟩
      obtain ⟨is_port, same⟩ := keeps _ made ((isValid_iff _).mpr some_data)
      exact .inr ⟨is_port, c, found, (stored some_data).symm.trans same⟩
  · intro condition a created valid
    rw [made] at created
    cases created
    have some_data := (isValid_iff _).mp valid
    cases found : cut address.spelled with
    | none => exact absurd (parseIpAddr_uncut libc found) some_data
    | some c =>
      obtain ⟨taken, stored⟩ := parseIpAddr_valid libc found
      obtain ⟨nonzero, accepted⟩ := taken.mp some_data
      rcases condition with rejected | ⟨is_port, other, again, same⟩
      · rcases rejected c found with zero | unaccepted
        · exact absurd zero nonzero
        · exact absurd (accepted.symm.trans unaccepted) Bool.noConfusion
      · rw [found] at again
        cases again
        exact ⟨is_port, (stored some_data).trans same⟩

/-- A host without a separator is what is cut off. -/
theorem HostPort.Separated.cut_port {address : HostPort} (separated : address.Separated) :
    ∃ c, cut address.spelled = some c ∧ c.port = address.port := by
  cases address with
  | plain h d =>
    obtain ⟨plain, unbracketed⟩ := separated
    have first : (h ++ byte ':' :: d).head? ≠ some (byte '[') := by
      cases h with
      | nil => exact fun same => absurd (Option.some.inj same) (by decide)
      | cons c h => exact unbracketed
    have position : findText (h ++ byte ':' :: d) (text ":") 0 = some h.length := by
      rw [findText_zero]
      exact indexOf_behind plain [] d
    refine ⟨_, by rw [cut, spelled, if_neg first, position, Option.map_some], ?_⟩
    simp [port]
  | bracketed h d =>
    have plain : byte ']' ∉ byte '[' :: h := by
      rw [List.mem_cons, not_or]
      exact ⟨by decide, separated⟩
    have position : findText (byte '[' :: h ++ text "]:" ++ d) (text "]:") 0 =
        some (byte '[' :: h).length := by
      rw [findText_zero, List.append_assoc]
      exact indexOf_behind plain [byte ':'] d
    have first : (byte '[' :: h ++ text "]:" ++ d).head? = some (byte '[') := rfl
    refine ⟨_, by rw [cut, spelled, if_pos first, position, Option.map_some], ?_⟩
    have behind : (byte '[' :: h).length + 2 = (byte '[' :: h ++ text "]:").length := by
      rw [List.length_append]
      rfl
    dsimp only
    rw [behind, List.drop_left]
    rfl

/-- A text that is a port is read as it stands. -/
theorem IsPort.number {d : Bytes} (is_port : IsPort d) (libc : Libc) {c : Cut}
    (same : c.port = d) : c.number libc = Decimal.value d := by
  obtain ⟨nonempty, all, low, high⟩ := is_port
  have plain : cstr d = d := cstr_plain (cstr_digits all)
  have leading : leadingNumber d = Decimal.value d := by
    unfold leadingNumber
    rw [takeSign_digits nonempty all]
    simp only [Bool.false_eq_true, if_false]
    rw [List.takeWhile_eq_self_iff.mpr all]
  have read : libc.atoi d = Decimal.value d := by
    rw [libc.atoi_fits d (by omega) (by omega), leading]
  rw [Cut.number, same, plain, read, toUnsignedShort]
  omega

/-- A port is not changed when the address is rejected, or when it is a number from 1 to
65535 and is read as that. It is read as that behind a host without a separator. -/
theorem port_kept_iff (libc : Libc) (network : IpNetwork) (address : HostPort) :
    (KeepsPort libc network address ↔
      Rejected libc address.spelled ∨ IsPort address.port ∧ ReadsPort libc address) ∧
    (address.Separated →
      (KeepsPort libc network address ↔
        Rejected libc address.spelled ∨ IsPort address.port)) := by
  refine ⟨keepsPort_iff libc network address, fun separated => ?_⟩
  obtain ⟨c, found, same⟩ := separated.cut_port
  rw [keepsPort_iff]
  apply or_congr_right
  exact and_iff_left_of_imp fun is_port => ⟨c, found, is_port.number libc same⟩

/-- One of the four numbers of a numeric address. -/
def octet (cell : Bytes) : Option UInt8 :=
  if cell ≠ [] ∧ cell.all Decimal.isDigit ∧ (cell.head? ≠ some (byte '0') ∨ cell.length = 1) ∧
    Decimal.value cell ≤ 255 then some (UInt8.ofNat (Decimal.value cell))
  else none

/-- A library that accepts numeric addresses of the first family. -/
def numericLibc : Libc where
  atoi s :=
    if -2147483648 ≤ leadingNumber s ∧ leadingNumber s ≤ 2147483647 then leadingNumber s else -1
  atoi_fits _ low high := if_pos ⟨low, high⟩
  inet_pton4 s :=
    match (strSplit s (byte '.')).map octet with
    | [some a, some b, some c, some d] => some ⟨[a, b, c, d], rfl⟩
    | _ => none
  inet_pton6 _ := none

/-- The address of a server on one port. -/
theorem server_port_kept :
    KeepsPort numericLibc .tcp (.plain (text "1.2.3.4") (text "9999")) ∧
      (create numericLibc (text "tcp") (text "1.2.3.4:9999")).map
        (fun a => (a.isValid, storedPort a.data_)) = some (true, 9999) := by
  have is_port : IsPort (text "9999") :=
    ⟨by decide +kernel, by decide +kernel, by decide +kernel, by decide +kernel⟩
  have separated : (HostPort.plain (text "1.2.3.4") (text "9999")).Separated :=
    ⟨by decide, by decide⟩
  exact ⟨((port_kept_iff numericLibc .tcp _).2 separated).mpr (.inr is_port), by decide⟩

/-- A number above 65535 is cut, what follows a number is not looked at, and -1 is the
highest port. -/
theorem ports_changed :
    ((create numericLibc (text "tcp") (text "1.2.3.4:65537")).map
        fun a => (a.isValid, storedPort a.data_)) = some (true, 1) ∧
      ¬ KeepsPort numericLibc .tcp (.plain (text "1.2.3.4") (text "65537")) ∧
      ((create numericLibc (text "tcp") (text "1.2.3.4:80x")).map
        fun a => (a.isValid, storedPort a.data_)) = some (true, 80) ∧
      ((create numericLibc (text "tcp") (text "1.2.3.4:-1")).map
        fun a => (a.isValid, storedPort a.data_)) = some (true, 65535) := by
  refine ⟨by decide, fun keeps => ?_, by decide, by decide⟩
  have made := create_ip numericLibc .tcp (text "1.2.3.4:65537")
  obtain ⟨⟨_, _, _, bounded⟩, _⟩ := keeps _ made (by decide)
  exact absurd bounded (by decide)

/-- Writing needs room, and keeps the size of the memory. -/
theorem writeAt_length {memory : Bytes} {pos : Nat} {bytes after : Bytes}
    (written : writeAt memory pos bytes = some after) :
    pos + bytes.length ≤ memory.length ∧ after.length = memory.length := by
  unfold writeAt at written
  split at written
  next room =>
    cases written
    refine ⟨room, ?_⟩
    simp only [List.length_append, List.length_take, List.length_drop]
    omega
  next => cases written

/-- A path of up to 252 bytes is stored in full. -/
theorem parseUnixAddr_short {path : Bytes} (nonempty : path ≠ []) (short : path.length ≤ 252) :
    ∃ sun_len, parseUnixAddr path = some ([sun_len, AF_UNIX] ++ path ++ [0]) := by
  have allocated : (UInt8.ofNat (sunPathOffset + path.length + 1)).toNat =
      path.length + 1 + 1 + 1 := by
    rw [UInt8.toNat_ofNat', sunPathOffset]
    omega
  refine ⟨UInt8.ofNat (sunPathOffset + path.length + 1), ?_⟩
  unfold parseUnixAddr
  rw [if_neg (by simpa using nonempty)]
  dsimp only
  rw [allocated]
  generalize UInt8.ofNat (sunPathOffset + path.length + 1) = sun_len
  have length : writeAt (List.replicate (path.length + 1 + 1 + 1) 0) 0 [sun_len] =
      some (sun_len :: List.replicate (path.length + 1 + 1) 0) := by
    rw [writeAt, if_pos (by simp), List.replicate_succ]
    rfl
  have family : writeAt (sun_len :: List.replicate (path.length + 1 + 1) 0) 1 [AF_UNIX] =
      some (sun_len :: AF_UNIX :: List.replicate (path.length + 1) 0) := by
    rw [writeAt, if_pos (by simp), List.replicate_succ]
    rfl
  have copied : writeAt (sun_len :: AF_UNIX :: List.replicate (path.length + 1) 0)
      sunPathOffset path = some ([sun_len, AF_UNIX] ++ path ++ [0]) := by
    rw [writeAt, if_pos (by simp [sunPathOffset]; omega), sunPathOffset, Nat.add_comm 2]
    simp [List.drop_replicate]
  rw [length, Option.bind_some, family, Option.bind_some, copied]

/-- A longer one is written outside of what was allocated. -/
theorem parseUnixAddr_long {path : Bytes} (long : 252 < path.length) :
    parseUnixAddr path = none := by
  have nonempty : ¬ path.isEmpty = true := by
    rw [List.isEmpty_iff]
    rintro rfl
    cases long
  cases written : parseUnixAddr path with
  | none => rfl
  | some data_ =>
    unfold parseUnixAddr at written
    rw [if_neg nonempty] at written
    obtain ⟨first, one, written⟩ := Option.bind_eq_some_iff.mp written
    obtain ⟨second, two, three⟩ := Option.bind_eq_some_iff.mp written
    have size := (writeAt_length one).2
    have same := (writeAt_length two).2
    have room := (writeAt_length three).1
    rw [List.length_replicate, UInt8.toNat_ofNat'] at size
    rw [same, size, sunPathOffset] at room
    omega

/-- The path of a Unix address is stored in full, with a NUL behind it. -/
def Stores (libc : Libc) (path : Bytes) : Prop :=
  ∃ a, create libc (text "unix") path = some a ∧
    (a.isValid = true → a.len = sunPathOffset + path.length + 1 ∧
      path ++ [0] <+: a.data_.drop sunPathOffset)

/-- A Unix address is made of a path. -/
theorem create_unix (libc : Libc) (path : Bytes) :
    create libc (text "unix") path =
      (parseUnixAddr path).map fun data_ => ⟨text "unix", path, data_⟩ := by
  have other : ¬ (text "unix" = text "tcp" ∨ text "unix" = text "udp") := by decide
  rw [create, if_neg other, if_pos rfl]

/-- A Unix address fits its storage when the path has no more than 252 bytes. -/
theorem unix_stored_iff (libc : Libc) (path : Bytes) :
    Stores libc path ↔ path.length ≤ 252 := by
  unfold Stores
  rw [create_unix]
  constructor
  · rintro ⟨a, created, _⟩
    by_contra long
    rw [parseUnixAddr_long (by omega)] at created
    cases created
  · intro short
    by_cases nonempty : path = []
    · subst nonempty
      exact ⟨⟨text "unix", [], []⟩, rfl, fun valid => nomatch valid⟩
    · obtain ⟨sun_len, written⟩ := parseUnixAddr_short nonempty short
      rw [written]
      refine ⟨_, rfl, fun _ => ⟨?_, List.prefix_rfl⟩⟩
      rw [len, sunPathOffset]
      simp only [List.length_append, List.length_cons, List.length_nil]

/-- A path of 253 bytes needs 256, of which 8 bits leave none. -/
theorem long_path_overflows :
    parseUnixAddr (List.replicate 253 (byte 'a')) = none ∧
      ¬ Stores numericLibc (List.replicate 253 (byte 'a')) := by
  have written : parseUnixAddr (List.replicate 253 (byte 'a')) = none :=
    parseUnixAddr_long (by rw [List.length_replicate]; decide)
  refine ⟨written, ?_⟩
  rintro ⟨a, created, _⟩
  rw [create_unix, written] at created
  cases created

end Addr

end Cppboot.Net2
