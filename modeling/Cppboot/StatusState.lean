import Mathlib.Data.List.Basic
import Cppboot.Runs
import Cppboot.Status

/-!
# How a status is stored

A status is a pointer that is null for a success. For an error it points to an array
with the length of the message in four bytes, the code in one, and the message. Nothing
in the array says where it ends.

One constructor stores a message that is given, and allocates just as much as it needs.
The other formats its message into a larger array, and with it the NUL byte that ends
it. A copy is as long as the length says, so it has no NUL byte even if the original
does. Moving and swapping only exchange pointers.

What a formatted array has behind the NUL byte is what the memory had before. A size is
computed in 32 bits; where that overflows something is written out of bounds, and the
constructor has no result. It has none either when formatting fails: the pointer is
then never assigned.
-/

namespace Cppboot

open Runs

/-- The number of a code. -/
def StatusCode.number : StatusCode → UInt8
  | .kOk => 0
  | .kCancelled => 1
  | .kUnknown => 2
  | .kInvalidArgument => 3
  | .kDeadlineExceeded => 4
  | .kNotFound => 5
  | .kAlreadyExists => 6
  | .kPermissionDenied => 7
  | .kResourceExhausted => 8
  | .kFailedPrecondition => 9
  | .kAborted => 10
  | .kOutOfRange => 11
  | .kUnimplemented => 12
  | .kInternal => 13
  | .kUnavailable => 14

/-- The codes in the order of their numbers. -/
def StatusCode.all : List StatusCode :=
  [.kOk, .kCancelled, .kUnknown, .kInvalidArgument, .kDeadlineExceeded, .kNotFound,
    .kAlreadyExists, .kPermissionDenied, .kResourceExhausted, .kFailedPrecondition, .kAborted,
    .kOutOfRange, .kUnimplemented, .kInternal, .kUnavailable]

/-- The code with a number. -/
def StatusCode.ofNumber (number : UInt8) : Option StatusCode := StatusCode.all[number.toNat]?

/-- A code is read from its own number. -/
theorem StatusCode.ofNumber_number (code : StatusCode) :
    StatusCode.ofNumber code.number = some code := by
  cases code <;> rfl

/-- The names of the codes. -/
def statusCodeToString : StatusCode → Bytes
  | .kOk => text "OK"
  | .kCancelled => text "CANCELLED"
  | .kUnknown => text "UNKNOWN"
  | .kDeadlineExceeded => text "DEADLINE_EXCEEDED"
  | .kInvalidArgument => text "INVALID_ARGUMENT"
  | .kNotFound => text "NOT_FOUND"
  | .kAlreadyExists => text "ALREADY_EXISTS"
  | .kPermissionDenied => text "PERMISSION_DENIED"
  | .kResourceExhausted => text "RESOURCE_EXHAUSTED"
  | .kFailedPrecondition => text "FAILED_PRECONDITION"
  | .kAborted => text "ABORTED"
  | .kOutOfRange => text "OUT_OF_RANGE"
  | .kUnimplemented => text "UNIMPLEMENTED"
  | .kInternal => text "INTERNAL"
  | .kUnavailable => text "UNAVAILABLE"

/-- The error numbers of Linux, with the codes they are given. -/
def errnoCodes : List (List Int × StatusCode) :=
  [([0], .kOk),
    -- EINVAL, ENAMETOOLONG, E2BIG, EDESTADDRREQ, EDOM, EFAULT, EILSEQ, ENOPROTOOPT, ENOSTR,
    -- ENOTSOCK, ENOTTY, EPROTOTYPE, ESPIPE
    ([22, 36, 7, 89, 33, 14, 84, 92, 60, 88, 25, 91, 29], .kInvalidArgument),
    -- ETIMEDOUT, ETIME
    ([110, 62], .kDeadlineExceeded),
    -- ENODEV, ENOENT, ENOMEDIUM, ENXIO, ESRCH
    ([19, 2, 123, 6, 3], .kNotFound),
    -- EEXIST, EADDRNOTAVAIL, EALREADY, ENOTUNIQ
    ([17, 99, 114, 76], .kAlreadyExists),
    -- EPERM, EACCES, ENOKEY, EROFS
    ([1, 13, 126, 30], .kPermissionDenied),
    -- ENOTEMPTY, EISDIR, ENOTDIR, EADDRINUSE, EBADF, EBADFD, EBUSY, ECHILD, EISCONN, EISNAM,
    -- ENOTBLK, ENOTCONN, EPIPE, ESHUTDOWN, ETXTBSY, EUNATCH
    ([39, 21, 20, 98, 9, 77, 16, 10, 106, 120, 15, 107, 32, 108, 26, 49], .kFailedPrecondition),
    -- ENOSPC, EDQUOT, EMFILE, EMLINK, ENFILE, ENOBUFS, ENODATA, ENOMEM, ENOSR, EUSERS
    ([28, 122, 24, 31, 23, 105, 61, 12, 63, 87], .kResourceExhausted),
    -- ECHRNG, EFBIG, EOVERFLOW, ERANGE
    ([44, 27, 75, 34], .kOutOfRange),
    -- ENOPKG, ENOSYS, ENOTSUP, EAFNOSUPPORT, EPFNOSUPPORT, EPROTONOSUPPORT, ESOCKTNOSUPPORT, EXDEV
    ([65, 38, 95, 97, 96, 93, 94, 18], .kUnimplemented),
    -- EAGAIN, ECOMM, ECONNREFUSED, ECONNABORTED, ECONNRESET, EINTR, EHOSTDOWN, EHOSTUNREACH,
    -- ENETDOWN, ENETRESET, ENETUNREACH, ENOLCK, ENOLINK, ENONET
    ([11, 70, 111, 103, 104, 4, 112, 113, 100, 102, 101, 37, 67, 64], .kUnavailable),
    -- EDEADLK, ESTALE
    ([35, 116], .kAborted),
    -- ECANCELED
    ([125], .kCancelled)]

/-- The code for an error number. -/
def errnoToStatusCode (error_number : Int) : StatusCode :=
  match errnoCodes.find? fun entry => error_number ∈ entry.1 with
  | some entry => entry.2
  | none => .kUnknown

/-- Only zero is given the code of a success. -/
theorem errnoToStatusCode_ok_iff (error_number : Int) :
    errnoToStatusCode error_number = .kOk ↔ error_number = 0 := by
  constructor
  · intro fine
    unfold errnoToStatusCode at fine
    split at fine
    next entry found =>
      have listed := List.mem_of_find?_eq_some found
      have numbered := List.find?_some found
      have first : ∀ entry ∈ errnoCodes, entry.2 = .kOk → entry.1 = [0] := by decide
      rw [first entry listed fine] at numbered
      simpa using numbered
    next => cases fine
  · rintro rfl
    rfl

/-- The status for an error number, apart from how it is stored. -/
def Status.errnoToStatus (strerror : Int → Bytes) (error_number : Int) (message : Bytes) : Status :=
  .failed (errnoToStatusCode error_number) (message ++ text ": " ++ strerror error_number)

/-- A `Status`: a pointer to its state, or none. -/
structure RawStatus where
  state_ : Option Bytes
deriving DecidableEq, Repr

namespace RawStatus

/-- The length that an array begins with. -/
def size : Bytes → UInt32
  | b0 :: b1 :: b2 :: b3 :: _ => Bytes.toWord b0 b1 b2 b3
  | _ => 0

/-- A status without a state is a success. -/
def ok (status : RawStatus) : Bool := status.state_.isNone

/-- The code in the state. A success has none, and is `kOk`. -/
def code (status : RawStatus) : Option StatusCode :=
  match status.state_ with
  | none => some .kOk
  | some state => state[4]?.bind StatusCode.ofNumber

/-- The message in the state, as long as the state says. -/
def message (status : RawStatus) : Bytes :=
  match status.state_ with
  | none => []
  | some state => if 0 < (size state).toNat then (state.drop 5).take (size state).toNat else []

/-- A text for the status. -/
def toString (status : RawStatus) : Bytes :=
  if status.ok then text "OK"
  else
    let result := (status.code.map statusCodeToString).getD []
    if status.message = [] then result else result ++ text ": " ++ status.message

/-- The characters at the pointer up to a NUL byte. There are none if the array ends
before one. -/
def statusMessageAsCStr (status : RawStatus) : Option Bytes :=
  if status.message = [] then some []
  else
    let data := (status.state_.getD []).drop 5
    if 0 ∈ data then some (cstr data) else none

/-- A new array for a message that is given. Its length is taken to 32 bits. -/
def construct (code : StatusCode) (msg : Bytes) : Option RawStatus :=
  let size := UInt32.ofNat msg.length
  if size.toNat + 5 < 2 ^ 32 then
    some ⟨some (Bytes.ofWord size ++ code.number :: msg.take size.toNat)⟩
  else none

/-- Formatting into a new array with room for some characters and the NUL byte. -/
def tryFormat (room : Nat) (code : StatusCode) (msg : Bytes) (memory : Nat → UInt8) :
    Option RawStatus :=
  if msg.length < room then
    some ⟨some (Bytes.ofWord (UInt32.ofNat msg.length) ++ code.number ::
      (msg ++ 0 :: (List.range (room - msg.length - 1)).map memory))⟩
  else none

/-- The message is what formatting gives, if it does. The second try has room for it,
unless the sizes are too large for an `int`. -/
def constructFormat (code : StatusCode) (formatted : Option Bytes) (memory : Nat → UInt8) :
    Option RawStatus :=
  formatted.bind fun msg =>
    match tryFormat 100 code msg memory with
    | some status => some status
    | none =>
      if msg.length + 6 ≤ 2147483647 then tryFormat (msg.length + 1) code msg memory else none

/-- A new array of the size that the length asks for. -/
def copyState (state : Bytes) : Option Bytes :=
  let size := size state + 5
  if size.toNat ≤ state.length then some (state.take size.toNat) else none

def copy (rhs : RawStatus) : Option RawStatus :=
  match rhs.state_ with
  | none => some ⟨none⟩
  | some state => (copyState state).map fun copied => ⟨some copied⟩

end RawStatus

/-- The functions that are named after the code of their error. -/
inductive ErrorFactory where
  | cancelledError
  | unknownError
  | invalidArgumentError
  | deadlineExceededError
  | notFoundError
  | alreadyExistsError
  | permissionDeniedError
  | resourceExhaustedError
  | failedPreconditionError
  | abortedError
  | outOfRangeError
  | unimplementedError
  | internalError
  | unavailableError
deriving DecidableEq, Repr

/-- The code of an error that is made by its factory. -/
def ErrorFactory.code : ErrorFactory → StatusCode
  | cancelledError => .kCancelled
  | unknownError => .kUnknown
  | invalidArgumentError => .kInvalidArgument
  | deadlineExceededError => .kDeadlineExceeded
  | notFoundError => .kNotFound
  | alreadyExistsError => .kAlreadyExists
  | permissionDeniedError => .kPermissionDenied
  | resourceExhaustedError => .kResourceExhausted
  | failedPreconditionError => .kFailedPrecondition
  | abortedError => .kAborted
  | outOfRangeError => .kOutOfRange
  | unimplementedError => .kUnimplemented
  | internalError => .kInternal
  | unavailableError => .kUnavailable

/-- The arrays that are built: the code, the message and what is allocated behind it. -/
structure Layout where
  code : StatusCode
  message : Bytes
  extra : Bytes
  small : message.length + 5 < 2 ^ 32

namespace Layout

open RawStatus

/-- The size field of an array. -/
def word (l : Layout) : UInt32 := UInt32.ofNat l.message.length

def bytes (l : Layout) : Bytes := Bytes.ofWord l.word ++ l.code.number :: (l.message ++ l.extra)

def status (l : Layout) : RawStatus := ⟨some l.bytes⟩

theorem word_toNat (l : Layout) : l.word.toNat = l.message.length := by
  have small := l.small
  rw [word, UInt32.toNat_ofNat']
  omega

theorem size_bytes (l : Layout) : size l.bytes = l.word := Bytes.toWord_ofWord l.word

/-- The message begins behind the code. -/
theorem drop_bytes (l : Layout) : l.bytes.drop 5 = l.message ++ l.extra := rfl

theorem code_status (l : Layout) : l.status.code = some l.code := StatusCode.ofNumber_number l.code

theorem message_status (l : Layout) : l.status.message = l.message := by
  unfold RawStatus.message status
  dsimp only
  rw [size_bytes, word_toNat, drop_bytes]
  split
  next => exact List.take_left
  next empty =>
    have nothing : l.message.length = 0 := by omega
    exact (List.eq_nil_of_length_eq_zero nothing).symm

/-- A copy has nothing behind its message. -/
theorem copy_status (l : Layout) : copy l.status = some { l with extra := [] }.status := by
  have small := l.small
  have length : l.bytes.length = l.message.length + l.extra.length + 5 := by
    simp [bytes]
    omega
  have wanted : (size l.bytes + 5).toNat = l.message.length + 5 := by
    rw [size_bytes, UInt32.toNat_add, word_toNat]
    have five : (5 : UInt32).toNat = 5 := rfl
    rw [five]
    omega
  have taken : l.bytes.take (l.message.length + 5) = { l with extra := [] }.bytes := by
    have front : l.bytes = { l with extra := [] }.bytes ++ l.extra := by
      simp [bytes, word]
    have whole : { l with extra := [] }.bytes.length = l.message.length + 5 := by
      simp [bytes]
      omega
    rw [front, ← whole, List.take_left]
  have copied : copyState l.bytes = some { l with extra := [] }.bytes := by
    unfold copyState
    dsimp only
    rw [wanted, taken, if_pos (by omega)]
  rw [copy, status]
  dsimp only
  rw [copied]
  rfl

end Layout

namespace RawStatus

/-- The message of a constructor that does not format, and no more. -/
theorem construct_layout {code : StatusCode} {msg : Bytes} {made : RawStatus}
    (built : construct code msg = some made) :
    ∃ l : Layout, made = l.status ∧ l.code = code ∧
      l.message = msg.take (msg.length % 2 ^ 32) ∧ l.extra = [] := by
  have word : (UInt32.ofNat msg.length).toNat = msg.length % 2 ^ 32 := UInt32.toNat_ofNat'
  have length : (msg.take (msg.length % 2 ^ 32)).length = msg.length % 2 ^ 32 := by
    rw [List.length_take]
    have below := Nat.mod_le msg.length (2 ^ 32)
    omega
  unfold construct at built
  dsimp only at built
  rw [word] at built
  split at built
  next small =>
    cases built
    refine ⟨⟨code, msg.take (msg.length % 2 ^ 32), [], by rwa [length]⟩, ?_, rfl, rfl, rfl⟩
    have same : UInt32.ofNat msg.length = UInt32.ofNat (msg.length % 2 ^ 32) := by
      apply UInt32.toNat_inj.mp
      rw [word, UInt32.toNat_ofNat', Nat.mod_mod]
    rw [Layout.status, Layout.bytes, Layout.word]
    dsimp only
    rw [length, List.append_nil, same]
  next => cases built

/-- A formatted message has a NUL byte behind it. -/
theorem tryFormat_layout {room : Nat} {code : StatusCode} {msg : Bytes} {memory : Nat → UInt8}
    {made : RawStatus} (small : msg.length + 5 < 2 ^ 32)
    (built : tryFormat room code msg memory = some made) :
    ∃ l : Layout, made = l.status ∧ l.code = code ∧ l.message = msg ∧
      l.extra.head? = some 0 := by
  unfold tryFormat at built
  split at built
  next =>
    cases built
    exact ⟨⟨code, msg, 0 :: (List.range (room - msg.length - 1)).map memory, small⟩, rfl, rfl, rfl,
      rfl⟩
  next => cases built

/-- A formatted message is stored with a NUL behind it. -/
theorem constructFormat_layout {code : StatusCode} {formatted : Option Bytes}
    {memory : Nat → UInt8} {made : RawStatus}
    (built : constructFormat code formatted memory = some made) :
    ∃ l : Layout, made = l.status ∧ l.code = code ∧ formatted = some l.message ∧
      l.extra.head? = some 0 := by
  obtain ⟨msg, rfl, tried⟩ := Option.bind_eq_some_iff.mp built
  obtain ⟨l, same, coded, spelled, ended⟩ : ∃ l : Layout, made = l.status ∧ l.code = code ∧
      l.message = msg ∧ l.extra.head? = some 0 := by
    cases first : tryFormat 100 code msg memory with
    | some status =>
      rw [first] at tried
      cases tried
      have short : msg.length < 100 := by
        by_contra long
        rw [tryFormat, if_neg long] at first
        cases first
      exact tryFormat_layout (by omega) first
    | none =>
      rw [first] at tried
      dsimp only at tried
      split at tried
      next fits => exact tryFormat_layout (by omega) tried
      next => cases tried
  exact ⟨l, same, coded, by rw [spelled], ended⟩

end RawStatus

end Cppboot
