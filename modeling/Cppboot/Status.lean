import Cppboot.Bytes

/-!
# Status values

The result of an operation: success, or one of the error codes with a message.
The codes are those of the source, and an error is built by the factory that is
named after its code.
-/

namespace Cppboot

/-- The codes that the library names. -/
inductive StatusCode where
  | kOk
  | kCancelled
  | kUnknown
  | kInvalidArgument
  | kDeadlineExceeded
  | kNotFound
  | kAlreadyExists
  | kPermissionDenied
  | kResourceExhausted
  | kFailedPrecondition
  | kAborted
  | kOutOfRange
  | kUnimplemented
  | kInternal
  | kUnavailable
deriving DecidableEq, Repr

/-- A status: the null state of a success, or the code and the message of an
error. -/
inductive Status where
  | okStatus
  | failed (code : StatusCode) (message : Bytes)
deriving DecidableEq, Repr

namespace Status

def ok : Status → Bool
  | okStatus => true
  | failed _ _ => false

def cancelledError (message : Bytes) : Status := .failed .kCancelled message
def invalidArgumentError (message : Bytes) : Status := .failed .kInvalidArgument message
def notFoundError (message : Bytes) : Status := .failed .kNotFound message
def alreadyExistsError (message : Bytes) : Status := .failed .kAlreadyExists message

end Status

end Cppboot
