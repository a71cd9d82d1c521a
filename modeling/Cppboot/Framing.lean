import Cppboot.Buffer
import Cppboot.Incremental

/-!
# Frames on a bus connection

A message travels as a header of two words, the magic number and the length of
what follows, and a body: the packed message and one NUL byte.
`SendMessageToConnection` builds the frame in a temporary buffer.
`BusContext::Parse` takes frames out of the input buffer of a connection; it
keeps between calls whether the header of the current frame has been consumed,
and the header itself.

The unpacking of a body is a parameter throughout: an arbitrary partial function
of the body bytes. `decode` is `Parse` seen from outside the buffer, as a
function of the readable bytes. It is resumable, so the results do not depend on
how the bytes arrive.
-/

namespace Cppboot

open Incremental

def kMsgMagic : UInt32 := 0x20141021

/-- The header of a frame, as two words. -/
structure MsgHeader where
  magic : UInt32
  length : UInt32
deriving DecidableEq, Repr

namespace MsgHeader

/-- The header as it lies in memory. -/
def toBytes (header : MsgHeader) : Bytes :=
  Bytes.ofWord header.magic ++ Bytes.ofWord header.length

/-- The header copied from the first eight bytes of memory. -/
def ofBytes : Bytes → MsgHeader
  | b0 :: b1 :: b2 :: b3 :: b4 :: b5 :: b6 :: b7 :: _ =>
    ⟨Bytes.toWord b0 b1 b2 b3, Bytes.toWord b4 b5 b6 b7⟩
  | _ => ⟨0, 0⟩

/-- The size of a header in memory. -/
def size : Nat := 8

@[simp] theorem toBytes_length (header : MsgHeader) : header.toBytes.length = size := rfl

/-- A header copied back from memory is the header stored there, whatever
follows it. -/
@[simp] theorem ofBytes_toBytes (header : MsgHeader) (more : Bytes) :
    ofBytes (header.toBytes ++ more) = header := by
  simp only [toBytes, Bytes.ofWord, List.cons_append, List.nil_append, ofBytes,
    Bytes.toWord_ofWord]

/-- Only the first eight bytes of memory are copied. -/
theorem ofBytes_append (bytes more : Bytes) (whole : size ≤ bytes.length) :
    ofBytes (bytes ++ more) = ofBytes bytes := by
  match bytes, whole with
  | b0 :: b1 :: b2 :: b3 :: b4 :: b5 :: b6 :: b7 :: rest, _ => rfl

end MsgHeader

/-- What `SendMessageToConnection` hands to the connection for a packed message.
The length field is a word, so the length of a longer body is reduced. -/
def frameOf (body : Bytes) : Bytes :=
  let hdr : MsgHeader := ⟨kMsgMagic, UInt32.ofNat body.length + 1⟩
  let tmp := Buffer.create (MsgHeader.size + body.length + 1)
  ((tmp.append hdr.toBytes).append (body ++ [0])).str

/-- A frame is a header, the body and a NUL byte. -/
theorem frameOf_eq (body : Bytes) :
    frameOf body =
      (⟨kMsgMagic, UInt32.ofNat body.length + 1⟩ : MsgHeader).toBytes ++ (body ++ [0]) := by
  unfold frameOf
  dsimp only
  rw [Buffer.append_str, Buffer.append_str, Buffer.create_str, List.nil_append]

/-- What the parser of a connection is waiting for. -/
inductive ParseState where
  | kHeader
  | kBody
deriving DecidableEq, Repr

/-- The context of a connection. The header is meaningful while the body of its
frame is awaited. -/
structure BusContext where
  name_ : Bytes
  state_ : ParseState
  header_ : MsgHeader
deriving DecidableEq, Repr

/-- What `Parse` returns, with the message when there is one. -/
inductive ParseResult (μ : Type) where
  | kContinue
  | kBad
  | kGood (msg : μ)
deriving DecidableEq, Repr

namespace BusContext

variable {μ : Type}

def fresh : BusContext := ⟨[], .kHeader, ⟨0, 0⟩⟩

/-- The second half of `Parse`, where a header has been consumed. -/
def parseBody (unpack : Bytes → Option μ) (ctx : BusContext) (buf : Buffer) :
    ParseResult μ × BusContext × Buffer :=
  if buf.readableBytes < ctx.header_.length.toNat then (.kContinue, ctx, buf)
  else
    let body := buf.str.take ctx.header_.length.toNat
    let after := { ctx with state_ := .kHeader }
    let left := buf.retrive ctx.header_.length.toNat
    match unpack body with
    | none => (.kBad, after, left)
    | some msg => (.kGood msg, after, left)

/-- Take at most one frame out of the buffer. A header without the magic number
is consumed and reported, but the body it announces is still awaited. -/
def parse (unpack : Bytes → Option μ) (ctx : BusContext) (buf : Buffer) :
    ParseResult μ × BusContext × Buffer :=
  match ctx.state_ with
  | .kHeader =>
    if buf.readableBytes < MsgHeader.size then (.kContinue, ctx, buf)
    else
      let read := { ctx with header_ := MsgHeader.ofBytes buf.str, state_ := .kBody }
      let left := buf.retrive MsgHeader.size
      if read.header_.magic ≠ kMsgMagic then (.kBad, read, left)
      else read.parseBody unpack left
  | .kBody => ctx.parseBody unpack buf

/-- `parseBody` as a function of the readable bytes. -/
def decodeBody (unpack : Bytes → Option μ) (ctx : BusContext) (input : Bytes) :
    Outcome UInt8 BusContext (Option μ) :=
  if input.length < ctx.header_.length.toNat then .wait ctx input
  else .emit (unpack (input.take ctx.header_.length.toNat)) { ctx with state_ := .kHeader }
    (input.drop ctx.header_.length.toNat)

/-- `parse` as a function of the readable bytes. A result is the message, or
nothing for `kBad`. -/
def decode (unpack : Bytes → Option μ) (ctx : BusContext) (input : Bytes) :
    Outcome UInt8 BusContext (Option μ) :=
  match ctx.state_ with
  | .kHeader =>
    if input.length < MsgHeader.size then .wait ctx input
    else
      let read := { ctx with header_ := MsgHeader.ofBytes input, state_ := .kBody }
      if read.header_.magic ≠ kMsgMagic then .emit none read (input.drop MsgHeader.size)
      else read.decodeBody unpack (input.drop MsgHeader.size)
  | .kBody => ctx.decodeBody unpack input

/-- The outcome a return value of `Parse` stands for. -/
def outcome : ParseResult μ × BusContext × Buffer → Outcome UInt8 BusContext (Option μ)
  | (.kContinue, ctx, buf) => .wait ctx buf.str
  | (.kBad, ctx, buf) => .emit none ctx buf.str
  | (.kGood msg, ctx, buf) => .emit (some msg) ctx buf.str

/-- The second half of `Parse` depends on its buffer only through the readable bytes. -/
theorem parseBody_decodes (unpack : Bytes → Option μ) (ctx : BusContext) (buf : Buffer) :
    outcome (ctx.parseBody unpack buf) = ctx.decodeBody unpack buf.str := by
  simp only [parseBody, decodeBody, Buffer.readableBytes_eq]
  split
  · rfl
  · cases unpacked : unpack (buf.str.take ctx.header_.length.toNat) <;>
      simp [outcome]

/-- `Parse` depends on its buffer only through the readable bytes, and leaves in
it the bytes it did not consume. -/
theorem parse_decodes (unpack : Bytes → Option μ) (ctx : BusContext) (buf : Buffer) :
    outcome (ctx.parse unpack buf) = ctx.decode unpack buf.str := by
  simp only [parse, decode, Buffer.readableBytes_eq]
  cases ctx.state_ with
  | kBody => exact parseBody_decodes unpack ctx buf
  | kHeader =>
    simp only
    split
    · rfl
    · split
      · simp [outcome]
      · rw [parseBody_decodes, Buffer.retrive_str]

/-- Progress of the decoder: a consumed header counts as one unit, so that a
frame with an empty body still makes progress. -/
def measure (ctx : BusContext) (input : Bytes) : Nat :=
  2 * input.length + (if ctx.state_ = .kBody then 1 else 0)

/-- A result takes the body that the header announced. -/
theorem decodeBody_emit {unpack : Bytes → Option μ} {ctx after : BusContext}
    {input rest : Bytes} {result : Option μ}
    (emits : ctx.decodeBody unpack input = .emit result after rest) :
    ctx.header_.length.toNat ≤ input.length ∧
      result = unpack (input.take ctx.header_.length.toNat) ∧
      after = { ctx with state_ := .kHeader } ∧
      rest = input.drop ctx.header_.length.toNat := by
  unfold decodeBody at emits
  split at emits
  · cases emits
  next whole =>
    simp only [Outcome.emit.injEq] at emits
    exact ⟨by omega, emits.1.symm, emits.2.1.symm, emits.2.2.symm⟩

/-- More input does not change a result, and is left over. -/
theorem decodeBody_append_emit {unpack : Bytes → Option μ} {ctx after : BusContext}
    {input rest : Bytes} {result : Option μ} (more : Bytes)
    (emits : ctx.decodeBody unpack input = .emit result after rest) :
    ctx.decodeBody unpack (input ++ more) = .emit result after (rest ++ more) := by
  obtain ⟨whole, rfl, rfl, rfl⟩ := decodeBody_emit emits
  unfold decodeBody
  rw [if_neg (by rw [List.length_append]; omega), List.take_append_of_le_length whole,
    List.drop_append_of_le_length whole]

/-- Waiting consumes nothing. -/
theorem decodeBody_wait {unpack : Bytes → Option μ} {ctx after : BusContext}
    {input rest : Bytes} (waits : ctx.decodeBody unpack input = .wait after rest) :
    after = ctx ∧ rest = input := by
  unfold decodeBody at waits
  split at waits
  · simp only [Outcome.wait.injEq] at waits
    exact ⟨waits.1.symm, waits.2.symm⟩
  · cases waits

/-- `Parse` is resumable. A result needs the whole header, and the whole body
when the header is good, so later bytes cannot change it. Waiting for a body
remembers the header, and waiting for a header consumes nothing. -/
theorem decode_resumable (unpack : Bytes → Option μ) :
    Resumable (decode unpack) measure where
  emit_append {ctx after input rest result} more emits := by
    unfold decode at emits ⊢
    cases phase : ctx.state_ with
    | kBody =>
      simp only [phase] at emits ⊢
      exact decodeBody_append_emit more emits
    | kHeader =>
      simp only [phase] at emits ⊢
      split at emits
      · cases emits
      next whole =>
        have present : MsgHeader.size ≤ input.length := Nat.le_of_not_lt whole
        rw [if_neg (by rw [List.length_append]; omega), MsgHeader.ofBytes_append _ _ present,
          List.drop_append_of_le_length present]
        split at emits
        next bad =>
          rw [if_pos bad]
          simp only [Outcome.emit.injEq] at emits ⊢
          obtain ⟨rfl, rfl, rfl⟩ := emits
          exact ⟨rfl, rfl, rfl⟩
        next good =>
          rw [if_neg good]
          exact decodeBody_append_emit more emits
  wait_append {ctx after input rest} more waits := by
    unfold decode at waits
    cases phase : ctx.state_ with
    | kBody =>
      simp only [phase] at waits
      obtain ⟨rfl, rfl⟩ := decodeBody_wait waits
      rfl
    | kHeader =>
      simp only [phase] at waits
      split at waits
      next short =>
        simp only [Outcome.wait.injEq] at waits
        obtain ⟨rfl, rfl⟩ := waits
        rfl
      next whole =>
        have present : MsgHeader.size ≤ input.length := Nat.le_of_not_lt whole
        split at waits
        · cases waits
        next good =>
          obtain ⟨rfl, rfl⟩ := decodeBody_wait waits
          conv => lhs; unfold decode
          conv => rhs; unfold decode
          simp only [phase]
          rw [if_neg (by rw [List.length_append]; omega), MsgHeader.ofBytes_append _ _ present,
            if_neg good, List.drop_append_of_le_length present]
  progress {ctx after input rest result} emits := by
    unfold decode at emits
    cases phase : ctx.state_ with
    | kBody =>
      simp only [phase] at emits
      obtain ⟨_, _, rfl, rfl⟩ := decodeBody_emit emits
      simp only [measure, phase, List.length_drop, reduceCtorEq, if_false, if_true]
      omega
    | kHeader =>
      simp only [phase] at emits
      split at emits
      · cases emits
      next whole =>
        simp only [MsgHeader.size] at whole
        split at emits
        next bad =>
          simp only [Outcome.emit.injEq] at emits
          obtain ⟨_, rfl, rfl⟩ := emits
          simp only [measure, phase, List.length_drop, reduceCtorEq, if_false, if_true,
            MsgHeader.size]
          omega
        next good =>
          obtain ⟨_, _, rfl, rfl⟩ := decodeBody_emit emits
          simp only [measure, phase, List.length_drop, reduceCtorEq, if_false, MsgHeader.size]
          omega

/-- A fresh context waits for the first byte. -/
theorem decode_fresh_quiet (unpack : Bytes → Option μ) : Quiet (decode unpack) fresh [] := by
  simp [Quiet, decode, fresh, MsgHeader.size]

end BusContext

end Cppboot
