import Cppboot.BusReceive
import Cppboot.Runs

/-!
# Frames without the magic number

A header without the magic number is consumed and reported as bad, but the
context is left waiting for the body that it announces. `OnReceive` of the server
goes on reading after that, since its `Stop` does nothing. The next call of
`Parse` that finds the announced bytes takes them as a body, and returns a
message if they unpack.

Bytes are appended and `Parse` is called in any order. What was taken from the
stream is recorded; no operation reads the record.
-/

namespace Cppboot

open Runs

/-- A header is stored as it was copied. -/
theorem MsgHeader.toBytes_ofBytes {bytes : Bytes} (whole : size ≤ bytes.length) :
    (ofBytes bytes).toBytes ++ bytes.drop size = bytes := by
  match bytes, whole with
  | b0 :: b1 :: b2 :: b3 :: b4 :: b5 :: b6 :: b7 :: rest, _ =>
    simp [ofBytes, toBytes, size, Bytes.ofWord_toWord]

namespace BusContext

variable {μ : Type}

/-- A call of `Parse` where the body is awaited. -/
theorem parseBody_cases (unpack : Bytes → Option μ) (ctx : BusContext) (buf : Buffer) :
    ctx.parseBody unpack buf = (.kContinue, ctx, buf) ∧
        buf.readableBytes < ctx.header_.length.toNat ∨
      ∃ body left, ctx.parseBody unpack buf =
          (verdict (unpack body), { ctx with state_ := .kHeader }, left) ∧
        ctx.parseBody some buf = (.kGood body, { ctx with state_ := .kHeader }, left) ∧
        body = buf.str.take ctx.header_.length.toNat ∧
        body.length = ctx.header_.length.toNat ∧ buf.str = body ++ left.str := by
  by_cases short : buf.readableBytes < ctx.header_.length.toNat
  · left
    exact ⟨if_pos short, short⟩
  · right
    refine ⟨_, buf.retrive ctx.header_.length.toNat, ?_, ?_, rfl, ?_, ?_⟩
    · rw [parseBody, if_neg short]
      dsimp only
      cases unpack (buf.str.take ctx.header_.length.toNat) <;> rfl
    · exact if_neg short
    · rw [Buffer.readableBytes_eq] at short
      rw [List.length_take]
      omega
    · rw [Buffer.retrive_str, List.take_append_drop]

/-- A call of `Parse`: too few bytes for a header; a header that is consumed and
either bad or followed by too few bytes; too few bytes for a body; or a body that
is consumed, with its header or after it. -/
theorem parse_cases (unpack : Bytes → Option μ) (ctx : BusContext) (buf : Buffer) :
    (ctx.parse unpack buf = (.kContinue, ctx, buf) ∧
      (ctx.state_ = .kBody → buf.readableBytes < ctx.header_.length.toNat)) ∨
    (∃ header left result, ctx.state_ = .kHeader ∧ buf.str = header.toBytes ++ left.str ∧
      ctx.parse unpack buf = (result, { ctx with header_ := header, state_ := .kBody }, left) ∧
      ∀ msg, result ≠ .kGood msg) ∨
    (∃ header body left, ctx.state_ = .kHeader ∧ header.magic = kMsgMagic ∧
      body.length = header.length.toNat ∧ buf.str = header.toBytes ++ (body ++ left.str) ∧
      ctx.parse some buf = (.kGood body, { ctx with header_ := header }, left) ∧
      ctx.parse unpack buf = (verdict (unpack body), { ctx with header_ := header }, left)) ∨
    (∃ body left, ctx.state_ = .kBody ∧ body = buf.str.take ctx.header_.length.toNat ∧
      body.length = ctx.header_.length.toNat ∧ buf.str = body ++ left.str ∧
      ctx.parse some buf = (.kGood body, { ctx with state_ := .kHeader }, left) ∧
      ctx.parse unpack buf = (verdict (unpack body), { ctx with state_ := .kHeader }, left)) := by
  unfold parse
  cases phase : ctx.state_ with
  | kBody =>
    rcases ctx.parseBody_cases unpack buf with ⟨waits, short⟩ |
      ⟨body, left, called, handed, taken, sized, cut⟩
    · exact .inl ⟨waits, fun _ => short⟩
    · exact .inr (.inr (.inr ⟨body, left, rfl, taken, sized, cut, handed, called⟩))
  | kHeader =>
    dsimp only
    by_cases short : buf.readableBytes < MsgHeader.size
    · rw [if_pos short]
      exact .inl ⟨rfl, by simp⟩
    rw [if_neg short, if_neg short]
    have present : MsgHeader.size ≤ buf.str.length := by
      rw [← Buffer.readableBytes_eq]
      omega
    have cut : buf.str = (MsgHeader.ofBytes buf.str).toBytes ++
        (buf.retrive MsgHeader.size).str := by
      rw [Buffer.retrive_str, MsgHeader.toBytes_ofBytes present]
    generalize MsgHeader.ofBytes buf.str = header at cut ⊢
    generalize buf.retrive MsgHeader.size = rest at cut ⊢
    by_cases bad : header.magic ≠ kMsgMagic
    · rw [if_pos bad]
      exact .inr (.inl ⟨header, rest, .kBad, rfl, cut, rfl, by simp⟩)
    rw [if_neg bad, if_neg bad]
    rcases parseBody_cases unpack { ctx with header_ := header, state_ := .kBody } rest with
      ⟨waits, _⟩ | ⟨body, left, called, handed, _, sized, taken⟩
    · exact .inr (.inl ⟨header, rest, .kContinue, rfl, cut, waits, by simp⟩)
    · refine .inr (.inr (.inl ⟨header, body, left, rfl, not_not.mp bad, sized, ?_, ?_, ?_⟩))
      · rw [cut, taken]
      · exact handed
      · exact called

/-- The verdict is good only for what could be unpacked. -/
theorem verdict_good {unpacked : Option μ} {msg : μ} (good : verdict unpacked = .kGood msg) :
    unpacked = some msg := by
  cases unpacked with
  | none => cases good
  | some other =>
    cases good
    rfl

/-- A context with its buffer and what was taken from the stream. -/
structure Receiving where
  context : BusContext
  buf : Buffer
  taken : Bytes

inductive Receiving.Event where
  | append (data : Bytes)
  | parse

namespace Receiving

def fresh : Receiving := ⟨.fresh, .fresh, []⟩

/-- All bytes that were appended. -/
def stream (s : Receiving) : Bytes := s.taken ++ s.buf.str

def step (unpack : Bytes → Option μ) (s : Receiving) : Event → Option Receiving
  | .append data => some { s with buf := s.buf.append data }
  | .parse =>
    let called := s.context.parse unpack s.buf
    some ⟨called.2.1, called.2.2,
      s.taken ++ s.buf.str.take (s.buf.str.length - called.2.2.str.length)⟩

/-- If `Parse` returns a message, the bytes it handed to `Unpack` follow in the
stream directly after a header with the magic number and their length. -/
def Sound (unpack : Bytes → Option μ) (s : Receiving) : Event → Prop
  | .append _ => True
  | .parse =>
    ∀ msg, (s.context.parse unpack s.buf).1 = .kGood msg →
      ∃ (before : Bytes) (header : MsgHeader) (body : Bytes),
        (s.context.parse some s.buf).1 = .kGood body ∧ unpack body = some msg ∧
        header.magic = kMsgMagic ∧ header.length.toNat = body.length ∧
        s.stream = before ++ (header.toBytes ++
          (body ++ (s.context.parse unpack s.buf).2.2.str))

/-- Where the body after a header without the magic number is awaited and is
there, it does not unpack. -/
def Refused (unpack : Bytes → Option μ) (s : Receiving) : Event → Prop
  | .append _ => True
  | .parse =>
    s.context.state_ = .kBody → s.context.header_.magic ≠ kMsgMagic →
      s.context.header_.length.toNat ≤ s.buf.readableBytes →
        unpack (s.buf.str.take s.context.header_.length.toNat) = none

/-- Where a body is awaited, its header was taken last. -/
def Aligned (s : Receiving) : Prop :=
  s.context.state_ = .kBody → ∃ before, s.taken = before ++ s.context.header_.toBytes

/-- A step keeps the stream aligned. -/
theorem Aligned.step {unpack : Bytes → Option μ} {s after : Receiving} {event : Event}
    (aligned : s.Aligned) (stepped : step unpack s event = some after) : after.Aligned := by
  cases event with
  | append data =>
    cases stepped
    exact aligned
  | parse =>
    cases stepped
    intro awaits
    dsimp only at awaits ⊢
    rcases s.context.parse_cases unpack s.buf with ⟨waits, _⟩ |
      ⟨header, left, result, _, cut, called, _⟩ |
      ⟨header, body, left, phase, _, _, _, _, called⟩ | ⟨body, left, _, _, _, _, _, called⟩
    · rw [waits] at awaits ⊢
      obtain ⟨before, taken⟩ := aligned awaits
      exact ⟨before, by simp [taken]⟩
    · rw [called]
      refine ⟨s.taken, ?_⟩
      dsimp only
      rw [cut, List.length_append, Nat.add_sub_cancel, List.take_left]
    · rw [called] at awaits
      exact absurd (phase.symm.trans awaits) (by simp)
    · rw [called] at awaits
      exact absurd awaits (by simp)

/-- Bytes that stand at the same place in a stream after two headers stand after
the same header. -/
theorem header_unique {before other : Bytes} {header another : MsgHeader} {rest : Bytes}
    (same : before ++ (header.toBytes ++ rest) = other ++ (another.toBytes ++ rest)) :
    header = another := by
  rw [← List.append_assoc, ← List.append_assoc] at same
  have fronts := List.append_cancel_right same
  obtain ⟨_, headers⟩ := List.append_inj' fronts rfl
  rw [← MsgHeader.ofBytes_toBytes header [], ← MsgHeader.ofBytes_toBytes another [], headers]

/-- Where a body is awaited after its header, the calls that are refused are the
sound ones. -/
theorem Aligned.refused_iff_sound {unpack : Bytes → Option μ} {s : Receiving}
    (aligned : s.Aligned) (event : Event) : s.Refused unpack event ↔ s.Sound unpack event := by
  cases event with
  | append data => exact Iff.rfl
  | parse =>
    unfold Refused Sound
    rcases s.context.parse_cases unpack s.buf with ⟨waits, short⟩ |
      ⟨header, left, result, phase, _, called, ungood⟩ |
      ⟨header, body, left, phase, magic, sized, cut, handed, called⟩ |
      ⟨body, left, phase, taken, sized, cut, handed, called⟩
    · rw [waits]
      refine iff_of_true ?_ (by simp)
      intro awaits _ whole
      exact absurd whole (Nat.not_le.mpr (short awaits))
    · rw [called]
      refine iff_of_true ?_ ?_
      · intro awaits
        exact absurd (phase.symm.trans awaits) (by simp)
      · intro msg good
        exact absurd good (ungood msg)
    · rw [called, handed]
      refine iff_of_true ?_ ?_
      · intro awaits
        exact absurd (phase.symm.trans awaits) (by simp)
      · intro msg good
        refine ⟨s.taken, header, body, rfl, ?_, magic, sized.symm, ?_⟩
        · exact verdict_good good
        · rw [stream, cut]
    · rw [called, handed, ← taken]
      obtain ⟨before, headed⟩ := aligned phase
      have whole : s.context.header_.length.toNat ≤ s.buf.readableBytes := by
        rw [Buffer.readableBytes_eq, cut, List.length_append]
        omega
      constructor
      · intro refused msg good
        have unpacked := verdict_good good
        refine ⟨before, s.context.header_, body, rfl, unpacked, ?_, sized.symm, ?_⟩
        · by_contra bad
          rw [refused phase bad whole] at unpacked
          cases unpacked
        · rw [stream, headed, cut, List.append_assoc]
      · intro sound _ bad _
        cases unpacked : unpack body with
        | none => rfl
        | some msg =>
          obtain ⟨other, header, handed, same, _, magic, _, placed⟩ := sound msg (by
            rw [unpacked]
            rfl)
          cases same
          rw [stream, headed, cut, List.append_assoc] at placed
          exact absurd (header_unique placed ▸ magic) bad

/-- The runs in which every body after a header without the magic number is
refused are the runs in which every message that is returned follows the magic
number. -/
theorem messages_follow_magic_iff (unpack : Bytes → Option μ) (events : List Event)
    (final : Receiving) :
    Run (Guarded (Refused unpack) (Accepts (step unpack))) fresh events final ↔
      Run (Guarded (Sound unpack) (Accepts (step unpack))) fresh events final := by
  apply Run.guards_agree Aligned
  · intro before after event aligned _
    exact aligned.refused_iff_sound event
  · intro before after event aligned _ stepped
    exact aligned.step stepped
  · intro awaits
    cases awaits

/-- A packed message after a header with its length, but not with the magic
number. -/
def unmagicFrame : Bytes :=
  match JsonPacker.pack .canonical Msg.fresh with
  | .ok body => (⟨0, UInt32.ofNat body.length + 1⟩ : MsgHeader).toBytes ++ (body ++ [0])
  | .error _ => []

/-- The first call of `Parse` reports the header, and the second call returns the
message. -/
theorem unmagic_message_returned :
    ∃ final, Run (Accepts (step (JsonPacker.unpackNew .canonical))) fresh
        [.append unmagicFrame, .parse] final ∧
      (∃ msg, (final.context.parse (JsonPacker.unpackNew .canonical) final.buf).1 = .kGood msg) ∧
      ¬ final.Sound (JsonPacker.unpackNew .canonical) .parse := by
  have observed : (execute (step (JsonPacker.unpackNew .canonical)) fresh
      [.append unmagicFrame, .parse]).map (fun final =>
        decide (final.context.state_ = .kBody ∧ final.context.header_.magic ≠ kMsgMagic ∧
          final.context.header_.length.toNat ≤ final.buf.readableBytes ∧
          (JsonPacker.unpackNew .canonical
            (final.buf.str.take final.context.header_.length.toNat)).isSome)) = some true := by
    decide +kernel
  obtain ⟨final, executed, seen⟩ := Option.map_eq_some_iff.mp observed
  obtain ⟨awaits, bad, whole, unpacked⟩ := of_decide_eq_true seen
  have run := execute_run _ _ _ _ executed
  have aligned : final.Aligned := run.preserves Aligned
    (fun _ _ _ aligned stepped => aligned.step stepped) fun awaits => by cases awaits
  have unsound : ¬ final.Sound (JsonPacker.unpackNew .canonical) .parse := by
    intro sound
    have refused := (aligned.refused_iff_sound .parse).mpr sound
    rw [refused awaits bad whole] at unpacked
    cases unpacked
  refine ⟨final, run, ?_, unsound⟩
  by_contra silent
  exact unsound fun msg good => absurd ⟨msg, good⟩ silent

end Receiving

end BusContext

end Cppboot
