import Mathlib.Data.List.Forall2
import Cppboot.Framing
import Cppboot.RoundTrip

/-!
# Decoding a stream of frames

`Parse` called again and again until it asks for more bytes, after every chunk
that is appended to the buffer. The results do not depend on the chunks. On a
stream of frames they are what `Unpack` makes of the bodies, one after the other.

A frame that was sent announces the length of its body in one word. Where the
body and its NUL byte are longer than a word can say, the announced length is too
small and the frame is cut. So the bodies that were sent come out exactly when
every one of them fits.
-/

namespace Cppboot

open Incremental

namespace BusContext

variable {μ : Type}

/-- The result of `Parse` for a body that `Unpack` was applied to. -/
def verdict : Option μ → ParseResult μ
  | none => .kBad
  | some msg => .kGood msg

/-- A call that does not return `kContinue` makes progress. -/
theorem parse_progress {unpack : Bytes → Option μ} {ctx after : BusContext} {buf left : Buffer}
    {result : ParseResult μ} (called : ctx.parse unpack buf = (result, after, left))
    (more : result ≠ .kContinue) : measure after left.str < measure ctx buf.str := by
  have decoded := parse_decodes unpack ctx buf
  rw [called] at decoded
  cases result with
  | kContinue => exact absurd rfl more
  | kBad => exact (decode_resumable unpack).progress decoded.symm
  | kGood msg => exact (decode_resumable unpack).progress decoded.symm

/-- Call `Parse` until it returns `kContinue`, and collect the other results. -/
def parseAll (unpack : Bytes → Option μ) (ctx : BusContext) (buf : Buffer) :
    List (ParseResult μ) × BusContext × Buffer :=
  match _called : ctx.parse unpack buf with
  | (.kContinue, after, left) => ([], after, left)
  | (.kBad, after, left) =>
    let later := parseAll unpack after left
    (.kBad :: later.1, later.2)
  | (.kGood msg, after, left) =>
    let later := parseAll unpack after left
    (.kGood msg :: later.1, later.2)
termination_by measure ctx buf.str
decreasing_by
  · exact parse_progress ‹_› (by simp)
  · exact parse_progress ‹_› (by simp)

/-- Append each chunk to the buffer and call `Parse` until it returns
`kContinue`. -/
def parseChunks (unpack : Bytes → Option μ) :
    BusContext → Buffer → List Bytes → List (ParseResult μ) × BusContext × Buffer
  | ctx, buf, [] => ([], ctx, buf)
  | ctx, buf, chunk :: chunks =>
    let called := parseAll unpack ctx (buf.append chunk)
    let later := parseChunks unpack called.2.1 called.2.2 chunks
    (called.1 ++ later.1, later.2)

/-- What can be observed after some calls: the results, the context and the bytes
in the buffer. -/
def observe : List (ParseResult μ) × BusContext × Buffer →
    List (ParseResult μ) × BusContext × Bytes
  | (results, ctx, buf) => (results, ctx, buf.str)

/-- What the decoder on byte strings does, seen as results of `Parse`. -/
def decoded : List (Option μ) × BusContext × Bytes → List (ParseResult μ) × BusContext × Bytes
  | (results, ctx, rest) => (results.map verdict, ctx, rest)

/-- The loop over `Parse` refines draining the decoder. -/
theorem parseAll_drains (unpack : Bytes → Option μ) (ctx : BusContext) (buf : Buffer) :
    observe (parseAll unpack ctx buf) = decoded (drain (decode unpack) measure ctx buf.str) := by
  induction size : measure ctx buf.str using Nat.strongRecOn generalizing ctx buf with
  | _ size inductionHypothesis =>
    have outcomes := parse_decodes unpack ctx buf
    rw [parseAll.eq_def]
    split
    next after left called =>
      rw [called] at outcomes
      rw [drain_wait outcomes.symm]
      rfl
    next after left called =>
      rw [called] at outcomes
      have less := parse_progress called (by simp)
      have later := inductionHypothesis _ (size ▸ less) after left rfl
      rw [drain_emit (decode_resumable unpack) outcomes.symm]
      simp only [observe, decoded, Prod.mk.injEq] at later ⊢
      simp only [later, List.map_cons, verdict, and_self]
    next msg after left called =>
      rw [called] at outcomes
      have less := parse_progress called (by simp)
      have later := inductionHypothesis _ (size ▸ less) after left rfl
      rw [drain_emit (decode_resumable unpack) outcomes.symm]
      simp only [observe, decoded, Prod.mk.injEq] at later ⊢
      simp only [later, List.map_cons, verdict, and_self]

/-- The loop over the chunks refines feeding the decoder. -/
theorem parseChunks_feeds (unpack : Bytes → Option μ) (ctx : BusContext) (buf : Buffer)
    (chunks : List Bytes) :
    observe (parseChunks unpack ctx buf chunks) =
      decoded (feed (decode unpack) measure ctx buf.str chunks) := by
  induction chunks generalizing ctx buf with
  | nil => rfl
  | cons chunk chunks inductionHypothesis =>
    have called := parseAll_drains unpack ctx (buf.append chunk)
    rw [Buffer.append_str] at called
    have later := inductionHypothesis (parseAll unpack ctx (buf.append chunk)).2.1
      (parseAll unpack ctx (buf.append chunk)).2.2
    simp only [observe, decoded, Prod.mk.injEq] at called later
    simp only [parseChunks, feed, observe, decoded, Prod.mk.injEq, List.map_append]
    rw [called.2.1, called.2.2] at later
    rw [called.1, called.2.1, ← later.1, ← later.2.1, ← later.2.2]
    exact ⟨rfl, rfl, rfl⟩

/-- From a fresh context and an empty buffer, chunks give what the whole stream
gives. -/
theorem parseChunks_drains (unpack : Bytes → Option μ) (chunks : List Bytes) :
    observe (parseChunks unpack fresh .fresh chunks) =
      decoded (drain (decode unpack) measure fresh chunks.flatten) := by
  rw [parseChunks_feeds, Buffer.fresh_str,
    feed_flatten (decode_resumable unpack) fresh [] chunks (decode_fresh_quiet unpack),
    List.nil_append]

/-- A stream cut into whole frames, each with the magic number, and a tail that is
too short to be one. -/
inductive Framed : Bytes → List Bytes → Bytes → Prop
  | tail (rest : Bytes) (short : rest.length < MsgHeader.size ∨
      (MsgHeader.ofBytes rest).magic = kMsgMagic ∧
        rest.length < MsgHeader.size + (MsgHeader.ofBytes rest).length.toNat) :
      Framed rest [] rest
  | frame (header : MsgHeader) (magic : header.magic = kMsgMagic) (body : Bytes)
      (sized : body.length = header.length.toNat) {more : Bytes} {bodies : List Bytes}
      {rest : Bytes} (framed : Framed more bodies rest) :
      Framed (header.toBytes ++ (body ++ more)) (body :: bodies) rest

/-- Between frames, a header with the magic number and the bytes it announces are
taken off, and `Unpack` gets these bytes. -/
theorem decode_frame (unpack : Bytes → Option μ) {ctx : BusContext} (idle : ctx.state_ = .kHeader)
    (header : MsgHeader) (magic : header.magic = kMsgMagic) (input : Bytes)
    (whole : header.length.toNat ≤ input.length) :
    ctx.decode unpack (header.toBytes ++ input) =
      .emit (unpack (input.take header.length.toNat)) { ctx with header_ := header }
        (input.drop header.length.toNat) := by
  have dropped : (header.toBytes ++ input).drop MsgHeader.size = input :=
    List.drop_left' (MsgHeader.toBytes_length header)
  unfold decode
  simp only [idle]
  rw [if_neg (by rw [List.length_append, MsgHeader.toBytes_length]; omega),
    MsgHeader.ofBytes_toBytes, if_neg (fun bad => bad magic), dropped]
  unfold decodeBody
  rw [if_neg (by dsimp only; omega)]

/-- Nothing is taken off a tail. -/
theorem decode_tail (unpack : Bytes → Option μ) {ctx : BusContext} (idle : ctx.state_ = .kHeader)
    {rest : Bytes} (short : rest.length < MsgHeader.size ∨
      (MsgHeader.ofBytes rest).magic = kMsgMagic ∧
        rest.length < MsgHeader.size + (MsgHeader.ofBytes rest).length.toNat) :
    ∃ after left, ctx.decode unpack rest = .wait after left := by
  unfold decode
  simp only [idle]
  split
  next => exact ⟨_, _, rfl⟩
  next present =>
    obtain ⟨magic, short⟩ := short.resolve_left present
    rw [if_neg (fun bad => bad magic)]
    unfold decodeBody
    rw [if_pos (by rw [List.length_drop]; dsimp only; omega)]
    exact ⟨_, _, rfl⟩

/-- Draining a framed stream applies `Unpack` to the bodies in order. -/
theorem drain_framed (unpack : Bytes → Option μ) {stream rest : Bytes} {bodies : List Bytes}
    (framed : Framed stream bodies rest) (ctx : BusContext) (idle : ctx.state_ = .kHeader) :
    (drain (decode unpack) measure ctx stream).1 = bodies.map unpack := by
  induction framed generalizing ctx with
  | tail rest short =>
    obtain ⟨after, left, waits⟩ := decode_tail unpack idle short
    rw [drain_wait waits]
    rfl
  | @frame header magic body sized more bodies rest framed inductionHypothesis =>
    have emits := decode_frame unpack idle header magic (body ++ more)
      (by rw [List.length_append]; omega)
    rw [← sized, List.take_left, List.drop_left] at emits
    rw [drain_emit (decode_resumable unpack) emits, List.map_cons,
      inductionHypothesis { ctx with header_ := header } idle]

/-- The header that announces a body. -/
def headerOf (body : Bytes) : MsgHeader := ⟨kMsgMagic, UInt32.ofNat body.length + 1⟩

/-- A header never announces more than the body and its NUL, and announces all of
it exactly when a word can hold the length. -/
theorem headerOf_length (body : Bytes) :
    (headerOf body).length.toNat ≤ (body ++ [0]).length ∧
      ((headerOf body).length.toNat = (body ++ [0]).length ↔ body.length + 1 < 2 ^ 32) := by
  simp only [headerOf, UInt32.toNat_add, UInt32.toNat_ofNat', List.length_append,
    List.length_singleton]
  have one : (1 : UInt32).toNat = 1 := rfl
  omega

/-- The frames of some bodies, one after the other. -/
def framesOf (bodies : List Bytes) : Bytes := (bodies.map frameOf).flatten

theorem framesOf_cons (body : Bytes) (bodies : List Bytes) :
    framesOf (body :: bodies) = (headerOf body).toBytes ++ ((body ++ [0]) ++ framesOf bodies) := by
  rw [framesOf, List.map_cons, List.flatten_cons, frameOf_eq, List.append_assoc]
  rfl

/-- Draining the frames of bodies that fit gives these bodies and leaves
nothing. -/
theorem drain_framesOf (unpack : Bytes → Option μ) {bodies : List Bytes}
    (fit : ∀ body ∈ bodies, body.length + 1 < 2 ^ 32) (ctx : BusContext)
    (idle : ctx.state_ = .kHeader) :
    ∃ after : BusContext, after.state_ = .kHeader ∧
      drain (decode unpack) measure ctx (framesOf bodies) =
        (bodies.map fun body => unpack (body ++ [0]), after, []) := by
  induction bodies generalizing ctx with
  | nil =>
    refine ⟨ctx, idle, drain_wait ?_⟩
    unfold decode
    simp only [idle]
    rfl
  | cons body bodies inductionHypothesis =>
    have exact_ := (headerOf_length body).2.mpr (fit body (by simp))
    have emits := decode_frame unpack idle (headerOf body) rfl
      ((body ++ [0]) ++ framesOf bodies) (by rw [List.length_append]; omega)
    rw [exact_, List.take_left, List.drop_left] at emits
    obtain ⟨after, waits, drained⟩ := inductionHypothesis
      (fun body member => fit body (by simp [member])) { ctx with header_ := headerOf body } idle
    refine ⟨after, waits, ?_⟩
    rw [framesOf_cons, drain_emit (decode_resumable unpack) emits, drained]
    rfl

/-- If the bytes that are unpacked are the bodies, the bodies fit. The first frame
that does not fit would give a body that is too short. -/
theorem fit_of_drain {bodies : List Bytes} (ctx : BusContext) (idle : ctx.state_ = .kHeader)
    (drained : (drain (decode (some : Bytes → Option Bytes)) measure ctx
      (framesOf bodies)).1 = bodies.map fun body => some (body ++ [0])) :
    ∀ body ∈ bodies, body.length + 1 < 2 ^ 32 := by
  induction bodies generalizing ctx with
  | nil => simp
  | cons body bodies inductionHypothesis =>
    obtain ⟨most, fits⟩ := headerOf_length body
    have emits := decode_frame (some : Bytes → Option Bytes) idle (headerOf body) rfl
      ((body ++ [0]) ++ framesOf bodies) (by rw [List.length_append]; omega)
    rw [framesOf_cons, drain_emit (decode_resumable _) emits, List.map_cons,
      List.cons.injEq] at drained
    have length := congrArg List.length (Option.some.inj drained.1)
    rw [List.length_take, List.length_append] at length
    have whole : (headerOf body).length.toNat = (body ++ [0]).length := by omega
    rw [whole, List.drop_left] at drained
    have rest := inductionHypothesis { ctx with header_ := headerOf body } idle drained.2
    intro other member
    rcases List.mem_cons.mp member with rfl | member
    · exact fits.mp whole
    · exact rest other member

/-- Chunks give the results, the context and the bytes left over that the whole
stream gives; on a stream of frames these are the results for the bodies. -/
def ChunksAgree (chunks : List Bytes) : Prop :=
  ∀ (μ : Type) (unpack : Bytes → Option μ),
    observe (parseChunks unpack fresh .fresh chunks) =
      observe (parseAll unpack fresh (Buffer.fresh.append chunks.flatten)) ∧
    ∀ bodies tail, Framed chunks.flatten bodies tail →
      (parseChunks unpack fresh .fresh chunks).1 = bodies.map fun body => verdict (unpack body)

/-- Whatever `Unpack` does, it is applied to each body with its NUL byte, in
order; the buffer is empty in the end and the context between two frames. -/
def Recovers (bodies chunks : List Bytes) : Prop :=
  ∀ (μ : Type) (unpack : Bytes → Option μ),
    let called := parseChunks unpack fresh .fresh chunks
    called.1 = bodies.map (fun body => verdict (unpack (body ++ [0]))) ∧
      called.2.1.state_ = .kHeader ∧ called.2.2.readableBytes = 0

theorem chunksAgree (chunks : List Bytes) : ChunksAgree chunks := by
  intro μ unpack
  have cut := parseChunks_drains unpack chunks
  refine ⟨?_, ?_⟩
  · rw [cut, parseAll_drains, Buffer.append_str, Buffer.fresh_str, List.nil_append]
  · intro bodies tail framed
    have results := drain_framed unpack framed fresh rfl
    simp only [observe, decoded, Prod.mk.injEq] at cut
    rw [cut.1, results, List.map_map]
    rfl

/-- Bodies are recovered exactly when they fit. -/
theorem recovers_iff {bodies chunks : List Bytes} (sent : chunks.flatten = framesOf bodies) :
    Recovers bodies chunks ↔ ∀ body ∈ bodies, body.length + 1 < 2 ^ 32 := by
  constructor
  · intro recovers
    obtain ⟨results, _, _⟩ := recovers Bytes some
    have cut := parseChunks_drains (some : Bytes → Option Bytes) chunks
    simp only [observe, decoded, Prod.mk.injEq] at cut
    rw [cut.1, sent] at results
    have same : (drain (decode (some : Bytes → Option Bytes)) measure fresh (framesOf bodies)).1 =
        bodies.map fun body => some (body ++ [0]) := by
      have injective : Function.Injective (verdict : Option Bytes → ParseResult Bytes) := by
        intro one other equal
        cases one <;> cases other <;> simp_all [verdict]
      refine List.map_injective_iff.mpr injective ?_
      rw [results, List.map_map]
      rfl
    exact fit_of_drain fresh rfl same
  · intro fit μ unpack
    have cut := parseChunks_drains unpack chunks
    obtain ⟨after, idle, drained⟩ := drain_framesOf unpack fit fresh rfl
    rw [sent, drained] at cut
    simp only [observe, decoded, Prod.mk.injEq, List.map_map] at cut
    exact ⟨cut.1, by rw [cut.2.1, idle], by rw [Buffer.readableBytes_eq, cut.2.2]; rfl⟩

/-- Decoding does not depend on the chunks, and recovers the bodies of the frames
that were sent exactly when each of them fits into a word with its NUL byte. -/
theorem parse_inverts_framing (lib : JsonLibrary) (msgs : List Msg) (bodies chunks : List Bytes)
    (packed : List.Forall₂ (fun msg body => JsonPacker.pack lib msg = .ok body) msgs bodies)
    (sent : chunks.flatten = framesOf bodies) :
    ((∀ stream : List Bytes, ChunksAgree stream) ∧ bodies.length = msgs.length ∧
      Recovers bodies chunks) ↔ ∀ body ∈ bodies, body.length + 1 < 2 ^ 32 := by
  rw [recovers_iff sent]
  exact ⟨fun claim => claim.2.2, fun fit => ⟨chunksAgree, packed.length_eq.symm, fit⟩⟩

/-- The frame of a new message, cut inside its header. -/
theorem fresh_message_recovered :
    ∃ body, JsonPacker.pack .canonical Msg.fresh = .ok body ∧
      Recovers [body] [(frameOf body).take 5, (frameOf body).drop 5] := by
  obtain ⟨body, packed⟩ := JsonPacker.pack_encoded JsonLibrary.canonical_faithful
    Msg.Built.fresh.encoded
  refine ⟨body, packed, ?_⟩
  have sent : [(frameOf body).take 5, (frameOf body).drop 5].flatten = framesOf [body] := by
    simp [framesOf]
  have fits : ∀ other ∈ [body], other.length + 1 < 2 ^ 32 := by
    rw [JsonPacker.pack_canonical packed]
    decide
  exact ((parse_inverts_framing .canonical [Msg.fresh] [body] _ (.cons packed .nil) sent).mpr
    fits).2.2

/-- A message with a parameter of four gigabytes. -/
def hugeMessage : Msg := Msg.fresh.setParam (text "k") (List.replicate (2 ^ 32) (byte 'a'))

/-- The frame of a message that is too long announces too few bytes. -/
theorem huge_message_cut :
    JsonLibrary.canonical.Faithful ∧ hugeMessage.Built ∧
      ∃ body, JsonPacker.pack .canonical hugeMessage = .ok body ∧
        ¬ Recovers [body] [frameOf body] := by
  have built : hugeMessage.Built :=
    Msg.Built.fresh.setParam (by decide) (Utf8.valid_replicate (by decide) _)
  obtain ⟨body, packed⟩ := JsonPacker.pack_encoded JsonLibrary.canonical_faithful built.encoded
  refine ⟨JsonLibrary.canonical_faithful, built, body, packed, ?_⟩
  have listed : (text "k", List.replicate (2 ^ 32) (byte 'a')) ∈
      hugeMessage.params_.values_.toList := by
    rw [Std.ExtTreeMap.mem_toList_iff_getElem?_eq_some, hugeMessage, Msg.setParam]
    dsimp only
    rw [Params.set_key _ _ (by decide), Std.ExtTreeMap.getElem?_insert_self]
  have long := JsonPacker.canonical_length packed listed
  rw [List.length_replicate] at long
  rw [recovers_iff (by simp [framesOf])]
  intro fit
  have short := fit body (by simp)
  omega

end BusContext

end Cppboot
