import Mathlib.Order.Nat
import Cppboot.Incremental
import Cppboot.Pacing

/-!
# Calling a resumable decoder once for every chunk

A decoder that is called only once after each chunk can fall behind: when two
results are due it returns the first, and the second waits for another chunk. On
a stream of units, each of which the decoder turns into one result, the results
are those of the units served by `Pacing.serve`, where a unit is ready when its
last symbol has arrived and every chunk is one moment. So all results come out
exactly when the ends of the units are paced by the ends of the chunks.
-/

namespace Cppboot.Incremental

open Pacing

universe u v w
variable {α : Type u} {σ : Type v} {ρ : Type w}

/-- Append each chunk to the unconsumed input and call the decoder once. -/
def poll (step : σ → List α → Outcome α σ ρ) :
    σ → List α → List (List α) → List ρ × σ × List α
  | state, input, [] => ([], state, input)
  | state, input, chunk :: chunks =>
    match step state (input ++ chunk) with
    | .wait after rest => poll step after rest chunks
    | .emit result after rest =>
      let later := poll step after rest chunks
      (result :: later.1, later.2)

/-- Where the pieces end in their concatenation, which begins at an offset. -/
def ends : Nat → List (List α) → List Nat
  | _, [] => []
  | offset, piece :: pieces => (offset + piece.length) :: ends (offset + piece.length) pieces

theorem ends_cons (offset : Nat) (piece : List α) (pieces : List (List α)) :
    ends offset (piece :: pieces) =
      (offset + piece.length) :: ends (offset + piece.length) pieces := rfl

/-- Every piece has an end. -/
theorem ends_length (offset : Nat) (pieces : List (List α)) :
    (ends offset pieces).length = pieces.length := by
  induction pieces generalizing offset with
  | nil => rfl
  | cons piece pieces inductionHypothesis => simp [ends, inductionHypothesis]

/-- No piece ends in front of where the first begins. -/
theorem ends_above (offset : Nat) (pieces : List (List α)) :
    ∀ last ∈ ends offset pieces, offset ≤ last := by
  induction pieces generalizing offset with
  | nil => simp [ends]
  | cons piece pieces inductionHypothesis =>
    intro last member
    rcases List.mem_cons.mp member with rfl | member
    · omega
    · have := inductionHypothesis (offset + piece.length) last member
      omega

/-- The pieces end one after the other. -/
theorem ends_sorted (offset : Nat) (pieces : List (List α)) :
    (ends offset pieces).Pairwise (· ≤ ·) := by
  induction pieces generalizing offset with
  | nil => exact .nil
  | cons piece pieces inductionHypothesis =>
    exact .cons (ends_above _ pieces) (inductionHypothesis _)

/-- The decoder turns the unit into the result whenever it is called between
units, and is between units again. -/
def Decodes (step : σ → List α → Outcome α σ ρ) (Idle : σ → Prop) (unit : List α)
    (result : ρ) : Prop :=
  ∀ state, Idle state → ∀ more, ∃ after, Idle after ∧
    step state (unit ++ more) = .emit result after more

section Polling

variable {step : σ → List α → Outcome α σ ρ} {measure : σ → List α → Nat} {Idle : σ → Prop}

/-- Before the end of a unit the decoder waits. A result would not change with the
rest of the unit, and the result for the whole unit leaves nothing over. -/
theorem waits_within (resumable : Resumable step measure) {unit front rest : List α} {result : ρ}
    (decodes : Decodes step Idle unit result) (cut : unit = front ++ rest) (short : rest ≠ [])
    {state : σ} (idle : Idle state) : ∃ after left, step state front = .wait after left := by
  cases called : step state front with
  | wait after left => exact ⟨after, left, rfl⟩
  | emit early after left =>
    obtain ⟨final, _, whole⟩ := decodes state idle []
    have extended := resumable.emit_append rest called
    rw [List.append_nil, cut, extended] at whole
    injection whole with _ _ nothing
    exact absurd (List.append_eq_nil_iff.mp nothing).2 short

/-- A decoder called once for every chunk of a stream of units returns the
results of the units that are served in time.

The invariant of the induction over the chunks: the decoder goes on from its
state and input exactly as it would from some state between units and the bytes
seen since the last unit. -/
theorem poll_serves (resumable : Resumable step measure)
    (starts : ∀ state, Idle state → ∃ after left, step state [] = .wait after left)
    (chunks : List (List α)) (units : List (List α × ρ))
    (decodes : ∀ unit ∈ units, Decodes step Idle unit.1 unit.2)
    (state base : σ) (input seen : List α) (offset : Nat) (idle : Idle base)
    (resumes : ∀ more, step state (input ++ more) = step base (seen ++ more))
    (stream : seen ++ chunks.flatten = (units.map Prod.fst).flatten) :
    (poll step state input chunks).1 =
      (units.map Prod.snd).take (units.length -
        (serve (ends offset (units.map Prod.fst))
          (ends (offset + seen.length) chunks)).length) := by
  induction chunks generalizing units state base input seen offset with
  | nil =>
    rw [show (ends (offset + seen.length) ([] : List (List α))) = [] from rfl, serve,
      ends_length, List.length_map, Nat.sub_self, List.take_zero]
    rfl
  | cons chunk chunks inductionHypothesis =>
    have arrived : offset + seen.length + chunk.length = offset + (seen ++ chunk).length := by
      rw [List.length_append]
      omega
    rw [List.flatten_cons, ← List.append_assoc] at stream
    rw [poll, resumes chunk, ends_cons, arrived]
    cases units with
    | nil =>
      obtain ⟨nothing, _⟩ := List.append_eq_nil_iff.mp stream
      obtain ⟨after, left, waits⟩ := starts base idle
      rw [nothing, waits]
      have later := inductionHypothesis [] (by simp) after base left [] offset idle
        (fun more => (resumable.wait_append more waits).symm) (by rw [← stream, nothing])
      refine later.trans ?_
      simp
    | cons unit units =>
      obtain ⟨bytes, result⟩ := unit
      rw [List.map_cons, List.flatten_cons] at stream
      rw [List.map_cons, List.map_cons, ends_cons]
      by_cases ready : bytes.length ≤ (seen ++ chunk).length
      · obtain ⟨left, whole⟩ : bytes <+: seen ++ chunk :=
          List.prefix_of_prefix_length_le (List.prefix_append _ _)
            (stream ▸ List.prefix_append _ _) ready
        obtain ⟨after, again, emits⟩ := decodes (bytes, result) (by simp) base idle left
        rw [← whole, List.append_assoc] at stream
        have later := inductionHypothesis units (fun unit member => decodes unit (by simp [member]))
          after after left left (offset + bytes.length) again (fun _ => rfl)
          (List.append_cancel_left stream)
        rw [← whole, emits, serve_ready (by dsimp only; rw [List.length_append]; omega),
          List.length_append, ← Nat.add_assoc]
        dsimp only
        rw [later, List.length_cons, Nat.succ_sub, List.take_succ_cons]
        have most := serve_length_le (ends (offset + bytes.length) (units.map Prod.fst))
          (ends (offset + bytes.length + left.length) chunks)
        rwa [ends_length, List.length_map] at most
      · obtain ⟨rest, cut⟩ : seen ++ chunk <+: bytes :=
          List.prefix_of_prefix_length_le (List.prefix_append _ _)
            (stream.symm ▸ List.prefix_append _ _) (by omega)
        have short : rest ≠ [] := by
          intro nothing
          rw [nothing, List.append_nil] at cut
          rw [cut] at ready
          exact ready (Nat.le_refl _)
        obtain ⟨after, left, waits⟩ := waits_within resumable
          (decodes (bytes, result) (by simp)) cut.symm short idle
        have later := inductionHypothesis ((bytes, result) :: units) decodes after base left
          (seen ++ chunk) offset idle (fun more => (resumable.wait_append more waits).symm) stream
        rw [waits, serve_early (by dsimp only; omega)]
        exact later

/-- All results are returned exactly when the units are paced by the chunks. -/
theorem poll_complete_iff (resumable : Resumable step measure)
    (starts : ∀ state, Idle state → ∃ after left, step state [] = .wait after left)
    (chunks : List (List α)) (units : List (List α × ρ))
    (decodes : ∀ unit ∈ units, Decodes step Idle unit.1 unit.2) (state : σ) (idle : Idle state)
    (stream : chunks.flatten = (units.map Prod.fst).flatten) :
    (poll step state [] chunks).1 = units.map Prod.snd ↔
      Paced (ends 0 (units.map Prod.fst)) (ends 0 chunks) := by
  have polled := poll_serves resumable starts chunks units decodes state state [] [] 0 idle
    (fun _ => rfl) stream
  rw [← serve_eq_nil_iff (ends_sorted _ _) (ends_sorted _ _), polled]
  have most := serve_length_le (ends 0 (units.map Prod.fst)) (ends 0 chunks)
  rw [ends_length, List.length_map] at most
  constructor
  · intro all
    have length := congrArg List.length all
    rw [List.length_take, List.length_map] at length
    refine List.length_eq_zero_iff.mp ?_
    simp only [List.length_nil, Nat.add_zero] at length
    omega
  · intro none
    simp only [List.length_nil, Nat.add_zero, none, Nat.sub_zero]
    exact List.take_of_length_le (by rw [List.length_map])

end Polling

end Cppboot.Incremental
