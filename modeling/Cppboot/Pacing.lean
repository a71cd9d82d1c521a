import Mathlib.Data.List.Basic
import Mathlib.Order.Lattice

/-!
# Serving one job at a time

Jobs stand in a queue in the order in which they become ready. At each of a
sequence of moments the job at the front is served if it is ready by then, and no
more than one. All jobs are served exactly when every job has enough moments: as
many, not before it is ready, as there are jobs from it on.
-/

namespace Cppboot.Pacing

universe u
variable {τ : Type u} [LinearOrder τ]

/-- The jobs left after the moments. A job is given by the time it is ready. -/
def serve : List τ → List τ → List τ
  | jobs, [] => jobs
  | [], _ :: moments => serve [] moments
  | job :: jobs, moment :: moments =>
    if job ≤ moment then serve jobs moments else serve (job :: jobs) moments

/-- Every job has enough moments for itself and the jobs behind it. -/
def Paced (jobs moments : List τ) : Prop :=
  ∀ front job back, jobs = front ++ job :: back →
    back.length + 1 ≤ moments.countP (fun moment => decide (job ≤ moment))

theorem serve_nil (moments : List τ) : serve [] moments = [] := by
  induction moments with
  | nil => rfl
  | cons moment moments inductionHypothesis => exact inductionHypothesis

/-- The first moment serves a job that is ready. -/
theorem serve_ready {job moment : τ} (ready : job ≤ moment) (jobs moments : List τ) :
    serve (job :: jobs) (moment :: moments) = serve jobs moments := by
  rw [serve, if_pos ready]

/-- A moment that is too early serves nothing. -/
theorem serve_early {job moment : τ} (early : ¬ job ≤ moment) (jobs moments : List τ) :
    serve (job :: jobs) (moment :: moments) = serve (job :: jobs) moments := by
  rw [serve, if_neg early]

/-- Serving never adds jobs. -/
theorem serve_length_le (jobs moments : List τ) :
    (serve jobs moments).length ≤ jobs.length := by
  induction moments generalizing jobs with
  | nil => exact Nat.le_refl _
  | cons moment moments inductionHypothesis =>
    cases jobs with
    | nil => exact inductionHypothesis []
    | cons job jobs =>
      by_cases ready : job ≤ moment
      · rw [serve_ready ready]
        exact Nat.le_succ_of_le (inductionHypothesis jobs)
      · rw [serve_early ready]
        exact inductionHypothesis (job :: jobs)

theorem paced_nil (moments : List τ) : Paced [] moments := by
  intro front job back split
  cases front <;> contradiction

/-- A moment before every job is ready is of no use. -/
theorem paced_early {job moment : τ} {jobs moments : List τ}
    (sorted : (job :: jobs).Pairwise (· ≤ ·)) (early : ¬ job ≤ moment) :
    Paced (job :: jobs) (moment :: moments) ↔ Paced (job :: jobs) moments := by
  have before : ∀ other ∈ job :: jobs, ¬ other ≤ moment := by
    intro other member
    rcases List.mem_cons.mp member with rfl | member
    · exact early
    · exact fun ready => early (le_trans (List.rel_of_pairwise_cons sorted member) ready)
  unfold Paced
  refine forall₄_congr fun front other back split => ?_
  have unready := before other (by rw [split]; simp)
  rw [List.countP_cons_of_neg (by simpa using unready)]

/-- Serving the front job keeps enough moments for the others, and gives it the
one it needs.

The moments rise. So if a later job is ready too, it is ready at every moment
that is left, and there are enough of these because there were enough for the
front job. -/
theorem paced_ready {job moment : τ} {jobs moments : List τ}
    (sorted : (job :: jobs).Pairwise (· ≤ ·)) (rising : (moment :: moments).Pairwise (· ≤ ·))
    (ready : job ≤ moment) :
    Paced (job :: jobs) (moment :: moments) ↔ Paced jobs moments := by
  constructor
  · intro paced front other back split
    have enough := paced (job :: front) other back (by rw [split]; rfl)
    by_cases both : other ≤ moment
    · have all : moments.countP (fun moment => decide (other ≤ moment)) = moments.length := by
        rw [List.countP_eq_length]
        intro later member
        exact decide_eq_true (le_trans both (List.rel_of_pairwise_cons rising member))
      have first := paced [] job jobs rfl
      have bound := List.countP_le_length (p := fun moment => decide (job ≤ moment))
        (l := moment :: moments)
      rw [List.length_cons] at bound
      have length := congrArg List.length split
      rw [List.length_append, List.length_cons] at length
      omega
    · rw [List.countP_cons_of_neg (by simpa using both)] at enough
      exact enough
  · intro paced front other back split
    cases front with
    | nil =>
      obtain ⟨rfl, rfl⟩ := List.cons.inj split
      rw [List.countP_cons_of_pos (by simpa using ready), Nat.succ_le_succ_iff]
      cases jobs with
      | nil => exact Nat.zero_le _
      | cons next rest =>
        have enough := paced [] next rest rfl
        have wider : moments.countP (fun moment => decide (next ≤ moment)) ≤
            moments.countP (fun moment => decide (job ≤ moment)) := by
          refine List.countP_mono_left fun later _ due => ?_
          exact decide_eq_true (le_trans (List.rel_of_pairwise_cons sorted (by simp))
            (of_decide_eq_true due))
        rw [List.length_cons]
        omega
    | cons first front =>
      have enough := paced front other back (List.cons.inj split).2
      exact Nat.le_trans enough (List.Sublist.countP_le (List.sublist_cons_self moment moments))

/-- All jobs are served exactly when they are paced. -/
theorem serve_eq_nil_iff {jobs moments : List τ} (sorted : jobs.Pairwise (· ≤ ·))
    (rising : moments.Pairwise (· ≤ ·)) : serve jobs moments = [] ↔ Paced jobs moments := by
  induction moments generalizing jobs with
  | nil =>
    cases jobs with
    | nil => exact ⟨fun _ => paced_nil [], fun _ => rfl⟩
    | cons job jobs =>
      refine ⟨fun served => by contradiction, fun paced => ?_⟩
      have enough := paced [] job jobs rfl
      simp at enough
  | cons moment moments inductionHypothesis =>
    cases jobs with
    | nil => exact ⟨fun _ => paced_nil _, fun _ => serve_nil _⟩
    | cons job jobs =>
      by_cases ready : job ≤ moment
      · rw [serve_ready ready, paced_ready sorted rising ready]
        exact inductionHypothesis sorted.tail rising.tail
      · rw [serve_early ready, paced_early sorted ready]
        exact inductionHypothesis sorted rising.tail

end Cppboot.Pacing
