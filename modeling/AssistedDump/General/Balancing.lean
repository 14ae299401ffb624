import Mathlib.Algebra.BigOperators.Group.Finset.Piecewise
import Mathlib.Tactic.Common

/-! # Handing jobs to the least busy

Every worker has a backlog. A job goes to a worker whose backlog is least, and any
worker with a backlog may finish a job at any time. Nothing is said about which of
several least backlogs is taken. A worker gets ahead of another one by more than a
job only while the other one finishes jobs.
-/

namespace AssistedDump.Balancing

inductive Event (ι : Type) where
  | dispatched (i : ι)
  | finished (i : ι)
  deriving Repr, DecidableEq

variable {ι : Type} [DecidableEq ι]

inductive Step : (ι → Nat) → Event ι → (ι → Nat) → Prop where
  | dispatched (i : ι) : (∀ j, q i ≤ q j) → Step q (.dispatched i) (Function.update q i (q i + 1))
  | finished (i : ι) (k : Nat) : q i = k + 1 → Step q (.finished i) (Function.update q i k)

/-- A run with its events, the last one at the end. -/
inductive Run (start : ι → Nat) : List (Event ι) → (ι → Nat) → Prop where
  | refl : Run start [] start
  | step : Run start events q → Step q e q' → Run start (events ++ [e]) q'

def dispatches (events : List (Event ι)) : Nat :=
  events.countP fun
    | .dispatched _ => true
    | .finished _ => false

def finishes (events : List (Event ι)) : Nat :=
  events.countP fun
    | .dispatched _ => false
    | .finished _ => true

/-- The jobs `j` has finished since the last one was dispatched to `i`. -/
def finishedSince (i j : ι) (events : List (Event ι)) : Nat :=
  events.foldl (fun count e =>
    match e with
    | .dispatched k => if k = i then 0 else count
    | .finished k => if k = j then count + 1 else count) 0

theorem finishedSince_dispatched (i j k : ι) (events : List (Event ι)) :
    finishedSince i j (events ++ [.dispatched k]) = if k = i then 0 else finishedSince i j events := by
  simp only [finishedSince, List.foldl_append, List.foldl_cons, List.foldl_nil]

theorem finishedSince_finished (i j k : ι) (events : List (Event ι)) :
    finishedSince i j (events ++ [.finished k]) =
      if k = j then finishedSince i j events + 1 else finishedSince i j events := by
  simp only [finishedSince, List.foldl_append, List.foldl_cons, List.foldl_nil]

theorem finishedSince_le (i j : ι) (events : List (Event ι)) :
    finishedSince i j events ≤ finishes events := by
  induction events using List.reverseRecOn with
  | nil => exact Nat.le_refl 0
  | append_singleton events e ih =>
      cases e with
      | dispatched k =>
          have same : finishes (events ++ [.dispatched k]) = finishes events := by
            simp [finishes]
          rw [finishedSince_dispatched, same]
          split <;> omega
      | finished k =>
          have more : finishes (events ++ [.finished k]) = finishes events + 1 := by
            simp [finishes]
          rw [finishedSince_finished, more]
          split <;> omega

theorem sum_update [Fintype ι] (q : ι → Nat) (i : ι) (b : Nat) :
    ∑ j, Function.update q i b j + q i = ∑ j, q j + b := by
  rw [Finset.sum_update_of_mem (Finset.mem_univ i)]
  have split := Finset.add_sum_erase Finset.univ q (Finset.mem_univ i)
  rw [Finset.sdiff_singleton_eq_erase]
  omega

theorem le_dispatched (q : ι → Nat) (i j : ι) : q j ≤ Function.update q i (q i + 1) j := by
  by_cases here : j = i
  · subst j
    rw [Function.update_self]
    exact Nat.le_succ _
  · rw [Function.update_of_ne here]

theorem finished_le {q : ι → Nat} {i : ι} {k : Nat} (busy : q i = k + 1) (j : ι) :
    Function.update q i k j ≤ q j := by
  by_cases here : j = i
  · subst j
    rw [Function.update_self]
    omega
  · rw [Function.update_of_ne here]

namespace Run

variable {start q : ι → Nat} {events : List (Event ι)}

/-- No job is lost or counted twice. -/
theorem total [Fintype ι] (run : Run start events q) :
    ∑ i, q i + finishes events = ∑ i, start i + dispatches events := by
  induction run with
  | refl => rfl
  | @step events q e q' _ step ih =>
      cases step with
      | dispatched i least =>
          have sum := sum_update q i (q i + 1)
          have more : dispatches (events ++ [.dispatched i]) = dispatches events + 1 := by
            simp [dispatches]
          have same : finishes (events ++ [.dispatched i]) = finishes events := by
            simp [finishes]
          omega
      | finished i k busy =>
          have sum := sum_update q i k
          have same : dispatches (events ++ [.finished i]) = dispatches events := by
            simp [dispatches]
          have more : finishes (events ++ [.finished i]) = finishes events + 1 := by
            simp [finishes]
          omega

/-- The balance of two workers, from a start where all backlogs are within one job. -/
theorem behind (run : Run start events q) (level : ∀ i j, start i ≤ start j + 1) (i j : ι) :
    q i ≤ q j + 1 + finishedSince i j events := by
  induction run with
  | refl => exact Nat.le_add_right_of_le (level i j)
  | @step events q e q' _ step ih =>
      cases step with
      | dispatched k least =>
          rw [finishedSince_dispatched]
          have grown := le_dispatched q k j
          by_cases here : k = i
          · subst k
            have first := least j
            rw [if_pos rfl, Function.update_self]
            omega
          · rw [if_neg here, Function.update_of_ne (Ne.symm here)]
            omega
      | finished k m busy =>
          rw [finishedSince_finished]
          have shrunk := finished_le busy i
          by_cases here : k = j
          · subst k
            rw [if_pos rfl, Function.update_self]
            omega
          · rw [if_neg here, Function.update_of_ne (Ne.symm here)]
            omega

/-- While no job is finished, backlogs that were equal stay within one job. -/
theorem level (run : Run start events q) (equal : ∀ i j, start i = start j)
    (none : finishes events = 0) (i j : ι) : q i ≤ q j + 1 := by
  have balance := run.behind (fun i j => by rw [equal i j]; exact Nat.le_succ _) i j
  have since := finishedSince_le i j events
  omega

end Run

end AssistedDump.Balancing
