import Mathlib.Logic.Relation
import Mathlib.Data.List.Basic

/-! # Machines fed with a list of inputs

A machine consumes one input after another. A step may fail, but it leaves a
state behind in both cases, so a failed step is the last one and the state it
stopped in can still be inspected. The rules below package the inductions over
runs: what every step keeps holds in every state reached, and when a step that
misses a condition is visible in the state it leaves, the condition is exact.
-/

namespace AssistedDump.Machine

variable {ε σ ι α : Type}

/-- The state a computation leaves behind, whether it returned or failed. -/
def after (x : EStateM ε σ α) (s : σ) : σ :=
  match x.run s with
  | .ok _ t => t
  | .error _ t => t

theorem after_ok {x : EStateM ε σ α} {s t : σ} {a : α} (h : x.run s = .ok a t) :
    after x s = t := by
  simp only [after, h]

theorem after_error {x : EStateM ε σ α} {s t : σ} {e : ε} (h : x.run s = .error e t) :
    after x s = t := by
  simp only [after, h]

theorem after_congr {x y : EStateM ε σ α} {s t : σ} (h : x.run s = y.run t) :
    after x s = after y t := by
  simp only [after, h]

variable (step : ι → EStateM ε σ Unit)

/-- Every state of a run, the one a failing step stops in included. -/
def visited : σ → List ι → List σ
  | s, [] => [s]
  | s, i :: is => s :: match (step i).run s with
      | .ok _ t => visited t is
      | .error _ t => [t]

/-- Every step of a run, as the state it starts from and its input. -/
def taken : σ → List ι → List (σ × ι)
  | _, [] => []
  | s, i :: is => (s, i) :: match (step i).run s with
      | .ok _ t => taken t is
      | .error _ _ => []

/-- All inputs are consumed and no step fails. -/
inductive Reaches : σ → List ι → σ → Prop where
  | refl : Reaches s [] s
  | step : (step i).run s = .ok () t → Reaches t is u → Reaches s (i :: is) u

variable {step}

/-- The states of a run are its start and what its steps leave behind. -/
theorem visited_iff {G : σ → Prop} {s : σ} {is : List ι} :
    (∀ t ∈ visited step s is, G t) ↔ G s ∧ ∀ p ∈ taken step s is, G (after (step p.2) p.1) := by
  induction is generalizing s with
  | nil => simp [visited, taken]
  | cons i is ih =>
      cases h : (step i).run s with
      | ok _ t => simp only [visited, taken, h, List.forall_mem_cons, ih, after_ok h]
      | error _ t =>
          simp only [visited, taken, h, List.forall_mem_cons, List.not_mem_nil, false_implies,
            implies_true, and_true, after_error h]

/-- The exactness rule. `I` is what steps maintain while they meet `C`, and in a state
    with `I` a step has `G` exactly if it meets `C`. -/
theorem taken_iff {I : σ → Prop} {P : ι → Prop} {G C : σ → ι → Prop} {s : σ} {is : List ι}
    (start : I s) (inputs : ∀ i ∈ is, P i)
    (keeps : ∀ t i, P i → I t → C t i → I (after (step i) t))
    (exact_ : ∀ t i, P i → I t → (G t i ↔ C t i)) :
    (∀ p ∈ taken step s is, G p.1 p.2) ↔ ∀ p ∈ taken step s is, C p.1 p.2 := by
  induction is generalizing s with
  | nil => simp [taken]
  | cons i is ih =>
      obtain ⟨first, rest⟩ := List.forall_mem_cons.mp inputs
      simp only [taken, List.forall_mem_cons, exact_ s i first start]
      apply and_congr_right
      intro met
      have next := keeps s i first start met
      cases h : (step i).run s with
      | ok _ t =>
          rw [after_ok h] at next
          exact ih next rest
      | error _ t => simp

theorem taken_input {s : σ} {is : List ι} : ∀ p ∈ taken step s is, p.2 ∈ is := by
  induction is generalizing s with
  | nil => simp [taken]
  | cons i is ih =>
      intro p member
      simp only [taken, List.mem_cons] at member
      cases member with
      | inl first =>
          subst p
          exact List.mem_cons_self
      | inr later =>
          cases h : (step i).run s with
          | ok _ t =>
              simp only [h] at later
              exact List.mem_cons_of_mem i (ih p later)
          | error _ t => simp [h] at later

namespace Reaches

/-- The progress rule: where every step of a run returns and keeps an invariant, the run
    consumes all its inputs and the invariant holds in every state of it. -/
theorem of_progress {I : σ → Prop} {s : σ} {is : List ι} (start : I s)
    (steps : ∀ p ∈ Machine.taken step s is, I p.1 → ∃ t, (step p.2).run p.1 = .ok () t ∧ I t) :
    (∃ t, Reaches step s is t) ∧ ∀ t ∈ Machine.visited step s is, I t := by
  induction is generalizing s with
  | nil => exact ⟨⟨s, .refl⟩, by simpa [Machine.visited] using start⟩
  | cons i is ih =>
      obtain ⟨t, run, kept⟩ := steps (s, i) (by simp [Machine.taken]) start
      simp only [Machine.taken, run, List.forall_mem_cons] at steps
      obtain ⟨⟨u, rest⟩, all⟩ := ih kept steps.2
      refine ⟨⟨u, .step run rest⟩, ?_⟩
      simpa only [Machine.visited, run, List.forall_mem_cons] using ⟨start, all⟩

/-- What the steps of a run keep, each from the state it is taken in. -/
theorem of_taken {I : σ → Prop} {s t : σ} {is : List ι} (run : Reaches step s is t) (start : I s)
    (keeps : ∀ p ∈ Machine.taken step s is, ∀ u, I p.1 → (step p.2).run p.1 = .ok () u → I u) :
    I t := by
  induction run with
  | refl => exact start
  | @step i s u is t h _ ih =>
      have first := keeps (s, i) (by simp [Machine.taken]) u start h
      apply ih first
      intro p later
      apply keeps p
      simpa only [Machine.taken, h, List.mem_cons] using Or.inr later

theorem invariant {I : σ → Prop} {s t : σ} {is : List ι} (run : Reaches step s is t)
    (start : I s) (keeps : ∀ s i t, I s → (step i).run s = .ok () t → I t) : I t :=
  run.of_taken start fun p _ u => keeps p.1 p.2 u

theorem unique {s t u : σ} {is : List ι} (first : Reaches step s is t)
    (second : Reaches step s is u) : t = u := by
  induction first with
  | refl => cases second; rfl
  | step h _ ih =>
      cases second with
      | step h' rest =>
          rw [h] at h'
          cases h'
          exact ih rest

/-- Every input of a run is consumed somewhere. -/
theorem each {s t : σ} {is : List ι} (run : Reaches step s is t) :
    ∀ i ∈ is, ∃ u v, (step i).run u = .ok () v := by
  induction run with
  | refl => simp
  | step h _ ih => exact List.forall_mem_cons.mpr ⟨⟨_, _, h⟩, ih⟩

/-- A step that does what another one does with the image of its input. -/
theorem of_map {κ : Type} {other : κ → EStateM ε σ Unit} {f : ι → κ} {s t : σ} {is : List ι}
    (same : ∀ i ∈ is, ∀ u, (step i).run u = (other (f i)).run u)
    (run : Reaches other s (is.map f) t) : Reaches step s is t := by
  induction is generalizing s with
  | nil => cases run; exact .refl
  | cons i is ih =>
      obtain ⟨first, rest⟩ := List.forall_mem_cons.mp same
      cases run with
      | step h run => exact .step ((first s).trans h) (ih rest run)

/-- One run after another. -/
theorem append {s t u : σ} {is js : List ι} (first : Reaches step s is t)
    (second : Reaches step t js u) : Reaches step s (is ++ js) u := by
  induction first with
  | refl => exact second
  | step h _ ih => exact .step h (ih second)

/-- The last state of a run is one of its states. -/
theorem visited {s t : σ} {is : List ι} (run : Reaches step s is t) :
    t ∈ Machine.visited step s is := by
  induction run with
  | refl => simp [Machine.visited]
  | step h _ ih => simpa only [Machine.visited, h, List.mem_cons] using Or.inr ih

/-- The step taken in the state a run has reached. -/
theorem taken {s t : σ} {is : List ι} (run : Reaches step s is t) (i : ι) (js : List ι) :
    (t, i) ∈ Machine.taken step s (is ++ i :: js) := by
  induction run with
  | refl => simp [Machine.taken]
  | step h _ ih => simpa only [List.cons_append, Machine.taken, h, List.mem_cons] using Or.inr ih

end Reaches

end AssistedDump.Machine
