import AssistedDump.General.Balancing
import AssistedDump.Heavylifting.Dispatch
import Mathlib.Data.Fintype.Basic

/-! # The backlogs of the workers

Calls of `heavylifting_process_frame`, answers of the workers and handled answers in
any order. The queue size of a worker grows by one with a call that has a callback and
shrinks by one when the answer is handled; `set_id` has no callback and does not count.
So the backlogs are those of a dispatch to the least busy worker.
-/

namespace AssistedDump.Dispatch

open CSemantics Machine RomStore ImageDecoder Balancing

variable {Image : Type} {n : MaxRomSize}

/-- `emscripten_get_worker_queue_size` of each worker. -/
def Heavylifting.backlog (h : Heavylifting Image n) (i : Fin nImgdecWorkers) : Nat :=
  (h.imgdecWorkers i).queueSize

/-- What can happen to the module, with the events that count for the backlogs. -/
inductive Step : Heavylifting Image n → List (Event (Fin nImgdecWorkers)) → Heavylifting Image n →
    Prop where
  | call (image : Image) (i : Fin nImgdecWorkers) :
      (heavyliftingProcessFrame image).run h = .ok () h' →
      h'.imgdecWorkers i = (h.imgdecWorkers i).enqueue image → Step h [.dispatched i] h'
  | answer (i : Fin nImgdecWorkers) (image : Image) (rest : List Image) (message : List UInt8) :
      (h.imgdecWorkers i).queue = image :: rest →
      Step h [] (h.setWorker i ((h.imgdecWorkers i).answered rest message))
  | handled (i : Fin nImgdecWorkers) (message : List UInt8) (rest : List (List UInt8)) :
      (h.imgdecWorkers i).responses = message :: rest →
      Step h [.finished i] (h.handle i message rest)

inductive Runs (start : Heavylifting Image n) :
    List (Event (Fin nImgdecWorkers)) → Heavylifting Image n → Prop where
  | refl : Runs start [] start
  | step : Runs start events h → Step h later h' → Runs start (events ++ later) h'

/-- The frame goes to one worker, the lowest one whose queue size is minimal. -/
def Dispatches (h : Heavylifting Image n) : Prop :=
  ∀ image, ∃ i : Fin nImgdecWorkers,
    (∀ j, h.backlog i ≤ h.backlog j) ∧ (∀ j < i, h.backlog i < h.backlog j) ∧
      (heavyliftingProcessFrame image).run h =
        .ok () (h.setWorker i ((h.imgdecWorkers i).enqueue image))

/-- What holds after any run from `heavylifting_init`. -/
structure Balanced (h : Heavylifting Image n) (events : List (Event (Fin nImgdecWorkers))) :
    Prop where
  dispatches : Dispatches h
  total : ∑ i, h.backlog i + finishes events = Balancing.dispatches events
  behind : ∀ i j, h.backlog i ≤ h.backlog j + 1 + finishedSince i j events
  level : (∀ i j, h.backlog i = h.backlog j) → ∀ stretch t, Runs h stretch t →
    finishes stretch = 0 → ∀ i j, t.backlog i ≤ t.backlog j + 1

theorem queueSizes_backlog (h : Heavylifting Image n) (i : Fin nImgdecWorkers) :
    h.queueSizes i = h.backlog i := by
  simp only [Heavylifting.queueSizes, dif_pos i.isLt, Heavylifting.backlog]

theorem backlog_setWorker (h : Heavylifting Image n) (i : Fin nImgdecWorkers)
    (worker : ImgdecWorker Image) :
    (h.setWorker i worker).backlog = Function.update h.backlog i worker.queueSize := by
  funext j
  by_cases here : j = i
  · subst j
    simp only [Heavylifting.backlog, Heavylifting.setWorker, Function.update_self]
  · simp only [Heavylifting.backlog, Heavylifting.setWorker, Function.update_of_ne here]

theorem queueSize_enqueue (worker : ImgdecWorker Image) (image : Image) :
    (worker.enqueue image).queueSize = worker.queueSize + 1 := by
  simp only [ImgdecWorker.queueSize, ImgdecWorker.enqueue, List.length_append,
    List.length_singleton]
  omega

theorem dispatches_ready {h : Heavylifting Image n} (ready : h.isInitialized) : Dispatches h := by
  intro image
  obtain ⟨i, found, run⟩ := heavyliftingProcessFrame_run ready image
  refine ⟨i, ?_, ?_, run⟩
  · intro j
    have least := found.least j (by have := j.isLt; omega)
    rwa [queueSizes_backlog, queueSizes_backlog] at least
  · intro j before
    have first := found.first j before
    rwa [queueSizes_backlog, queueSizes_backlog] at first

/-- The step lemma: every step of the module is one of the dispatch, or none. -/
theorem step_backlog {h h' : Heavylifting Image n} {events : List (Event (Fin nImgdecWorkers))}
    (ready : h.isInitialized) (step : Step h events h') :
    h'.isInitialized ∧ (events = [] ∧ h'.backlog = h.backlog ∨
      ∃ e, events = [e] ∧ Balancing.Step h.backlog e h'.backlog) := by
  cases step with
  | call image i run queued =>
      obtain ⟨k, least, -, sent⟩ := dispatches_ready ready image
      rw [sent] at run
      cases run
      -- the worker that has the image at the end of its queue is the one it was sent to
      have here : i = k := by
        by_contra other
        simp only [Heavylifting.setWorker, Function.update_of_ne other] at queued
        have size := queueSize_enqueue (h.imgdecWorkers i) image
        rw [← queued] at size
        omega
      subst k
      refine ⟨ready, .inr ⟨.dispatched i, rfl, ?_⟩⟩
      rw [backlog_setWorker, queueSize_enqueue]
      exact .dispatched i least
  | answer i image rest message first =>
      refine ⟨ready, .inl ⟨rfl, ?_⟩⟩
      have same : ((h.imgdecWorkers i).answered rest message).queueSize = h.backlog i := by
        simp only [ImgdecWorker.answered, ImgdecWorker.queueSize, Heavylifting.backlog, first,
          List.length_append, List.length_cons, List.length_nil]
        omega
      rw [backlog_setWorker, same, Function.update_eq_self]
  | handled i message rest first =>
      refine ⟨ready, .inr ⟨.finished i, rfl, ?_⟩⟩
      have busy : h.backlog i = (h.imgdecWorkers i).queue.length + rest.length + 1 := by
        simp only [Heavylifting.backlog, ImgdecWorker.queueSize, first, List.length_cons]
        omega
      have popped : (h.handle i message rest).backlog =
          Function.update h.backlog i ((h.imgdecWorkers i).queue.length + rest.length) :=
        backlog_setWorker h i { h.imgdecWorkers i with responses := rest }
      rw [popped]
      exact .finished i _ busy

/-- The run lemma: the backlogs follow a dispatch to the least busy worker. -/
theorem runs_backlog {start h : Heavylifting Image n} {events : List (Event (Fin nImgdecWorkers))}
    (ready : start.isInitialized) (run : Runs start events h) :
    h.isInitialized ∧ Balancing.Run start.backlog events h.backlog := by
  induction run with
  | refl => exact ⟨ready, .refl⟩
  | step _ step ih =>
      obtain ⟨still, counted⟩ := step_backlog ih.1 step
      refine ⟨still, ?_⟩
      cases counted with
      | inl silent =>
          obtain ⟨rfl, same⟩ := silent
          rw [List.append_nil, same]
          exact ih.2
      | inr one =>
          obtain ⟨e, rfl, moved⟩ := one
          exact .step ih.2 moved

/-- In every order of calls, answers and handled answers, each frame goes to the first
    least busy worker, the backlogs add up, and no worker gets more than one frame ahead of
    another one that has not had answers handled since. -/
theorem dispatch_balanced (n : MaxRomSize) (events : List (Event (Fin nImgdecWorkers)))
    (h : Heavylifting Image n) (run : Runs (initialized Image n) events h) : Balanced h events := by
  obtain ⟨ready, counted⟩ := runs_backlog rfl run
  have idle : ∀ i, (initialized Image n).backlog i = 0 := fun _ => rfl
  refine ⟨dispatches_ready ready, ?_, ?_, ?_⟩
  · have total := counted.total
    simp only [idle, Finset.sum_const_zero, Nat.zero_add] at total
    exact total
  · exact counted.behind fun i j => by rw [idle, idle]; exact Nat.zero_le _
  · intro equal stretch t later none
    exact (runs_backlog ready later).2.level equal none

/-- Two frames go to the first two workers, and as the second one is idle again when its answer
    has been handled, it is the first of three least busy ones for the third frame. -/
theorem dispatch_balanced_tie : ∃ h : Heavylifting Nat ⟨8, by decide⟩,
    (∀ i, (h.imgdecWorkers i).queue = if i = 0 then [10] else if i = 1 then [30] else []) ∧
      Balanced h [.dispatched 0, .dispatched 1, .finished 1, .dispatched 1] := by
  let message := response hlSuccess ⟨1, 2, [7, 9]⟩
  let h₁ := (initialized Nat ⟨8, by decide⟩).setWorker 0 ⟨[10], [], none⟩
  let h₂ := h₁.setWorker 1 ⟨[20], [], none⟩
  let h₃ := h₂.setWorker 1 ⟨[], [message], none⟩
  let h₄ := h₃.handle 1 message []
  let h₅ := h₄.setWorker 1 ⟨[30], [], none⟩
  have first : Step (initialized Nat ⟨8, by decide⟩) [.dispatched 0] h₁ := .call 10 0 rfl rfl
  have second : Step h₁ [.dispatched 1] h₂ := .call 20 1 rfl rfl
  have answered : Step h₂ [] h₃ := .answer 1 20 [] message rfl
  have handled : Step h₃ [.finished 1] h₄ := .handled 1 message [] rfl
  have third : Step h₄ [.dispatched 1] h₅ := .call 30 1 rfl rfl
  refine ⟨h₅, ?_, dispatch_balanced ⟨8, by decide⟩ _ h₅
    (((((Runs.refl.step first).step second).step answered).step handled).step third)⟩
  intro i
  match i with
  | ⟨0, _⟩ => rfl
  | ⟨1, _⟩ => rfl
  | ⟨2, _⟩ => rfl
  | ⟨3, _⟩ => rfl

end AssistedDump.Dispatch
