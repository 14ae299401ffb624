import AssistedDump.Heavylifting.ImageDecoder

/-! # Handing frames to the decoding workers

`heavylifting_process_frame` of heavylifting_main.c hands each frame to the worker
with the smallest backlog. The queue size of a worker is counted as emscripten
does: a call with a callback counts from the call until the callback has been run,
so it is the frames the worker still has and the answers still under way.
-/

namespace AssistedDump.Dispatch

open CSemantics Machine RomStore ImageDecoder

/-- `N_IMGDEC_WORKERS` -/
def nImgdecWorkers : Nat := 4

instance : NeZero nImgdecWorkers := ⟨by decide⟩

variable {σ : Type}

/-- The two variables of the search, `none` for `-1` and for a variable not set yet. -/
structure LeastBusy where
  iWorkerLeastBusy : Option Nat
  queueSizeLeastBusy : Option Nat
  deriving Repr, DecidableEq

/-- The body of the loop that looks for the smallest backlog. -/
def compareWorker (queueSize : Nat) (i : Nat) (least : LeastBusy) : C σ LeastBusy :=
  match least.iWorkerLeastBusy with
  | none => pure ⟨some i, some queueSize⟩
  | some _ => do
      let queueSizeLeastBusy ← readVariable "queue_size_least_busy" least.queueSizeLeastBusy
      if queueSize < queueSizeLeastBusy then pure ⟨some i, some queueSize⟩ else pure least

/-- The first `k` iterations of the loop. -/
def findLeastBusy (queueSizes : Nat → Nat) : Nat → C σ LeastBusy
  | 0 => pure ⟨none, none⟩
  | k + 1 => do
      let least ← findLeastBusy queueSizes k
      compareWorker (queueSizes k) k least

/-- The lowest index among the first `k + 1` whose queue size is minimal. -/
structure FirstLeast (queueSizes : Nat → Nat) (k i : Nat) : Prop where
  le : i ≤ k
  least : ∀ j ≤ k, queueSizes i ≤ queueSizes j
  first : ∀ j < i, queueSizes i < queueSizes j

/-- The search reads no variable before it is set and ends with the first least queue. -/
theorem findLeastBusy_run (queueSizes : Nat → Nat) (k : Nat) (s : σ) :
    ∃ i, (findLeastBusy queueSizes (k + 1)).run s = .ok ⟨some i, some (queueSizes i)⟩ s ∧
      FirstLeast queueSizes k i := by
  induction k with
  | zero => exact ⟨0, rfl, ⟨by omega, fun j le => by simp [Nat.le_zero.mp le], by simp⟩⟩
  | succ k ih =>
      obtain ⟨i, run, found⟩ := ih
      rw [findLeastBusy, EStateM.run_bind, run]
      have le := found.le
      by_cases less : queueSizes (k + 1) < queueSizes i
      · refine ⟨k + 1, by simp [compareWorker, readVariable, less], Nat.le_refl _, ?_, ?_⟩
        · intro j inside
          cases Nat.le_succ_iff.mp inside with
          | inl earlier => exact less.le.trans (found.least j earlier)
          | inr last =>
              subst last
              exact Nat.le_refl _
        · intro j before
          exact less.trans_le (found.least j (by omega))
      · refine ⟨i, by simp [compareWorker, readVariable, less], by omega, ?_, found.first⟩
        intro j inside
        cases Nat.le_succ_iff.mp inside with
        | inl earlier => exact found.least j earlier
        | inr last =>
            subst last
            exact Nat.le_of_not_lt less

/-! ## The module and its workers -/

/-- A worker, as the calls it has not answered and the answers whose callback has not been
    run. `fault` is set when an assertion of its module has failed. -/
structure ImgdecWorker (Image : Type) where
  queue : List Image
  responses : List (List UInt8)
  fault : Option Fault

variable {Image : Type}

def ImgdecWorker.enqueue (worker : ImgdecWorker Image) (image : Image) : ImgdecWorker Image :=
  { worker with queue := worker.queue ++ [image] }

/-- A worker answers the first call of its queue. -/
def ImgdecWorker.answered (worker : ImgdecWorker Image) (rest : List Image)
    (message : List UInt8) : ImgdecWorker Image :=
  { worker with queue := rest, responses := worker.responses ++ [message] }

/-- `emscripten_get_worker_queue_size` -/
def ImgdecWorker.queueSize (worker : ImgdecWorker Image) : Nat :=
  worker.queue.length + worker.responses.length

structure Heavylifting (Image : Type) (n : MaxRomSize) where
  isInitialized : Bool
  imgdecWorkers : Fin nImgdecWorkers → ImgdecWorker Image
  store : Store n

variable {n : MaxRomSize}

/-- The module after `heavylifting_init`. -/
def initialized (Image : Type) (n : MaxRomSize) : Heavylifting Image n where
  isInitialized := true
  imgdecWorkers := fun _ => ⟨[], [], none⟩
  store := heavyliftingInit n

def Heavylifting.setWorker (h : Heavylifting Image n) (i : Fin nImgdecWorkers)
    (worker : ImgdecWorker Image) : Heavylifting Image n :=
  { h with imgdecWorkers := Function.update h.imgdecWorkers i worker }

/-- `decode_image_callback` is run on the first answer of a worker. -/
def Heavylifting.handle (h : Heavylifting Image n) (i : Fin nImgdecWorkers)
    (message : List UInt8) (rest : List (List UInt8)) : Heavylifting Image n :=
  { h.setWorker i { h.imgdecWorkers i with responses := rest } with
    store := after (decodeImageCallback message) h.store }

def Heavylifting.queueSizes (h : Heavylifting Image n) (i : Nat) : Nat :=
  if inside : i < nImgdecWorkers then (h.imgdecWorkers ⟨i, inside⟩).queueSize else 0

/-- `emscripten_call_worker(imgdec_workers[i], ..)`, the frame waits in the queue. -/
def callWorker (i : Nat) (image : Image) : C (Heavylifting Image n) Unit :=
  if inside : i < nImgdecWorkers then
    modify fun h => h.setWorker ⟨i, inside⟩ ((h.imgdecWorkers ⟨i, inside⟩).enqueue image)
  else throw (.outOfBounds i)

def heavyliftingProcessFrame (image : Image) : C (Heavylifting Image n) Unit := do
  let h ← get
  assert "is_initialized" h.isInitialized
  let least ← findLeastBusy h.queueSizes nImgdecWorkers
  let iWorkerLeastBusy ← readVariable "i_worker_least_busy" least.iWorkerLeastBusy
  callWorker iWorkerLeastBusy image

/-- A frame goes to the end of the first least queue. -/
theorem heavyliftingProcessFrame_run {h : Heavylifting Image n} (ready : h.isInitialized)
    (image : Image) :
    ∃ i : Fin nImgdecWorkers, FirstLeast h.queueSizes (nImgdecWorkers - 1) i ∧
      (heavyliftingProcessFrame image).run h =
        .ok () (h.setWorker i ((h.imgdecWorkers i).enqueue image)) := by
  obtain ⟨i, run, found⟩ := findLeastBusy_run h.queueSizes (nImgdecWorkers - 1) h
  have inside : i < nImgdecWorkers := Nat.lt_of_le_of_lt found.le (by decide)
  refine ⟨⟨i, inside⟩, found, ?_⟩
  have whole : nImgdecWorkers - 1 + 1 = nImgdecWorkers := rfl
  rw [whole] at run
  simp only [heavyliftingProcessFrame, EStateM.run_bind, EStateM.run_get, assert_holds ready, run,
    readVariable, EStateM.run_pure, callWorker, dif_pos inside, EStateM.run_modify]

end AssistedDump.Dispatch
