import Mathlib.Logic.Relation
import Mathlib.Data.List.Count
import Mathlib.Tactic.Common

/-! # Start-up and polling of the web decoder

The page (main.js) and the worker (wrap_heavylifting_worker.js) talk through two
queues, one for each direction, which deliver in order. What the browser does is
one step each: the wasm runtime completes its initialisation, a message is
delivered, the video stream is granted, the video plays, the capture interval
ticks, a timer expires. The pixels of frames and the contents of snapshots do not
matter to the protocol and are left out.
-/

namespace AssistedDump.StartUp

/-- The messages the page posts, by their `id`. -/
inductive ToWorker where
  | replyWhenReady
  | frameImageData
  | getRomData
  deriving Repr, DecidableEq

/-- The messages the worker posts, by their `id`. -/
inductive ToPage where
  | ready
  | romData
  deriving Repr, DecidableEq

/-- What the page has done, in order. -/
inductive Milestone where
  | readyHandled
  | playHandled
  | captureStarted
  deriving Repr, DecidableEq

structure Page where
  isHeavyliftingReady : Bool
  isVideoReady : Bool
  isCaptureFrameStarted : Bool
  /-- `getUserMedia` has resolved. -/
  gotStream : Bool
  /-- `video_play_listener` is registered. -/
  playListener : Bool
  /-- The intervals `capture_frames` has set. -/
  intervals : Nat
  /-- The pending timers `received_rom_data` has set. -/
  timers : Nat
  milestones : List Milestone
  errors : List String
  deriving Repr, DecidableEq

/-- Which of the cwrap'd functions are defined. -/
structure Functions where
  heavyliftingProcessFrame : Bool
  heavyliftingGetRomData : Bool
  heavyliftingGetRomDataNotUnknownMin : Bool
  heavyliftingGetRomDataNotUnknownMax : Bool
  deriving Repr, DecidableEq

inductive Task where
  | processFrame
  | sendRomData
  deriving Repr, DecidableEq

/-- A run of `process_frame` or `send_rom_data`, with what was set up when it began. -/
structure Execution where
  task : Task
  heavyliftingInit : Bool
  functions : Functions
  deriving Repr, DecidableEq

structure Worker where
  isReady : Bool
  replyWhenReady : Bool
  functions : Functions
  /-- `onRuntimeInitialized` has been called, which happens once. -/
  runtimeInitialized : Bool
  /-- `heavylifting_init` has been called. -/
  heavyliftingInit : Bool
  executions : List Execution
  errors : List String
  deriving Repr, DecidableEq

structure System where
  page : Page
  worker : Worker
  toWorker : List ToWorker
  toPage : List ToPage
  /-- How many times `ready` has been posted. -/
  readyPosted : Nat
  deriving Repr, DecidableEq

def System.postToWorker (m : ToWorker) (s : System) : System :=
  { s with toWorker := s.toWorker ++ [m] }

def System.postToPage (m : ToPage) (s : System) : System :=
  { s with toPage := s.toPage ++ [m] }

def System.milestone (m : Milestone) (s : System) : System :=
  { s with page.milestones := s.page.milestones ++ [m] }

/-! ## main.js -/

def sendGetRomDataMessage (s : System) : System := s.postToWorker .getRomData

def doStartCaptureFrame (s : System) : System :=
  if s.page.isCaptureFrameStarted then s
  else sendGetRomDataMessage (System.milestone .captureStarted { s with
    page.isCaptureFrameStarted := true
    page.intervals := s.page.intervals + 1 })

def checkStartCaptureFrame (s : System) : System :=
  if s.page.isHeavyliftingReady && s.page.isVideoReady then doStartCaptureFrame s else s

def setHeavyliftingReady (s : System) : System :=
  checkStartCaptureFrame { s with page.isHeavyliftingReady := true }

def setVideoReady (s : System) : System :=
  checkStartCaptureFrame { s with page.isVideoReady := true }

/-- The end of `received_rom_data`: the next poll is sent when a timer of 1 s expires. -/
def receivedRomData (s : System) : System :=
  { s with page.timers := s.page.timers + 1 }

def videoPlayListener (s : System) : System :=
  setVideoReady (System.milestone .playHandled { s with page.playListener := false })

def onWorkerHeavyliftingMessage (s : System) : ToPage → System
  | .ready =>
      if s.page.isHeavyliftingReady then
        { s with page.errors := s.page.errors ++ ["received more than one ready message"] }
      else setHeavyliftingReady (s.milestone .readyHandled)
  | .romData => receivedRomData s

/-- One tick of the interval of `capture_frames`. There is no frame while the video has
    no size. -/
def captureTick (frame : Bool) (s : System) : System :=
  if frame then s.postToWorker .frameImageData else s

/-! ## wrap_heavylifting_worker.js -/

def sendReadyMessage (s : System) : System :=
  System.postToPage .ready { s with readyPosted := s.readyPosted + 1 }

def System.execute (task : Task) (s : System) : System :=
  { s with worker.executions :=
      s.worker.executions ++ [⟨task, s.worker.heavyliftingInit, s.worker.functions⟩] }

def processFrame (s : System) : System := s.execute .processFrame

/-- A function that is not defined yet would throw before anything is posted. -/
def sendRomData (s : System) : System :=
  if s.worker.functions.heavyliftingGetRomData &&
      s.worker.functions.heavyliftingGetRomDataNotUnknownMin &&
      s.worker.functions.heavyliftingGetRomDataNotUnknownMax then
    (s.execute .sendRomData).postToPage .romData
  else s.execute .sendRomData

def onMessage (s : System) : ToWorker → System
  | .replyWhenReady =>
      if s.worker.replyWhenReady then
        { s with worker.errors := s.worker.errors ++ ["received more than one reply-when-ready"] }
      else
        let s := { s with worker.replyWhenReady := true }
        if s.worker.isReady then sendReadyMessage s else s
  | .frameImageData => processFrame s
  | .getRomData => sendRomData s

def onRuntimeInitialized (s : System) : System :=
  let s := { s with worker.runtimeInitialized := true }
  let s := { s with worker.heavyliftingInit := true }
  let s := { s with worker.functions := ⟨true, true, true, true⟩ }
  let s := { s with worker.isReady := true }
  if s.worker.replyWhenReady then sendReadyMessage s else s

/-! ## Runs -/

/-- Both scripts have run: the page has posted its question and is waiting. -/
def loaded : System where
  page := ⟨false, false, false, false, false, 0, 0, [], []⟩
  worker := ⟨false, false, ⟨false, false, false, false⟩, false, false, [], []⟩
  toWorker := [.replyWhenReady]
  toPage := []
  readyPosted := 0

inductive Step : System → System → Prop where
  | runtimeInitialized : s.worker.runtimeInitialized = false → Step s (onRuntimeInitialized s)
  | toWorker (m : ToWorker) (rest : List ToWorker) : s.toWorker = m :: rest →
      Step s (onMessage { s with toWorker := rest } m)
  | toPage (m : ToPage) (rest : List ToPage) : s.toPage = m :: rest →
      Step s (onWorkerHeavyliftingMessage { s with toPage := rest } m)
  | gotStream : s.page.gotStream = false →
      Step s { s with page.gotStream := true, page.playListener := true }
  | play : s.page.playListener = true → Step s (videoPlayListener s)
  | captureTick (frame : Bool) : 0 < s.page.intervals → Step s (captureTick frame s)
  | timer : 0 < s.page.timers →
      Step s (sendGetRomDataMessage { s with page.timers := s.page.timers - 1 })

abbrev Runs (s : System) : Prop := Relation.ReflTransGen Step loaded s

/-! ## What holds in every state -/

def Execution.Prepared (e : Execution) : Prop :=
  e.heavyliftingInit = true ∧ e.functions = ⟨true, true, true, true⟩

/-- The capture starts at most once, after both `ready` and the play event. -/
def StartsAfterBoth (milestones : List Milestone) : Prop :=
  ∀ before later, milestones = before ++ .captureStarted :: later →
    .readyHandled ∈ before ∧ .playHandled ∈ before ∧ .captureStarted ∉ before

/-- The polls that are alive: a question or an answer under way, or a timer. -/
def polls (s : System) : Nat :=
  s.toWorker.count .getRomData + s.toPage.count .romData + s.page.timers

structure Sound (s : System) : Prop where
  prepared : ∀ e ∈ s.worker.executions, e.Prepared
  readyOnce : s.readyPosted ≤ 1
  ready_iff : s.readyPosted = 1 ↔
    s.worker.replyWhenReady = true ∧ s.worker.runtimeInitialized = true
  pageErrors : s.page.errors = []
  intervals : s.page.intervals ≤ 1
  startsAfterBoth : StartsAfterBoth s.page.milestones
  onePoll : s.page.isCaptureFrameStarted = true → polls s = 1

/-- What every step keeps, and every part of a step. -/
structure Base (s : System) : Prop where
  isReady : s.worker.isReady = s.worker.runtimeInitialized
  init : s.worker.heavyliftingInit = s.worker.runtimeInitialized
  functions : s.worker.runtimeInitialized = true → s.worker.functions = ⟨true, true, true, true⟩
  asked : s.toWorker.count .replyWhenReady = (!s.worker.replyWhenReady).toNat
  posted : s.readyPosted = (s.worker.replyWhenReady && s.worker.runtimeInitialized).toNat
  answered : s.toPage.count .ready + s.page.isHeavyliftingReady.toNat = s.readyPosted
  both : s.page.isCaptureFrameStarted = true →
    s.page.isHeavyliftingReady = true ∧ s.page.isVideoReady = true
  intervals : s.page.intervals = s.page.isCaptureFrameStarted.toNat
  frames : .frameImageData ∈ s.toWorker → s.page.isCaptureFrameStarted = true
  poll : polls s = s.page.isCaptureFrameStarted.toNat
  listener : s.page.playListener = true → s.page.isVideoReady = false
  stream : s.page.gotStream = false →
    s.page.playListener = false ∧ s.page.isVideoReady = false
  executions : ∀ e ∈ s.worker.executions, e.Prepared
  pageErrors : s.page.errors = []
  readyHandled : .readyHandled ∈ s.page.milestones ↔ s.page.isHeavyliftingReady = true
  playHandled : .playHandled ∈ s.page.milestones ↔ s.page.isVideoReady = true
  captureStarted : .captureStarted ∈ s.page.milestones ↔ s.page.isCaptureFrameStarted = true
  startsAfterBoth : StartsAfterBoth s.page.milestones

/-- Between steps the capture has started as soon as both flags are set. -/
structure Inv (s : System) : Prop extends Base s where
  started : s.page.isHeavyliftingReady = true → s.page.isVideoReady = true →
    s.page.isCaptureFrameStarted = true

theorem StartsAfterBoth.snoc {milestones : List Milestone} (h : StartsAfterBoth milestones)
    {m : Milestone} (ordered : m = .captureStarted → .readyHandled ∈ milestones ∧
      .playHandled ∈ milestones ∧ .captureStarted ∉ milestones) :
    StartsAfterBoth (milestones ++ [m]) := by
  intro before later split
  cases List.eq_nil_or_concat later with
  | inl none =>
      subst later
      obtain ⟨rfl, same⟩ := List.append_inj' split rfl
      exact ordered (List.singleton_inj.mp same)
  | inr some =>
      obtain ⟨earlier, last, rfl⟩ := some
      rw [List.concat_eq_append, ← List.cons_append, ← List.append_assoc] at split
      exact h before earlier (List.append_inj' split rfl).1

theorem Inv.sound {s : System} (h : Inv s) : Sound s where
  prepared := h.executions
  readyOnce := by
    rw [h.posted]
    exact Bool.toNat_le _
  ready_iff := by
    rw [h.posted, Bool.toNat_eq_one, Bool.and_eq_true]
  pageErrors := h.pageErrors
  intervals := by
    rw [h.intervals]
    exact Bool.toNat_le _
  startsAfterBoth := h.startsAfterBoth
  onePoll started := by rw [h.poll, started, Bool.toNat_true]

theorem inv_loaded : Inv loaded where
  isReady := rfl
  init := rfl
  functions := by simp [loaded]
  asked := rfl
  posted := rfl
  answered := rfl
  both := by simp [loaded]
  intervals := rfl
  frames := by simp [loaded]
  poll := rfl
  listener := by simp [loaded]
  stream := by simp [loaded]
  executions := by simp [loaded]
  pageErrors := rfl
  readyHandled := by simp [loaded]
  playHandled := by simp [loaded]
  captureStarted := by simp [loaded]
  startsAfterBoth := by simp [StartsAfterBoth, loaded]
  started := by simp [loaded]

variable {s : System}

theorem check_waits (waits : s.page.isHeavyliftingReady = true → s.page.isVideoReady = true →
    s.page.isCaptureFrameStarted = true) : checkStartCaptureFrame s = s := by
  by_cases both : s.page.isHeavyliftingReady = true ∧ s.page.isVideoReady = true
  · simp [checkStartCaptureFrame, doStartCaptureFrame, both.1, both.2, waits both.1 both.2]
  · simp only [checkStartCaptureFrame, Bool.and_eq_true, if_neg both]

theorem check_starts (ready : s.page.isHeavyliftingReady = true)
    (video : s.page.isVideoReady = true) (idle : s.page.isCaptureFrameStarted = false) :
    checkStartCaptureFrame s = { s with
      page.isCaptureFrameStarted := true
      page.intervals := s.page.intervals + 1
      page.milestones := s.page.milestones ++ [.captureStarted]
      toWorker := s.toWorker ++ [.getRomData] } := by
  simp [checkStartCaptureFrame, doStartCaptureFrame, ready, video, idle, sendGetRomDataMessage,
    System.postToWorker, System.milestone]

/-- The check at the end of both handlers restores what holds between steps. -/
theorem inv_check (h : Base s) : Inv (checkStartCaptureFrame s) := by
  by_cases waits : s.page.isHeavyliftingReady = true → s.page.isVideoReady = true →
      s.page.isCaptureFrameStarted = true
  · rw [check_waits waits]
    exact { h with started := waits }
  · simp only [not_forall, Bool.not_eq_true] at waits
    obtain ⟨ready, video, idle⟩ := waits
    have asked := h.asked
    have poll := h.poll
    have intervals := h.intervals
    rw [idle, Bool.toNat_false] at poll intervals
    rw [check_starts ready video idle]
    exact { h with
      asked := by simpa using asked
      both := fun _ => ⟨ready, video⟩
      intervals := congrArg Nat.succ intervals
      frames := fun _ => rfl
      poll := by
        simp only [polls, List.count_append, List.count_singleton_self] at poll ⊢
        rw [Bool.toNat_true]
        omega
      readyHandled := by simpa using h.readyHandled
      playHandled := by simpa using h.playHandled
      captureStarted := by simp
      startsAfterBoth := h.startsAfterBoth.snoc fun _ =>
        ⟨h.readyHandled.mpr ready, h.playHandled.mpr video,
          h.captureStarted.not.mpr (by simp [idle])⟩
      started := fun _ _ => rfl }

/-! ## One step each -/

/-- The state in which `ready` has been posted but the page has not been told yet. -/
theorem inv_initialized (h : Inv s) (first : s.worker.runtimeInitialized = false) :
    Inv (onRuntimeInitialized s) := by
  have posted := h.posted
  have answered := h.answered
  have poll := h.poll
  rw [first, Bool.and_false, Bool.toNat_false] at posted
  cases asked : s.worker.replyWhenReady with
  | true =>
      simp only [onRuntimeInitialized, asked, if_true, sendReadyMessage, System.postToPage]
      exact { h with
        isReady := rfl
        init := rfl
        functions := fun _ => rfl
        asked := by simpa [asked] using h.asked
        posted := by simp [posted]
        answered := by
          simp only [List.count_append, List.count_singleton_self]
          omega
        poll := by simpa [polls] using poll }
  | false =>
      simp only [onRuntimeInitialized, asked, Bool.false_eq_true, if_false]
      exact { h with
        isReady := rfl
        init := rfl
        functions := fun _ => rfl
        asked := by simpa [asked] using h.asked
        posted := by simp [posted]
        poll := poll }

/-- The question of the page is delivered. -/
theorem inv_replyWhenReady {rest : List ToWorker} (h : Inv s)
    (first : s.toWorker = .replyWhenReady :: rest) :
    Inv (onMessage { s with toWorker := rest } .replyWhenReady) := by
  have asked := h.asked
  have answered := h.answered
  have poll := h.poll
  have posted := h.posted
  have frames := h.frames
  rw [first, List.count_cons_self] at asked
  cases before : s.worker.replyWhenReady with
  | true => simp [before] at asked
  | false =>
      rw [before, Bool.not_false, Bool.toNat_true] at asked
      rw [before, Bool.false_and, Bool.toNat_false] at posted
      have none : rest.count .replyWhenReady = 0 := by omega
      rw [polls, first] at poll
      rw [first] at frames
      cases ready : s.worker.isReady with
      | true =>
          have initialized := h.isReady.symm.trans ready
          simp only [onMessage, before, Bool.false_eq_true, if_false, ready, if_true,
            sendReadyMessage, System.postToPage]
          exact { h with
            isReady := initialized.symm
            asked := by simpa using none
            posted := by simp [posted, initialized]
            answered := by
              simp only [List.count_append, List.count_singleton_self]
              omega
            frames := fun member => frames (List.mem_cons_of_mem _ member)
            poll := by simpa [polls] using poll }
      | false =>
          have initialized := h.isReady.symm.trans ready
          simp only [onMessage, before, Bool.false_eq_true, if_false, ready]
          exact { h with
            isReady := initialized.symm
            asked := by simpa using none
            posted := by simp [posted, initialized]
            frames := fun member => frames (List.mem_cons_of_mem _ member)
            poll := by simpa [polls] using poll }

/-- Once the capture has started, the worker is set up. -/
theorem Base.prepared (h : Base s) (started : s.page.isCaptureFrameStarted = true) :
    s.worker.heavyliftingInit = true ∧ s.worker.functions = ⟨true, true, true, true⟩ := by
  have ready := (h.both started).1
  have answered := h.answered
  have posted := h.posted
  have initialized : s.worker.runtimeInitialized = true := by
    cases initialized : s.worker.runtimeInitialized with
    | true => rfl
    | false =>
        rw [initialized, Bool.and_false, Bool.toNat_false] at posted
        rw [ready, Bool.toNat_true] at answered
        omega
  exact ⟨h.init.trans initialized, h.functions initialized⟩

theorem inv_frameImageData {rest : List ToWorker} (h : Inv s)
    (first : s.toWorker = .frameImageData :: rest) :
    Inv (onMessage { s with toWorker := rest } .frameImageData) := by
  have asked := h.asked
  have poll := h.poll
  have started := h.frames (by simp [first])
  rw [first, List.count_cons_of_ne (by decide)] at asked
  rw [polls, first, List.count_cons_of_ne (by decide)] at poll
  exact { h with
    asked := asked
    frames := fun _ => started
    poll := poll
    executions := by
      simp only [onMessage, processFrame, System.execute, List.forall_mem_append,
        List.forall_mem_singleton]
      exact ⟨h.executions, h.prepared started⟩ }

/-- A poll is answered. -/
theorem inv_getRomData {rest : List ToWorker} (h : Inv s)
    (first : s.toWorker = .getRomData :: rest) :
    Inv (onMessage { s with toWorker := rest } .getRomData) := by
  have asked := h.asked
  have poll := h.poll
  have answered := h.answered
  have started : s.page.isCaptureFrameStarted = true := by
    by_contra idle
    rw [polls, first, List.count_cons_self] at poll
    simp [idle] at poll
  have prepared := h.prepared started
  rw [first, List.count_cons_of_ne (by decide)] at asked
  rw [polls, first, List.count_cons_self] at poll
  simp only [onMessage, sendRomData, prepared.2, Bool.and_self, if_true, System.execute,
    System.postToPage]
  exact { h with
    functions := fun _ => rfl
    asked := asked
    frames := fun _ => started
    answered := by simpa using answered
    poll := by
      simp only [polls, List.count_append, List.count_singleton_self]
      omega
    executions := by
      simp only [List.forall_mem_append, List.forall_mem_singleton]
      exact ⟨h.executions, prepared.1, rfl⟩ }

theorem inv_ready {rest : List ToPage} (h : Inv s) (first : s.toPage = .ready :: rest) :
    Inv (onWorkerHeavyliftingMessage { s with toPage := rest } .ready) := by
  have answered := h.answered
  have poll := h.poll
  have posted := h.posted
  have once := Bool.toNat_le (s.worker.replyWhenReady && s.worker.runtimeInitialized)
  rw [first, List.count_cons_self] at answered
  rw [polls, first, List.count_cons_of_ne (by decide)] at poll
  have unready : s.page.isHeavyliftingReady = false := by
    cases ready : s.page.isHeavyliftingReady with
    | false => rfl
    | true =>
        rw [ready, Bool.toNat_true] at answered
        omega
  rw [unready, Bool.toNat_false] at answered
  simp only [onWorkerHeavyliftingMessage, unready, Bool.false_eq_true, if_false,
    setHeavyliftingReady, System.milestone]
  refine inv_check { h with
    answered := by
      simp only [Bool.toNat_true]
      omega
    both := fun started => ⟨rfl, (h.both started).2⟩
    poll := poll
    readyHandled := by simp
    playHandled := by simpa using h.playHandled
    captureStarted := by simpa using h.captureStarted
    startsAfterBoth := h.startsAfterBoth.snoc fun same => by cases same }

theorem inv_romData {rest : List ToPage} (h : Inv s) (first : s.toPage = .romData :: rest) :
    Inv (onWorkerHeavyliftingMessage { s with toPage := rest } .romData) := by
  have answered := h.answered
  have poll := h.poll
  rw [first, List.count_cons_of_ne (by decide)] at answered
  rw [polls, first, List.count_cons_self] at poll
  exact { h with
    answered := answered
    poll := by
      simp only [polls, onWorkerHeavyliftingMessage, receivedRomData]
      omega }

theorem inv_gotStream (h : Inv s) (first : s.page.gotStream = false) :
    Inv { s with page.gotStream := true, page.playListener := true } :=
  { h with
    listener := fun _ => (h.stream first).2
    stream := by simp }

theorem inv_play (h : Inv s) (listener : s.page.playListener = true) :
    Inv (videoPlayListener s) := by
  have still := h.listener listener
  have stream : s.page.gotStream ≠ false := by
    intro none
    rw [(h.stream none).1] at listener
    cases listener
  have idle : s.page.isCaptureFrameStarted ≠ true := by
    intro started
    rw [(h.both started).2] at still
    cases still
  simp only [videoPlayListener, setVideoReady, System.milestone]
  exact inv_check { h with
    both := fun started => absurd started idle
    listener := by simp
    stream := fun none => absurd none stream
    readyHandled := by simpa using h.readyHandled
    playHandled := by simp
    captureStarted := by simpa using h.captureStarted
    startsAfterBoth := h.startsAfterBoth.snoc fun same => by cases same }

theorem inv_captureTick {frame : Bool} (h : Inv s) (running : 0 < s.page.intervals) :
    Inv (captureTick frame s) := by
  have started : s.page.isCaptureFrameStarted = true := by
    by_contra idle
    rw [h.intervals] at running
    simp [idle] at running
  cases frame with
  | false => exact h
  | true =>
      have asked := h.asked
      have poll := h.poll
      exact { h with
        asked := by simpa [captureTick, System.postToWorker] using asked
        frames := fun _ => started
        poll := by simpa [polls, captureTick, System.postToWorker] using poll }

theorem inv_timer (h : Inv s) (pending : 0 < s.page.timers) :
    Inv (sendGetRomDataMessage { s with page.timers := s.page.timers - 1 }) := by
  have asked := h.asked
  have poll := h.poll
  exact { h with
    asked := by simpa [sendGetRomDataMessage, System.postToWorker] using asked
    frames := fun member => h.frames (by
      simpa [sendGetRomDataMessage, System.postToWorker] using member)
    poll := by
      simp only [polls, sendGetRomDataMessage, System.postToWorker, List.count_append,
        List.count_singleton_self] at poll ⊢
      omega }

/-- The step lemma. -/
theorem inv_step {t : System} (h : Inv s) (step : Step s t) : Inv t := by
  cases step with
  | runtimeInitialized first => exact inv_initialized h first
  | toWorker m rest first =>
      cases m with
      | replyWhenReady => exact inv_replyWhenReady h first
      | frameImageData => exact inv_frameImageData h first
      | getRomData => exact inv_getRomData h first
  | toPage m rest first =>
      cases m with
      | ready => exact inv_ready h first
      | romData => exact inv_romData h first
  | gotStream first => exact inv_gotStream h first
  | play listener => exact inv_play h listener
  | captureTick frame running => exact inv_captureTick h running
  | timer pending => exact inv_timer h pending

theorem inv_runs (run : Runs s) : Inv s := by
  induction run with
  | refl => exact inv_loaded
  | tail _ step ih => exact inv_step ih step

/-- In every interleaving the worker only executes tasks it is set up for, posts `ready`
    once and in time, the page starts the capture once and after both events, and from
    then on exactly one poll is alive. -/
theorem startUp_sound (s : System) (run : Runs s) : Sound s := (inv_runs run).sound

/-- The state after the initialisation, both messages about it and the play event: the
    first poll is on its way. -/
def capturing : System where
  page := ⟨true, true, true, true, false, 1, 0,
    [.readyHandled, .playHandled, .captureStarted], []⟩
  worker := ⟨true, true, ⟨true, true, true, true⟩, true, true, [], []⟩
  toWorker := [.getRomData]
  toPage := []
  readyPosted := 1

theorem startUp_sound_capturing : Sound capturing :=
  startUp_sound capturing <|
    Relation.ReflTransGen.refl
      |>.tail (.runtimeInitialized rfl)
      |>.tail (.toWorker .replyWhenReady [] rfl)
      |>.tail (.toPage .ready [] rfl)
      |>.tail (.gotStream rfl)
      |>.tail (.play rfl)

end AssistedDump.StartUp
