import AssistedDump.Console.DumpAddresses
import AssistedDump.Heavylifting.Dispatch
import AssistedDump.Pipeline.FrameFormat

/-! # From the cartridge to the rom store

The console shows frames, a camera captures images of them, `heavylifting_process_frame`
hands each image to one of the workers, each worker answers its own queue in order,
and `decode_image_callback` handles the answers of the workers in any interleaving.
Nothing is assumed about which frames are captured, how often, or in which order.
The images and what zbar finds in them are parameters.
-/

namespace AssistedDump.EndToEnd

open CSemantics Machine RomStore ImageDecoder DumpLoop Dispatch FrameFormat

/-- The fault a computation stops with. -/
def faultOf {σ : Type} (x : C σ Unit) (s : σ) : Option Fault :=
  match x.run s with
  | .ok _ _ => none
  | .error fault _ => some fault

/-- The console and the decoder. A faulted part has stopped for good. `handled` has the
    messages `decode_image_callback` was called with, in order. -/
structure System (Image : Type) (n : MaxRomSize) where
  console : Dump
  consoleFault : Option Fault
  heavylifting : Heavylifting Image n
  heavyliftingFault : Option Fault
  handled : List (List UInt8)

variable {Image : Type} {n : MaxRomSize}

def started (Image : Type) (n : MaxRomSize) (counter : UInt8) : System Image n where
  console := mainDumping counter
  consoleFault := none
  heavylifting := initialized Image n
  heavyliftingFault := none
  handled := []

/-- One iteration of the loop in `main_dumping`. -/
def runConsole (cfg : Config) (input : Input) (s : System Image n) : System Image n :=
  { s with
    console := after (iteration cfg input) s.console
    consoleFault := faultOf (iteration cfg input) s.console }

/-- An image arrives at `heavylifting_process_frame`. -/
def capture (image : Image) (s : System Image n) : System Image n :=
  { s with
    heavylifting := after (heavyliftingProcessFrame image) s.heavylifting
    heavyliftingFault := faultOf (heavyliftingProcessFrame image) s.heavylifting }

/-- A worker runs `heavylifting_decode_image` on the first image of its queue. -/
def answer (symbols : List (List UInt8)) (rest : List Image) (worker : ImgdecWorker Image) :
    ImgdecWorker Image :=
  match (heavyliftingDecodeImage symbols).run () with
  | .ok message _ => worker.answered rest message
  | .error fault _ => { worker with fault := some fault }

def runWorker (symbols : List (List UInt8)) (i : Fin nImgdecWorkers) (rest : List Image)
    (s : System Image n) : System Image n :=
  let worker := answer symbols rest (s.heavylifting.imgdecWorkers i)
  { s with heavylifting := s.heavylifting.setWorker i worker }

/-- `decode_image_callback` is run on the first answer of a worker. -/
def callback (i : Fin nImgdecWorkers) (message : List UInt8) (rest : List (List UInt8))
    (s : System Image n) : System Image n :=
  { s with
    heavylifting := s.heavylifting.handle i message rest
    heavyliftingFault := faultOf (decodeImageCallback message) s.heavylifting.store
    handled := s.handled ++ [message] }

theorem runConsole_ok {cfg : Config} {input : Input} {s : System Image n} {d : Dump}
    (run : (iteration cfg input).run s.console = .ok () d) :
    runConsole cfg input s = { s with console := d, consoleFault := none } := by
  simp only [runConsole, after_ok run, faultOf, run]

theorem capture_ok {image : Image} {s : System Image n} {h : Heavylifting Image n}
    (run : (heavyliftingProcessFrame image).run s.heavylifting = .ok () h) :
    capture image s = { s with heavylifting := h, heavyliftingFault := none } := by
  simp only [capture, after_ok run, faultOf, run]

section Runs

variable (cfg : Config) (rom : Nat → UInt8) (zbar : Image → List (List UInt8))

/-- What zbar makes of a captured image: no symbol, several, or the data of one that was
    displayed. -/
def Readable (shown : List Shown) (image : Image) : Prop :=
  (zbar image).length ≠ 1 ∨ ∃ o qrdata, Displayed shown o qrdata ∧ zbar image = [qrdata]

/-- What the workers and the callback do with images, wherever these come from. -/
inductive Works : System Image n → System Image n → Prop where
  | worker (i : Fin nImgdecWorkers) (image : Image) (rest : List Image) :
      (s.heavylifting.imgdecWorkers i).fault = none →
      (s.heavylifting.imgdecWorkers i).queue = image :: rest →
      Works s (runWorker (zbar image) i rest s)
  | callback (i : Fin nImgdecWorkers) (message : List UInt8) (rest : List (List UInt8)) :
      s.heavyliftingFault = none →
      (s.heavylifting.imgdecWorkers i).responses = message :: rest →
      Works s (callback i message rest s)

/-- The steps of the parts, in any order. The bus answers with the cartridge. -/
inductive Step : System Image n → System Image n → Prop where
  | console (input : Input) : s.consoleFault = none →
      (∀ i < n.val, input.bus (0x10000000 + i) = rom i) → Step s (runConsole cfg input s)
  | capture (image : Image) : s.heavyliftingFault = none →
      Readable zbar s.console.shown image → Step s (capture image s)
  | works : Works zbar s t → Step s t

abbrev Runs (counter : UInt8) : System Image n → Prop :=
  Relation.ReflTransGen (Step cfg rom zbar) (started Image n counter)

/-- Every displayed frame ends inside the array. -/
def Inside (s : System Image n) : Prop :=
  ∀ o qrdata, Displayed s.console.shown o qrdata → o.toInt + cfg.nrombytesPerFrame ≤ n.val

/-- The store has nothing but bytes of the rom, where and only where a handled message had
    them, and no part of the decoder has stopped. -/
structure Exact (s : System Image n) : Prop where
  cells : ∀ i : Fin n.val, s.heavylifting.store.romData i = romByteUnknown ∨
    (s.heavylifting.store.romData i).toInt = (rom i).toNat
  known_iff : ∀ i : Fin n.val, s.heavylifting.store.romData i ≠ romByteUnknown ↔
    ∃ frag : RomFragment, response hlSuccess frag ∈ s.handled ∧ frag.Covers i
  heavyliftingFault : s.heavyliftingFault = none
  workerFaults : ∀ i, (s.heavylifting.imgdecWorkers i).fault = none

/-- What can be under way from a worker. -/
def Answer (shown : List Shown) (message : List UInt8) : Prop :=
  message = intBytes hlFail ∨
    ∃ o qrdata, Displayed shown o qrdata ∧ message = response hlSuccess (fragmentOf qrdata)

/-- A worker has images and answers of displayed frames only, and has not stopped. -/
structure WorkerFlows (shown : List Shown) (worker : ImgdecWorker Image) : Prop where
  queue : ∀ image ∈ worker.queue, Readable zbar shown image
  responses : ∀ message ∈ worker.responses, Answer shown message
  fault : worker.fault = none

/-- The store is that of a list of displayed frames, those whose answers were handled. -/
structure Stored (store : Store n) (shown : List Shown) (handled payloads : List (List UInt8)) :
    Prop where
  represents : Represents store ((payloads.map fragmentOf).map RomFragment.patch)
  displayed : ∀ qrdata ∈ payloads, ∃ o, Displayed shown o qrdata
  answers : ∀ message ∈ handled, Answer shown message
  handled : ∀ frag, response hlSuccess frag ∈ handled ↔ frag ∈ payloads.map fragmentOf

/-- What is under way between the parts. -/
structure Flows (s : System Image n) : Prop where
  isInitialized : s.heavylifting.isInitialized
  showsRom : ShowsRom cfg rom n.val s.console
  workers : ∀ i, WorkerFlows zbar s.console.shown (s.heavylifting.imgdecWorkers i)
  heavyliftingFault : s.heavyliftingFault = none
  stored : ∃ payloads, Stored s.heavylifting.store s.console.shown s.handled payloads

end Runs

variable {cfg : Config} {rom : Nat → UInt8} {zbar : Image → List (List UInt8)}

theorem Displayed.mono {shown later : List Shown} (subset : shown ⊆ later) {o : Int32}
    {qrdata : List UInt8} (h : Displayed shown o qrdata) : Displayed later o qrdata := by
  obtain ⟨symbol, member⟩ := h
  exact ⟨symbol, subset member⟩

theorem Readable.mono {shown later : List Shown} (subset : shown ⊆ later) {image : Image}
    (h : Readable zbar shown image) : Readable zbar later image := by
  cases h with
  | inl none => exact .inl none
  | inr read =>
      obtain ⟨o, qrdata, displayed, symbols⟩ := read
      exact .inr ⟨o, qrdata, Displayed.mono subset displayed, symbols⟩

theorem Answer.mono {shown later : List Shown} (subset : shown ⊆ later) {message : List UInt8}
    (h : Answer shown message) : Answer later message := by
  cases h with
  | inl fail => exact .inl fail
  | inr success =>
      obtain ⟨o, qrdata, displayed, same⟩ := success
      exact .inr ⟨o, qrdata, Displayed.mono subset displayed, same⟩

theorem WorkerFlows.mono {shown later : List Shown} (subset : shown ⊆ later)
    {worker : ImgdecWorker Image} (h : WorkerFlows zbar shown worker) :
    WorkerFlows zbar later worker where
  queue image member := (h.queue image member).mono subset
  responses message member := (h.responses message member).mono subset
  fault := h.fault

theorem Stored.mono {shown later : List Shown} (subset : shown ⊆ later) {store : Store n}
    {handled payloads : List (List UInt8)} (h : Stored store shown handled payloads) :
    Stored store later handled payloads where
  represents := h.represents
  displayed qrdata member := (h.displayed qrdata member).imp fun _ => Displayed.mono subset
  answers message member := (h.answers message member).mono subset
  handled := h.handled

/-- Only the worker that is set has to be looked at. -/
theorem workers_set {h : Heavylifting Image n} {shown : List Shown}
    (workers : ∀ i, WorkerFlows zbar shown (h.imgdecWorkers i)) {i : Fin nImgdecWorkers}
    {worker : ImgdecWorker Image} (set : WorkerFlows zbar shown worker) (j : Fin nImgdecWorkers) :
    WorkerFlows zbar shown ((h.setWorker i worker).imgdecWorkers j) := by
  by_cases here : j = i
  · subst here
    simpa only [Heavylifting.setWorker, Function.update_self] using set
  · simpa only [Heavylifting.setWorker, Function.update_of_ne here] using workers j

theorem flows_started (counter : UInt8) : Flows cfg rom zbar (started Image n counter) where
  isInitialized := rfl
  showsRom := showsRom_start true false counter
  workers _ := ⟨by simp [started, Dispatch.initialized], by simp [started, Dispatch.initialized], rfl⟩
  heavyliftingFault := rfl
  stored := ⟨[], represents_init n, by simp, by simp [started], by simp [started]⟩

/-! ## One step each -/

theorem flows_console {s : System Image n} (h : Flows cfg rom zbar s) {input : Input}
    (bus : ∀ i < n.val, input.bus (0x10000000 + i) = rom i) :
    Flows cfg rom zbar (runConsole cfg input s) := by
  obtain ⟨showsRom, subset⟩ := showsRom_iteration h.showsRom bus
  obtain ⟨payloads, stored⟩ := h.stored
  exact { h with
    showsRom := showsRom
    workers := fun i => (h.workers i).mono subset
    stored := ⟨payloads, stored.mono subset⟩ }

theorem flows_capture {s : System Image n} (h : Flows cfg rom zbar s) {image : Image}
    (readable : Readable zbar s.console.shown image) : Flows cfg rom zbar (capture image s) := by
  obtain ⟨i, -, run⟩ := heavyliftingProcessFrame_run h.isInitialized image
  rw [capture_ok run]
  have worker := h.workers i
  have set : WorkerFlows zbar s.console.shown ((s.heavylifting.imgdecWorkers i).enqueue image) :=
    { worker with
      queue := by
        simp only [ImgdecWorker.enqueue, List.forall_mem_append, List.forall_mem_singleton]
        exact ⟨worker.queue, readable⟩ }
  exact { h with
    isInitialized := h.isInitialized
    workers := workers_set h.workers set
    heavyliftingFault := rfl
    stored := h.stored }

/-- A worker answers an image of a displayed frame with the frame's fragment, and any
    other image with `HL_FAIL`. -/
theorem answer_flows {s : Dump} (showsRom : ShowsRom cfg rom n.val s) {image : Image}
    {rest : List Image} {worker : ImgdecWorker Image} (h : WorkerFlows zbar s.shown worker)
    (first : worker.queue = image :: rest) :
    WorkerFlows zbar s.shown (answer (zbar image) rest worker) := by
  have queue : ∀ image' ∈ rest, Readable zbar s.shown image' := fun image' member =>
    h.queue image' (by rw [first]; exact List.mem_cons_of_mem _ member)
  cases h.queue image (by simp [first]) with
  | inl none =>
      simp only [answer, heavyliftingDecodeImage_fail none]
      refine ⟨queue, ?_, h.fault⟩
      simp only [ImgdecWorker.answered, List.forall_mem_append, List.forall_mem_singleton]
      exact ⟨h.responses, .inl rfl⟩
  | inr read =>
      obtain ⟨o, qrdata, displayed, symbols⟩ := read
      obtain ⟨-, length, short⟩ := displayed_header showsRom displayed
      have long : 5 ≤ qrdata.length := by omega
      simp only [answer, symbols, heavyliftingDecodeImage_payload long short]
      refine ⟨queue, ?_, h.fault⟩
      simp only [ImgdecWorker.answered, List.forall_mem_append, List.forall_mem_singleton]
      exact ⟨h.responses, .inr ⟨o, qrdata, displayed, rfl⟩⟩

theorem flows_worker {s : System Image n} (h : Flows cfg rom zbar s) {i : Fin nImgdecWorkers}
    {image : Image} {rest : List Image}
    (first : (s.heavylifting.imgdecWorkers i).queue = image :: rest) :
    Flows cfg rom zbar (runWorker (zbar image) i rest s) :=
  { h with
    isInitialized := h.isInitialized
    workers := workers_set h.workers (answer_flows h.showsRom (h.workers i) first)
    stored := h.stored }

/-- A handled answer leaves a store of displayed frames again. -/
theorem stored_callback {s : Dump} (showsRom : ShowsRom cfg rom n.val s)
    (inside : ∀ o qrdata, Displayed s.shown o qrdata → o.toInt + cfg.nrombytesPerFrame ≤ n.val)
    {store : Store n} {handled payloads : List (List UInt8)}
    (h : Stored store s.shown handled payloads) {message : List UInt8}
    (answer : Answer s.shown message) :
    ∃ t, (decodeImageCallback message).run store = .ok () t ∧
      ∃ payloads', Stored t s.shown (handled ++ [message]) payloads' := by
  have answers : ∀ later ∈ handled ++ [message], Answer s.shown later := by
    simp only [List.forall_mem_append, List.forall_mem_singleton]
    exact ⟨h.answers, answer⟩
  cases answer with
  | inl fail =>
      subst message
      refine ⟨store, decodeImageCallback_fail store, payloads, h.represents, h.displayed, answers, ?_⟩
      intro frag
      simp only [List.mem_append, List.mem_singleton, h.handled, (fail_ne_response _ _).symm, or_false]
  | inr success =>
      obtain ⟨o, qrdata, displayed, rfl⟩ := success
      have fits := displayed_fits showsRom displayed (inside o qrdata displayed)
      obtain ⟨t, run, represents⟩ := store_represents h.represents fits
      refine ⟨t, (decodeImageCallback_success _ _).trans run, payloads ++ [qrdata], ?_, ?_, answers, ?_⟩
      · simpa only [List.map_append, List.map_singleton] using represents
      · simp only [List.forall_mem_append, List.forall_mem_singleton]
        exact ⟨h.displayed, o, displayed⟩
      · intro frag
        simp only [List.mem_append, List.mem_singleton, List.map_append, List.map_singleton, h.handled]
        exact or_congr_right ⟨response_injective, congrArg _⟩

theorem flows_callback {s : System Image n} (h : Flows cfg rom zbar s) (inside : Inside cfg s)
    {i : Fin nImgdecWorkers} {message : List UInt8} {rest : List (List UInt8)}
    (first : (s.heavylifting.imgdecWorkers i).responses = message :: rest) :
    Flows cfg rom zbar (callback i message rest s) := by
  obtain ⟨payloads, stored⟩ := h.stored
  have worker := h.workers i
  obtain ⟨t, run, stored⟩ := stored_callback h.showsRom inside stored
    (worker.responses message (by simp [first]))
  have set : WorkerFlows zbar s.console.shown
      { s.heavylifting.imgdecWorkers i with responses := rest } :=
    { worker with
      responses := fun later member =>
        worker.responses later (by rw [first]; exact List.mem_cons_of_mem _ member) }
  simp only [callback, Heavylifting.handle, after_ok run, faultOf, run]
  exact { h with
    isInitialized := h.isInitialized
    workers := workers_set h.workers set
    heavyliftingFault := rfl
    stored := stored }

/-! ## Runs -/

/-- What holds in every state: all frames are of the rom, and while they lie inside the
    array, nothing but displayed frames flows to the store. -/
structure Inv (cfg : Config) (rom : Nat → UInt8) (zbar : Image → List (List UInt8))
    (s : System Image n) : Prop where
  showsRom : ShowsRom cfg rom n.val s.console
  flows : Inside cfg s → Flows cfg rom zbar s

/-- The step lemma. Frames are never taken back, so frames that are inside after a step
    were inside before it. -/
theorem inv_step {s t : System Image n} (h : Inv cfg rom zbar s) (step : Step cfg rom zbar s t) :
    Inv cfg rom zbar t := by
  cases step with
  | console input running bus =>
      obtain ⟨showsRom, subset⟩ := showsRom_iteration h.showsRom bus
      refine ⟨showsRom, fun inside => flows_console (h.flows ?_) bus⟩
      exact fun o qrdata displayed => inside o qrdata (displayed.imp fun _ member => subset member)
  | capture image running readable =>
      exact ⟨h.showsRom, fun inside => flows_capture (h.flows inside) readable⟩
  | works step =>
      cases step with
      | worker i image rest running first =>
          exact ⟨h.showsRom, fun inside => flows_worker (h.flows inside) first⟩
      | callback i message rest running first =>
          exact ⟨h.showsRom, fun inside => flows_callback (h.flows inside) inside first⟩

theorem inv_runs {counter : UInt8} {s : System Image n} (run : Runs cfg rom zbar counter s) :
    Inv cfg rom zbar s := by
  induction run with
  | refl => exact ⟨showsRom_start true false counter, fun _ => flows_started counter⟩
  | tail _ step ih => exact inv_step ih step

/-- A store of displayed frames that lie inside the array is exact. -/
theorem Flows.exact {s : System Image n} (h : Flows cfg rom zbar s) (inside : Inside cfg s) :
    Exact rom s := by
  obtain ⟨payloads, stored⟩ := h.stored
  have fits : ∀ frag ∈ payloads.map fragmentOf, Fits n frag := by
    rw [List.forall_mem_map]
    intro qrdata member
    obtain ⟨o, displayed⟩ := stored.displayed qrdata member
    exact displayed_fits h.showsRom displayed (inside o qrdata displayed)
  refine ⟨fun i => ?_, fun i => ?_, h.heavyliftingFault, fun i => (h.workers i).fault⟩
  · rw [stored.represents.cells i]
    cases value : overlay ((payloads.map fragmentOf).map RomFragment.patch) i with
    | none => exact .inl rfl
    | some b =>
        rw [displayed_overlay h.showsRom stored.displayed i.isLt value]
        exact .inr (cell_toInt _)
  · rw [ne_eq, stored.represents.unknown_iff_uncovered fits i]
    simp only [stored.handled, not_forall, not_not, exists_prop]

/-- Whatever the rom is, whichever buttons are pressed, and in whatever order the parts
    run: in every state whose displayed frames end inside the array, each cell of the store
    is unknown or the byte of the rom, and known exactly where a handled message had it. -/
theorem dump_exact (cfg : Config) (rom : Nat → UInt8) (zbar : Image → List (List UInt8))
    (counter : UInt8) (s : System Image n) (run : Runs cfg rom zbar counter s)
    (inside : Inside cfg s) : Exact rom s :=
  ((inv_runs run).flows inside).exact inside

/-! ## One image at a time -/

/-- Where each input is a step, a run of the console is one of the system. -/
theorem reaches_console {R : System Image n → System Image n → Prop} {inputs : List Input}
    (each : ∀ input ∈ inputs, ∀ s, s.consoleFault = none → R s (runConsole cfg input s))
    {s : System Image n} (running : s.consoleFault = none) {d : Dump}
    (run : Reaches (iteration cfg) s.console inputs d) :
    Relation.ReflTransGen R s { s with console := d } := by
  induction inputs generalizing s with
  | nil =>
      cases run
      exact .refl
  | cons input inputs ih =>
      cases run with
      | @step _ _ u _ _ first rest =>
          have step := each input List.mem_cons_self s running
          rw [runConsole_ok first, ← running] at step
          have later := ih (fun input member => each input (List.mem_cons_of_mem _ member))
            (s := { s with console := u }) running rest
          exact .head step later

/-- Nothing is under way and the decoder has not stopped. -/
structure Idle (s : System Image n) : Prop where
  isInitialized : s.heavylifting.isInitialized
  workers : ∀ i, s.heavylifting.imgdecWorkers i = ⟨[], [], none⟩
  heavyliftingFault : s.heavyliftingFault = none

/-- The answer to an image in which zbar finds symbols. -/
def answerTo : List (List UInt8) → List UInt8
  | [qrdata] => response hlSuccess (fragmentOf qrdata)
  | _ => intBytes hlFail

theorem answerTo_fail {symbols : List (List UInt8)} (several : symbols.length ≠ 1) :
    answerTo symbols = intBytes hlFail := by
  match symbols with
  | [] => rfl
  | [_] => exact absurd rfl several
  | _ :: _ :: _ => rfl

/-- An image was captured, and all that it led to is the message that was handled. -/
structure Delivered (zbar : Image → List (List UInt8)) (image : Image) (message : List UInt8)
    (s t : System Image n) : Prop where
  works : Relation.ReflTransGen (Works zbar) (capture image s) t
  idle : Idle t
  console : t.console = s.console
  handled : t.handled = s.handled ++ [message]

namespace Idle

variable {s : System Image n} (idle : Idle s)
include idle

theorem delivered {image : Image} {message : List UInt8} {store : Store n}
    (answers : (heavyliftingDecodeImage (zbar image)).run () = .ok message ())
    (stores : (decodeImageCallback message).run s.heavylifting.store = .ok () store) :
    ∃ t, Delivered zbar image message s t := by
  obtain ⟨i, -, run⟩ := heavyliftingProcessFrame_run idle.isInitialized image
  let s₁ := { s with
    heavylifting := s.heavylifting.setWorker i ((s.heavylifting.imgdecWorkers i).enqueue image)
    heavyliftingFault := none }
  have captured : capture image s = s₁ := capture_ok run
  have waiting : s₁.heavylifting.imgdecWorkers i = ⟨[image], [], none⟩ := by
    simp only [s₁, Heavylifting.setWorker, Function.update_self, idle.workers i]
    rfl
  have works : Works zbar s₁ (runWorker (zbar image) i [] s₁) :=
    .worker i image [] (congrArg ImgdecWorker.fault waiting) (congrArg ImgdecWorker.queue waiting)
  have answered : answer (zbar image) [] (s₁.heavylifting.imgdecWorkers i) =
      ⟨[], [message], none⟩ := by
    simp only [waiting, answer, answers]
    rfl
  rw [runWorker, answered] at works
  let s₂ := { s₁ with heavylifting := s₁.heavylifting.setWorker i ⟨[], [message], none⟩ }
  have ready : s₂.heavylifting.imgdecWorkers i = ⟨[], [message], none⟩ := Function.update_self ..
  have handled : Works zbar s₂ (callback i message [] s₂) :=
    .callback i message [] rfl (congrArg ImgdecWorker.responses ready)
  refine ⟨callback i message [] s₂, ?_, ⟨idle.isInitialized, fun j => ?_, ?_⟩, rfl, rfl⟩
  · rw [captured]
    exact .tail (.single works) handled
  · by_cases here : j = i
    · subst here
      simp only [callback, Heavylifting.handle, Heavylifting.setWorker, Function.update_self, ready]
    · simp only [callback, Heavylifting.handle, Heavylifting.setWorker, s₂, s₁,
        Function.update_of_ne here, idle.workers j]
  · change faultOf (decodeImageCallback message) s.heavylifting.store = none
    simp only [faultOf, stores]

/-- An image of a displayed frame leads to its fragment, any other one to `HL_FAIL`. -/
theorem delivers (showsRom : ShowsRom cfg rom n.val s.console) (inside : Inside cfg s)
    {image : Image} (readable : Readable zbar s.console.shown image) :
    ∃ t, Delivered zbar image (answerTo (zbar image)) s t := by
  cases readable with
  | inl none =>
      rw [answerTo_fail none]
      exact idle.delivered (heavyliftingDecodeImage_fail none ()) (decodeImageCallback_fail _)
  | inr read =>
      obtain ⟨o, qrdata, displayed, found⟩ := read
      obtain ⟨-, length, short⟩ := displayed_header showsRom displayed
      obtain ⟨store, stored, -⟩ := store_fits
        (displayed_fits showsRom displayed (inside o qrdata displayed)) s.heavylifting.store
      have long : 5 ≤ qrdata.length := by omega
      rw [found]
      refine idle.delivered ?_ ((decodeImageCallback_success _ _).trans stored)
      rw [found]
      exact heavyliftingDecodeImage_payload long short ()

/-- Images that are captured one after another are all answered, in their order. -/
theorem delivers_all {R : System Image n → System Image n → Prop} {images : List Image}
    (showsRom : ShowsRom cfg rom n.val s.console) (inside : Inside cfg s)
    (readable : ∀ image ∈ images, Readable zbar s.console.shown image)
    (captures : ∀ image ∈ images, ∀ t, t.console = s.console → t.heavyliftingFault = none →
      R t (capture image t)) (works : ∀ t u, Works zbar t u → R t u) :
    ∃ t, Relation.ReflTransGen R s t ∧ Idle t ∧ t.console = s.console ∧
      t.handled = s.handled ++ images.map fun image => answerTo (zbar image) := by
  induction images generalizing s with
  | nil => exact ⟨s, .refl, idle, rfl, (List.append_nil _).symm⟩
  | cons image images ih =>
      rw [List.forall_mem_cons] at readable captures
      obtain ⟨u, first⟩ := idle.delivers showsRom inside readable.1
      have same := first.console
      obtain ⟨t, rest, last, console, handled⟩ := ih first.idle (same ▸ showsRom)
        (by rw [Inside, same]; exact inside) (same ▸ readable.2) (same ▸ captures.2)
      have captured := captures.1 s rfl idle.heavyliftingFault
      have worked := Relation.ReflTransGen.mono works _ _ first.works
      refine ⟨t, .head captured (worked.trans rest), last, console.trans same, ?_⟩
      rw [handled, first.handled, List.append_assoc]
      rfl

end Idle

/-! ## Two frames -/

/-- The console has shown two frames of the cartridge that counts down, and nothing was captured. -/
structure TwoShown (first second : QRcode) (s : System Image n) : Prop where
  idle : Idle s
  handled : s.handled = []
  shown : s.console.shown = [.black, .frame 0 (frameData 0 0) (some first),
    .frame 506 (frameData 1 506) (some second)]

theorem twoShown {R : System Image n → System Image n → Prop}
    (qrcodeEncodeData : List UInt8 → Nat → QRecLevel → Option QRcode)
    (each : ∀ input ∈ twoFrames qrcodeEncodeData, ∀ s, s.consoleFault = none →
      R s (runConsole activeConfig input s)) {first second : QRcode}
    (one : qrcodeEncodeData (frameData 0 0) 24 .h = some first)
    (two : qrcodeEncodeData (frameData 1 506) 24 .h = some second) (oneWide : first.width = 113)
    (twoWide : second.width = 113) :
    ∃ s, Relation.ReflTransGen R (started Image n 0) s ∧ TwoShown first second s := by
  obtain ⟨d, reached, -, shown⟩ := twoFrames_run qrcodeEncodeData one two oneWide twoWide
  exact ⟨{ started Image n 0 with console := d }, reaches_console each rfl reached,
    ⟨rfl, fun _ => rfl, rfl⟩, rfl, shown⟩

namespace TwoShown

variable {first second : QRcode} {s : System Image n} (h : TwoShown first second s)
include h

theorem inside (room : 1012 ≤ n.val) : Inside activeConfig s := by
  rintro o qrdata ⟨symbol, member⟩
  simp only [h.shown, List.mem_cons, List.not_mem_nil, reduceCtorEq, Shown.frame.injEq, false_or,
    or_false] at member
  have length : activeConfig.nrombytesPerFrame = 506 := by decide
  have last : (506 : Int32).toInt = 506 := by decide
  rcases member with ⟨rfl, -⟩ | ⟨rfl, -⟩
  · rw [length, Int32.toInt_zero]
    omega
  · rw [length, last]
    omega

theorem displays_first : Displayed s.console.shown 0 (frameData 0 0) := ⟨first, by simp [h.shown]⟩

theorem displays_second : Displayed s.console.shown 506 (frameData 1 506) :=
  ⟨second, by simp [h.shown]⟩

end TwoShown

/-- The second frame is captured first and then once more, between an image that zbar finds nothing
    in and one of the first frame. -/
theorem dump_exact_twoFrames : ∃ s : System (Option (List UInt8)) ⟨2048, by decide⟩,
    Runs activeConfig countdown Option.toList 0 s ∧
    s.handled = [response hlSuccess (fragmentOf (frameData 1 506)), intBytes hlFail,
      response hlSuccess (fragmentOf (frameData 0 0)),
      response hlSuccess (fragmentOf (frameData 1 506))] ∧ Exact countdown s := by
  have bus : ∀ input ∈ twoFrames fun _ _ _ => some ⟨113, []⟩,
      ∀ i, input.bus (0x10000000 + i) = countdown i := by
    simp [twoFrames, inserted_at]
  obtain ⟨s, run, two⟩ := twoShown (R := Step activeConfig countdown Option.toList)
    (n := ⟨2048, by decide⟩) (fun _ _ _ => some ⟨113, []⟩)
    (fun input member s running => .console input running fun i _ => bus input member i)
    rfl rfl rfl rfl
  have inside := two.inside (by decide)
  let images := [some (frameData 1 506), none, some (frameData 0 0), some (frameData 1 506)]
  have readable : ∀ image ∈ images, Readable Option.toList s.console.shown image := by
    simp only [images, List.forall_mem_cons]
    exact ⟨.inr ⟨506, _, two.displays_second, rfl⟩, .inl (by decide),
      .inr ⟨0, _, two.displays_first, rfl⟩, .inr ⟨506, _, two.displays_second, rfl⟩, by simp⟩
  obtain ⟨t, later, -, console, handled⟩ := two.idle.delivers_all
    (R := Step activeConfig countdown Option.toList) (inv_runs run).showsRom inside readable
    (fun image member t same running => .capture image running (by
      rw [same]
      exact readable image member))
    fun _ _ => .works
  rw [two.handled] at handled
  refine ⟨t, run.trans later, handled, ?_⟩
  exact dump_exact activeConfig countdown Option.toList 0 t (run.trans later)
    (by rw [Inside, console]; exact inside)

end AssistedDump.EndToEnd
