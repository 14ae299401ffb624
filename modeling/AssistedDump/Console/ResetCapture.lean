import AssistedDump.General.CSemantics
import AssistedDump.General.Machine

/-! # Capturing the reset

When the reset button is pressed, `my_reset_handler` of main.c registers
`my_exception_handler` and arms the watch registers of the CPU for loads of
SP_STATUS, which IPL1 makes at 0xBFC00018. The handler takes the registers down
again and resumes in `return_from_watch_exception`. A run is made of presses and
exceptions. Of libdragon only the registration of handlers and the fact that the
default handler leaves the interrupted context alone are used.
-/

namespace AssistedDump.ResetCapture

open CSemantics Machine

/-- What the linker and the headers of libdragon fix. -/
structure Platform where
  returnFromWatchException : UInt32
  c0InterruptTimer : UInt32
  c0InterruptCart : UInt32
  c0InterruptPrenmi : UInt32
  c0InterruptRcp : UInt32
  c0StatusIe : UInt32

/-- The address in `lw t0,0x10(t0)`. -/
def spStatus : UInt32 := 0xA4040010

def physicalAddr (virtualAddr : UInt32) : UInt32 := virtualAddr &&& 0x1FFFFFFF

def exceptionCodeWatch : Nat := 23

/-- IPL1+0x18 in uncached memory. -/
def ipl1Epc : UInt32 := 0xBFC00018

def srCu1 : UInt32 := 0x20000000

def srFr : UInt32 := 0x04000000

def srPe : UInt32 := 0x00100000

def srKx : UInt32 := 0x00000080

def srSx : UInt32 := 0x00000040

def srUx : UInt32 := 0x00000020

/-- The context an exception interrupts, the registers the program does not name in one. -/
structure Regs (ρ : Type) where
  epc : UInt32
  sr : UInt32
  others : ρ

structure Exception (ρ : Type) where
  code : Nat
  regs : Regs ρ

inductive Handler where
  | exceptionDefaultHandler
  | myExceptionHandler
  deriving Repr, DecidableEq

/-- The WatchLo and WatchHi registers of the VR4300. -/
structure WatchRegs where
  lo : UInt32
  hi : UInt32
  deriving Repr, DecidableEq

/-- A load of a physical address raises a Watch exception. -/
def WatchRegs.ArmedFor (watch : WatchRegs) (paddr : UInt32) : Prop :=
  watch.lo &&& 0b10 ≠ 0 ∧ watch.lo &&& 0xFFFFFFF8 = paddr &&& 0xFFFFFFF8 ∧ watch.hi = 0

instance (watch : WatchRegs) (paddr : UInt32) : Decidable (watch.ArmedFor paddr) :=
  inferInstanceAs (Decidable (_ ∧ _))

/-- Neither loads nor stores raise a Watch exception. -/
def WatchRegs.Clear (watch : WatchRegs) : Prop := watch.lo &&& 0b11 = 0

instance (watch : WatchRegs) : Decidable watch.Clear := inferInstanceAs (Decidable (_ = _))

/-- An exception that was handled: the context as it was interrupted and as it is resumed,
    and whether a press was still without its IPL1. -/
structure Handled (ρ : Type) where
  ex : Exception ρ
  regs : Regs ρ
  pending : Bool

/-- The registered handler and the watch registers. `pending` says that the last press has
    not been followed by a captured IPL1 yet; `defaultRuns` has the watch registers at each
    run of the default handler. -/
structure Console (ρ : Type) where
  handler : Handler
  watch : WatchRegs
  pending : Bool
  defaultRuns : List WatchRegs
  handled : List (Handled ρ)

variable {ρ : Type}

def setCpuWatchRegs (physicalAddr : UInt32) (exceptionOnLoad exceptionOnWrite : Bool) :
    C (Console ρ) Unit :=
  let pAddr1 : UInt32 := 0
  let pAddr0 := physicalAddr &&& 0xFFFFFFF8
  let r := if exceptionOnLoad then (1 : UInt32) <<< 1 else 0
  let w := if exceptionOnWrite then (1 : UInt32) <<< 0 else 0
  modify fun c => { c with watch := ⟨pAddr0 ||| r ||| w, pAddr1⟩ }

def watchIpl1Set : C (Console ρ) Unit := setCpuWatchRegs (physicalAddr spStatus) true false

def watchIpl1Clear : C (Console ρ) Unit := setCpuWatchRegs 0 false false

/-- Installs a handler and returns the previous one. -/
def registerExceptionHandler (handler : Handler) : C (Console ρ) Handler := do
  let old := (← get).handler
  modify fun c => { c with handler := handler }
  return old

/-- libdragon's handler. It shows the exception and leaves the context as it is. -/
def exceptionDefaultHandler (_ : Exception ρ) : C (Console ρ) Unit :=
  modify fun c => { c with defaultRuns := c.defaultRuns ++ [c.watch] }

def myResetHandler : C (Console ρ) Unit := do
  let oldExceptionHandler ← registerExceptionHandler .myExceptionHandler
  assert "old_exception_handler == exception_default_handler"
    (oldExceptionHandler = .exceptionDefaultHandler)
  watchIpl1Set

def setupInitialBoot : C (Console ρ) Unit := setCpuWatchRegs 0 false false

variable (platform : Platform)

/-- The status register the captured program is resumed with. -/
def resumeSr : UInt32 :=
  srCu1 ||| srPe ||| srFr ||| srKx ||| srSx ||| srUx
    ||| platform.c0InterruptTimer
    ||| platform.c0InterruptCart
    ||| platform.c0InterruptPrenmi
    ||| platform.c0StatusIe ||| platform.c0InterruptRcp ||| platform.c0InterruptPrenmi

/-- `my_exception_handler`, with the context it leaves in `ex->regs`. -/
def myExceptionHandler (ex : Exception ρ) : C (Console ρ) (Regs ρ) := do
  watchIpl1Clear
  if ex.code ≠ exceptionCodeWatch then
    exceptionDefaultHandler ex
    watchIpl1Set
    return ex.regs
  if ex.regs.epc ≠ ipl1Epc then
    watchIpl1Set
    return ex.regs
  let _ ← registerExceptionHandler .exceptionDefaultHandler
  return { ex.regs with
    epc := platform.returnFromWatchException
    sr := resumeSr platform }

/-- The registered handler is run on an exception. -/
def handle (ex : Exception ρ) : C (Console ρ) (Regs ρ) := do
  match (← get).handler with
  | .myExceptionHandler => myExceptionHandler platform ex
  | .exceptionDefaultHandler => do
      exceptionDefaultHandler ex
      return ex.regs

/-- The exception IPL1 raises where it is expected to. -/
def Exception.Captures (ex : Exception ρ) : Prop :=
  ex.code = exceptionCodeWatch ∧ ex.regs.epc = ipl1Epc

instance (ex : Exception ρ) : Decidable ex.Captures := inferInstanceAs (Decidable (_ ∧ _))

inductive Event (ρ : Type) where
  /-- The reset button. -/
  | press
  | exception (ex : Exception ρ)

def event : Event ρ → C (Console ρ) Unit
  | .press => do
      myResetHandler
      modify fun c => { c with pending := true }
  | .exception ex => do
      let pending := (← get).pending
      let regs ← handle platform ex
      modify fun c => { c with
        pending := pending && !decide ex.Captures
        handled := c.handled ++ [⟨ex, regs, pending⟩] }

/-- The console after `setup_initial_boot`, whatever the watch registers have kept from
    before it was powered on. -/
def booted (watch : WatchRegs) : Console ρ :=
  after setupInitialBoot ⟨.exceptionDefaultHandler, watch, false, [], []⟩

/-- A press waits for the capture of the one before, and a Watch exception needs watch
    registers that are not clear. -/
def Admissible (c : Console ρ) : Event ρ → Prop
  | .press => c.pending = false
  | .exception ex => ex.code = exceptionCodeWatch → ¬ c.watch.Clear

instance (c : Console ρ) : (e : Event ρ) → Decidable (Admissible c e)
  | .press => inferInstanceAs (Decidable (_ = _))
  | .exception _ => inferInstanceAs (Decidable (_ → _))

/-! ## What a run maintains -/

/-- The context an exception is resumed with. -/
def Handled.Exact (h : Handled ρ) : Prop :=
  if h.ex.Captures then
    h.pending = true ∧ h.regs = { h.ex.regs with
      epc := platform.returnFromWatchException
      sr := resumeSr platform }
  else h.regs = h.ex.regs

/-- What holds outside the handlers. -/
structure Sound (c : Console ρ) : Prop where
  armed_iff : c.watch.ArmedFor (physicalAddr spStatus) ↔ c.handler = .myExceptionHandler
  defaultRuns : ∀ watch ∈ c.defaultRuns, watch.Clear
  handled : ∀ h ∈ c.handled, h.Exact platform

def armed : WatchRegs := ⟨0x04040012, 0⟩

def cleared : WatchRegs := ⟨0, 0⟩

def watchOf : Handler → WatchRegs
  | .myExceptionHandler => armed
  | .exceptionDefaultHandler => cleared

/-- The pairing of the registered handler with the watch registers and the presses. -/
structure Paired (c : Console ρ) : Prop where
  watch : c.watch = watchOf c.handler
  pending : c.pending = true ↔ c.handler = .myExceptionHandler
  defaultRuns : ∀ watch ∈ c.defaultRuns, watch = cleared
  handled : ∀ h ∈ c.handled, h.Exact platform

variable {platform}

theorem armedFor_watchOf (handler : Handler) :
    (watchOf handler).ArmedFor (physicalAddr spStatus) ↔ handler = .myExceptionHandler := by
  cases handler <;> decide

theorem Paired.sound {c : Console ρ} (h : Paired platform c) : Sound platform c where
  armed_iff := by
    rw [h.watch]
    exact armedFor_watchOf c.handler
  defaultRuns watch member := by
    rw [h.defaultRuns watch member]
    rfl
  handled := h.handled

theorem watchIpl1Set_run (c : Console ρ) : watchIpl1Set.run c = .ok () { c with watch := armed } := by
  rfl

theorem watchIpl1Clear_run (c : Console ρ) :
    watchIpl1Clear.run c = .ok () { c with watch := cleared } := by
  rfl

theorem paired_booted (platform : Platform) (watch : WatchRegs) :
    Paired platform (booted watch : Console ρ) := by
  have boot : (booted watch : Console ρ) = ⟨.exceptionDefaultHandler, cleared, false, [], []⟩ :=
    after_ok (watchIpl1Clear_run _)
  rw [boot]
  exact ⟨rfl, by simp, by simp, by simp⟩

/-! ## One event -/

/-- A press of a console with the default handler. -/
theorem press_run {c : Console ρ} (handler : c.handler = .exceptionDefaultHandler) :
    (event platform .press).run c =
      .ok () { c with handler := .myExceptionHandler, watch := armed, pending := true } := by
  simp [event, myResetHandler, registerExceptionHandler, handler, watchIpl1Set_run]

/-- The handler of this program clears the watch registers, calls the default handler for
    a code of another kind, and arms them again unless it has captured IPL1. -/
theorem myExceptionHandler_run (ex : Exception ρ) (c : Console ρ) :
    (myExceptionHandler platform ex).run c =
      if ex.Captures then
        .ok { ex.regs with epc := platform.returnFromWatchException, sr := resumeSr platform }
          { c with handler := .exceptionDefaultHandler, watch := cleared }
      else
        .ok ex.regs { c with
          watch := armed
          defaultRuns :=
            if ex.code = exceptionCodeWatch then c.defaultRuns else c.defaultRuns ++ [cleared] } := by
  by_cases code : ex.code = exceptionCodeWatch
  · by_cases epc : ex.regs.epc = ipl1Epc
    · simp [myExceptionHandler, Exception.Captures, code, epc, watchIpl1Clear_run,
        registerExceptionHandler, -bind_pure_comp]
    · simp [myExceptionHandler, Exception.Captures, code, epc, watchIpl1Clear_run,
        watchIpl1Set_run, -bind_pure_comp]
  · simp [myExceptionHandler, Exception.Captures, code, watchIpl1Clear_run, watchIpl1Set_run,
      exceptionDefaultHandler, -bind_pure_comp]

theorem handle_default {ex : Exception ρ} {c : Console ρ}
    (handler : c.handler = .exceptionDefaultHandler) :
    (handle platform ex).run c =
      .ok ex.regs { c with defaultRuns := c.defaultRuns ++ [c.watch] } := by
  simp [handle, handler, exceptionDefaultHandler, -bind_pure_comp]

theorem handle_mine {ex : Exception ρ} {c : Console ρ} (handler : c.handler = .myExceptionHandler) :
    (handle platform ex).run c = (myExceptionHandler platform ex).run c := by
  simp [handle, handler]

/-- An exception is logged with what its handler made of it. -/
theorem exception_run {ex : Exception ρ} {regs : Regs ρ} {c d : Console ρ}
    (run : (handle platform ex).run c = .ok regs d) :
    (event platform (.exception ex)).run c = .ok () { d with
      pending := c.pending && !decide ex.Captures
      handled := d.handled ++ [⟨ex, regs, c.pending⟩] } := by
  simp [event, run]

theorem paired_press {c : Console ρ} (h : Paired platform c) (waited : c.pending = false) :
    ∃ d, (event platform .press).run c = .ok () d ∧ Paired platform d := by
  have handler : c.handler = .exceptionDefaultHandler := by
    cases handler : c.handler with
    | exceptionDefaultHandler => rfl
    | myExceptionHandler => simp [h.pending.mpr handler] at waited
  exact ⟨_, press_run handler, rfl, by simp, h.defaultRuns, h.handled⟩

/-- An exception while the default handler is registered, never one of the watch registers. -/
theorem paired_default {ex : Exception ρ} {c : Console ρ} (h : Paired platform c)
    (handler : c.handler = .exceptionDefaultHandler) (other : ¬ ex.Captures) :
    ∃ d, (event platform (.exception ex)).run c = .ok () d ∧ Paired platform d := by
  have watch : c.watch = cleared := by rw [h.watch, handler]; rfl
  have idle : c.pending = false := by
    have := h.pending.not.mpr (by simp [handler])
    simpa using this
  refine ⟨_, exception_run (handle_default handler), ?_, ?_, ?_, ?_⟩
  · exact h.watch
  · simp [handler, idle]
  · simp only [List.forall_mem_append, List.forall_mem_singleton]
    exact ⟨h.defaultRuns, watch⟩
  · simp only [List.forall_mem_append, List.forall_mem_singleton]
    exact ⟨h.handled, by simp [Handled.Exact, other]⟩

/-- An exception while this program's handler is registered. -/
theorem paired_mine {ex : Exception ρ} {c : Console ρ} (h : Paired platform c)
    (handler : c.handler = .myExceptionHandler) :
    ∃ d, (event platform (.exception ex)).run c = .ok () d ∧ Paired platform d := by
  have pending := h.pending.mpr handler
  have run : (handle platform ex).run c = _ := handle_mine handler
  rw [myExceptionHandler_run] at run
  by_cases captures : ex.Captures
  · rw [if_pos captures] at run
    refine ⟨_, exception_run run, rfl, by simp [captures], h.defaultRuns, ?_⟩
    simp only [List.forall_mem_append, List.forall_mem_singleton]
    exact ⟨h.handled, by simp [Handled.Exact, captures, pending]⟩
  · rw [if_neg captures] at run
    refine ⟨_, exception_run run, ?_, by simp [captures, pending, handler], ?_, ?_⟩
    · simp [handler, watchOf]
    · intro watch member
      simp only at member
      split at member
      · exact h.defaultRuns watch member
      · simp only [List.mem_append, List.mem_singleton] at member
        exact member.elim (h.defaultRuns watch) id
    · simp only [List.forall_mem_append, List.forall_mem_singleton]
      exact ⟨h.handled, by simp [Handled.Exact, captures]⟩

/-- The step lemma: an admissible event is handled without a failing assertion and keeps
    the pairing. -/
theorem paired_event {c : Console ρ} (h : Paired platform c) {e : Event ρ}
    (admissible : Admissible c e) : ∃ d, (event platform e).run c = .ok () d ∧ Paired platform d := by
  cases e with
  | press => exact paired_press h admissible
  | exception ex =>
      cases handler : c.handler with
      | myExceptionHandler => exact paired_mine h handler
      | exceptionDefaultHandler =>
          apply paired_default h handler
          intro captures
          have notClear := admissible captures.1
          rw [h.watch, handler] at notClear
          exact notClear rfl

/-- Whatever the watch registers were before and whichever admissible presses and
    exceptions follow, every event is handled, and in every state the watch registers are
    armed exactly while `my_exception_handler` is registered, were clear at every run of
    the default handler, and only a captured IPL1 was resumed elsewhere. -/
theorem resetCapture (platform : Platform) (watch : WatchRegs) (events : List (Event ρ))
    (admissible : ∀ p ∈ taken (event platform) (booted watch) events, Admissible p.1 p.2) :
    (∃ final, Reaches (event platform) (booted watch) events final) ∧
      ∀ c ∈ visited (event platform) (booted watch) events, Sound platform c := by
  obtain ⟨run, paired⟩ := Reaches.of_progress (I := Paired platform)
    (paired_booted platform watch) fun p member h => paired_event h (admissible p member)
  exact ⟨run, fun c member => (paired c member).sound⟩

/-- A press, an exception of another kind, a load of SP_STATUS elsewhere, IPL1, and a
    second press. -/
def twoPresses : List (Event Unit) :=
  [.press, .exception ⟨2, ⟨0x80001000, 0, ()⟩⟩, .exception ⟨23, ⟨0x80002000, 0, ()⟩⟩,
    .exception ⟨23, ⟨0xBFC00018, 0, ()⟩⟩, .press]

theorem resetCapture_twoPresses :
    (∃ final, Reaches (event ⟨0x80000400, 0x8000, 0x800, 0x1000, 0x400, 1⟩)
        (booted ⟨0xFFFFFFFF, 0xF⟩) twoPresses final) ∧
      ∀ c ∈ visited (event ⟨0x80000400, 0x8000, 0x800, 0x1000, 0x400, 1⟩)
        (booted ⟨0xFFFFFFFF, 0xF⟩) twoPresses,
        Sound ⟨0x80000400, 0x8000, 0x800, 0x1000, 0x400, 1⟩ c :=
  resetCapture _ _ twoPresses (by decide)

end AssistedDump.ResetCapture
