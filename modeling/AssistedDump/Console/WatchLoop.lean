import AssistedDump.Console.ResetCapture
import Mathlib.Logic.Function.Iterate

/-! # A watch exception outside IPL1

The CPU raises a Watch exception instead of completing a load of an armed address,
and resumes at the epc the handler leaves. `my_exception_handler` ignores the
exception when its epc is not the one of IPL1: it arms the watch registers again
and leaves the epc as it is, so the same load raises the same exception for ever.
-/

namespace AssistedDump.ResetCapture

open CSemantics Machine

variable {ρ : Type}

/-- The interrupted program, one instruction at a time. -/
structure Program (ρ : Type) where
  /-- The virtual address the instruction at the program counter loads from. -/
  loads : Regs ρ → Option UInt32
  /-- The context after the instruction has completed. -/
  complete : Regs ρ → Regs ρ

/-- What the CPU does next. The `epc` of a context that executes is its program counter. -/
inductive Phase (ρ : Type) where
  | execute (regs : Regs ρ)
  | handle (ex : Exception ρ)
  | resume (regs : Regs ρ)

structure Cpu (ρ : Type) where
  phase : Phase ρ
  console : Console ρ

variable (platform : Platform) (program : Program ρ)

/-- The instruction loads from an address the watch registers are armed for. -/
def Watched (watch : WatchRegs) (regs : Regs ρ) : Prop :=
  ∃ virtualAddr ∈ program.loads regs, watch.ArmedFor (physicalAddr virtualAddr)

instance (watch : WatchRegs) (regs : Regs ρ) : Decidable (Watched program watch regs) :=
  inferInstanceAs (Decidable (∃ virtualAddr ∈ program.loads regs, _))

/-- One step: an instruction completes or raises a Watch exception, the registered handler
    runs, or the CPU returns from an exception. -/
def Cpu.step (cpu : Cpu ρ) : Cpu ρ :=
  match cpu.phase with
  | .execute regs =>
      if Watched program cpu.console.watch regs then
        { cpu with phase := .handle ⟨exceptionCodeWatch, regs⟩ }
      else { cpu with phase := .execute (program.complete regs) }
  | .handle ex =>
      match (handle platform ex).run cpu.console with
      | .ok regs console => ⟨.resume regs, console⟩
      | .error _ console => { cpu with console := console }
  | .resume regs => { cpu with phase := .execute regs }

/-- The program executes at another address than `p`. -/
def MovedPast (p : UInt32) (cpu : Cpu ρ) : Prop :=
  ∃ regs, cpu.phase = .execute regs ∧ regs.epc ≠ p

/-- The CPU is in the cycle of one ignored Watch exception. -/
structure Stuck (regs : Regs ρ) (cpu : Cpu ρ) : Prop where
  phase : cpu.phase ∈ [.execute regs, .handle ⟨exceptionCodeWatch, regs⟩, .resume regs]
  handler : cpu.console.handler = .myExceptionHandler
  armed : cpu.console.watch.ArmedFor (physicalAddr spStatus)

variable {platform program} {regs : Regs ρ}

theorem Stuck.not_movedPast {cpu : Cpu ρ} (h : Stuck regs cpu) : ¬ MovedPast regs.epc cpu := by
  intro movedPast
  obtain ⟨other, executes, moved⟩ := movedPast
  have phase := h.phase
  rw [executes] at phase
  simp only [List.mem_cons, Phase.execute.injEq, reduceCtorEq, List.not_mem_nil, or_false] at phase
  exact moved (congrArg Regs.epc phase)

/-- The exception is ignored: the watch registers are armed again, the context stays. -/
theorem handle_ignores {console : Console ρ} (handler : console.handler = .myExceptionHandler)
    (elsewhere : regs.epc ≠ ipl1Epc) :
    (handle platform ⟨exceptionCodeWatch, regs⟩).run console =
      .ok regs { console with watch := armed } := by
  have ignored : ¬ (⟨exceptionCodeWatch, regs⟩ : Exception ρ).Captures := fun captures =>
    elsewhere captures.2
  rw [handle_mine handler, myExceptionHandler_run, if_neg ignored]
  simp

/-- The step lemma: each step of the cycle leads to the next one. -/
theorem Stuck.step {cpu : Cpu ρ} (h : Stuck regs cpu) (loads : program.loads regs = some spStatus)
    (elsewhere : regs.epc ≠ ipl1Epc) : Stuck regs (cpu.step platform program) := by
  obtain ⟨phase, console⟩ := cpu
  have executes := h.phase
  simp only [List.mem_cons, List.not_mem_nil, or_false] at executes
  rcases executes with rfl | rfl | rfl
  · have watched : Watched program console.watch regs := ⟨spStatus, loads, h.armed⟩
    simp only [Cpu.step, if_pos watched]
    exact ⟨by simp, h.handler, h.armed⟩
  · simp only [Cpu.step, handle_ignores h.handler elsewhere]
    exact ⟨by simp, h.handler, (armedFor_watchOf .myExceptionHandler).mpr rfl⟩
  · exact ⟨by simp [Cpu.step], h.handler, h.armed⟩

theorem Stuck.iterate {cpu : Cpu ρ} (h : Stuck regs cpu)
    (loads : program.loads regs = some spStatus) (elsewhere : regs.epc ≠ ipl1Epc) (k : Nat) :
    Stuck regs ((Cpu.step platform program)^[k] cpu) := by
  induction k with
  | zero => exact h
  | succ k ih =>
      rw [Function.iterate_succ_apply']
      exact ih.step loads elsewhere

theorem stuck_armed {console : Console ρ} (handler : console.handler = .myExceptionHandler)
    (armed : console.watch.ArmedFor (physicalAddr spStatus)) :
    Stuck regs ⟨.execute regs, console⟩ := ⟨by simp, handler, armed⟩

/-- While the handler is registered and the watch registers are armed, a load of SP_STATUS
    anywhere but in IPL1 is never moved past, in no number of steps. -/
theorem never_movedPast (platform : Platform) (program : Program ρ) (console : Console ρ)
    (handler : console.handler = .myExceptionHandler)
    (armed : console.watch.ArmedFor (physicalAddr spStatus)) (regs : Regs ρ)
    (loads : program.loads regs = some spStatus) (elsewhere : regs.epc ≠ ipl1Epc) :
    ¬ ∃ k, MovedPast regs.epc ((Cpu.step platform program)^[k] ⟨.execute regs, console⟩) := by
  intro finitely
  obtain ⟨k, moved⟩ := finitely
  exact ((stuck_armed handler armed).iterate loads elsewhere k).not_movedPast moved

/-- A program that is one load of SP_STATUS at 0x80002000, followed by other code. -/
def loadAt : Program Unit where
  loads regs := if regs.epc = 0x80002000 then some spStatus else none
  complete regs := { regs with epc := regs.epc + 4 }

def armedConsole : Console Unit := ⟨.myExceptionHandler, armed, true, [], []⟩

theorem never_movedPast_loadAt :
    ¬ ∃ k, MovedPast 0x80002000
      ((Cpu.step ⟨0x80000400, 0x8000, 0x800, 0x1000, 0x400, 1⟩ loadAt)^[k]
        ⟨.execute ⟨0x80002000, 0, ()⟩, armedConsole⟩) :=
  never_movedPast _ loadAt armedConsole rfl (by decide) ⟨0x80002000, 0, ()⟩ rfl (by decide)

/-- From the state one press of the reset button leaves, the load is raised again for ever. -/
theorem load_after_press_stuck :
    (event ⟨0x80000400, 0x8000, 0x800, 0x1000, 0x400, 1⟩ .press).run
        (booted ⟨0, 0⟩ : Console Unit) = .ok () armedConsole ∧
      ¬ ∃ k, MovedPast 0x80002000
        ((Cpu.step ⟨0x80000400, 0x8000, 0x800, 0x1000, 0x400, 1⟩ loadAt)^[k]
          ⟨.execute ⟨0x80002000, 0, ()⟩, armedConsole⟩) := by
  refine ⟨rfl, ?_⟩
  intro finitely
  obtain ⟨k, moved⟩ := finitely
  have stuck : Stuck ⟨0x80002000, 0, ()⟩ ⟨.execute ⟨0x80002000, 0, ()⟩, armedConsole⟩ :=
    stuck_armed rfl (by decide)
  exact (stuck.iterate rfl (by decide) k).not_movedPast moved

end AssistedDump.ResetCapture
