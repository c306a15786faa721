import Mathlib.Tactic.Common
import Qnixx.Lib.Spinlock
import Qnixx.Smp

/- The timer interrupt and the locks of the code it interrupts
   (`amd64/cpu.c`, `amd64/smp.c`, `amd64/trap.c`, `amd64/lapic.c`,
   `dev/timer/hpet.c`, `sync/mutex.c`), on one core. A function is the list of
   its atomic steps. `core_set_flags` and `this_core` take their locks with
   interrupts enabled, and `irq_enter` takes the same ones; nothing looks at
   the flag that `critical_enter` sets.

   Correspondence:
     `mutex_acquire`, `mutex_release`         ↔ `Instr.acquire`, `Instr.release`
     `this_core_lock`, `core->lock`           ↔ `Lock.thisCore`, `Lock.core`
     `lock` of `trap.c`, `sleep_lock`         ↔ `Lock.trap`, `Lock.sleep`
     `__lapic_timer_isr` up to `trap_end`     ↔ `timerSteps` -/
namespace Qnixx
open Spinlock

inductive Lock where
  | thisCore
  | core
  | trap
  | sleep
  deriving DecidableEq

/-- Steps that touch no lock. `other` is one that touches none of the modelled
    state: the local APIC, the HPET, frames and queues. -/
inductive CoreAct where
  | compareId (i : Nat)
  | setFlags (flags : BitVec 16)
  | clearFlags (flags : BitVec 16)
  | other

abbrev Steps := List (Instr Lock CoreAct)

/-- What a step does to `core->flags`. -/
def coreAct (flags : BitVec 16) : CoreAct → BitVec 16
  | .setFlags f => flags ||| f
  | .clearFlags f => flags &&& ~~~f
  | _ => flags

def pExecCritical : BitVec 16 := 1 <<< 0
def pIrq : BitVec 16 := 1 <<< 1

/-- The core: `this_core` finds its descriptor at `index` of the list. -/
structure OnCore where
  corelist : List CpuCore
  id : BitVec 32
  index : Nat
  found : thisCore corelist id = some index
  timerVector : BitVec 8

section
variable (c : OnCore)

/-- `this_core` compares the ids of the descriptors up to the core's own. -/
def thisCoreSteps : Steps :=
  .acquire .thisCore ::
    ((List.range (c.index + 1)).map (fun i => .act (.compareId i)) ++ [.release .thisCore])

def coreSetFlags (flags : BitVec 16) : Steps :=
  thisCoreSteps c ++ [.acquire .core, .act (.setFlags flags), .release .core]

def coreClearFlags (flags : BitVec 16) : Steps :=
  thisCoreSteps c ++ [.acquire .core, .act (.clearFlags flags), .release .core]

def irqEnter : Steps := coreSetFlags c pIrq
def irqExit : Steps := coreClearFlags c pIrq
def criticalEnter : Steps := coreSetFlags c pExecCritical
def criticalExit : Steps := coreClearFlags c pExecCritical

/-- `hpet_sleep`, whose loop reads the counter `reads` times. -/
def hpetSleep (reads : Nat) : Steps :=
  .acquire .sleep :: ((List.range reads).map (fun _ => .act .other) ++ [.release .sleep])

def lapicTimerCalibrate (reads : Nat) : Steps :=
  .act .other :: (hpetSleep reads ++ (thisCoreSteps c ++ [.act .other]))

def lapicTimerOneshot : Steps := .act .other :: (thisCoreSteps c ++ [.act .other])

def schedYieldSteps (reads : Nat) : Steps :=
  thisCoreSteps c ++ (.act .other :: (lapicTimerCalibrate c reads ++ lapicTimerOneshot c))

def trapSteps (trapno : BitVec 8) (reads : Nat) : Steps :=
  .acquire .trap ::
    ((if trapno = c.timerVector then schedYieldSteps c reads else []) ++ [.act .other] ++ [.release .trap])

/-- `__lapic_timer_isr`, which passes its own vector on. -/
def timerSteps (reads : Nat) : Steps :=
  irqEnter c ++ (.act .other :: (irqExit c ++ trapSteps c c.timerVector reads))

end

/-- What the kernel code calls. -/
inductive KernelCall where
  | criticalEnter
  | criticalExit
  | thisCore

def KernelCall.steps (c : OnCore) : KernelCall → Steps
  | .criticalEnter => Qnixx.criticalEnter c
  | .criticalExit => Qnixx.criticalExit c
  | .thisCore => thisCoreSteps c

inductive CoreOp where
  | call (f : KernelCall)
  | step
  | timer (reads : Nat)

def CoreOp.op (c : OnCore) : CoreOp → Op Lock CoreAct
  | .call f => .call (f.steps c)
  | .step => .step
  | .timer reads => .interrupt (timerSteps c reads)

abbrev Core := Cpu Lock CoreAct (BitVec 16)

/-- One atomic step of the core, a call or the timer. -/
def coreOpStep (c : OnCore) (s : Core) (o : CoreOp) : Option Core := s.op coreAct (o.op c)

/-! Every function gives back the locks it takes. -/

section
variable (c : OnCore)

theorem closes_thisCore : Closes [] (thisCoreSteps c) :=
  closes_section (closes_acts _ _) (by simp)

theorem closes_flags (a : CoreAct) :
    Closes [] (thisCoreSteps c ++ [.acquire .core, .act a, .release .core]) := by
  have hact : Closes [] [(.act a : Instr Lock CoreAct)] := rfl
  exact closes_seq (closes_thisCore c) (closes_section hact (by simp))

theorem closes_schedYield (reads : Nat) : Closes [] (schedYieldSteps c reads) := by
  have hother : Closes [] [(.act .other : Instr Lock CoreAct)] := rfl
  have hthis := closes_seq (closes_thisCore c) hother
  have hsleep : Closes [] (hpetSleep reads) := closes_section (closes_acts _ _) (by simp)
  have hcalibrate : Closes [] (lapicTimerCalibrate c reads) := closes_seq hsleep hthis
  have honeshot : Closes [] (lapicTimerOneshot c) := hthis
  exact closes_seq (closes_thisCore c) (closes_seq hcalibrate honeshot)

theorem closes_trap (trapno : BitVec 8) (reads : Nat) : Closes [] (trapSteps c trapno reads) := by
  apply closes_section
  · apply closes_seq
    · split
      · exact closes_schedYield c reads
      · rfl
    · rfl
  · split
    · simp [schedYieldSteps, thisCoreSteps, lapicTimerCalibrate, hpetSleep, lapicTimerOneshot]
    · simp

theorem closes_timer (reads : Nat) : Closes [] (timerSteps c reads) :=
  closes_seq (closes_flags c _) (closes_seq (closes_flags c _) (closes_trap c _ reads))

theorem coreOp_closed (o : CoreOp) : (o.op c).Closed := by
  cases o with
  | call f =>
    cases f with
    | criticalEnter => exact closes_flags c _
    | criticalExit => exact closes_flags c _
    | thisCore => exact closes_thisCore c
  | step => exact trivial
  | timer reads => exact closes_timer c reads

/-- The interrupt path takes all four locks. -/
theorem acquire_mem_timer (l : Lock) (reads : Nat) : .acquire l ∈ timerSteps c reads := by
  cases l with
  | thisCore => simp [timerSteps, irqEnter, coreSetFlags, thisCoreSteps]
  | core => simp [timerSteps, irqEnter, coreSetFlags]
  | trap => simp [timerSteps, trapSteps]
  | sleep => simp [timerSteps, trapSteps, schedYieldSteps, lapicTimerCalibrate, hpetSleep]

end

/-- **When the timer waits for the code it interrupted.** On every core, in
    every run of `critical_enter`, `critical_exit` and `this_core` in which the
    timer strikes only while the code has no lock, no acquire of the interrupt
    path finds its lock held by the interrupted code. When the timer strikes
    next, it comes to such an acquire iff the code has a lock. -/
theorem timer_waits_iff (c : OnCore) (flags : BitVec 16) (ops : List CoreOp) (s : Core)
    (hops : Runs.Meets (coreOpStep c) (fun s o => Unlocked s (o.op c)) (Cpu.start flags) ops)
    (hrun : Runs.exec (coreOpStep c) (Cpu.start flags) ops = some s) :
    ¬ s.Waits ∧ ∀ reads t, coreOpStep c s (.timer reads) = some t →
      ((∃ n, ((Cpu.step coreAct)^[n] t).Waits) ↔ ∃ l, s.held l = some .code) := by
  have hstep : ∀ (s : Core) (o : CoreOp) (t : Core), Calm s → Unlocked s (o.op c) →
      coreOpStep c s o = some t → Calm t :=
    fun s o t h hunlocked hop => calm_op h (coreOp_closed c o) hunlocked hop
  have hcalm : Calm s := Runs.exec_inv_of hstep ⟨[], [], holds_start flags, fun _ => rfl⟩ hops hrun
  refine ⟨calm_not_waits hcalm, ?_⟩
  intro reads t ht
  obtain ⟨cs, hs, hholds, -⟩ := hcalm
  obtain ⟨_, h, _⟩ | ⟨h, _⟩ | ⟨is, h, hnone, rfl⟩ := op_cases ht
  · cases h
  · cases h
  · cases h
    rw [waits_iff (holds_interrupt hholds hnone (closes_timer c reads)) rfl]
    refine ⟨?_, ?_⟩
    · intro h
      obtain ⟨l, hl, -⟩ := h
      exact ⟨l, (hholds.code.iff l).mpr hl⟩
    · intro h
      obtain ⟨l, hheld⟩ := h
      exact ⟨l, (hholds.code.iff l).mp hheld, acquire_mem_timer c l reads⟩

/-- A machine with one core. -/
def singleCore : OnCore :=
  { corelist := [initCoreDesc ⟨0, 0⟩ 0], id := 0, index := 0, found := by decide, timerVector := 0x82 }

/-- The timer strikes as `critical_enter` is called; `irq_enter` gets
    `this_core_lock`. -/
theorem timer_before_critical : ∃ s,
    Runs.exec (coreOpStep singleCore) (Cpu.start 0) [.call .criticalEnter, .timer 1, .step] = some s ∧
    s.held .thisCore = some .handler ∧ ¬ s.Waits := by
  refine ⟨_, rfl, rfl, (timer_waits_iff singleCore 0 [.call .criticalEnter, .timer 1, .step] _ ?_ rfl).1⟩
  rw [Runs.meets_cons rfl, Runs.meets_cons rfl, Runs.meets_cons rfl]
  exact ⟨trivial, nofun, trivial, trivial⟩

/-- The timer strikes one step later: `irq_enter` waits for the lock that
    `critical_enter` has, for ever. -/
theorem timer_in_critical : ∃ s,
    Runs.exec (coreOpStep singleCore) (Cpu.start 0) [.call .criticalEnter, .step, .timer 1] = some s ∧
    s.Waits ∧ ∀ n, (Cpu.step coreAct)^[n] s = s := by
  refine ⟨_, rfl, ⟨.thisCore, _, rfl, rfl⟩, ?_⟩
  intro n
  exact Function.iterate_fixed (step_of_waits ⟨.thisCore, _, rfl, rfl⟩) n

end Qnixx
