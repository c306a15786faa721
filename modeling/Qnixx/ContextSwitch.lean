import Qnixx.SchedFrames
import Qnixx.Trap

/- What a thread gets back when it is resumed. A timer interrupt is delivered
   in the context `c` of whatever the core was running; `trap_entry` builds the
   frame, `trap` calls `sched_yield` on it, and `trap_end` returns through it.
   The registers of the resumed context come from the frame of the thread that
   was loaded, but `rbp` has no place in the frame and is callee-saved, so it
   comes from the context that was interrupted.

   Runs are traced as in `SchedFrames`, with whole contexts for frames. -/
namespace Qnixx

open X86 ByteMem

/-- The vector of the timer and where its gate leads. -/
structure TimerGate where
  vector : BitVec 8
  entry : BitVec 64
  sel : BitVec 16

/-- A call of `trap` by `trap_entry`: the scheduler's state and the thread
    that was loaded, and the effect of the C code on the processor. It writes
    to the frame through `tf` only. -/
def trapCall (g : TimerGate) (id : BitVec 32) (e : CallEffect) :
    CFun → (Sched × Option ThreadPtr) × Cpu → Option ((Sched × Option ThreadPtr) × Cpu)
  | .trap, ((s, _), c) =>
    let tf := readFrame c.mem (c.regs .rdi)
    let after := e.apply (fun x => decide (Inside (c.regs .rsp) 176 x)) c
    if takesYield g.vector tf then do
      let (s, u, tf') ← schedYield s id tf
      some ((s, some u), { after with mem := writeFrame after.mem (c.regs .rdi) tf' })
    else
      some ((s, none), after)
  | _, _ => none

/-- The timer interrupt of the context `c`, from `trap_entry` to `iretq`, the
    vector being on the stack. -/
def timerPath (g : TimerGate) (id : BitVec 32) (e : CallEffect) (s : Sched) (c : Cpu) :
    Option ((Sched × Option ThreadPtr) × Cpu) :=
  Runs.exec (step (trapCall g id e)) ((s, none), (c.deliver g.entry g.sel).push (g.vector.setWidth 64))
    (trapEntry ++ .call .trap :: trapEnd)

theorem entryFrame_deliver (g : TimerGate) (c : Cpu) :
    entryFrame ((c.deliver g.entry g.sel).push (g.vector.setWidth 64)) = frameOf g.vector c := by
  refine entryFrame_of_context ?_ rfl (top_push_zero ..) ?_
  · intro r hr _
    rw [Cpu.push_ne _ _ hr, deliver_regs c _ _ hr]
  · intro k hk
    rw [top_push_succ _ _ (by omega), deliver_top]

/-- The path is one call of `sched_yield` on the interrupted frame, and a
    return through the frame it leaves. -/
theorem timerPath_cases {g : TimerGate} {id : BitVec 32} {e : CallEffect} {s : Sched} {c c' : Cpu}
    {w : Sched × Option ThreadPtr} (h : timerPath g id e s c = some (w, c')) :
    ∃ s' u tf', schedYield s id (frameOf g.vector c) = some (s', u, tf') ∧ w = (s', some u) ∧
      Resumed tf' c c' := by
  obtain ⟨c₁, hentry, hin⟩ := exec_trapEntry (trapCall g id e) (s, none)
    ((c.deliver g.entry g.sel).push (g.vector.setWidth 64))
  obtain ⟨⟨w₁, c₁'⟩, h₁, hrest⟩ := Runs.exec_append.mp h
  rw [hentry, Option.some.injEq, Prod.mk.injEq] at h₁
  obtain ⟨rfl, rfl⟩ := h₁
  obtain ⟨⟨w₂, c₂⟩, hcall, hend⟩ := Runs.exec_cons.mp hrest
  have hframe := hin.frame.trans (entryFrame_deliver g c)
  simp only [step, trapCall, hframe, takesYield_frameOf, if_true, Option.bind_eq_bind,
    Option.bind_eq_some_iff, Option.some.injEq, Prod.mk.injEq] at hcall
  obtain ⟨⟨s', u, tf'⟩, hy, rfl, hc₂⟩ := hcall
  obtain ⟨c₃, hc₃, hres⟩ := exec_trapEnd (trapCall g id e) (s', some u) c₂
  rw [hc₃, Option.some.injEq, Prod.mk.injEq] at hend
  obtain ⟨rfl, rfl⟩ := hend
  -- the stack pointer and `rbp` are callee-saved
  have hrsp : c₂.regs .rsp = c₁.regs .rdi := by
    rw [← hc₂, hin.rdi, ← hin.rsp]
    rfl
  have hrbp : c₂.regs .rbp = c.regs .rbp := by
    rw [← hc₂]
    exact hin.rbp.trans ((Cpu.push_ne _ _ (by decide)).trans (deliver_regs c _ _ (by decide)))
  have htf : readFrame c₂.mem (c₂.regs .rsp) = tf' := by
    rw [hrsp, ← hc₂]
    exact readFrame_writeFrame ..
  rw [htf] at hres
  refine ⟨s', u, tf', hy, rfl, ?_, hres.fs, hres.gs, hres.rip, hres.cs, hres.rflags, hres.ss⟩
  intro r
  rw [hres.regs]
  cases r with
  | rbp => exact hrbp
  | _ => rfl

/-- The path returns on every core that has a process. -/
theorem timerPath_returns {s : Sched} (h : QueuesOk s) {core : CpuCore} (hc : core ∈ s.corelist)
    (hq : core.processq ≠ []) (g : TimerGate) (e : CallEffect) (c : Cpu) :
    (timerPath g core.lapicId e s c).isSome := by
  obtain ⟨⟨s', u, tf'⟩, hy⟩ :=
    Option.isSome_iff_exists.mp (yield_returns h hc hq (frameOf g.vector c))
  obtain ⟨c₁, hentry, hin⟩ := exec_trapEntry (trapCall g core.lapicId e) (s, none)
    ((c.deliver g.entry g.sel).push (g.vector.setWidth 64))
  have hframe := hin.frame.trans (entryFrame_deliver g c)
  have hcall : ∃ c₂, trapCall g core.lapicId e .trap ((s, none), c₁) = some ((s', some u), c₂) := by
    simp [trapCall, hframe, hy]
  obtain ⟨c₂, hc₂⟩ := hcall
  obtain ⟨c₃, hc₃, -⟩ := exec_trapEnd (trapCall g core.lapicId e) (s', some u) c₂
  refine Option.isSome_iff_exists.mpr ⟨((s', some u), c₃), ?_⟩
  exact Runs.exec_append.mpr ⟨_, hentry, Runs.exec_cons.mpr ⟨_, hc₂, hc₃⟩⟩

/-! Runs. -/

inductive MachOp where
  /-- `create_kernel_process`, then `enqueue_process`. -/
  | spawn (b : ProcessBlocks) (name : List (BitVec 8)) (entry : BitVec 64)
  /-- `process_create_thread`, then `enqueue_thread`. -/
  | addThread (parent : ProcPtr) (thread : Option ThreadPtr) (stack entry : BitVec 64)
  /-- The timer interrupts the context `c` on the core with this APIC id. -/
  | interrupt (id : BitVec 32) (c : Cpu) (e : CallEffect)

inductive MachEvent where
  | created (t : ThreadPtr) (tf : Trapframe)
  /-- `c` was interrupted and `u` resumed with the context `c'`. -/
  | interrupted (id : BitVec 32) (c : Cpu) (u : ThreadPtr) (c' : Cpu)

/-- What the scheduler sees of an operation. -/
def MachOp.sched (g : TimerGate) : MachOp → SchedOp
  | .spawn b name entry => .spawn b name entry
  | .addThread parent thread stack entry => .addThread parent thread stack entry
  | .interrupt id c _ => .yield id (frameOf g.vector c)

def MachEvent.sched (g : TimerGate) : MachEvent → SchedEvent
  | .created t tf => .created t tf
  | .interrupted id c u _ => .yielded id (frameOf g.vector c) u

def machStep (g : TimerGate) (st : Sched × List MachEvent) : MachOp → Option (Sched × List MachEvent)
  | .spawn b name entry => do
    let s ← schedStep st.1 (.spawn b name entry)
    let (_, t, th) ← createKernelProcess b name entry
    some (s, .created t th.tf :: st.2)
  | .addThread parent thread stack entry => do
    let s ← schedStep st.1 (.addThread parent thread stack entry)
    let (t, th) ← processCreateThread thread stack parent entry
    some (s, .created t th.tf :: st.2)
  | .interrupt id c e => do
    let ((s, loaded), c') ← timerPath g id e st.1 c
    let u ← loaded
    some (s, .interrupted id c u c' :: st.2)

/-- A step of the machine is a traced step of the scheduler. -/
theorem machStep_traced {g : TimerGate} {st st' : Sched × List MachEvent} {op : MachOp}
    (h : machStep g st op = some st') :
    tracedStep (st.1, st.2.map (·.sched g)) (op.sched g) = some (st'.1, st'.2.map (·.sched g)) := by
  cases op with
  | spawn b name entry =>
    simp only [machStep, Option.bind_eq_bind, Option.bind_eq_some_iff, Option.some.injEq] at h
    obtain ⟨s, hs, ⟨p, t, th⟩, hcreate, rfl⟩ := h
    simp [tracedStep, MachOp.sched, hs, eventOf, hcreate, MachEvent.sched]
  | addThread parent thread stack entry =>
    simp only [machStep, Option.bind_eq_bind, Option.bind_eq_some_iff, Option.some.injEq] at h
    obtain ⟨s, hs, ⟨t, th⟩, hcreate, rfl⟩ := h
    simp [tracedStep, MachOp.sched, hs, eventOf, hcreate, MachEvent.sched]
  | interrupt id c e =>
    simp only [machStep, Option.bind_eq_bind, Option.bind_eq_some_iff, Option.some.injEq] at h
    obtain ⟨⟨⟨s, loaded⟩, c'⟩, hpath, u, rfl, rfl⟩ := h
    obtain ⟨s', u', tf', hy, hw, -⟩ := timerPath_cases hpath
    rw [Prod.mk.injEq, Option.some.injEq] at hw
    obtain ⟨rfl, rfl⟩ := hw
    simp [tracedStep, MachOp.sched, schedStep, hy, eventOf, MachEvent.sched]

/-- The thread the core last resumed. -/
def lastResumed (id : BitVec 32) : List MachEvent → Option ThreadPtr
  | [] => none
  | .created _ _ :: tr => lastResumed id tr
  | .interrupted id' _ u _ :: tr => if id' = id then some u else lastResumed id tr

/-- The context in which `t` was last interrupted on the core. -/
def lastContext (id : BitVec 32) (t : ThreadPtr) : List MachEvent → Option Cpu
  | [] => none
  | .created _ _ :: tr => lastContext id t tr
  | .interrupted id' c _ _ :: tr =>
    if id' = id ∧ lastResumed id tr = some t then some c else lastContext id t tr

/-- All 16 general-purpose registers, `rip` and `rflags` are the same. -/
def SameContext (c c' : Cpu) : Prop :=
  (∀ r, c'.regs r = c.regs r) ∧ c'.rip = c.rip ∧ c'.rflags = c.rflags

/-- Every thread was resumed in the context in which it was last interrupted. -/
def Restores : List MachEvent → Prop
  | [] => True
  | .created _ _ :: tr => Restores tr
  | .interrupted id c u c' :: tr =>
    (∀ c₀, lastContext id u (.interrupted id c u c' :: tr) = some c₀ → SameContext c₀ c') ∧ Restores tr

theorem lastLoaded_sched (g : TimerGate) (id : BitVec 32) :
    ∀ tr : List MachEvent, lastLoaded id (tr.map (·.sched g)) = lastResumed id tr
  | [] => rfl
  | .created t tf :: tr => lastLoaded_sched g id tr
  | .interrupted id' c u c' :: tr => by
    show (if id' = id then some u else lastLoaded id (tr.map (·.sched g))) = _
    rw [lastLoaded_sched g id tr]
    rfl

theorem lastPreempt_sched (g : TimerGate) (id : BitVec 32) (t : ThreadPtr) :
    ∀ tr : List MachEvent,
      lastPreempt id t (tr.map (·.sched g)) = (lastContext id t tr).map (frameOf g.vector)
  | [] => rfl
  | .created u tf :: tr => lastPreempt_sched g id t tr
  | .interrupted id' c u c' :: tr => by
    show (if id' = id ∧ lastLoaded id (tr.map (·.sched g)) = some t then some (frameOf g.vector c)
      else lastPreempt id t (tr.map (·.sched g))) = _
    rw [lastLoaded_sched, lastPreempt_sched g id t tr, lastContext]
    split
    · rfl
    · rfl

/-- The thread the core resumes next, read off its cursors. -/
def upcoming (s : Sched) (id : BitVec 32) : Option ThreadPtr := do
  let i ← thisCore s.corelist id
  let core ← s.corelist[i]?
  let p ← core.runningProcess
  let t ← (s.proc p).runningThread
  if (s.thread t).startup then some t
  else
    let p' ← Cyclic.advance core.processq p
    if p' = p then Cyclic.advance (s.proc p).threadq t else (s.proc p').runningThread

theorem upcoming_loaded {s s' : Sched} {id : BitVec 32} {tf tf' : Trapframe} {u : ThreadPtr}
    (h : schedYield s id tf = some (s', u, tf')) : upcoming s id = some u := by
  obtain ⟨i, core, p, t, hi, hcore, hp, ht, hcase⟩ := schedYield_cases h
  rcases hcase with ⟨hon, rfl, -, -⟩ | ⟨hoff, rfl, p', hp', hu, -⟩
  · simp [upcoming, hi, hcore, hp, ht, hon]
  · have hpre := preempted s i core p t tf
    by_cases hpp : p' = p
    · subst hpp
      rw [hpre.procSelf] at hu
      simp [upcoming, hi, hcore, hp, ht, hoff, hp', hu]
    · rw [hpre.procOther p' hpp] at hu
      simp [upcoming, hi, hcore, hp, ht, hoff, hp', hpp, hu]

/-- When another thread is next, the interrupted `rbp` is that thread's. -/
def RbpAgrees (st : Sched × List MachEvent) : MachOp → Prop
  | .interrupt id c _ => ∀ u c₀, upcoming st.1 id = some u → lastResumed id st.2 ≠ some u →
      lastContext id u st.2 = some c₀ → c.regs .rbp = c₀.regs .rbp
  | _ => True

instance (st : Sched × List MachEvent) : (op : MachOp) → Decidable (RbpAgrees st op)
  | .interrupt id c _ =>
    decidable_of_iff (∀ u ∈ upcoming st.1 id, lastResumed id st.2 ≠ some u →
        ∀ c₀ ∈ lastContext id u st.2, c.regs .rbp = c₀.regs .rbp)
      ⟨fun h u c₀ hu hne hc₀ => h u hu hne c₀ hc₀, fun h u hu hne c₀ hc₀ => h u c₀ hu hne hc₀⟩
  | .spawn .. => isTrue trivial
  | .addThread .. => isTrue trivial

/-- Returning through the frame of `c₀` gives `c₀` back, but for `rbp`. -/
theorem resumed_same {g : TimerGate} {c c₀ c' : Cpu} (h : Resumed (frameOf g.vector c₀) c c') :
    SameContext c₀ c' ↔ c.regs .rbp = c₀.regs .rbp := by
  -- the frame has no slot for `rbp`
  have hrbp : c'.regs .rbp = c.regs .rbp := h.regs .rbp
  refine ⟨?_, ?_⟩
  · intro hs
    rw [← hrbp]
    exact hs.1 .rbp
  · intro heq
    refine ⟨?_, h.rip, h.rflags⟩
    intro r
    by_cases hr : r = .rbp
    · subst hr
      rw [hrbp, heq]
    · rw [h.regs r, frameOf_reg g.vector c₀ hr]
      rfl

/-- The frame that is loaded is that of the last context, if there is one. -/
theorem loaded_frame {g : TimerGate} {s s' : Sched} {tr : List MachEvent} {id : BitVec 32} {c c' : Cpu}
    {u : ThreadPtr} {tf' : Trapframe} (hinv : FrameInv s (tr.map (·.sched g)))
    (hy : schedYield s id (frameOf g.vector c) = some (s', u, tf')) {c₀ : Cpu}
    (hc₀ : lastContext id u (.interrupted id c u c' :: tr) = some c₀) : tf' = frameOf g.vector c₀ := by
  have hloads := yield_loads hinv hy
  have hpre := lastPreempt_sched g id u (.interrupted id c u c' :: tr)
  rw [hc₀] at hpre
  have hexp : some (frameOf g.vector c₀) = some tf' := by
    rw [← hloads, expected]
    show _ = (lastPreempt id u ((MachEvent.interrupted id c u c' :: tr).map (·.sched g))).or _
    rw [hpre]
    rfl
  exact (Option.some.inj hexp).symm

/-- One interrupt restores the context of the thread it resumes iff `rbp`
    agrees. -/
theorem restores_interrupt {g : TimerGate} {s s' : Sched} {tr : List MachEvent} {id : BitVec 32}
    {c c' : Cpu} {u : ThreadPtr} {tf' : Trapframe} (e : CallEffect)
    (hinv : FrameInv s (tr.map (·.sched g)))
    (hy : schedYield s id (frameOf g.vector c) = some (s', u, tf')) (hres : Resumed tf' c c') :
    (∀ c₀, lastContext id u (.interrupted id c u c' :: tr) = some c₀ → SameContext c₀ c') ↔
      RbpAgrees (s, tr) (.interrupt id c e) := by
  have hup := upcoming_loaded hy
  by_cases hself : lastResumed id tr = some u
  · -- the interrupted thread is resumed
    have hctx : lastContext id u (.interrupted id c u c' :: tr) = some c := by
      simp [lastContext, hself]
    refine ⟨?_, ?_⟩
    · intro _ v c₀ hv hne
      rw [hup, Option.some.injEq] at hv
      subst hv
      exact absurd hself hne
    · intro _ c₀ hc₀
      have htf := loaded_frame hinv hy hc₀
      rw [hctx, Option.some.injEq] at hc₀
      subst hc₀
      rw [htf] at hres
      exact (resumed_same hres).mpr rfl
  · -- another thread is resumed: its last context is an earlier one
    have hctx : lastContext id u (.interrupted id c u c' :: tr) = lastContext id u tr := by
      simp [lastContext, hself]
    refine ⟨?_, ?_⟩
    · intro hall v c₀ hv _ hc₀
      rw [hup, Option.some.injEq] at hv
      subst hv
      rw [← hctx] at hc₀
      rw [loaded_frame hinv hy hc₀] at hres
      exact (resumed_same hres).mp (hall c₀ hc₀)
    · intro hagree c₀ hc₀
      rw [loaded_frame hinv hy hc₀] at hres
      rw [hctx] at hc₀
      exact (resumed_same hres).mpr (hagree u c₀ hup hself hc₀)

theorem restores_step {g : TimerGate} {st st' : Sched × List MachEvent} {op : MachOp}
    (hinv : FrameInv st.1 (st.2.map (·.sched g))) (h : machStep g st op = some st') :
    Restores st'.2 ↔ Restores st.2 ∧ RbpAgrees st op := by
  cases op with
  | spawn b name entry =>
    simp only [machStep, Option.bind_eq_bind, Option.bind_eq_some_iff, Option.some.injEq] at h
    obtain ⟨s, -, x, -, rfl⟩ := h
    simp [Restores, RbpAgrees]
  | addThread parent thread stack entry =>
    simp only [machStep, Option.bind_eq_bind, Option.bind_eq_some_iff, Option.some.injEq] at h
    obtain ⟨s, -, x, -, rfl⟩ := h
    simp [Restores, RbpAgrees]
  | interrupt id c e =>
    simp only [machStep, Option.bind_eq_bind, Option.bind_eq_some_iff, Option.some.injEq] at h
    obtain ⟨⟨⟨s, loaded⟩, c'⟩, hpath, u, rfl, rfl⟩ := h
    obtain ⟨s', u', tf', hy, hw, hres⟩ := timerPath_cases hpath
    rw [Prod.mk.injEq, Option.some.injEq] at hw
    obtain ⟨rfl, rfl⟩ := hw
    rw [and_comm]
    exact and_congr_left (fun _ => restores_interrupt e hinv hy hres)

theorem restores_run {g : TimerGate} {ops : List MachOp} {st st' : Sched × List MachEvent}
    (hinv : FrameInv st.1 (st.2.map (·.sched g))) (h : Runs.exec (machStep g) st ops = some st') :
    Restores st'.2 ↔ Restores st.2 ∧ Runs.Meets (machStep g) RbpAgrees st ops := by
  -- the frames of the scheduler's trace carry the induction; any operation may come
  refine Runs.exec_iff_meets (P := fun st => FrameInv st.1 (st.2.map (·.sched g)))
    (G := fun st => Restores st.2) (D := fun _ => True) ?_ ?_ hinv (fun _ _ => trivial) h
  · intro st op st' hp _ hs
    exact frame_step hp (machStep_traced hs)
  · intro st op st' hp _ hs
    exact restores_step hp hs

/-- **Contexts across a switch.** In a run from boot every thread is resumed in
    the context in which it was last interrupted iff at every switch to another
    thread the interrupted context happens to have that thread's `rbp`. -/
theorem contexts_restored_iff (g : TimerGate) (blocks : Nat → CoreBlocks) (resp : SmpResponse)
    (hw : resp.Wf) (proc : ProcPtr → Process) (thread : ThreadPtr → Thread) (ops : List MachOp)
    (s : Sched) (tr : List MachEvent)
    (h : Runs.exec (machStep g) (schedBoot blocks resp proc thread, []) ops = some (s, tr)) :
    Restores tr ↔ Runs.Meets (machStep g) RbpAgrees (schedBoot blocks resp proc thread, []) ops := by
  rw [restores_run (frameInv_boot hw proc thread) h]
  simp [Restores]

/-- A context that is zero but for `rbp` and the stack pointer. -/
def contextWith (rbp : BitVec 64) : Cpu :=
  { regs := fun r => match r with | .rbp => rbp | .rsp => 0x9000 | _ => 0
    seg := fun _ => 0, rip := 0x1000, rflags := 0x202, cs := 0x28, ss := 0x30, mem := fun _ => 0 }

/-- A call that leaves everything alone. -/
def quietCall : CallEffect := { scratch := fun _ => none, rflags := 0, mem := fun _ => 0 }

def timerGate : TimerGate := { vector := 0x20, entry := 0x8000, sel := 0x28 }

/-- One process with two threads, which the timer interrupts in turn with
    these values of `rbp`. -/
def switchOps (rbps : List (BitVec 64)) : List MachOp :=
  [.spawn (blocksAt 1 10) [] 0x1000, .addThread 1 (some 11) 0x20000 0x2000] ++
    rbps.map (fun rbp => .interrupt 0 (contextWith rbp) quietCall)

/-- The same two threads, interrupted at different places with `rbp` zero each
    time. -/
def zeroRbpOps : List MachOp :=
  switchOps [] ++
    [0x1000, 0x1100, 0x2100].map (fun rip => .interrupt 0 { contextWith 0 with rip := rip } quietCall)

/-- The second thread is interrupted at `0x2100` and the first goes on at
    `0x1100`. -/
theorem contexts_restored_iff_single :
    ∃ s tr, Runs.exec (machStep timerGate) (twoCoresBoot, []) zeroRbpOps = some (s, tr) ∧ Restores tr ∧
      (∃ c u c' rest, tr = .interrupted 0 c u c' :: rest ∧ c.rip = 0x2100 ∧ c'.rip = 0x1100) := by
  have hlast : (Runs.exec (machStep timerGate) (twoCoresBoot, []) zeroRbpOps).any (fun st =>
      match st.2 with
      | .interrupted id c _ c' :: _ => id = 0 && c.rip = 0x2100 && c'.rip = 0x1100
      | _ => false) = true := by decide +kernel
  obtain ⟨⟨s, tr⟩, hs, hev⟩ := (Option.any_eq_true _ _).mp hlast
  have hmeets : Runs.Meets (machStep timerGate) RbpAgrees (twoCoresBoot, []) zeroRbpOps := by
    decide +kernel
  refine ⟨s, tr, hs, (contexts_restored_iff timerGate _ bspFirst bspFirst_wf _ _ _ s tr hs).mpr hmeets, ?_⟩
  cases tr with
  | nil => simp at hev
  | cons ev tr =>
    cases ev with
    | created t tf => simp at hev
    | interrupted id c u c' =>
      simp only [Bool.and_eq_true, decide_eq_true_eq] at hev
      obtain ⟨⟨rfl, hc⟩, hc'⟩ := hev
      exact ⟨c, u, c', tr, rfl, hc, hc'⟩

/-- The first thread is interrupted with `rbp = 1`, the second with `rbp = 2`:
    the first is resumed with `rbp = 2`. -/
theorem rbp_crosses_threads :
    ∃ s tr, Runs.exec (machStep timerGate) (twoCoresBoot, []) (switchOps [0, 1, 2]) = some (s, tr) ∧
      ¬ Restores tr := by
  have hbad : (Runs.exec (machStep timerGate) (twoCoresBoot, []) (switchOps [0, 1, 2])).any (fun st =>
      match st.2 with
      | .interrupted id c u c' :: tr =>
        (lastContext id u (.interrupted id c u c' :: tr)).any (fun c₀ => c'.regs .rbp != c₀.regs .rbp)
      | _ => false) = true := by decide +kernel
  obtain ⟨⟨s, tr⟩, hs, hev⟩ := (Option.any_eq_true _ _).mp hbad
  refine ⟨s, tr, hs, ?_⟩
  intro hres
  cases tr with
  | nil => simp at hev
  | cons ev tr =>
    cases ev with
    | created t tf => simp at hev
    | interrupted id c u c' =>
      obtain ⟨c₀, hc₀, hne⟩ := (Option.any_eq_true _ _).mp hev
      have hsame := (hres.1 c₀ hc₀).1 .rbp
      simp [hsame] at hne

end Qnixx
