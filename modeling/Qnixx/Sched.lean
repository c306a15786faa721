import Mathlib.Data.List.Nodup
import Mathlib.Logic.Function.Basic
import Qnixx.Lib.Cyclic
import Qnixx.Lib.Runs
import Qnixx.Process
import Qnixx.Smp

/- The scheduler (`sched/sched.c`). The state is the core list, the cursor
   `current_core_idx` and the heap's process and thread records. A step that
   is `none` dereferences NULL, leaves `g_corelist`, or stops at an assert.
   `sched_yield` also arms the timer again (`sched_begin_timer`), which
   touches only the local APIC and is left out.

   Correspondence (C ↔ Lean):
     `TAILQ_INSERT_TAIL`                      ↔ `++ [·]`
     `TAILQ_NEXT`, then `TAILQ_FIRST` on NULL ↔ `Cyclic.advance`
     `this_core()->...`                       ↔ `thisCore s.corelist id`, `id` the
                                                executing processor's APIC id -/
namespace Qnixx

structure Sched where
  corelist : List CpuCore
  currentCoreIdx : Nat
  proc : ProcPtr → Process
  thread : ThreadPtr → Thread

/-- The scheduler as `smp_init` leaves it; the heap is arbitrary. -/
def schedBoot (blocks : Nat → CoreBlocks) (resp : SmpResponse) (proc : ProcPtr → Process)
    (thread : ThreadPtr → Thread) : Sched :=
  { corelist := initCorelist blocks resp.cpus, currentCoreIdx := 0, proc := proc, thread := thread }

namespace Sched

def setCore (s : Sched) (i : Nat) (core : CpuCore) : Sched :=
  { s with corelist := s.corelist.set i core }

def setProc (s : Sched) (p : ProcPtr) (pr : Process) : Sched :=
  { s with proc := Function.update s.proc p pr }

def setThread (s : Sched) (t : ThreadPtr) (th : Thread) : Sched :=
  { s with thread := Function.update s.thread t th }

@[simp] theorem setCore_corelist (s : Sched) (i : Nat) (c : CpuCore) :
    (s.setCore i c).corelist = s.corelist.set i c := rfl
@[simp] theorem setCore_idx (s : Sched) (i : Nat) (c : CpuCore) :
    (s.setCore i c).currentCoreIdx = s.currentCoreIdx := rfl
@[simp] theorem setCore_proc (s : Sched) (i : Nat) (c : CpuCore) : (s.setCore i c).proc = s.proc := rfl
@[simp] theorem setCore_thread (s : Sched) (i : Nat) (c : CpuCore) :
    (s.setCore i c).thread = s.thread := rfl
@[simp] theorem setProc_corelist (s : Sched) (p : ProcPtr) (pr : Process) :
    (s.setProc p pr).corelist = s.corelist := rfl
@[simp] theorem setProc_idx (s : Sched) (p : ProcPtr) (pr : Process) :
    (s.setProc p pr).currentCoreIdx = s.currentCoreIdx := rfl
@[simp] theorem setProc_proc (s : Sched) (p : ProcPtr) (pr : Process) :
    (s.setProc p pr).proc = Function.update s.proc p pr := rfl
@[simp] theorem setProc_thread (s : Sched) (p : ProcPtr) (pr : Process) :
    (s.setProc p pr).thread = s.thread := rfl
@[simp] theorem setThread_corelist (s : Sched) (t : ThreadPtr) (th : Thread) :
    (s.setThread t th).corelist = s.corelist := rfl
@[simp] theorem setThread_idx (s : Sched) (t : ThreadPtr) (th : Thread) :
    (s.setThread t th).currentCoreIdx = s.currentCoreIdx := rfl
@[simp] theorem setThread_proc (s : Sched) (t : ThreadPtr) (th : Thread) :
    (s.setThread t th).proc = s.proc := rfl
@[simp] theorem setThread_thread (s : Sched) (t : ThreadPtr) (th : Thread) :
    (s.setThread t th).thread = Function.update s.thread t th := rfl

/-- Every process some core's run queue holds, with its multiplicity. -/
def processes (s : Sched) : List ProcPtr := s.corelist.flatMap (·.processq)

/-- No live process has the address `p`, no live thread the address `t`. -/
def Fresh (s : Sched) (p : ProcPtr) : Prop := p ∉ s.processes

def FreshThread (s : Sched) (t : ThreadPtr) : Prop := ∀ p ∈ s.processes, t ∉ (s.proc p).threadq

instance (s : Sched) (p : ProcPtr) : Decidable (s.Fresh p) :=
  inferInstanceAs (Decidable (p ∉ s.processes))

instance (s : Sched) (t : ThreadPtr) : Decidable (s.FreshThread t) :=
  inferInstanceAs (Decidable (∀ p ∈ s.processes, t ∉ (s.proc p).threadq))

end Sched

/-- `sched_core`: the core the cursor is at, and the cursor moved on. -/
def schedCore (s : Sched) : Option (Nat × CpuCore × Sched) :=
  (s.corelist[s.currentCoreIdx]?).map (fun core =>
    (s.currentCoreIdx, core,
      { s with currentCoreIdx := (s.currentCoreIdx + 1) % s.corelist.length }))

def enqueueThread (s : Sched) (parent : ProcPtr) (t : ThreadPtr) : Sched :=
  let pr := s.proc parent
  s.setProc parent { pr with threadq := pr.threadq ++ [t], threadCount := pr.threadCount + 1 }

def enqueueProcess (s : Sched) (p : ProcPtr) : Option Sched := do
  let (i, core, s) ← schedCore s
  let core := { core with processq := core.processq ++ [p] }
  if core.runningProcess = none then
    let t ← (s.proc p).runningThread
    let th := s.thread t
    some ((s.setCore i { core with runningProcess := some p }).setThread t
      { th with flags := th.flags ||| threadStartup })
  else
    some (s.setCore i core)

def nextProcess (s : Sched) (i : Nat) (core : CpuCore) (running : ProcPtr) : Sched :=
  s.setCore i { core with runningProcess := Cyclic.advance core.processq running }

def nextThread (s : Sched) (parent : ProcPtr) (running : ThreadPtr) : Sched :=
  let pr := s.proc parent
  s.setProc parent { pr with runningThread := Cyclic.advance pr.threadq running }

/-- `memcpy(&thread->tf, tf, sizeof(trapframe_t))`. -/
def saveFrame (s : Sched) (t : ThreadPtr) (tf : Trapframe) : Sched :=
  s.setThread t { s.thread t with tf := tf }

/-- `thread->flags &= ~THREAD_STARTUP`. -/
def clearStartup (s : Sched) (t : ThreadPtr) : Sched :=
  s.setThread t { s.thread t with flags := (s.thread t).flags &&& ~~~threadStartup }

/-- `sched_yield(tf)` on the processor with APIC id `id`: the new state, the
    thread whose frame was loaded and what `*tf` holds afterwards. -/
def schedYield (s : Sched) (id : BitVec 32) (tf : Trapframe) :
    Option (Sched × ThreadPtr × Trapframe) := do
  let i ← thisCore s.corelist id
  let core ← s.corelist[i]?
  let running ← core.runningProcess
  let thread ← (s.proc running).runningThread
  if !(s.thread thread).startup then
    let s := nextProcess (nextThread (saveFrame s thread tf) running thread) i core running
    let core ← s.corelist[i]?
    let running ← core.runningProcess
    let thread ← (s.proc running).runningThread
    some (s, thread, (s.thread thread).tf)
  else
    let s := clearStartup s thread
    some (s, thread, (s.thread thread).tf)

/-- What the kernel does to the scheduler. -/
inductive SchedOp where
  /-- `create_kernel_process`, then `enqueue_process`. -/
  | spawn (b : ProcessBlocks) (name : List (BitVec 8)) (entry : BitVec 64)
  /-- `process_create_thread`, then `enqueue_thread`. -/
  | addThread (parent : ProcPtr) (thread : Option ThreadPtr) (stack entry : BitVec 64)
  /-- The timer on the processor with this APIC id. -/
  | yield (id : BitVec 32) (tf : Trapframe)

/-- One operation. `kmalloc` returns no block that is in use, and a thread is
    added to a process that exists. -/
def schedStep (s : Sched) : SchedOp → Option Sched
  | .spawn b name entry => do
    let ((p, pr), (t, th)) ← createKernelProcess b name entry
    if s.Fresh p ∧ s.FreshThread t then
      enqueueProcess ((s.setProc p pr).setThread t th) p
    else none
  | .addThread parent thread stack entry => do
    let (t, th) ← processCreateThread thread stack parent entry
    if parent ∈ s.processes ∧ s.FreshThread t then
      some (enqueueThread (s.setThread t th) parent t)
    else none
  | .yield id tf => (schedYield s id tf).map (·.1)

/-! What each operation can do. -/

theorem enqueueProcess_cases {s s' : Sched} {p : ProcPtr} (h : enqueueProcess s p = some s') :
    ∃ core, s.corelist[s.currentCoreIdx]? = some core ∧
      let moved := { s with currentCoreIdx := (s.currentCoreIdx + 1) % s.corelist.length }
      (core.runningProcess = none ∧ ∃ t, (s.proc p).runningThread = some t ∧
        s' = (moved.setCore s.currentCoreIdx
            { core with processq := core.processq ++ [p], runningProcess := some p }).setThread t
          { s.thread t with flags := (s.thread t).flags ||| threadStartup }) ∨
      (core.runningProcess ≠ none ∧
        s' = moved.setCore s.currentCoreIdx { core with processq := core.processq ++ [p] }) := by
  simp only [enqueueProcess, schedCore, Option.bind_eq_bind, Option.bind_eq_some_iff,
    Option.map_eq_some_iff] at h
  obtain ⟨⟨i, core, s₁⟩, ⟨core', hcore, heq⟩, h⟩ := h
  simp only [Prod.mk.injEq] at heq
  obtain ⟨rfl, rfl, rfl⟩ := heq
  refine ⟨core', hcore, ?_⟩
  dsimp only at h ⊢
  split at h
  · next hnone =>
    obtain ⟨t, ht, h⟩ := Option.bind_eq_some_iff.mp h
    simp only [Option.some.injEq] at h
    exact .inl ⟨hnone, t, ht, h.symm⟩
  · next hsome =>
    simp only [Option.some.injEq] at h
    exact .inr ⟨hsome, h.symm⟩

/-- The two ways `sched_yield` returns: it starts the core's first thread, or
    it saves the running thread's frame, moves both cursors and loads. -/
theorem schedYield_cases {s s' : Sched} {id : BitVec 32} {tf tf' : Trapframe} {u : ThreadPtr}
    (h : schedYield s id tf = some (s', u, tf')) :
    ∃ i core p t, thisCore s.corelist id = some i ∧ s.corelist[i]? = some core ∧
      core.runningProcess = some p ∧ (s.proc p).runningThread = some t ∧
      (((s.thread t).startup = true ∧ u = t ∧ s' = clearStartup s t ∧ tf' = (s.thread t).tf) ∨
       ((s.thread t).startup = false ∧
        s' = nextProcess (nextThread (saveFrame s t tf) p t) i core p ∧
        ∃ p', Cyclic.advance core.processq p = some p' ∧ (s'.proc p').runningThread = some u ∧
          tf' = (s'.thread u).tf)) := by
  simp only [schedYield, Option.bind_eq_bind, Option.bind_eq_some_iff] at h
  obtain ⟨i, hi, core, hcore, p, hp, t, ht, h⟩ := h
  refine ⟨i, core, p, t, hi, hcore, hp, ht, ?_⟩
  cases hs : (s.thread t).startup with
  | true =>
    simp only [hs, Bool.not_true, Bool.false_eq_true, if_false, Option.some.injEq, Prod.mk.injEq] at h
    obtain ⟨rfl, rfl, rfl⟩ := h
    exact .inl ⟨rfl, rfl, rfl, by simp [clearStartup]⟩
  | false =>
    simp only [hs, Bool.not_false, if_true, Option.bind_eq_some_iff, Option.some.injEq,
      Prod.mk.injEq] at h
    obtain ⟨core', hcore', p', hp', u', hu, rfl, rfl, rfl⟩ := h
    -- the core read back is the one `next_process` has just written
    obtain ⟨hi', -⟩ := List.getElem?_eq_some_iff.mp hcore
    have hset : core' = { core with runningProcess := Cyclic.advance core.processq p } := by
      have hlen : i < (nextThread (saveFrame s t tf) p t).corelist.length := hi'
      rw [nextProcess, Sched.setCore_corelist, List.getElem?_set_self hlen] at hcore'
      exact (Option.some.inj hcore').symm
    rw [hset] at hp'
    exact .inr ⟨rfl, rfl, p', hp', hu, rfl⟩

/-- What saving the frame of `t` and moving the cursors of `p` and of core `i`
    changes, field by field. -/
structure Preempted (s : Sched) (i : Nat) (core : CpuCore) (p : ProcPtr) (t : ThreadPtr)
    (tf : Trapframe) (s' : Sched) : Prop where
  corelist : s'.corelist = s.corelist.set i
    { core with runningProcess := Cyclic.advance core.processq p }
  idx : s'.currentCoreIdx = s.currentCoreIdx
  threadq : ∀ q, (s'.proc q).threadq = (s.proc q).threadq
  threadCount : ∀ q, (s'.proc q).threadCount = (s.proc q).threadCount
  procOther : ∀ q ≠ p, s'.proc q = s.proc q
  procSelf : (s'.proc p).runningThread = Cyclic.advance (s.proc p).threadq t
  threadSelf : s'.thread t = { s.thread t with tf := tf }
  threadOther : ∀ u ≠ t, s'.thread u = s.thread u

theorem preempted (s : Sched) (i : Nat) (core : CpuCore) (p : ProcPtr) (t : ThreadPtr)
    (tf : Trapframe) :
    Preempted s i core p t tf (nextProcess (nextThread (saveFrame s t tf) p t) i core p) := by
  have procs : (nextProcess (nextThread (saveFrame s t tf) p t) i core p).proc =
      Function.update s.proc p
        { s.proc p with runningThread := Cyclic.advance (s.proc p).threadq t } := rfl
  refine ⟨rfl, rfl, ?_, ?_, ?_, ?_, ?_, ?_⟩
  · intro q
    by_cases hq : q = p
    · subst hq; rw [procs, Function.update_self]
    · rw [procs, Function.update_of_ne hq]
  · intro q
    by_cases hq : q = p
    · subst hq; rw [procs, Function.update_self]
    · rw [procs, Function.update_of_ne hq]
  · intro q hq; rw [procs, Function.update_of_ne hq]
  · rw [procs, Function.update_self]
  · exact Function.update_self ..
  · intro u hu; exact Function.update_of_ne hu ..

theorem Preempted.startup {s s' : Sched} {i : Nat} {core : CpuCore} {p : ProcPtr} {t : ThreadPtr}
    {tf : Trapframe} (h : Preempted s i core p t tf s') (u : ThreadPtr) :
    (s'.thread u).startup = (s.thread u).startup := by
  by_cases hu : u = t
  · subst hu; rw [h.threadSelf]; rfl
  · rw [h.threadOther u hu]

theorem Preempted.parent {s s' : Sched} {i : Nat} {core : CpuCore} {p : ProcPtr} {t : ThreadPtr}
    {tf : Trapframe} (h : Preempted s i core p t tf s') (u : ThreadPtr) :
    (s'.thread u).parent = (s.thread u).parent := by
  by_cases hu : u = t
  · subst hu; rw [h.threadSelf]
  · rw [h.threadOther u hu]

/-- The core at `i` has a new cursor, the others are as before. -/
theorem Preempted.look {s s' : Sched} {i j : Nat} {core c : CpuCore} {p : ProcPtr} {t : ThreadPtr}
    {tf : Trapframe} (h : Preempted s i core p t tf s') (hcore : s.corelist[i]? = some core)
    (hj : s'.corelist[j]? = some c) :
    (j = i ∧ c = { core with runningProcess := Cyclic.advance core.processq p }) ∨
      (j ≠ i ∧ s.corelist[j]? = some c) := by
  rw [h.corelist] at hj
  by_cases hij : i = j
  · subst hij
    rw [List.getElem?_set_self (List.getElem?_eq_some_iff.mp hcore).1, Option.some.injEq] at hj
    exact .inl ⟨rfl, hj.symm⟩
  · rw [List.getElem?_set_ne hij] at hj
    exact .inr ⟨fun e => hij e.symm, hj⟩

/-- What creating the process `p` with main thread `t` and putting it on the
    core at the cursor changes. The core starts with it when it has none. -/
structure Spawned (s : Sched) (core core' : CpuCore) (p : ProcPtr) (t : ThreadPtr) (th : Thread)
    (s' : Sched) : Prop where
  fresh : s.Fresh p
  freshThread : s.FreshThread t
  old : s.corelist[s.currentCoreIdx]? = some core
  corelist : s'.corelist = s.corelist.set s.currentCoreIdx core'
  lapicId : core'.lapicId = core.lapicId
  processq : core'.processq = core.processq ++ [p]
  idx : s'.currentCoreIdx = (s.currentCoreIdx + 1) % s.corelist.length
  procOther : ∀ q ≠ p, s'.proc q = s.proc q
  threadOther : ∀ u ≠ t, s'.thread u = s.thread u
  threadq : (s'.proc p).threadq = [t]
  runningThread : (s'.proc p).runningThread = some t
  threadCount : (s'.proc p).threadCount = 1
  parent : (s'.thread t).parent = p
  tf : (s'.thread t).tf = th.tf
  runningProcess : (core.runningProcess = none ∧ core'.runningProcess = some p ∧
      (s'.thread t).startup = true) ∨
    (core.runningProcess ≠ none ∧ core'.runningProcess = core.runningProcess ∧
      (s'.thread t).startup = false)

theorem startup_set (th : Thread) :
    ({ th with flags := th.flags ||| threadStartup } : Thread).startup = true := by
  simp only [Thread.startup, threadStartup, bne_iff_ne, ne_eq]
  intro h
  have := congrArg (fun b : BitVec 16 => b.getLsbD 0) h
  simp at this

theorem startup_cleared (th : Thread) :
    ({ th with flags := th.flags &&& ~~~threadStartup } : Thread).startup = false := by
  simp only [Thread.startup, threadStartup, BitVec.and_assoc]
  simp

theorem spawn_spawned {s s' : Sched} {b : ProcessBlocks} {name : List (BitVec 8)} {entry : BitVec 64}
    (hs : schedStep s (.spawn b name entry) = some s') :
    ∃ p pr t th core core', createKernelProcess b name entry = some ((p, pr), (t, th)) ∧
      Spawned s core core' p t th s' := by
  simp only [schedStep, Option.bind_eq_bind, Option.bind_eq_some_iff] at hs
  obtain ⟨⟨⟨p, pr⟩, t, th⟩, hcreate, hs⟩ := hs
  dsimp only at hs
  split at hs
  · next hfresh =>
    obtain ⟨-, -, hq, hcount, hrun, hpar, hflags⟩ := createKernelProcess_some hcreate
    obtain ⟨core, hcore, ⟨hnone, t', ht', rfl⟩ | ⟨hsome, rfl⟩⟩ := enqueueProcess_cases hs
    · have htt : t' = t := by
        simp only [Sched.setThread_proc, Sched.setProc_proc, Function.update_self, hrun,
          Option.some.injEq] at ht'
        exact ht'.symm
      subst htt
      refine ⟨p, pr, t', th, core, _, hcreate, hfresh.1, hfresh.2, hcore, rfl, rfl, rfl, rfl, ?_, ?_, ?_,
        ?_, ?_, ?_, ?_, .inl ⟨hnone, rfl, ?_⟩⟩
      · intro q hqp; simp [Function.update_of_ne hqp]
      · intro u hu; simp [Function.update_of_ne hu]
      · simp [hq]
      · simp [hrun]
      · simp [hcount]
      · simp [hpar]
      · simp
      · simp [startup_set]
    · refine ⟨p, pr, t, th, core, _, hcreate, hfresh.1, hfresh.2, hcore, rfl, rfl, rfl, rfl, ?_, ?_, ?_,
        ?_, ?_, ?_, ?_, .inr ⟨hsome, rfl, ?_⟩⟩
      · intro q hqp; simp [Function.update_of_ne hqp]
      · intro u hu; simp [Function.update_of_ne hu]
      · simp [hq]
      · simp [hrun]
      · simp [hcount]
      · simp [hpar]
      · simp
      · simp [Thread.startup, hflags]
  · simp at hs

/-- What adding the thread `t` to the process `parent` changes. -/
structure Extended (s : Sched) (parent : ProcPtr) (t : ThreadPtr) (th : Thread) (s' : Sched) :
    Prop where
  live : parent ∈ s.processes
  freshThread : s.FreshThread t
  corelist : s'.corelist = s.corelist
  idx : s'.currentCoreIdx = s.currentCoreIdx
  procOther : ∀ q ≠ parent, s'.proc q = s.proc q
  threadq : (s'.proc parent).threadq = (s.proc parent).threadq ++ [t]
  runningThread : ∀ q, (s'.proc q).runningThread = (s.proc q).runningThread
  threadCount : (s'.proc parent).threadCount = (s.proc parent).threadCount + 1
  threadSelf : s'.thread t = th
  threadOther : ∀ u ≠ t, s'.thread u = s.thread u
  parent : th.parent = parent
  startup : th.startup = false

theorem addThread_extended {s s' : Sched} {parent : ProcPtr} {thread : Option ThreadPtr}
    {stack entry : BitVec 64} (hs : schedStep s (.addThread parent thread stack entry) = some s') :
    ∃ t th, processCreateThread thread stack parent entry = some (t, th) ∧
      Extended s parent t th s' := by
  simp only [schedStep, Option.bind_eq_bind, Option.bind_eq_some_iff] at hs
  obtain ⟨⟨t, th⟩, hcreate, hs⟩ := hs
  dsimp only at hs
  split at hs
  · next hok =>
    obtain ⟨-, hpar, hflags⟩ := processCreateThread_some hcreate
    simp only [Option.some.injEq] at hs
    subst hs
    refine ⟨t, th, hcreate, hok.1, hok.2, rfl, rfl, ?_, ?_, ?_, ?_, ?_, ?_, hpar, ?_⟩
    · intro q hq; simp [enqueueThread, Function.update_of_ne hq]
    · simp [enqueueThread]
    · intro q
      by_cases hq : q = parent
      · subst hq; simp [enqueueThread]
      · simp [enqueueThread, Function.update_of_ne hq]
    · simp [enqueueThread]
    · simp [enqueueThread]
    · intro u hu; simp [enqueueThread, Function.update_of_ne hu]
    · simp [Thread.startup, hflags]
  · simp at hs

/-- A queue after the addition: what was there, and `t` at the end of one. -/
theorem Extended.mem_threadq {s s' : Sched} {parent q : ProcPtr} {t u : ThreadPtr} {th : Thread}
    (h : Extended s parent t th s') (hu : u ∈ (s'.proc q).threadq) :
    u ∈ (s.proc q).threadq ∨ (q = parent ∧ u = t) := by
  by_cases hq : q = parent
  · subst hq
    rw [h.threadq, List.mem_append, List.mem_singleton] at hu
    exact hu.imp id (fun he => ⟨rfl, he⟩)
  · rw [h.procOther q hq] at hu
    exact .inl hu

end Qnixx
