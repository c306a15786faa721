import Mathlib.Tactic.Common
import Qnixx.LibKern

/- Processes and threads (`sched/process.c`, `sched/process.h`,
   `amd64/asm.h`). A pointer to a `process_t` or a `thread_t` is a number and
   NULL is `none`; the records themselves live in the maps of `Sched`. The
   intrusive queue links of a record (`runq`, `threadq`) are not fields here:
   a queue is the list of the pointers it links. Memory that comes from
   `kmalloc` uninitialised is an arbitrary record, the argument `block`. -/
namespace Qnixx

/-- `trapframe_t`, its fields in memory order. -/
structure Trapframe where
  rdi : BitVec 64
  rsi : BitVec 64
  rbx : BitVec 64
  rdx : BitVec 64
  rcx : BitVec 64
  rax : BitVec 64
  r8 : BitVec 64
  r9 : BitVec 64
  r10 : BitVec 64
  r11 : BitVec 64
  r12 : BitVec 64
  r13 : BitVec 64
  r14 : BitVec 64
  r15 : BitVec 64
  fs : BitVec 64
  gs : BitVec 64
  trapno : BitVec 64
  rip : BitVec 64
  cs : BitVec 16
  rflags : BitVec 64
  rsp : BitVec 64
  ss : BitVec 16
  deriving DecidableEq

/-- The frame after `memzero`. -/
def Trapframe.zero : Trapframe :=
  ⟨0, 0, 0, 0, 0, 0, 0, 0, 0, 0, 0, 0, 0, 0, 0, 0, 0, 0, 0, 0, 0, 0⟩

abbrev ProcPtr := Nat
abbrev ThreadPtr := Nat

/-- `THREAD_STARTUP`: set on the thread a core starts with. -/
def threadStartup : BitVec 16 := 1

structure Thread where
  tf : Trapframe
  stackBase : BitVec 64
  flags : BitVec 16
  parent : ProcPtr

/-- `thread->flags & THREAD_STARTUP`. -/
def Thread.startup (t : Thread) : Bool := t.flags &&& threadStartup != 0

structure Process where
  name : Nat → BitVec 8
  pid : BitVec 32
  uid : BitVec 32
  euid : BitVec 32
  gid : BitVec 32
  threadq : List ThreadPtr
  runningThread : Option ThreadPtr
  threadCount : Nat
  vaddrsp : BitVec 64

/-- `thread` and `stack` are what the two calls of `kmalloc` return; `none` is
    a failed assert, which halts. The second assert tests the sum, not the
    pointer: a NULL stack passes it. -/
def processCreateThread (thread : Option ThreadPtr) (stack : BitVec 64) (parent : ProcPtr)
    (entry : BitVec 64) : Option (ThreadPtr × Thread) :=
  match thread with
  | none => none
  | some t =>
    let stackBase := stack + 0x500
    if stackBase = 0 then none
    else some (t,
      { tf := { Trapframe.zero with
          ss := 0x30, cs := 0x28, rflags := 0x202, rsp := stackBase + (0x500 - 1), rip := entry }
        stackBase := stackBase
        flags := 0
        parent := parent })

/-- What `create_process` gets from the functions it calls: the three results
    of `kmalloc` (and what the process block held before), `alloc_pid` and
    `vmm_make_pml4`. -/
structure ProcessBlocks where
  proc : Option ProcPtr
  block : Process
  thread : Option ThreadPtr
  stack : BitVec 64
  pid : BitVec 32
  pml4 : BitVec 64

/-- `memcpy(p->name, name, strlen(name))`: no terminator is copied. -/
def copyName (old : Nat → BitVec 8) (name : List (BitVec 8)) : Nat → BitVec 8 :=
  fun i => name[i]?.getD (old i)

/-- The process and its main thread, or `none` where an assert halts. -/
def createProcess (b : ProcessBlocks) (name : List (BitVec 8)) (userId groupId : BitVec 32)
    (entry : BitVec 64) : Option ((ProcPtr × Process) × (ThreadPtr × Thread)) :=
  if name.length ≤ nameMax then
    match b.proc with
    | none => none
    | some p =>
      match processCreateThread b.thread b.stack p entry with
      | none => none
      | some main =>
        some ((p,
          { b.block with
            threadq := [] ++ [main.1]
            threadCount := 1
            runningThread := some main.1
            uid := userId
            euid := userId
            gid := groupId
            pid := b.pid
            vaddrsp := b.pml4
            name := copyName b.block.name name }), main)
  else none

def createKernelProcess (b : ProcessBlocks) (name : List (BitVec 8)) (entry : BitVec 64) :
    Option ((ProcPtr × Process) × (ThreadPtr × Thread)) :=
  createProcess b name 0 0 entry

/-- What a created thread is: its pointer is the block it was given, it belongs
    to its parent and no flag is set. -/
theorem processCreateThread_some {thread : Option ThreadPtr} {stack entry : BitVec 64}
    {parent : ProcPtr} {t : ThreadPtr} {th : Thread}
    (h : processCreateThread thread stack parent entry = some (t, th)) :
    thread = some t ∧ th.parent = parent ∧ th.flags = 0 := by
  unfold processCreateThread at h
  split at h
  · simp at h
  · next u =>
    dsimp only at h
    split at h
    · simp at h
    · simp only [Option.some.injEq, Prod.mk.injEq] at h
      obtain ⟨rfl, rfl⟩ := h
      exact ⟨rfl, rfl, rfl⟩

/-- What a created process is: one thread, its main thread, which is running,
    and that thread belongs to it. -/
theorem createKernelProcess_some {b : ProcessBlocks} {name : List (BitVec 8)} {entry : BitVec 64}
    {p : ProcPtr} {pr : Process} {t : ThreadPtr} {th : Thread}
    (h : createKernelProcess b name entry = some ((p, pr), (t, th))) :
    b.proc = some p ∧ b.thread = some t ∧ pr.threadq = [t] ∧ pr.threadCount = 1 ∧
      pr.runningThread = some t ∧ th.parent = p ∧ th.flags = 0 := by
  unfold createKernelProcess createProcess at h
  split at h
  · split at h
    · simp at h
    · next q hq =>
      split at h
      · simp at h
      · next main hmain =>
        simp only [Option.some.injEq, Prod.mk.injEq] at h
        obtain ⟨⟨rfl, rfl⟩, rfl⟩ := h
        obtain ⟨ht, hp, hf⟩ := processCreateThread_some hmain
        exact ⟨hq, ht, rfl, rfl, rfl, hp, hf⟩
  · simp at h

end Qnixx
