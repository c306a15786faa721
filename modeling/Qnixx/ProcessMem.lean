import Qnixx.Lib.Runs
import Qnixx.Process

/- The memory of a process and of its threads. The stack of a thread is a block
   of `0x500` bytes; its end is stored as the base, and the stack pointer is set
   `0x4FF` bytes above that. The name of a process is copied without its end of
   string into memory nobody cleared. -/
namespace Qnixx
open ByteMem

/-! Stacks. -/

/-- A block of the heap: not at NULL, and inside the address space. -/
structure HeapBlock where
  start : Nat
  size : Nat
  pos : 0 < start
  fits : start + size ≤ 2^64

/-- The address is in the block. -/
def HeapBlock.Has (b : HeapBlock) (x : BitVec 64) : Prop :=
  b.start ≤ x.toNat ∧ x.toNat < b.start + b.size

def HeapBlock.Disjoint (b c : HeapBlock) : Prop :=
  b.start + b.size ≤ c.start ∨ c.start + c.size ≤ b.start

/-- A call of `process_create_thread`, with what its two calls of `kmalloc`
    return; `none` is NULL. -/
structure ThreadCall where
  thread : Option HeapBlock
  stack : Option HeapBlock
  parent : ProcPtr
  entry : BitVec 64

/-- The call, on the two pointers. -/
def ThreadCall.run (o : ThreadCall) : Option (ThreadPtr × Thread) :=
  processCreateThread (o.thread.map HeapBlock.start) (o.stack.elim 0 (fun b => BitVec.ofNat 64 b.start))
    o.parent o.entry

/-- The blocks the call was given. -/
def ThreadCall.blocks (o : ThreadCall) : List HeapBlock := o.thread.toList ++ o.stack.toList

/-- The live blocks after a call that returns. -/
def threadStep (live : List HeapBlock) (o : ThreadCall) : Option (List HeapBlock) :=
  o.run.map (fun _ => o.blocks ++ live)

/-- What the heap may return: blocks of the size asked for, disjoint from every
    live block and from each other. -/
structure HeapAllows (threadSize : Nat) (live : List HeapBlock) (o : ThreadCall) : Prop where
  thread : ∀ b ∈ o.thread, b.size = threadSize ∧ ∀ c ∈ live, b.Disjoint c
  stack : ∀ b ∈ o.stack, b.size = 0x500 ∧ ∀ c ∈ o.thread.toList ++ live, b.Disjoint c

/-- The stack pointer of the thread is above the start of the stack's block and
    at most at its end, and bytes pushed down to the start of the block change
    no other live block. -/
structure StartsInside (live : List HeapBlock) (o : ThreadCall) (stack : HeapBlock) (th : Thread) :
    Prop where
  above : stack.start < th.tf.rsp.toNat
  below : th.tf.rsp.toNat ≤ stack.start + 0x500
  pushes : ∀ (m : Mem) (bs : List Byte), bs.length ≤ th.tf.rsp.toNat - stack.start →
    ∀ c ∈ o.thread.toList ++ live, ∀ x, c.Has x →
      storeBytes m (th.tf.rsp - BitVec.ofNat 64 bs.length) bs x = m x

/-- The call stops at an assert and an allocation failed, or it returns a thread
    that starts inside its stack. -/
def StackInside (threadSize : Nat) (live : List HeapBlock) (o : ThreadCall) : Prop :=
  HeapAllows threadSize live o →
    (o.run = none ∧ (o.thread = none ∨ o.stack = none)) ∨
      ∃ t th, o.run = some (t, th) ∧ ∃ stack ∈ o.stack, StartsInside live o stack th

/-- The first `kmalloc` of the call fails. -/
def ThreadFails (threadSize : Nat) (live : List HeapBlock) (o : ThreadCall) : Prop :=
  HeapAllows threadSize live o → o.thread = none

section
variable {o : ThreadCall} {t : ThreadPtr} {th : Thread}

/-- The stack pointer of a thread is `0x9FF` bytes above what the second
    `kmalloc` returned, NULL or not. -/
theorem ThreadCall.run_rsp (h : o.run = some (t, th)) :
    th.tf.rsp = o.stack.elim 0 (fun b => BitVec.ofNat 64 b.start) + 0x9FF#64 := by
  unfold run processCreateThread at h
  split at h
  · cases h
  · dsimp only at h
    split at h
    · cases h
    · obtain ⟨-, rfl⟩ := Prod.mk.inj (Option.some.inj h)
      exact BitVec.add_assoc _ 0x500#64 0x4FF#64

/-- That is beyond the end of the block, or has wrapped. -/
theorem not_startsInside {live : List HeapBlock} {stack : HeapBlock} (h : o.run = some (t, th))
    (hs : stack ∈ o.stack) : ¬ StartsInside live o stack th := by
  intro hin
  have habove := hin.above
  have hbelow := hin.below
  have hrsp : th.tf.rsp.toNat = (stack.start % 2^64 + 0x9FF) % 2^64 := by
    rw [ThreadCall.run_rsp h, Option.mem_def.mp hs, Option.elim_some, BitVec.toNat_add,
      BitVec.toNat_ofNat]
    rfl
  omega

theorem ThreadCall.run_none (h : o.thread = none) : o.run = none := by
  rw [run, h]
  rfl

theorem stackInside_iff (threadSize : Nat) (live : List HeapBlock) (o : ThreadCall) :
    StackInside threadSize live o ↔ ThreadFails threadSize live o := by
  refine ⟨?_, ?_⟩
  · intro hin hallows
    rcases hin hallows with ⟨hstop, hfailed⟩ | ⟨t, th, hrun, stack, hstack, hstarts⟩
    · rcases hfailed with hthread | hstack
      · exact hthread
      · -- the sum of NULL and `0x500` is not 0, so the assert does not stop
        cases hthread : o.thread with
        | none => rfl
        | some b =>
          rw [ThreadCall.run, hthread, hstack] at hstop
          cases hstop
    · exact absurd hstarts (not_startsInside hrun hstack)
  · intro hfails hallows
    exact .inl ⟨ThreadCall.run_none (hfails hallows), .inl (hfails hallows)⟩

end

/-- **When a thread starts inside its stack.** For every heap, every sequence of
    calls and every outcome of `kmalloc`: each call stops because an allocation
    failed or returns a thread whose stack pointer is in its stack iff every
    call's first `kmalloc`, for the thread itself, fails. -/
theorem stacks_inside_iff (threadSize : Nat) (live : List HeapBlock) (calls : List ThreadCall) :
    Runs.Meets threadStep (StackInside threadSize) live calls ↔
      Runs.Meets threadStep (ThreadFails threadSize) live calls := by
  -- what a call does to its stack depends on no call before it
  refine Runs.meets_iff_of_inv (P := fun _ => True) ?_ ?_ trivial
  · intro _ _ _ _ _ _
    trivial
  · intro live o _
    exact stackInside_iff threadSize live o

/-- A live block, right behind the block the second `kmalloc` returns. -/
def neighbour : HeapBlock := ⟨0x20500, 0x500, by decide, by decide⟩

def neighbourCall : ThreadCall :=
  ⟨some ⟨0x10000, 0xE0, by decide, by decide⟩, some ⟨0x20000, 0x500, by decide, by decide⟩, 0, 0x400000⟩

theorem neighbourCall_allowed : HeapAllows 0xE0 [neighbour] neighbourCall := by
  refine ⟨?_, ?_⟩
  · intro b hb
    obtain rfl := Option.some.inj hb
    simp [HeapBlock.Disjoint, neighbour]
  · intro b hb
    obtain rfl := Option.some.inj hb
    simp [HeapBlock.Disjoint, neighbour, neighbourCall]

/-- The thread's first push is into its neighbour. -/
theorem stack_pointer_outside :
    ¬ Runs.Meets threadStep (StackInside 0xE0) [neighbour] [neighbourCall] ∧
      ∃ t th, neighbourCall.run = some (t, th) ∧ neighbour.Has (th.tf.rsp - 8) := by
  refine ⟨?_, ?_⟩
  · intro h
    have hfails := (stackInside_iff 0xE0 [neighbour] neighbourCall).mp h.1 neighbourCall_allowed
    cases hfails
  · exact ⟨_, _, rfl, by decide, by decide⟩

/-! Names. -/

/-- The array `name[NAME_MAX]` of a process. -/
def Process.nameArray (p : Process) : List Byte := (List.range nameMax).map p.name

/-- The array read as a C string; `none` when it has no end of string. -/
def Process.readName (p : Process) : Option (List Byte) :=
  (strlen p.nameArray).map (fun n => p.nameArray.take n)

/-- The name, and then what the memory held before. -/
theorem nameArray_copyName {old : Nat → Byte} {name : List Byte} (hlen : name.length ≤ nameMax) :
    (List.range nameMax).map (copyName old name) =
      name ++ (List.range (nameMax - name.length)).map (fun k => old (name.length + k)) := by
  apply List.ext_getElem?
  intro i
  by_cases hi : i < name.length
  · rw [List.getElem?_append_left hi, List.getElem?_map, List.getElem?_range (by omega),
      Option.map_some, copyName, List.getElem?_eq_getElem hi, Option.getD_some]
  · rw [List.getElem?_append_right (by omega), List.getElem?_map, List.getElem?_map]
    by_cases hmax : i < nameMax
    · rw [List.getElem?_range hmax, List.getElem?_range (by omega), Option.map_some, Option.map_some,
        copyName, List.getElem?_eq_none (by omega), Option.getD_none,
        show name.length + (i - name.length) = i by omega]
    · rw [List.getElem?_eq_none (by rw [List.length_range]; omega),
        List.getElem?_eq_none (by rw [List.length_range]; omega)]
      rfl

/-- A string is read back from a buffer that starts with it iff the next byte
    ends it. -/
theorem strlen_take_eq {name : List Byte} (h : ∀ c ∈ name, c ≠ 0) (rest : List Byte) :
    (strlen (name ++ rest)).map (fun n => (name ++ rest).take n) = some name ↔
      rest.head? = some 0 := by
  rw [strlen_append h, ← strlen_eq_zero, Option.map_map]
  refine ⟨?_, ?_⟩
  · intro hread
    obtain ⟨k, hk, htake⟩ := Option.map_eq_some_iff.mp hread
    have hlt := strlen_lt hk
    -- a longer string would not be the name
    have hlen := congrArg List.length htake
    simp only [Function.comp_apply, List.length_take, List.length_append] at hlen
    have hzero : k = 0 := by omega
    rw [hk, hzero]
  · intro hzero
    rw [hzero, Option.map_some]
    simp

theorem createProcess_name {b : ProcessBlocks} {name : List Byte} {userId groupId : BitVec 32}
    {entry : BitVec 64} {p : ProcPtr} {pr : Process} {main : ThreadPtr × Thread}
    (h : createProcess b name userId groupId entry = some ((p, pr), main)) :
    name.length ≤ nameMax ∧ pr.name = copyName b.block.name name := by
  unfold createProcess at h
  split at h
  · next hlen =>
    split at h
    · cases h
    · split at h
      · cases h
      · simp only [Option.some.injEq, Prod.mk.injEq] at h
        obtain ⟨⟨-, rfl⟩, -⟩ := h
        exact ⟨hlen, rfl⟩
  · cases h

/-- **When a process keeps its name.** For every name that `create_process`
    accepts and every content of the memory of the process: the name reads back
    from the array iff it is shorter than the array and the byte behind it was
    zero before. -/
theorem name_kept_iff (b : ProcessBlocks) (name : List Byte) (hname : ∀ c ∈ name, c ≠ 0)
    (userId groupId : BitVec 32) (entry : BitVec 64) (p : ProcPtr) (pr : Process)
    (main : ThreadPtr × Thread)
    (h : createProcess b name userId groupId entry = some ((p, pr), main)) :
    pr.readName = some name ↔ name.length < nameMax ∧ b.block.name name.length = 0 := by
  obtain ⟨hlen, hcopy⟩ := createProcess_name h
  rw [Process.readName, Process.nameArray, hcopy, nameArray_copyName hlen, strlen_take_eq hname]
  by_cases hfull : name.length < nameMax
  · have hrest : nameMax - name.length = nameMax - name.length - 1 + 1 := by omega
    rw [hrest, List.range_succ_eq_map]
    simp [hfull]
  · have hrest : nameMax - name.length = 0 := by omega
    rw [hrest]
    simp [hfull]

/-- Blocks for a process, in memory that holds the byte `old` everywhere. -/
def filledBlocks (old : Byte) : ProcessBlocks :=
  { proc := some 0x10000
    block := ⟨fun _ => old, 0, 0, 0, 0, [], none, 0, 0⟩
    thread := some 0x20000
    stack := 0x30000
    pid := 1
    pml4 := 0x1000 }

/-- In zeroed memory the name `A` is kept. -/
theorem name_kept_zeroed :
    ∃ p pr main, createProcess (filledBlocks 0) [0x41] 0 0 0x400000 = some ((p, pr), main) ∧
      pr.readName = some [0x41] :=
  ⟨_, _, _, rfl,
    (name_kept_iff (filledBlocks 0) [0x41] (by decide) 0 0 0x400000 _ _ _ rfl).mpr ⟨by decide, rfl⟩⟩

/-- In memory that held the byte `B`, the name `A` has no end, and reads as the
    whole array and what follows it. -/
theorem name_without_end :
    ∃ p pr main, createProcess (filledBlocks 0x42) [0x41] 0 0 0x400000 = some ((p, pr), main) ∧
      pr.readName = none ∧ pr.readName ≠ some [0x41] :=
  ⟨_, _, _, rfl, by decide +kernel, by decide +kernel⟩

end Qnixx
