import Qnixx.SchedInv

/- Whose frame `sched_yield` saves and loads. A traced run records, newest
   first, the initial frame of every thread that was created and, for every
   call of `sched_yield`, the core it ran on, its argument and the thread it
   loaded. `expected` reads off the trace which frame a thread must resume
   with: the argument of the call that last preempted it on that core, or its
   initial frame. The invariant links the trace to the cursors: what the last
   call on a core loaded is `running_process->running_thread`, unless that
   thread still waits for the core's first call. -/
namespace Qnixx

inductive SchedEvent where
  | created (t : ThreadPtr) (tf : Trapframe)
  | yielded (id : BitVec 32) (tf : Trapframe) (loaded : ThreadPtr)

/-- The thread the last call on the core loaded. -/
def lastLoaded (id : BitVec 32) : List SchedEvent → Option ThreadPtr
  | [] => none
  | .created _ _ :: tr => lastLoaded id tr
  | .yielded id' _ u :: tr => if id' = id then some u else lastLoaded id tr

/-- The argument of the call that last preempted `t` on the core. A call
    preempts the thread the previous call on its core loaded. -/
def lastPreempt (id : BitVec 32) (t : ThreadPtr) : List SchedEvent → Option Trapframe
  | [] => none
  | .created _ _ :: tr => lastPreempt id t tr
  | .yielded id' tf _ :: tr =>
    if id' = id ∧ lastLoaded id tr = some t then some tf else lastPreempt id t tr

def initialFrame (t : ThreadPtr) : List SchedEvent → Option Trapframe
  | [] => none
  | .created t' tf :: tr => if t' = t then some tf else initialFrame t tr
  | .yielded _ _ _ :: tr => initialFrame t tr

/-- The frame `t` has to resume with on the core. -/
def expected (id : BitVec 32) (t : ThreadPtr) (tr : List SchedEvent) : Option Trapframe :=
  (lastPreempt id t tr).or (initialFrame t tr)

/-- What an operation adds to the trace. -/
def eventOf (s : Sched) : SchedOp → Option SchedEvent
  | .spawn b name entry => (createKernelProcess b name entry).map (fun r => .created r.2.1 r.2.2.tf)
  | .addThread parent thread stack entry =>
    (processCreateThread thread stack parent entry).map (fun r => .created r.1 r.2.tf)
  | .yield id tf => (schedYield s id tf).map (fun r => .yielded id tf r.2.1)

def tracedStep (st : Sched × List SchedEvent) (op : SchedOp) : Option (Sched × List SchedEvent) := do
  let s ← schedStep st.1 op
  let e ← eventOf st.1 op
  some (s, e :: st.2)

/-! The invariant. -/

structure FrameInv (s : Sched) (tr : List SchedEvent) : Prop where
  inv : SchedInv s
  /-- The cursors of a core stand at the thread it runs, or will run first. -/
  running : ∀ core ∈ s.corelist, ∀ p t, core.runningProcess = some p →
    (s.proc p).runningThread = some t →
    lastLoaded core.lapicId tr = if (s.thread t).startup then none else some t
  idle : ∀ core ∈ s.corelist, core.runningProcess = none → lastLoaded core.lapicId tr = none
  frames : ∀ core ∈ s.corelist, ∀ p ∈ core.processq, ∀ t ∈ (s.proc p).threadq,
    expected core.lapicId t tr = some (s.thread t).tf
  /-- Only threads that are in a queue were ever loaded or preempted. -/
  loaded : ∀ id t, lastLoaded id tr = some t → ¬ s.FreshThread t
  preempted : ∀ id t, lastPreempt id t tr ≠ none → ¬ s.FreshThread t

theorem frameInv_boot {blocks : Nat → CoreBlocks} {resp : SmpResponse} (hw : resp.Wf)
    (proc : ProcPtr → Process) (thread : ThreadPtr → Thread) :
    FrameInv (schedBoot blocks resp proc thread) [] := by
  refine ⟨inv_boot blocks hw proc thread, ?_, ?_, ?_, ?_, ?_⟩
  · intro core hc p t hp
    rw [(schedBoot_idle hc).1] at hp
    simp at hp
  · intro core _ _; rfl
  · intro core hc p hp
    rw [(schedBoot_idle hc).2] at hp
    simp at hp
  · intro id t h; simp [lastLoaded] at h
  · intro id t h; simp [lastPreempt] at h

/-- A thread that was never in a queue has not been preempted, so it is
    expected to resume with the frame it is created with. -/
theorem expected_created {s : Sched} {tr : List SchedEvent} (h : FrameInv s tr) {t : ThreadPtr}
    (ht : s.FreshThread t) (id : BitVec 32) (tf : Trapframe) :
    expected id t (.created t tf :: tr) = some tf := by
  have hnone : lastPreempt id t tr = none := by
    apply Classical.byContradiction
    intro hne
    exact h.preempted id t hne ht
  simp [expected, lastPreempt, hnone, initialFrame]

/-- Creating one thread changes nothing that is expected of another. -/
theorem expected_created_ne {t u : ThreadPtr} (hu : u ≠ t) (id : BitVec 32) (tf : Trapframe)
    (tr : List SchedEvent) : expected id u (.created t tf :: tr) = expected id u tr := by
  have hne : ¬ (t = u) := fun e => hu e.symm
  simp only [expected, lastPreempt, initialFrame, hne, if_false]

theorem Spawned.freshThread_of {s s' : Sched} {core core' : CpuCore} {p : ProcPtr} {t u : ThreadPtr}
    {th : Thread} (hs : Spawned s core core' p t th s') (hu : s'.FreshThread u) : s.FreshThread u := by
  intro q hq
  have hnew := hu q (hs.processes.mem_iff.mpr (List.mem_cons_of_mem _ hq))
  rwa [hs.proc_old hq] at hnew

/-- A core that runs a process keeps its cursors when another one is enqueued. -/
theorem spawned_running_old {s s' : Sched} {tr : List SchedEvent} {core core' : CpuCore} {p q : ProcPtr}
    {t u : ThreadPtr} {th : Thread} (h : FrameInv s tr) (hs : Spawned s core core' p t th s')
    {c : CpuCore} (hc : c ∈ s.corelist) (hq : c.runningProcess = some q)
    (hu : (s'.proc q).runningThread = some u) :
    lastLoaded c.lapicId tr = if (s'.thread u).startup then none else some u := by
  obtain ⟨i, hi⟩ := List.mem_iff_getElem?.mp hc
  obtain ⟨-, hqm⟩ := h.inv.running_mem hi hq
  rw [hs.proc_old hqm] at hu
  rw [hs.thread_old hqm (h.inv.runningThread_mem hqm hu)]
  exact h.running c hc q u hq hu

/-- The threads that were there keep the frames expected of them. -/
theorem spawned_frames_old {s s' : Sched} {tr : List SchedEvent} {core core' : CpuCore} {p q : ProcPtr}
    {t u : ThreadPtr} {th : Thread} (h : FrameInv s tr) (hs : Spawned s core core' p t th s')
    {c : CpuCore} (hc : c ∈ s.corelist) (hq : q ∈ c.processq) (hu : u ∈ (s'.proc q).threadq) :
    expected c.lapicId u (.created t th.tf :: tr) = some (s'.thread u).tf := by
  have hqm := mem_processes hc hq
  rw [hs.proc_old hqm] at hu
  rw [expected_created_ne (hs.freshThread.ne hqm hu), hs.thread_old hqm hu]
  exact h.frames c hc q hq u hu

theorem frame_spawned {s s' : Sched} {tr : List SchedEvent} {core core' : CpuCore} {p : ProcPtr}
    {t : ThreadPtr} {th : Thread} (h : FrameInv s tr) (hs : Spawned s core core' p t th s') :
    FrameInv s' (.created t th.tf :: tr) := by
  have hmem := List.mem_of_getElem? hs.old
  refine ⟨inv_spawned h.inv hs, ?_, ?_, ?_, ?_, ?_⟩
  · intro c hc q u hq hu
    show lastLoaded c.lapicId tr = _
    rcases hs.look hc with hold | rfl
    · exact spawned_running_old h hs hold hq hu
    · rw [hs.lapicId]
      rcases hs.runningProcess with ⟨hnone, hsome, hstart⟩ | ⟨-, hsame, -⟩
      · -- the process is the first of its core
        rw [hsome, Option.some.injEq] at hq
        subst hq
        rw [hs.runningThread, Option.some.injEq] at hu
        subst hu
        rw [hstart, if_pos rfl]
        exact h.idle core hmem hnone
      · rw [hsame] at hq
        exact spawned_running_old h hs hmem hq hu
  · intro c hc hnone
    show lastLoaded c.lapicId tr = none
    rcases hs.look hc with hold | rfl
    · exact h.idle c hold hnone
    · rcases hs.runningProcess with ⟨-, hsome, -⟩ | ⟨hbusy, hsame, -⟩
      · rw [hsome] at hnone; simp at hnone
      · rw [hsame] at hnone; exact absurd hnone hbusy
  · intro c hc q hq u hu
    rcases hs.look hc with hold | rfl
    · exact spawned_frames_old h hs hold hq hu
    · rw [hs.processq, List.mem_append, List.mem_singleton] at hq
      rcases hq with hq | rfl
      · rw [hs.lapicId]
        exact spawned_frames_old h hs hmem hq hu
      · -- the new process has one thread, the new one
        rw [hs.threadq, List.mem_singleton] at hu
        subst hu
        rw [expected_created h hs.freshThread, hs.tf]
  · intro id u hu hfresh
    exact h.loaded id u hu (hs.freshThread_of hfresh)
  · intro id u hu hfresh
    exact h.preempted id u hu (hs.freshThread_of hfresh)

theorem Extended.freshThread_of {s s' : Sched} {parent : ProcPtr} {t u : ThreadPtr} {th : Thread}
    (hs : Extended s parent t th s') (hu : s'.FreshThread u) : s.FreshThread u := by
  intro q hq hin
  refine hu q (hs.processes ▸ hq) ?_
  by_cases hqp : q = parent
  · subst hqp; rw [hs.threadq]; exact List.mem_append_left _ hin
  · rw [hs.procOther q hqp]; exact hin

theorem frame_extended {s s' : Sched} {tr : List SchedEvent} {parent : ProcPtr} {t : ThreadPtr}
    {th : Thread} (h : FrameInv s tr) (hs : Extended s parent t th s') :
    FrameInv s' (.created t th.tf :: tr) := by
  refine ⟨inv_extended h.inv hs, ?_, ?_, ?_, ?_, ?_⟩
  · intro c hc q u hq hu
    rw [hs.corelist] at hc
    rw [hs.runningThread] at hu
    obtain ⟨i, hi⟩ := List.mem_iff_getElem?.mp hc
    obtain ⟨-, hqm⟩ := h.inv.running_mem hi hq
    rw [hs.threadOther u (hs.freshThread.ne hqm (h.inv.runningThread_mem hqm hu))]
    exact h.running c hc q u hq hu
  · intro c hc hnone
    rw [hs.corelist] at hc
    exact h.idle c hc hnone
  · intro c hc q hq u hu
    rw [hs.corelist] at hc
    have hqm := mem_processes hc hq
    rcases hs.mem_threadq hu with hold | ⟨-, rfl⟩
    · have hne := hs.freshThread.ne hqm hold
      rw [expected_created_ne hne, hs.threadOther u hne]
      exact h.frames c hc q hq u hold
    · rw [expected_created h hs.freshThread, hs.threadSelf]
  · intro id u hu hf
    exact h.loaded id u hu (hs.freshThread_of hf)
  · intro id u hu hf
    exact h.preempted id u hu (hs.freshThread_of hf)

/-! What a call of `sched_yield` adds to the trace. -/

section
variable {id id' : BitVec 32} {tf : Trapframe} {u v : ThreadPtr} {tr : List SchedEvent}

theorem lastLoaded_self : lastLoaded id (.yielded id tf u :: tr) = some u := by
  simp [lastLoaded]

theorem lastLoaded_ne (h : id' ≠ id) : lastLoaded id' (.yielded id tf u :: tr) = lastLoaded id' tr := by
  have hne : ¬ (id = id') := fun e => h e.symm
  simp only [lastLoaded, hne, if_false]

/-- What a call loads was loaded before, or is the thread it loads. -/
theorem lastLoaded_cases (h : lastLoaded id' (.yielded id tf u :: tr) = some v) :
    v = u ∨ lastLoaded id' tr = some v := by
  by_cases hid : id' = id
  · subst hid
    rw [lastLoaded_self] at h
    exact .inl (Option.some.inj h).symm
  · rw [lastLoaded_ne hid] at h
    exact .inr h

/-- What a call preempts was preempted before, or loaded. -/
theorem lastPreempt_cases (h : lastPreempt id' v (.yielded id tf u :: tr) ≠ none) :
    lastPreempt id' v tr ≠ none ∨ lastLoaded id' tr = some v := by
  by_cases hcase : id = id' ∧ lastLoaded id' tr = some v
  · exact .inr hcase.2
  · simp only [lastPreempt, hcase, if_false] at h
    exact .inl h

theorem expected_preempted (h : lastLoaded id tr = some v) :
    expected id v (.yielded id tf u :: tr) = some tf := by
  simp [expected, lastPreempt, h]

/-- The call preempts only the thread loaded on its core. -/
theorem lastPreempt_other (h : id' = id → lastLoaded id tr ≠ some v) :
    lastPreempt id' v (.yielded id tf u :: tr) = lastPreempt id' v tr := by
  have hne : ¬ (id = id' ∧ lastLoaded id' tr = some v) := by
    intro h
    obtain ⟨rfl, hv⟩ := h
    exact h rfl hv
  simp only [lastPreempt, hne, if_false]

/-- The thread of another core, or one that was not running, is expected to
    resume as before. -/
theorem expected_not_preempted (h : id' = id → lastLoaded id tr ≠ some v) :
    expected id' v (.yielded id tf u :: tr) = expected id' v tr := by
  rw [expected, lastPreempt_other h, expected, initialFrame]

end

/-- The first call on a core. -/
theorem frame_started {s : Sched} {tr : List SchedEvent} {i : Nat} {core : CpuCore} {p : ProcPtr}
    {t : ThreadPtr} (tf : Trapframe) (h : FrameInv s tr) (hcore : s.corelist[i]? = some core)
    (hp : core.runningProcess = some p) (ht : (s.proc p).runningThread = some t)
    (hstart : (s.thread t).startup = true) :
    FrameInv (clearStartup s t) (.yielded core.lapicId tf t :: tr) := by
  have hmem := List.mem_of_getElem? hcore
  obtain ⟨hpq, hpm⟩ := h.inv.running_mem hcore hp
  have hnone : lastLoaded core.lapicId tr = none := by
    rw [h.running core hmem p t hp ht, hstart, if_pos rfl]
  have htf : ∀ v, ((clearStartup s t).thread v).tf = (s.thread v).tf := by
    intro v
    by_cases hv : v = t
    · subst hv; simp [clearStartup]
    · simp [clearStartup, Function.update_of_ne hv]
  have htq := h.inv.runningThread_mem hpm ht
  -- no thread has been loaded on the core, so the call preempts nobody
  have hnobody : ∀ v, lastLoaded core.lapicId tr ≠ some v := by
    intro v
    rw [hnone]
    simp
  refine ⟨inv_clearStartup h.inv t, ?_, ?_, ?_, ?_, ?_⟩
  · intro c hc q v hq hv
    obtain ⟨j, hj⟩ := List.mem_iff_getElem?.mp hc
    by_cases hji : j = i
    · subst hji
      have hcc : c = core := Option.some.inj (hj.symm.trans hcore)
      subst hcc
      rw [hp, Option.some.injEq] at hq
      subst hq
      have hvt : some v = some t := hv.symm.trans ht
      rw [Option.some.inj hvt, lastLoaded_self]
      simp [clearStartup, startup_cleared]
    · -- a thread of another core is another thread
      obtain ⟨hqc, hqm⟩ := h.inv.running_mem hj hq
      have hvt := h.inv.other_thread hcore hj hji hpq hqc htq (h.inv.runningThread_mem hqm hv)
      rw [lastLoaded_ne (h.inv.other_core hcore hj hji), h.running c hc q v hq hv]
      simp [clearStartup, Function.update_of_ne hvt]
  · intro c hc hcn
    obtain ⟨j, hj⟩ := List.mem_iff_getElem?.mp hc
    have hji : j ≠ i := by
      intro he
      subst he
      have hcc : c = core := Option.some.inj (hj.symm.trans hcore)
      rw [hcc, hp] at hcn
      simp at hcn
    rw [lastLoaded_ne (h.inv.other_core hcore hj hji)]
    exact h.idle c hc hcn
  · intro c hc q hq v hv
    rw [htf v, expected_not_preempted (fun _ => hnobody v)]
    exact h.frames c hc q hq v hv
  · intro id v hv hfresh
    rcases lastLoaded_cases hv with rfl | hold
    · exact hfresh p hpm htq
    · exact h.loaded id v hold hfresh
  · intro id v hv hfresh
    rcases lastPreempt_cases hv with hold | hold
    · exact h.preempted id v hold hfresh
    · exact h.loaded id v hold hfresh

theorem Preempted.freshThread_of {s s' : Sched} {i : Nat} {core : CpuCore} {p : ProcPtr}
    {t v : ThreadPtr} {tf : Trapframe} (hs : Preempted s i core p t tf s')
    (hcore : s.corelist[i]? = some core) (hv : s'.FreshThread v) : s.FreshThread v := by
  intro q hq
  have hnew := hv q (hs.processes hcore ▸ hq)
  rwa [hs.threadq] at hnew

/-! Any later call on a core. -/

section
variable {s s' : Sched} {tr : List SchedEvent} {i : Nat} {core : CpuCore} {p : ProcPtr}
  {t u : ThreadPtr} {tf : Trapframe}

/-- The thread whose frame the call saves is the one the last call loaded. -/
theorem FrameInv.lastLoaded_running (h : FrameInv s tr) (hcore : s.corelist[i]? = some core)
    (hp : core.runningProcess = some p) (ht : (s.proc p).runningThread = some t)
    (hoff : (s.thread t).startup = false) : lastLoaded core.lapicId tr = some t := by
  rw [h.running core (List.mem_of_getElem? hcore) p t hp ht, hoff]
  simp

/-- The cursors of the other cores stay at the threads these cores run. -/
theorem preempted_running_other (h : FrameInv s tr) (hcore : s.corelist[i]? = some core)
    (hp : core.runningProcess = some p) (hs : Preempted s i core p t tf s') {j : Nat} {c : CpuCore}
    (hj : s.corelist[j]? = some c) (hji : j ≠ i) {q : ProcPtr} {v : ThreadPtr}
    (hq : c.runningProcess = some q) (hv : (s'.proc q).runningThread = some v) :
    lastLoaded c.lapicId (.yielded core.lapicId tf u :: tr) =
      if (s'.thread v).startup then none else some v := by
  obtain ⟨hpq, -⟩ := h.inv.running_mem hcore hp
  obtain ⟨hqc, -⟩ := h.inv.running_mem hj hq
  have hqp : q ≠ p := by
    intro he
    subst he
    exact hji (h.inv.core_unique hj hcore hqc hpq)
  rw [hs.procOther q hqp] at hv
  rw [lastLoaded_ne (h.inv.other_core hcore hj hji), hs.startup]
  exact h.running c (List.mem_of_getElem? hj) q v hq hv

/-- The thread preempted is expected to resume with the argument of the call,
    and no other thread with anything new. -/
theorem preempted_frames (h : FrameInv s tr) (hcore : s.corelist[i]? = some core)
    (hp : core.runningProcess = some p) (ht : (s.proc p).runningThread = some t)
    (hoff : (s.thread t).startup = false) (hs : Preempted s i core p t tf s') {j : Nat} {c : CpuCore}
    (hj : s.corelist[j]? = some c) {q : ProcPtr} {v : ThreadPtr} (hq : q ∈ c.processq)
    (hv : v ∈ (s.proc q).threadq) :
    expected c.lapicId v (.yielded core.lapicId tf u :: tr) = some (s'.thread v).tf := by
  have hlast := h.lastLoaded_running hcore hp ht hoff
  obtain ⟨hpq, hpm⟩ := h.inv.running_mem hcore hp
  have hold := h.frames c (List.mem_of_getElem? hj) q hq v hv
  by_cases hji : j = i
  · subst hji
    have hcc : c = core := Option.some.inj (hj.symm.trans hcore)
    subst hcc
    by_cases hvt : v = t
    · subst hvt
      rw [hs.threadSelf]
      exact expected_preempted hlast
    · rw [hs.threadOther v hvt]
      refine (expected_not_preempted ?_).trans hold
      intro _
      rw [hlast]
      simpa using fun e => hvt e.symm
  · have htq := h.inv.runningThread_mem hpm ht
    rw [hs.threadOther v (h.inv.other_thread hcore hj hji hpq hq htq hv)]
    refine (expected_not_preempted ?_).trans hold
    intro he
    exact absurd he (h.inv.other_core hcore hj hji)

theorem frame_preempted {p' : ProcPtr} (h : FrameInv s tr) (hcore : s.corelist[i]? = some core)
    (hp : core.runningProcess = some p) (ht : (s.proc p).runningThread = some t)
    (hoff : (s.thread t).startup = false) (hs : Preempted s i core p t tf s')
    (hp' : Cyclic.advance core.processq p = some p') (hu : (s'.proc p').runningThread = some u) :
    FrameInv s' (.yielded core.lapicId tf u :: tr) := by
  have hmem := List.mem_of_getElem? hcore
  have hinv := inv_preempt h.inv hcore hp ht hoff hs
  have hp'q := Cyclic.advance_mem hp'
  have hp'm := mem_processes hmem hp'q
  have huq : u ∈ (s.proc p').threadq := by
    rw [← hs.threadq]
    exact hinv.runningThread_mem (hs.processes hcore ▸ hp'm) hu
  refine ⟨hinv, ?_, ?_, ?_, ?_, ?_⟩
  · intro c hc q v hq hv
    obtain ⟨j, hj⟩ := List.mem_iff_getElem?.mp hc
    rcases hs.look hcore hj with ⟨-, rfl⟩ | ⟨hji, hold⟩
    · -- the core itself: its cursor is at `p'`, whose running thread is loaded
      have hqp : some q = some p' := hq.symm.trans hp'
      rw [Option.some.injEq] at hqp
      subst hqp
      rw [hu, Option.some.injEq] at hv
      subst hv
      have hoff' : (s'.thread u).startup = false := by
        rw [hs.startup]
        exact h.inv.unflagged hmem hp ht hoff hp'q huq
      rw [hoff']
      exact lastLoaded_self
    · exact preempted_running_other h hcore hp hs hold hji hq hv
  · intro c hc hcn
    obtain ⟨j, hj⟩ := List.mem_iff_getElem?.mp hc
    rcases hs.look hcore hj with ⟨-, rfl⟩ | ⟨hji, hold⟩
    · have hnone : Cyclic.advance core.processq p = none := hcn
      rw [hp'] at hnone
      simp at hnone
    · rw [lastLoaded_ne (h.inv.other_core hcore hold hji)]
      exact h.idle c (List.mem_of_getElem? hold) hcn
  · intro c hc q hq v hv
    rw [hs.threadq] at hv
    obtain ⟨j, hj⟩ := List.mem_iff_getElem?.mp hc
    rcases hs.look hcore hj with ⟨-, rfl⟩ | ⟨-, hold⟩
    · exact preempted_frames h hcore hp ht hoff hs hcore hq hv
    · exact preempted_frames h hcore hp ht hoff hs hold hq hv
  · intro id v hv hf
    rcases lastLoaded_cases hv with rfl | hold
    · exact hs.freshThread_of hcore hf p' hp'm huq
    · exact h.loaded id v hold (hs.freshThread_of hcore hf)
  · intro id v hv hf
    rcases lastPreempt_cases hv with hold | hold
    · exact h.preempted id v hold (hs.freshThread_of hcore hf)
    · exact h.loaded id v hold (hs.freshThread_of hcore hf)

end

theorem frame_yield {s s' : Sched} {tr : List SchedEvent} {id : BitVec 32} {tf tf' : Trapframe}
    {u : ThreadPtr} (h : FrameInv s tr) (hs : schedYield s id tf = some (s', u, tf')) :
    FrameInv s' (.yielded id tf u :: tr) := by
  obtain ⟨i, core, p, t, hi, hcore, hp, ht, hcase⟩ := schedYield_cases hs
  rw [← thisCore_some hi hcore]
  rcases hcase with ⟨hstart, rfl, rfl, -⟩ | ⟨hoff, rfl, p', hp', hu, -⟩
  · exact frame_started tf h hcore hp ht hstart
  · exact frame_preempted h hcore hp ht hoff (preempted ..) hp' hu

theorem frame_step {st st' : Sched × List SchedEvent} {op : SchedOp} (h : FrameInv st.1 st.2)
    (hs : tracedStep st op = some st') : FrameInv st'.1 st'.2 := by
  simp only [tracedStep, Option.bind_eq_bind, Option.bind_eq_some_iff, Option.some.injEq] at hs
  obtain ⟨s, hstep, e, hev, rfl⟩ := hs
  cases op with
  | spawn b name entry =>
    obtain ⟨p, pr, t, th, core, core', hcreate, hsp⟩ := spawn_spawned hstep
    simp only [eventOf, hcreate, Option.map_some, Option.some.injEq] at hev
    subst hev
    exact frame_spawned h hsp
  | addThread parent thread stack entry =>
    obtain ⟨t, th, hcreate, hext⟩ := addThread_extended hstep
    simp only [eventOf, hcreate, Option.map_some, Option.some.injEq] at hev
    subst hev
    exact frame_extended h hext
  | yield id tf =>
    obtain ⟨⟨s₁, u, tf'⟩, hy, rfl⟩ := Option.map_eq_some_iff.mp hstep
    simp only [eventOf, hy, Option.map_some, Option.some.injEq] at hev
    subst hev
    exact frame_yield h hy

theorem frame_run {blocks : Nat → CoreBlocks} {resp : SmpResponse} {proc : ProcPtr → Process}
    {thread : ThreadPtr → Thread} {ops : List SchedOp} {st : Sched × List SchedEvent} (hw : resp.Wf)
    (h : Runs.exec tracedStep (schedBoot blocks resp proc thread, []) ops = some st) :
    FrameInv st.1 st.2 :=
  Runs.exec_inv (fun _ _ _ hp hs => frame_step hp hs) (frameInv_boot hw proc thread) h

/-! What one call does, in a state that satisfies the invariant. -/

/-- The frame that is loaded is the one the trace expects. -/
theorem yield_loads {s s' : Sched} {tr : List SchedEvent} {id : BitVec 32} {tf tf' : Trapframe}
    {u : ThreadPtr} (h : FrameInv s tr) (hy : schedYield s id tf = some (s', u, tf')) :
    expected id u (.yielded id tf u :: tr) = some tf' := by
  have hframe := frame_yield h hy
  obtain ⟨i, core, p, t, hi, hcore, hp, ht, hcase⟩ := schedYield_cases hy
  have hid := thisCore_some hi hcore
  obtain ⟨hlen, -⟩ := List.getElem?_eq_some_iff.mp hcore
  -- both branches load the saved frame of `u`, which the invariant speaks of
  -- in the state after the call
  rcases hcase with ⟨-, rfl, rfl, rfl⟩ | ⟨-, rfl, p', hp', hu, rfl⟩
  · obtain ⟨hpq, hpm⟩ := h.inv.running_mem hcore hp
    have := hframe.frames core (List.mem_of_getElem? hcore) p hpq u (h.inv.runningThread_mem hpm ht)
    rw [hid] at this
    rw [this]
    simp [clearStartup]
  · have hmem : { core with runningProcess := Cyclic.advance core.processq p } ∈
        (nextProcess (nextThread (saveFrame s t tf) p t) i core p).corelist := by
      rw [(preempted s i core p t tf).corelist]
      exact List.mem_set hlen _
    have hp'q := Cyclic.advance_mem hp'
    have := hframe.frames _ hmem p' hp'q u (hframe.inv.runningThread_mem (mem_processes hmem hp'q) hu)
    rwa [show ({ core with runningProcess := Cyclic.advance core.processq p } : CpuCore).lapicId = id
      from hid] at this

/-- Only the thread the previous call on the core loaded has its saved frame
    changed. -/
theorem yield_saves {s s' : Sched} {tr : List SchedEvent} {id : BitVec 32} {tf tf' : Trapframe}
    {u v : ThreadPtr} (h : FrameInv s tr) (hy : schedYield s id tf = some (s', u, tf'))
    (hv : (s'.thread v).tf ≠ (s.thread v).tf) : lastLoaded id tr = some v := by
  obtain ⟨i, core, p, t, hi, hcore, hp, ht, hcase⟩ := schedYield_cases hy
  have hlast := h.running core (List.mem_of_getElem? hcore) p t hp ht
  rw [thisCore_some hi hcore] at hlast
  have hvt : v = t := by
    apply Classical.byContradiction
    intro hne
    rcases hcase with ⟨-, rfl, rfl, -⟩ | ⟨-, rfl, -⟩
    · simp [clearStartup, Function.update_of_ne hne] at hv
    · rw [(preempted s i core p t tf).threadOther v hne] at hv
      exact hv rfl
  subst hvt
  rcases hcase with ⟨-, rfl, rfl, -⟩ | ⟨hoff, -, -⟩
  · simp [clearStartup] at hv
  · rw [hlast, hoff]
    simp

/-- The first call on a core takes the startup branch, and only the first. -/
theorem yield_first {s s' : Sched} {tr : List SchedEvent} {id : BitVec 32} {tf tf' : Trapframe}
    {u : ThreadPtr} (h : FrameInv s tr) (hy : schedYield s id tf = some (s', u, tf'))
    (hfirst : lastLoaded id tr = none) :
    (s.thread u).startup = true ∧ (s'.thread u).startup = false ∧
      ∀ v, (s'.thread v).tf = (s.thread v).tf := by
  obtain ⟨i, core, p, t, hi, hcore, hp, ht, hcase⟩ := schedYield_cases hy
  have hlast := h.running core (List.mem_of_getElem? hcore) p t hp ht
  rw [thisCore_some hi hcore, hfirst] at hlast
  have hsame : ∀ v, (s'.thread v).tf = (s.thread v).tf := by
    intro v
    apply Classical.byContradiction
    intro hv
    have := yield_saves h hy hv
    rw [hfirst] at this
    simp at this
  rcases hcase with ⟨hon, rfl, rfl, -⟩ | ⟨hoff, -, -⟩
  · exact ⟨hon, by simp [clearStartup, startup_cleared], hsame⟩
  · rw [hoff] at hlast
    simp at hlast

/-- **No frame is lost or crossed.** After any run, `sched_yield` returns on
    every core that has a process. The frame it writes for `u` is the argument
    of the call that last preempted `u` on the core, or the initial frame of
    `u`. The only saved frame it changes is that of the thread the previous call
    on the core loaded, and the first call, which consumes the startup flag,
    changes none. -/
theorem yield_preserves_frames (blocks : Nat → CoreBlocks) (resp : SmpResponse) (hw : resp.Wf)
    (proc : ProcPtr → Process) (thread : ThreadPtr → Thread) (ops : List SchedOp) (s : Sched)
    (tr : List SchedEvent)
    (h : Runs.exec tracedStep (schedBoot blocks resp proc thread, []) ops = some (s, tr))
    (core : CpuCore) (hc : core ∈ s.corelist) (hq : core.processq ≠ []) (tf : Trapframe) :
    ∃ s' u tf', schedYield s core.lapicId tf = some (s', u, tf') ∧
      expected core.lapicId u (.yielded core.lapicId tf u :: tr) = some tf' ∧
      (∀ v, (s'.thread v).tf ≠ (s.thread v).tf → lastLoaded core.lapicId tr = some v) ∧
      (lastLoaded core.lapicId tr = none →
        (s.thread u).startup = true ∧ (s'.thread u).startup = false ∧
          ∀ v, (s'.thread v).tf = (s.thread v).tf) := by
  have hinv := frame_run hw h
  obtain ⟨⟨s', u, tf'⟩, hy⟩ := Option.isSome_iff_exists.mp (yield_returns hinv.inv.toQueuesOk hc hq tf)
  exact ⟨s', u, tf', hy, yield_loads hinv hy, fun v hv => yield_saves hinv hy hv,
    fun hfirst => yield_first hinv hy hfirst⟩

theorem yield_preserves_frames_startOps :
    ∃ s tr core s' u tf', Runs.exec tracedStep (twoCoresBoot, []) startOps = some (s, tr) ∧
      core ∈ s.corelist ∧ schedYield s core.lapicId Trapframe.zero = some (s', u, tf') ∧
      expected core.lapicId u (.yielded core.lapicId Trapframe.zero u :: tr) = some tf' := by
  have hrun : (Runs.exec tracedStep (twoCoresBoot, []) startOps).any
      (fun st => st.1.corelist.any (fun c => !c.processq.isEmpty)) = true := by decide
  obtain ⟨⟨s, tr⟩, hs, hany⟩ := (Option.any_eq_true _ _).mp hrun
  obtain ⟨core, hc, hq⟩ := List.any_eq_true.mp hany
  obtain ⟨s', u, tf', hy, hloads, -⟩ := yield_preserves_frames _ bspFirst bspFirst_wf _ _ startOps s tr
    hs core hc (by simpa using hq) Trapframe.zero
  exact ⟨s, tr, core, s', u, tf', hs, hc, hy, hloads⟩

end Qnixx
