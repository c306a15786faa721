import Mathlib.Data.List.Perm.Basic
import Qnixx.Sched

/- The scheduler's representation invariant and its consequences: every
   process is in one run queue once and the queues are balanced, `running_process`
   and `running_thread` point into their queues, `thread_count` counts, and the
   startup flag is on the thread a core has not started yet. `SchedInv` says
   it for one state; each operation preserves it. -/
namespace Qnixx

/-! Writing one entry of a list of queues. -/

section
variable {α β : Type}

theorem flatMap_set_same {f : α → List β} : ∀ {l : List α} {i : Nat} {c c' : α}, l[i]? = some c →
    f c' = f c → (l.set i c').flatMap f = l.flatMap f
  | [], i, c, c', h, _ => by simp at h
  | x :: l, 0, c, c', h, hf => by
    simp only [List.getElem?_cons_zero, Option.some.injEq] at h
    simp [hf, h]
  | x :: l, i + 1, c, c', h, hf => by
    rw [List.getElem?_cons_succ] at h
    simp [flatMap_set_same h hf]

theorem map_set_same {f : α → β} {l : List α} {i : Nat} {c c' : α} (h : l[i]? = some c)
    (hf : f c' = f c) : (l.set i c').map f = l.map f := by
  have hi : i < (l.map f).length := by
    rw [List.length_map]
    exact (List.getElem?_eq_some_iff.mp h).1
  have hval : (l.map f)[i] = f c := by
    rw [List.getElem_map, (List.getElem?_eq_some_iff.mp h).2]
  rw [List.map_set, hf, ← hval, List.set_getElem_self]

/-- Appending one element to one queue adds it to the whole. -/
theorem flatMap_set_snoc {f : α → List β} {b : β} : ∀ {l : List α} {i : Nat} {c c' : α},
    l[i]? = some c → f c' = f c ++ [b] → ((l.set i c').flatMap f).Perm (b :: l.flatMap f)
  | [], i, c, c', h, _ => by simp at h
  | x :: l, 0, c, c', h, hf => by
    simp only [List.getElem?_cons_zero, Option.some.injEq] at h
    subst h
    simp only [List.set_cons_zero, List.flatMap_cons, hf, List.append_assoc]
    exact List.perm_middle
  | x :: l, i + 1, c, c', h, hf => by
    rw [List.getElem?_cons_succ] at h
    simp only [List.set_cons_succ, List.flatMap_cons]
    exact ((flatMap_set_snoc h hf).append_left (f x)).trans List.perm_middle

end

/-- The thread queue of process `p`. -/
structure ThreadsOk (s : Sched) (p : ProcPtr) : Prop where
  nodup : (s.proc p).threadq.Nodup
  running : ∃ t ∈ (s.proc p).threadq, (s.proc p).runningThread = some t
  parent : ∀ t ∈ (s.proc p).threadq, (s.thread t).parent = p
  count : (s.proc p).threadCount = (s.proc p).threadq.length

/-- The queues and the cursors into them. -/
structure QueuesOk (s : Sched) : Prop where
  ids : (s.corelist.map (·.lapicId)).Nodup
  once : s.processes.Nodup
  running : ∀ core ∈ s.corelist, (core.runningProcess = none ∧ core.processq = []) ∨
    ∃ p ∈ core.processq, core.runningProcess = some p
  threads : ∀ p ∈ s.processes, ThreadsOk s p
  startup : ∀ core ∈ s.corelist, ∀ p ∈ core.processq, ∀ t ∈ (s.proc p).threadq,
    (s.thread t).startup = true → core.runningProcess = some p ∧ (s.proc p).runningThread = some t

structure SchedInv (s : Sched) : Prop extends QueuesOk s where
  cursor : s.currentCoreIdx < s.corelist.length
  /-- The cores before the cursor have one process more than the others. -/
  balanced : ∃ q, ∀ i core, s.corelist[i]? = some core →
    core.processq.length = q + (if i < s.currentCoreIdx then 1 else 0)

/-- No two cores have the same APIC id. -/
theorem QueuesOk.id_unique {s : Sched} (h : QueuesOk s) {i j : Nat} {c d : CpuCore}
    (hi : s.corelist[i]? = some c) (hj : s.corelist[j]? = some d) (hid : c.lapicId = d.lapicId) :
    i = j := by
  have := (thisCore_eq_some h.ids hi).symm.trans (hid ▸ thisCore_eq_some h.ids hj)
  exact Option.some.inj this

theorem mem_processes {s : Sched} {core : CpuCore} {p : ProcPtr} (hc : core ∈ s.corelist)
    (hp : p ∈ core.processq) : p ∈ s.processes := List.mem_flatMap.mpr ⟨core, hc, hp⟩

/-- The record at `p` and the records of its threads are all that `ThreadsOk`
    reads. -/
theorem ThreadsOk.congr {s s' : Sched} {p : ProcPtr} (h : ThreadsOk s p) (hp : s'.proc p = s.proc p)
    (ht : ∀ t ∈ (s.proc p).threadq, (s'.thread t).parent = (s.thread t).parent) : ThreadsOk s' p := by
  refine ⟨?_, ?_, ?_, ?_⟩
  · rw [hp]; exact h.nodup
  · rw [hp]; exact h.running
  · intro t hm
    rw [hp] at hm
    rw [ht t hm]
    exact h.parent t hm
  · rw [hp]; exact h.count

/-- A thread belongs to one process. -/
theorem QueuesOk.thread_unique {s : Sched} (h : QueuesOk s) {p q : ProcPtr} {t : ThreadPtr}
    (hp : p ∈ s.processes) (hq : q ∈ s.processes) (htp : t ∈ (s.proc p).threadq)
    (htq : t ∈ (s.proc q).threadq) : p = q := by
  rw [← (h.threads p hp).parent t htp, (h.threads q hq).parent t htq]

theorem QueuesOk.runningThread_mem {s : Sched} (h : QueuesOk s) {p : ProcPtr} {t : ThreadPtr}
    (hp : p ∈ s.processes) (ht : (s.proc p).runningThread = some t) : t ∈ (s.proc p).threadq := by
  obtain ⟨r, hr, hrun⟩ := (h.threads p hp).running
  rw [ht, Option.some.injEq] at hrun
  exact hrun ▸ hr

/-- A process belongs to one core. -/
theorem QueuesOk.core_unique {s : Sched} (h : QueuesOk s) {i j : Nat} {c d : CpuCore} {p : ProcPtr}
    (hi : s.corelist[i]? = some c) (hj : s.corelist[j]? = some d) (hc : p ∈ c.processq)
    (hd : p ∈ d.processq) : i = j := by
  have hpair := (List.nodup_flatMap.mp h.once).2
  obtain ⟨hil, rfl⟩ := List.getElem?_eq_some_iff.mp hi
  obtain ⟨hjl, rfl⟩ := List.getElem?_eq_some_iff.mp hj
  rw [List.pairwise_iff_getElem] at hpair
  rcases Nat.lt_trichotomy i j with hlt | heq | hlt
  · exact absurd hd (hpair i j hil hjl hlt hc)
  · exact heq
  · exact absurd hc (hpair j i hjl hil hlt hd)

/-- The core that runs `sched_yield` is the only one with its id. -/
theorem QueuesOk.other_core {s : Sched} (h : QueuesOk s) {i j : Nat} {core c : CpuCore}
    (hi : s.corelist[i]? = some core) (hj : s.corelist[j]? = some c) (hij : j ≠ i) :
    c.lapicId ≠ core.lapicId := fun e => hij (h.id_unique hj hi e)

/-- Threads of different cores are different. -/
theorem QueuesOk.other_thread {s : Sched} (h : QueuesOk s) {i j : Nat} {core c : CpuCore}
    {p q : ProcPtr} {t v : ThreadPtr} (hi : s.corelist[i]? = some core) (hj : s.corelist[j]? = some c)
    (hij : j ≠ i) (hp : p ∈ core.processq) (hq : q ∈ c.processq) (ht : t ∈ (s.proc p).threadq)
    (hv : v ∈ (s.proc q).threadq) : v ≠ t := by
  intro he
  subst he
  have hqp := h.thread_unique (mem_processes (List.mem_of_getElem? hj) hq)
    (mem_processes (List.mem_of_getElem? hi) hp) hv ht
  subst hqp
  exact hij (h.core_unique hj hi hq hp)

/-! The operations preserve the invariant. -/

/-- At boot no core has a process. -/
theorem schedBoot_idle {blocks : Nat → CoreBlocks} {resp : SmpResponse} {proc : ProcPtr → Process}
    {thread : ThreadPtr → Thread} {core : CpuCore}
    (hc : core ∈ (schedBoot blocks resp proc thread).corelist) :
    core.runningProcess = none ∧ core.processq = [] := by
  obtain ⟨i, hi⟩ := List.mem_iff_getElem?.mp hc
  simp only [schedBoot, initCorelist_getElem?, Option.map_eq_some_iff] at hi
  obtain ⟨c, -, rfl⟩ := hi
  exact ⟨rfl, rfl⟩

theorem inv_boot (blocks : Nat → CoreBlocks) {resp : SmpResponse} (hw : resp.Wf)
    (proc : ProcPtr → Process) (thread : ThreadPtr → Thread) :
    SchedInv (schedBoot blocks resp proc thread) := by
  have hnone : ∀ p, p ∉ (schedBoot blocks resp proc thread).processes := by
    intro p hp
    obtain ⟨core, hc, hpc⟩ := List.mem_flatMap.mp hp
    rw [(schedBoot_idle hc).2] at hpc
    simp at hpc
  refine ⟨⟨?_, ?_, fun core hc => .inl (schedBoot_idle hc), fun p hp => absurd hp (hnone p), ?_⟩, ?_,
    ⟨0, ?_⟩⟩
  · show ((initCorelist blocks resp.cpus).map (·.lapicId)).Nodup
    rw [initCorelist_ids hw]
    exact hw.distinct
  · rw [List.eq_nil_iff_forall_not_mem.mpr hnone]
    exact List.nodup_nil
  · intro core hc p hp
    exact absurd (mem_processes hc hp) (hnone p)
  · obtain ⟨c, hc, -⟩ := hw.bsp
    have := List.length_pos_of_mem hc
    simpa [schedBoot, initCorelist] using this
  · intro i core hi
    rw [(schedBoot_idle (List.mem_of_getElem? hi)).2]
    simp [schedBoot]

theorem Spawned.processes {s s' : Sched} {core core' : CpuCore} {p : ProcPtr} {t : ThreadPtr}
    {th : Thread} (hs : Spawned s core core' p t th s') : s'.processes.Perm (p :: s.processes) := by
  unfold Sched.processes
  rw [hs.corelist]
  exact flatMap_set_snoc hs.old hs.processq

/-- A thread of a queue is not a fresh one. -/
theorem Sched.FreshThread.ne {s : Sched} {t u : ThreadPtr} {q : ProcPtr} (h : s.FreshThread t)
    (hq : q ∈ s.processes) (hu : u ∈ (s.proc q).threadq) : u ≠ t := fun he => h q hq (he ▸ hu)

section
variable {s s' : Sched} {core core' : CpuCore} {p : ProcPtr} {t : ThreadPtr} {th : Thread}

theorem Spawned.look (hs : Spawned s core core' p t th s') {c : CpuCore} (hc : c ∈ s'.corelist) :
    c ∈ s.corelist ∨ c = core' := by
  rw [hs.corelist] at hc
  exact List.mem_or_eq_of_mem_set hc

/-- The processes that were there keep their records. -/
theorem Spawned.proc_old (hs : Spawned s core core' p t th s') {q : ProcPtr} (hq : q ∈ s.processes) :
    s'.proc q = s.proc q := hs.procOther q (fun he => hs.fresh (he ▸ hq))

theorem Spawned.thread_old (hs : Spawned s core core' p t th s') {q : ProcPtr} {u : ThreadPtr}
    (hq : q ∈ s.processes) (hu : u ∈ (s.proc q).threadq) : s'.thread u = s.thread u :=
  hs.threadOther u (hs.freshThread.ne hq hu)

theorem spawned_running (h : SchedInv s) (hs : Spawned s core core' p t th s') :
    (core'.runningProcess = none ∧ core'.processq = []) ∨
      ∃ r ∈ core'.processq, core'.runningProcess = some r := by
  rw [hs.processq]
  rcases hs.runningProcess with ⟨-, hr, -⟩ | ⟨hbusy, hr, -⟩
  · exact .inr ⟨p, by simp, hr⟩
  · rcases h.running core (List.mem_of_getElem? hs.old) with ⟨hnone, -⟩ | ⟨r, hr', hsome⟩
    · exact absurd hnone hbusy
    · exact .inr ⟨r, by simp [hr'], by rw [hr, hsome]⟩

theorem spawned_threads (h : SchedInv s) (hs : Spawned s core core' p t th s') (q : ProcPtr)
    (hq : q ∈ s'.processes) : ThreadsOk s' q := by
  rcases List.mem_cons.mp (hs.processes.mem_iff.mp hq) with rfl | hold
  · refine ⟨?_, ⟨t, ?_, hs.runningThread⟩, ?_, ?_⟩
    · rw [hs.threadq]; simp
    · rw [hs.threadq]; simp
    · intro u hu
      rw [hs.threadq, List.mem_singleton] at hu
      rw [hu, hs.parent]
    · rw [hs.threadq, hs.threadCount]; rfl
  · refine (h.threads q hold).congr (hs.proc_old hold) ?_
    intro u hu
    rw [hs.thread_old hold hu]

/-- A flag of a thread that was there is still that of its core's first thread. -/
theorem spawned_startup_old (h : SchedInv s) (hs : Spawned s core core' p t th s') {d : CpuCore}
    {q : ProcPtr} {u : ThreadPtr} (hd : d ∈ s.corelist) (hq : q ∈ d.processq)
    (hu : u ∈ (s'.proc q).threadq) (hstart : (s'.thread u).startup = true) :
    d.runningProcess = some q ∧ (s'.proc q).runningThread = some u := by
  have hqm := mem_processes hd hq
  rw [hs.proc_old hqm] at hu ⊢
  rw [hs.thread_old hqm hu] at hstart
  exact h.startup d hd q hq u hu hstart

theorem spawned_startup (h : SchedInv s) (hs : Spawned s core core' p t th s') {q : ProcPtr}
    {u : ThreadPtr} (hq : q ∈ core'.processq) (hu : u ∈ (s'.proc q).threadq)
    (hstart : (s'.thread u).startup = true) :
    core'.runningProcess = some q ∧ (s'.proc q).runningThread = some u := by
  rw [hs.processq, List.mem_append, List.mem_singleton] at hq
  rcases hq with hq | rfl
  · -- a core with a flagged thread has a running process, which it keeps
    have hold := spawned_startup_old h hs (List.mem_of_getElem? hs.old) hq hu hstart
    rcases hs.runningProcess with ⟨hnone, -⟩ | ⟨-, hr, -⟩
    · rw [hnone] at hold; simp at hold
    · exact ⟨by rw [hr]; exact hold.1, hold.2⟩
  · rw [hs.threadq, List.mem_singleton] at hu
    subst hu
    rcases hs.runningProcess with ⟨-, hr, -⟩ | ⟨-, -, hoff⟩
    · exact ⟨hr, hs.runningThread⟩
    · rw [hoff] at hstart; simp at hstart

/-- The core under the cursor gets one process more, the others none. -/
theorem Spawned.queue_length (hs : Spawned s core core' p t th s') {i : Nat} {c : CpuCore}
    (hi : s'.corelist[i]? = some c) : ∃ d, s.corelist[i]? = some d ∧
      c.processq.length = d.processq.length + (if i = s.currentCoreIdx then 1 else 0) := by
  rw [hs.corelist] at hi
  by_cases heq : s.currentCoreIdx = i
  · subst heq
    obtain ⟨hk, -⟩ := List.getElem?_eq_some_iff.mp hs.old
    rw [List.getElem?_set_self hk, Option.some.injEq] at hi
    refine ⟨core, hs.old, ?_⟩
    rw [← hi, hs.processq, List.length_append, List.length_singleton, if_pos rfl]
  · rw [List.getElem?_set_ne heq] at hi
    exact ⟨c, hi, by rw [if_neg (fun he => heq he.symm), Nat.add_zero]⟩

theorem spawned_balanced (h : SchedInv s) (hs : Spawned s core core' p t th s') :
    ∃ q, ∀ i c, s'.corelist[i]? = some c →
      c.processq.length = q + (if i < s'.currentCoreIdx then 1 else 0) := by
  obtain ⟨q, hqlen⟩ := h.balanced
  have hk := h.cursor
  -- the cursor wraps when it was at the last core: then every core has one more
  by_cases hlast : s.currentCoreIdx + 1 < s.corelist.length
  · refine ⟨q, ?_⟩
    intro i c hi
    obtain ⟨d, hd, hlen⟩ := hs.queue_length hi
    rw [hlen, hqlen i d hd, hs.idx, Nat.mod_eq_of_lt hlast]
    split <;> split <;> split <;> omega
  · refine ⟨q + 1, ?_⟩
    intro i c hi
    obtain ⟨d, hd, hlen⟩ := hs.queue_length hi
    have hil : i < s.corelist.length := (List.getElem?_eq_some_iff.mp hd).1
    have hwrap : s.currentCoreIdx + 1 = s.corelist.length := by omega
    rw [hlen, hqlen i d hd, hs.idx, hwrap, Nat.mod_self, if_neg (Nat.not_lt_zero i)]
    split <;> split <;> omega

theorem inv_spawned (h : SchedInv s) (hs : Spawned s core core' p t th s') : SchedInv s' := by
  refine ⟨⟨?_, ?_, ?_, spawned_threads h hs, ?_⟩, ?_, spawned_balanced h hs⟩
  · rw [hs.corelist, map_set_same hs.old hs.lapicId]
    exact h.ids
  · exact hs.processes.nodup_iff.mpr (List.nodup_cons.mpr ⟨hs.fresh, h.once⟩)
  · intro c hc
    rcases hs.look hc with hold | rfl
    · exact h.running c hold
    · exact spawned_running h hs
  · intro c hc q hq u hu hstart
    rcases hs.look hc with hold | rfl
    · exact spawned_startup_old h hs hold hq hu hstart
    · exact spawned_startup h hs hq hu hstart
  · rw [hs.corelist, List.length_set, hs.idx]
    exact Nat.mod_lt _ (by have := h.cursor; omega)

end

theorem Extended.processes {s s' : Sched} {parent : ProcPtr} {t : ThreadPtr} {th : Thread}
    (hs : Extended s parent t th s') : s'.processes = s.processes := by
  unfold Sched.processes
  rw [hs.corelist]

section
variable {s s' : Sched} {parent : ProcPtr} {t : ThreadPtr} {th : Thread}

theorem Extended.thread_old (hs : Extended s parent t th s') {q : ProcPtr} {u : ThreadPtr}
    (hq : q ∈ s.processes) (hu : u ∈ (s.proc q).threadq) : s'.thread u = s.thread u :=
  hs.threadOther u (hs.freshThread.ne hq hu)

/-- The parent gets the new thread at the end of its queue and keeps its
    running thread. -/
theorem extended_parent (h : SchedInv s) (hs : Extended s parent t th s')
    (hq : parent ∈ s.processes) : ThreadsOk s' parent := by
  have hok := h.threads parent hq
  obtain ⟨r, hr, hrun⟩ := hok.running
  refine ⟨?_, ⟨r, ?_, ?_⟩, ?_, ?_⟩
  · rw [hs.threadq]
    refine List.Nodup.append hok.nodup (List.nodup_singleton t) ?_
    intro u hu hut
    rw [List.mem_singleton] at hut
    exact hs.freshThread.ne hq hu hut
  · rw [hs.threadq]; exact List.mem_append_left _ hr
  · rw [hs.runningThread, hrun]
  · intro u hu
    rcases hs.mem_threadq hu with hold | ⟨-, rfl⟩
    · rw [hs.thread_old hq hold]; exact hok.parent u hold
    · rw [hs.threadSelf, hs.parent]
  · rw [hs.threadCount, hs.threadq, hok.count, List.length_append, List.length_singleton]

theorem extended_threads (h : SchedInv s) (hs : Extended s parent t th s') (q : ProcPtr)
    (hq : q ∈ s.processes) : ThreadsOk s' q := by
  by_cases hqp : q = parent
  · subst hqp
    exact extended_parent h hs hq
  · refine (h.threads q hq).congr (hs.procOther q hqp) ?_
    intro u hu
    rw [hs.thread_old hq hu]

theorem inv_extended (h : SchedInv s) (hs : Extended s parent t th s') : SchedInv s' := by
  refine ⟨⟨?_, ?_, ?_, ?_, ?_⟩, ?_, ?_⟩
  · rw [hs.corelist]; exact h.ids
  · rw [hs.processes]; exact h.once
  · rw [hs.corelist]; exact h.running
  · rw [hs.processes]; exact extended_threads h hs
  · intro core hc p hp u hu hstart
    rw [hs.corelist] at hc
    rw [hs.runningThread]
    rcases hs.mem_threadq hu with hold | ⟨-, rfl⟩
    · rw [hs.thread_old (mem_processes hc hp) hold] at hstart
      exact h.startup core hc p hp u hold hstart
    · -- the new thread has no flag set
      rw [hs.threadSelf, hs.startup] at hstart
      simp at hstart
  · rw [hs.corelist, hs.idx]; exact h.cursor
  · rw [hs.corelist, hs.idx]; exact h.balanced

end

/-- The first call on a core clears one flag. -/
theorem queues_clearStartup {s : Sched} (h : QueuesOk s) (t : ThreadPtr) :
    QueuesOk (clearStartup s t) := by
  refine ⟨h.ids, h.once, h.running, ?_, ?_⟩
  · intro q hq
    refine (h.threads q hq).congr rfl ?_
    intro u hu
    by_cases hut : u = t
    · subst hut; simp [clearStartup]
    · simp [clearStartup, Function.update_of_ne hut]
  · intro core hc p hp u hu hstart
    by_cases hut : u = t
    · subst hut
      simp [clearStartup, startup_cleared] at hstart
    · simp only [clearStartup, Sched.setThread_thread, Function.update_of_ne hut] at hstart
      exact h.startup core hc p hp u hu hstart

/-- The running process and thread of a core with a process point into their
    queues. -/
theorem QueuesOk.running_mem {s : Sched} (h : QueuesOk s) {i : Nat} {core : CpuCore} {p : ProcPtr}
    (hcore : s.corelist[i]? = some core) (hp : core.runningProcess = some p) :
    p ∈ core.processq ∧ p ∈ s.processes := by
  have hmem := List.mem_of_getElem? hcore
  rcases h.running core hmem with ⟨hnone, -⟩ | ⟨q, hq, hsome⟩
  · rw [hnone] at hp; simp at hp
  · rw [hsome, Option.some.injEq] at hp
    subst hp
    exact ⟨hq, mem_processes hmem hq⟩

/-- Once the running thread of a core has started, no thread of the core has
    the flag. -/
theorem QueuesOk.unflagged {s : Sched} (h : QueuesOk s) {core : CpuCore} {p q : ProcPtr}
    {t u : ThreadPtr} (hc : core ∈ s.corelist) (hp : core.runningProcess = some p)
    (ht : (s.proc p).runningThread = some t) (hoff : (s.thread t).startup = false)
    (hq : q ∈ core.processq) (hu : u ∈ (s.proc q).threadq) : (s.thread u).startup = false := by
  cases hon : (s.thread u).startup with
  | false => rfl
  | true =>
    obtain ⟨hrp, hrt⟩ := h.startup core hc q hq u hu hon
    rw [hp, Option.some.injEq] at hrp
    subst hrp
    rw [ht, Option.some.injEq] at hrt
    subst hrt
    rw [hoff] at hon
    simp at hon

theorem Preempted.processes {s s' : Sched} {i : Nat} {core : CpuCore} {p : ProcPtr} {t : ThreadPtr}
    {tf : Trapframe} (hs : Preempted s i core p t tf s') (hcore : s.corelist[i]? = some core) :
    s'.processes = s.processes := by
  unfold Sched.processes
  rw [hs.corelist]
  exact flatMap_set_same hcore rfl

/-- `next_thread` moves the cursor of one process within its queue. -/
theorem preempted_threads {s s' : Sched} {i : Nat} {core : CpuCore} {p q : ProcPtr} {t : ThreadPtr}
    {tf : Trapframe} (hok : ThreadsOk s q) (hs : Preempted s i core p t tf s') : ThreadsOk s' q := by
  refine ⟨?_, ?_, ?_, ?_⟩
  · rw [hs.threadq]; exact hok.nodup
  · rw [hs.threadq]
    by_cases hqp : q = p
    · subst hqp
      obtain ⟨r, hr, -⟩ := hok.running
      obtain ⟨t', ht'⟩ := Cyclic.advance_isSome t (List.ne_nil_of_mem hr)
      exact ⟨t', Cyclic.advance_mem ht', by rw [hs.procSelf, ht']⟩
    · rw [hs.procOther q hqp]; exact hok.running
  · intro u hu
    rw [hs.threadq] at hu
    rw [hs.parent]
    exact hok.parent u hu
  · rw [hs.threadq, hs.threadCount]; exact hok.count

/-- Any later call saves one frame and moves the cursors of one core and one
    process within their queues. -/
theorem queues_preempt {s s' : Sched} {i : Nat} {core : CpuCore} {p : ProcPtr} {t : ThreadPtr}
    {tf : Trapframe} (h : QueuesOk s) (hcore : s.corelist[i]? = some core)
    (hp : core.runningProcess = some p) (ht : (s.proc p).runningThread = some t)
    (hoff : (s.thread t).startup = false) (hs : Preempted s i core p t tf s') : QueuesOk s' := by
  obtain ⟨hpq, hpm⟩ := h.running_mem hcore hp
  have hprocs := hs.processes hcore
  refine ⟨?_, ?_, ?_, ?_, ?_⟩
  · rw [hs.corelist, map_set_same hcore (by rfl)]; exact h.ids
  · rw [hprocs]; exact h.once
  · intro c hc
    obtain ⟨j, hj⟩ := List.mem_iff_getElem?.mp hc
    rcases hs.look hcore hj with ⟨rfl, rfl⟩ | ⟨-, hold⟩
    · obtain ⟨p', hp'⟩ := Cyclic.advance_isSome p (List.ne_nil_of_mem hpq)
      exact .inr ⟨p', Cyclic.advance_mem hp', hp'⟩
    · exact h.running c (List.mem_of_getElem? hold)
  · intro q hq
    rw [hprocs] at hq
    exact preempted_threads (h.threads q hq) hs
  · intro c hc q hq u hu hstart
    rw [hs.threadq] at hu
    rw [hs.startup] at hstart
    obtain ⟨j, hj⟩ := List.mem_iff_getElem?.mp hc
    rcases hs.look hcore hj with ⟨rfl, rfl⟩ | ⟨hji, hold⟩
    · -- the core is past its first call, and none of its threads is flagged
      rw [h.unflagged (List.mem_of_getElem? hcore) hp ht hoff hq hu] at hstart
      simp at hstart
    · have hqp : q ≠ p := by
        intro he
        subst he
        exact hji (h.core_unique hold hcore hq hpq)
      rw [hs.procOther q hqp]
      exact h.startup c (List.mem_of_getElem? hold) q hq u hu hstart

theorem queues_yield {s s' : Sched} {id : BitVec 32} {tf tf' : Trapframe} {u : ThreadPtr}
    (h : QueuesOk s) (hs : schedYield s id tf = some (s', u, tf')) : QueuesOk s' := by
  obtain ⟨i, core, p, t, -, hcore, hp, ht, ⟨-, -, rfl, -⟩ | ⟨hoff, rfl, -⟩⟩ := schedYield_cases hs
  · exact queues_clearStartup h t
  · exact queues_preempt h hcore hp ht hoff (preempted ..)

/-- On a core that has a process the call returns. -/
theorem yield_returns {s : Sched} (h : QueuesOk s) {core : CpuCore} (hc : core ∈ s.corelist)
    (hq : core.processq ≠ []) (tf : Trapframe) : (schedYield s core.lapicId tf).isSome := by
  obtain ⟨i, hcore⟩ := List.mem_iff_getElem?.mp hc
  have hthis := thisCore_eq_some h.ids hcore
  obtain ⟨hlen, -⟩ := List.getElem?_eq_some_iff.mp hcore
  obtain ⟨p, hpq, hp⟩ : ∃ p ∈ core.processq, core.runningProcess = some p := by
    rcases h.running core hc with ⟨-, hempty⟩ | hsome
    · exact absurd hempty hq
    · exact hsome
  have hpm := mem_processes hc hpq
  obtain ⟨t, -, ht⟩ := (h.threads p hpm).running
  cases hs : (s.thread t).startup with
  | true => simp [schedYield, hthis, hcore, hp, ht, hs]
  | false =>
    -- the process after `p` is on this core too, so its cursor is not NULL
    obtain ⟨p', hp'⟩ := Cyclic.advance_isSome p hq
    have hpre := preempted s i core p t tf
    have hinv := queues_preempt h hcore hp ht hs hpre
    have hmem : { core with runningProcess := Cyclic.advance core.processq p } ∈
        (nextProcess (nextThread (saveFrame s t tf) p t) i core p).corelist := by
      rw [hpre.corelist]
      exact List.mem_set hlen _
    obtain ⟨u, -, hu⟩ :=
      (hinv.threads p' (mem_processes hmem (Cyclic.advance_mem hp'))).running
    have hnew : (nextProcess (nextThread (saveFrame s t tf) p t) i core p).corelist[i]? =
        some { core with runningProcess := some p' } := by
      rw [hpre.corelist, List.getElem?_set_self hlen, hp']
    simp [schedYield, hthis, hcore, hp, ht, hs, hnew, hu]

theorem inv_clearStartup {s : Sched} (h : SchedInv s) (t : ThreadPtr) : SchedInv (clearStartup s t) :=
  ⟨queues_clearStartup h.toQueuesOk t, h.cursor, h.balanced⟩

theorem inv_preempt {s s' : Sched} {i : Nat} {core : CpuCore} {p : ProcPtr} {t : ThreadPtr}
    {tf : Trapframe} (h : SchedInv s) (hcore : s.corelist[i]? = some core)
    (hp : core.runningProcess = some p) (ht : (s.proc p).runningThread = some t)
    (hoff : (s.thread t).startup = false) (hs : Preempted s i core p t tf s') : SchedInv s' := by
  refine ⟨queues_preempt h.toQueuesOk hcore hp ht hoff hs, ?_, ?_⟩
  · rw [hs.corelist, List.length_set, hs.idx]; exact h.cursor
  · obtain ⟨q, hq⟩ := h.balanced
    refine ⟨q, ?_⟩
    intro j c hj
    rw [hs.idx]
    rcases hs.look hcore hj with ⟨rfl, rfl⟩ | ⟨-, hold⟩
    · exact hq j core hcore
    · exact hq j c hold

theorem inv_yield {s s' : Sched} {id : BitVec 32} {tf tf' : Trapframe} {u : ThreadPtr}
    (h : SchedInv s) (hs : schedYield s id tf = some (s', u, tf')) : SchedInv s' := by
  obtain ⟨i, core, p, t, -, hcore, hp, ht, ⟨-, -, rfl, -⟩ | ⟨hoff, rfl, -⟩⟩ := schedYield_cases hs
  · exact inv_clearStartup h t
  · exact inv_preempt h hcore hp ht hoff (preempted ..)

theorem inv_step {s s' : Sched} {op : SchedOp} (h : SchedInv s) (hs : schedStep s op = some s') :
    SchedInv s' := by
  cases op with
  | spawn b name entry =>
    obtain ⟨p, pr, t, th, core, core', -, hsp⟩ := spawn_spawned hs
    exact inv_spawned h hsp
  | addThread parent thread stack entry =>
    obtain ⟨t, th, -, hext⟩ := addThread_extended hs
    exact inv_extended h hext
  | yield id tf =>
    obtain ⟨⟨t, u, tf'⟩, hy, rfl⟩ := Option.map_eq_some_iff.mp hs
    exact inv_yield h hy

/-- The scheduler after any run from boot. -/
theorem inv_run {blocks : Nat → CoreBlocks} {resp : SmpResponse} {proc : ProcPtr → Process}
    {thread : ThreadPtr → Thread} {ops : List SchedOp} {s : Sched} (hw : resp.Wf)
    (h : Runs.exec schedStep (schedBoot blocks resp proc thread) ops = some s) : SchedInv s :=
  Runs.exec_inv (fun _ _ _ hp hs => inv_step hp hs) (inv_boot blocks hw proc thread) h

/-! What the invariant says about the run queues. -/

/-- The processes a list of operations enqueues. -/
def spawned : List SchedOp → List ProcPtr
  | [] => []
  | .spawn b _ _ :: ops => b.proc.toList ++ spawned ops
  | _ :: ops => spawned ops

/-- The run queues hold what was there and what the run enqueued. -/
theorem processes_run {ops : List SchedOp} {s s' : Sched} (h : Runs.exec schedStep s ops = some s') :
    s'.processes.Perm (s.processes ++ spawned ops) := by
  induction ops generalizing s with
  | nil =>
    simp only [Runs.exec, Option.some.injEq] at h
    simp [spawned, h]
  | cons op ops ih =>
    obtain ⟨m, hm, hrest⟩ := Runs.exec_cons.mp h
    have hperm := ih hrest
    cases op with
    | spawn b name entry =>
      obtain ⟨p, pr, t, th, core, core', hcreate, hsp⟩ := spawn_spawned hm
      obtain ⟨hb, -⟩ := createKernelProcess_some hcreate
      have hmid : (p :: s.processes ++ spawned ops).Perm (s.processes ++ ([p] ++ spawned ops)) :=
        List.perm_middle.symm
      simp only [spawned, hb, Option.toList_some]
      exact hperm.trans ((hsp.processes.append_right _).trans hmid)
    | addThread parent thread stack entry =>
      obtain ⟨t, th, -, hext⟩ := addThread_extended hm
      rw [hext.processes] at hperm
      exact hperm
    | yield id tf =>
      obtain ⟨⟨m', u, tf'⟩, hy, rfl⟩ := Option.map_eq_some_iff.mp hm
      obtain ⟨i, core, p, t, -, hcore, -, -, ⟨-, -, rfl, -⟩ | ⟨-, rfl, -⟩⟩ := schedYield_cases hy
      · exact hperm
      · rw [(preempted s i core p t tf).processes hcore] at hperm
        exact hperm

/-- `p` is in the run queue of exactly one core, once. -/
def QueuedOnce (s : Sched) (p : ProcPtr) : Prop :=
  ∃ (i : Nat) (core : CpuCore), s.corelist[i]? = some core ∧ core.processq.count p = 1 ∧
    ∀ (j : Nat) (core' : CpuCore), s.corelist[j]? = some core' → p ∈ core'.processq → j = i

/-- No run queue is longer than another by more than one. -/
def Balanced (s : Sched) : Prop :=
  ∀ c ∈ s.corelist, ∀ d ∈ s.corelist, c.processq.length ≤ d.processq.length + 1

/-- `running_process` is NULL iff the queue is empty and else is in it. -/
def RunningProcessOk (core : CpuCore) : Prop :=
  (core.runningProcess = none ↔ core.processq = []) ∧
    ∀ p, core.runningProcess = some p → p ∈ core.processq

/-- `running_thread` is in the thread queue, whose threads all have `p` as
    parent and are counted by `thread_count`, at least 1. -/
def ThreadQueueOk (s : Sched) (p : ProcPtr) : Prop :=
  (∃ t ∈ (s.proc p).threadq, (s.proc p).runningThread = some t) ∧
    (∀ t ∈ (s.proc p).threadq, (s.thread t).parent = p) ∧
    (s.proc p).threadCount = (s.proc p).threadq.length ∧ 1 ≤ (s.proc p).threadCount

/-- `t` is a thread of a process of the core and has `THREAD_STARTUP` set. -/
def StartsOn (s : Sched) (core : CpuCore) (t : ThreadPtr) : Prop :=
  (∃ p ∈ core.processq, t ∈ (s.proc p).threadq) ∧ (s.thread t).startup = true

/-- At most one thread of the core has the flag, and it is the running thread
    of the running process. -/
def StartupOk (s : Sched) (core : CpuCore) : Prop :=
  (∀ t u, StartsOn s core t → StartsOn s core u → t = u) ∧
    ∀ t, StartsOn s core t → ∃ p, core.runningProcess = some p ∧ (s.proc p).runningThread = some t

theorem SchedInv.queuedOnce {s : Sched} (h : SchedInv s) {p : ProcPtr} (hp : p ∈ s.processes) :
    QueuedOnce s p := by
  obtain ⟨core, hc, hpc⟩ := List.mem_flatMap.mp hp
  obtain ⟨i, hi⟩ := List.mem_iff_getElem?.mp hc
  have hnd : core.processq.Nodup := (List.nodup_flatMap.mp h.once).1 core hc
  exact ⟨i, core, hi, List.count_eq_one_of_mem hnd hpc, fun j d hj hd => h.core_unique hj hi hd hpc⟩

theorem SchedInv.balancedQueues {s : Sched} (h : SchedInv s) : Balanced s := by
  obtain ⟨q, hq⟩ := h.balanced
  intro c hc d hd
  obtain ⟨i, hi⟩ := List.mem_iff_getElem?.mp hc
  obtain ⟨j, hj⟩ := List.mem_iff_getElem?.mp hd
  rw [hq i c hi, hq j d hj]
  split <;> split <;> omega

theorem SchedInv.runningProcessOk {s : Sched} (h : SchedInv s) {core : CpuCore}
    (hc : core ∈ s.corelist) : RunningProcessOk core := by
  rcases h.running core hc with ⟨hnone, hempty⟩ | ⟨p, hp, hsome⟩
  · exact ⟨by simp [hnone, hempty], by simp [hnone]⟩
  · refine ⟨?_, ?_⟩
    · simp [hsome, List.ne_nil_of_mem hp]
    · intro q hq
      rw [hsome, Option.some.injEq] at hq
      exact hq ▸ hp

theorem SchedInv.threadQueueOk {s : Sched} (h : SchedInv s) {p : ProcPtr} (hp : p ∈ s.processes) :
    ThreadQueueOk s p := by
  have hok := h.threads p hp
  obtain ⟨t, ht, -⟩ := hok.running
  refine ⟨hok.running, hok.parent, hok.count, ?_⟩
  rw [hok.count]
  exact List.length_pos_of_mem ht

theorem SchedInv.startupOk {s : Sched} (h : SchedInv s) {core : CpuCore} (hc : core ∈ s.corelist) :
    StartupOk s core := by
  have flagged : ∀ t, StartsOn s core t →
      ∃ p, core.runningProcess = some p ∧ (s.proc p).runningThread = some t := by
    rintro t ⟨⟨p, hp, ht⟩, hs⟩
    exact ⟨p, h.startup core hc p hp t ht hs⟩
  refine ⟨?_, flagged⟩
  intro t u ht hu
  obtain ⟨p, hp, hpt⟩ := flagged t ht
  obtain ⟨q, hq, hqu⟩ := flagged u hu
  rw [hp, Option.some.injEq] at hq
  subst hq
  rw [hpt, Option.some.injEq] at hqu
  exact hqu

/-- **The representation invariant.** After any run from boot, whatever the
    number of cores: every enqueued process is queued once and the queues are
    balanced; the cursors of cores and processes point into their queues;
    `thread_count` counts; and the startup flag marks the one thread a core
    has yet to start. -/
theorem sched_representation (blocks : Nat → CoreBlocks) (resp : SmpResponse) (hw : resp.Wf)
    (proc : ProcPtr → Process) (thread : ThreadPtr → Thread) (ops : List SchedOp) (s : Sched)
    (h : Runs.exec schedStep (schedBoot blocks resp proc thread) ops = some s) :
    (∀ p ∈ spawned ops, QueuedOnce s p) ∧ Balanced s ∧
      (∀ core ∈ s.corelist, RunningProcessOk core) ∧ (∀ p ∈ spawned ops, ThreadQueueOk s p) ∧
      ∀ core ∈ s.corelist, StartupOk s core := by
  have hinv := inv_run hw h
  have hmem : ∀ p ∈ spawned ops, p ∈ s.processes :=
    fun p hp => (processes_run h).mem_iff.mpr (List.mem_append_right _ hp)
  exact ⟨fun p hp => hinv.queuedOnce (hmem p hp), hinv.balancedQueues,
    fun core hc => hinv.runningProcessOk hc, fun p hp => hinv.threadQueueOk (hmem p hp),
    fun core hc => hinv.startupOk hc⟩

/-- A heap before anything is allocated in it. -/
def blankProcess : Process :=
  { name := fun _ => 0, pid := 0, uid := 0, euid := 0, gid := 0, threadq := [],
    runningThread := none, threadCount := 0, vaddrsp := 0 }

def blankThread : Thread := { tf := Trapframe.zero, stackBase := 0, flags := 0, parent := 0 }

/-- Two cores with ids 0 and 1. -/
def twoCoresBoot : Sched :=
  schedBoot (fun i => { gdt := i + 1, tss := 0 }) bspFirst (fun _ => blankProcess) (fun _ => blankThread)

/-- A process at `p` whose main thread is at `t`. -/
def blocksAt (p : ProcPtr) (t : ThreadPtr) : ProcessBlocks :=
  { proc := some p, block := blankProcess, thread := some t, stack := 0x10000, pid := 1, pml4 := 0 }

/-- What `sched_start` does, then a second process and two timer interrupts. -/
def startOps : List SchedOp :=
  [.spawn (blocksAt 1 10) [] 0x1000, .addThread 1 (some 11) 0x20000 0x2000,
    .spawn (blocksAt 2 20) [] 0x3000, .yield 0 Trapframe.zero, .yield 0 Trapframe.zero]

theorem sched_representation_startOps :
    ∃ s, Runs.exec schedStep twoCoresBoot startOps = some s ∧ (∀ p ∈ [1, 2], QueuedOnce s p) ∧
      Balanced s ∧ (∀ core ∈ s.corelist, RunningProcessOk core) ∧
      (∀ p ∈ [1, 2], ThreadQueueOk s p) ∧ ∀ core ∈ s.corelist, StartupOk s core := by
  obtain ⟨s, hs⟩ : ∃ s, Runs.exec schedStep twoCoresBoot startOps = some s :=
    Option.isSome_iff_exists.mp (by decide)
  exact ⟨s, hs, sched_representation _ bspFirst bspFirst_wf _ _ startOps s hs⟩

end Qnixx
