import Qnixx.SchedInv

/- Which thread each call of `sched_yield` loads. A core goes through its run
   queue one process at a time, and a process moves its thread cursor once in
   every turn, when it is preempted. So call `k` on a core with `n` processes
   runs process `k % n`, at the thread its cursor has reached after `k / n`
   turns. Calls on other cores may come in between: they move the cursors of
   other processes only. -/
namespace Qnixx

/-- A sequence of timer interrupts, each with the core it came to and the
    frame it interrupted, and the threads that were loaded. -/
def yields (s : Sched) : List (BitVec 32 × Trapframe) → Option (List (BitVec 32 × ThreadPtr))
  | [] => some []
  | (id, tf) :: calls => do
    let (s, u, _) ← schedYield s id tf
    let loads ← yields s calls
    some ((id, u) :: loads)

/-- The threads one core loaded, in order. -/
def loadsOn (id : BitVec 32) (loads : List (BitVec 32 × ThreadPtr)) : List ThreadPtr :=
  (loads.filter (fun l => l.1 == id)).map (·.2)

/-- The threads of `p` in queue order from its running thread on. -/
def numbered (s : Sched) (p : ProcPtr) : List ThreadPtr :=
  ((s.proc p).runningThread).elim [] (Cyclic.startingAt (s.proc p).threadq)

/-- The thread whose turn is the `k`-th. -/
def turnOf (s : Sched) (core : CpuCore) (k : Nat) : Option ThreadPtr := do
  let p ← core.processq[k % core.processq.length]?
  (numbered s p)[k / core.processq.length % (s.proc p).threadq.length]?

theorem numbered_eq {s : Sched} {p : ProcPtr} (h : ThreadsOk s p) :
    ∃ t ∈ (s.proc p).threadq, (s.proc p).runningThread = some t ∧
      numbered s p = Cyclic.startingAt (s.proc p).threadq t := by
  obtain ⟨t, ht, hrun⟩ := h.running
  exact ⟨t, ht, hrun, by rw [numbered, hrun]; rfl⟩

theorem mem_numbered {s : Sched} {p : ProcPtr} {t : ThreadPtr} (h : ThreadsOk s p) :
    t ∈ numbered s p ↔ t ∈ (s.proc p).threadq := by
  obtain ⟨r, -, -, heq⟩ := numbered_eq h
  rw [heq]
  exact Cyclic.mem_startingAt

theorem numbered_length {s : Sched} {p : ProcPtr} (h : ThreadsOk s p) :
    (numbered s p).length = (s.proc p).threadq.length := by
  obtain ⟨r, -, -, heq⟩ := numbered_eq h
  rw [heq, Cyclic.startingAt_length]

theorem numbered_nodup {s : Sched} {p : ProcPtr} (h : ThreadsOk s p) : (numbered s p).Nodup := by
  obtain ⟨r, -, -, heq⟩ := numbered_eq h
  rw [heq]
  exact Cyclic.startingAt_nodup r h.nodup

/-- Every round of `p` has a number. -/
theorem numbered_lt {s : Sched} {p : ProcPtr} (h : ThreadsOk s p) (k : Nat) :
    k % (s.proc p).threadq.length < (numbered s p).length := by
  obtain ⟨r, hr, -⟩ := h.running
  rw [numbered_length h]
  exact Nat.mod_lt _ (List.length_pos_of_mem hr)

/-- The descriptor after `k` calls. The first call moves no cursor. -/
def CpuCore.afterCalls (core : CpuCore) (k : Nat) : CpuCore :=
  { core with runningProcess := core.processq[(k - 1) % core.processq.length]? }

/-- The core `i` after `k` calls, `core` being its descriptor before the first. -/
structure CoreAt (s₀ : Sched) (i : Nat) (core : CpuCore) (k : Nat) (s : Sched) : Prop where
  queues : QueuesOk s
  cursor : s.corelist[i]? = some (core.afterCalls k)
  threadq : ∀ p ∈ core.processq, (s.proc p).threadq = (s₀.proc p).threadq
  threads : ∀ j p, core.processq[j]? = some p → (s.proc p).runningThread =
    (numbered s₀ p)[Cyclic.turns core.processq.length j (k - 1) % (s₀.proc p).threadq.length]?
  waiting : ∀ p t, core.processq[(k - 1) % core.processq.length]? = some p →
    (s.proc p).runningThread = some t → (s.thread t).startup = decide (k = 0)

section
variable {s₀ s s' : Sched} {i k : Nat} {core : CpuCore} {tf tf' : Trapframe} {u : ThreadPtr}

/-- Nothing has been called yet, and the flag is on the running thread of the
    first process. -/
theorem coreAt_zero (h : QueuesOk s) (hcore : s.corelist[i]? = some core)
    (hrun : core.runningProcess = core.processq.head?)
    (hstart : ∀ p t, core.runningProcess = some p → (s.proc p).runningThread = some t →
      (s.thread t).startup = true) : CoreAt s i core 0 s := by
  have hfirst : core.processq[(0 - 1) % core.processq.length]? = core.runningProcess := by
    rw [hrun, List.head?_eq_getElem?, Nat.zero_sub, Nat.zero_mod]
  refine ⟨h, by rw [CpuCore.afterCalls, hfirst]; exact hcore, fun _ _ => rfl, ?_, ?_⟩
  · intro j p hj
    have hp := mem_processes (List.mem_of_getElem? hcore) (List.mem_of_getElem? hj)
    obtain ⟨t, ht, hrun, hnum⟩ := numbered_eq (h.threads p hp)
    have hzero : Cyclic.turns core.processq.length j (0 - 1) = 0 := by simp [Cyclic.turns]
    rw [hnum, hzero, Nat.zero_mod, Cyclic.startingAt_zero ht, hrun]
  · intro p t hp ht
    rw [hfirst] at hp
    rw [hstart p t hp ht]
    rfl

/-- What the core's own call reads first. -/
theorem coreAt_running (h : CoreAt s₀ i core k s)
    (hy : schedYield s core.lapicId tf = some (s', u, tf')) :
    ∃ p t, core.processq[(k - 1) % core.processq.length]? = some p ∧
      (s.proc p).runningThread = some t ∧
      (((s.thread t).startup = true ∧ u = t ∧ s' = clearStartup s t) ∨
       ((s.thread t).startup = false ∧ Preempted s i (core.afterCalls k) p t tf s' ∧
        ∃ p', Cyclic.advance core.processq p = some p' ∧ (s'.proc p').runningThread = some u)) := by
  obtain ⟨i', core', p, t, hi', hcore', hp, ht, hcase⟩ := schedYield_cases hy
  -- `this_core` finds the descriptor by its id, which no other one has
  have hthis : thisCore s.corelist core.lapicId = some i :=
    thisCore_eq_some (c := core.afterCalls k) h.queues.ids h.cursor
  rw [hthis, Option.some.injEq] at hi'
  subst hi'
  rw [h.cursor, Option.some.injEq] at hcore'
  subst hcore'
  refine ⟨p, t, hp, ht, ?_⟩
  rcases hcase with ⟨hon, hu, hs', -⟩ | ⟨hoff, rfl, p', hp', hu, -⟩
  · exact .inl ⟨hon, hu, hs'⟩
  · exact .inr ⟨hoff, preempted .., p', hp', hu⟩

/-- The first call: no cursor has moved, and none moves. -/
theorem coreAt_first (h : CoreAt s₀ i core 0 s)
    (hy : schedYield s core.lapicId tf = some (s', u, tf')) :
    some u = turnOf s₀ core 0 ∧ CoreAt s₀ i core 1 s' := by
  have hqueues := queues_yield h.queues hy
  obtain ⟨p, t, hp, ht, hcase⟩ := coreAt_running h hy
  have hthread := h.threads _ p hp
  have hon := h.waiting p t hp ht
  rcases hcase with ⟨-, rfl, rfl⟩ | ⟨hoff, -⟩
  · -- `k - 1` is 0 for `k = 0` and for `k = 1`: only the flag changes
    refine ⟨?_, hqueues, h.cursor, h.threadq, h.threads, ?_⟩
    · simp only [Nat.zero_sub, Nat.zero_mod] at hp hthread
      simp only [turnOf, Nat.zero_mod, hp, Nat.zero_div, Option.bind_eq_bind, Option.bind_some]
      rw [← ht, hthread]
      simp [Cyclic.turns]
    · intro q v hq hv
      have hqp : some q = some p := hq.symm.trans hp
      rw [Option.some.inj hqp] at hv
      have hvu : some v = some u := hv.symm.trans ht
      rw [Option.some.inj hvu]
      simp [clearStartup, startup_cleared]
  · rw [hoff] at hon
    simp at hon

/-- The cursor of the process that ran moves, those of the others stay. -/
theorem coreAt_threads {K : Nat} (h₀ : ∀ p ∈ core.processq, ThreadsOk s₀ p) (hd : core.processq.Nodup)
    (h : CoreAt s₀ i core (K + 1) s) {p : ProcPtr} {t : ThreadPtr}
    (hp : core.processq[K % core.processq.length]? = some p) (ht : (s.proc p).runningThread = some t)
    (hpre : Preempted s i (core.afterCalls (K + 1)) p t tf s')
    {j : Nat} {q : ProcPtr} (hj : core.processq[j]? = some q) : (s'.proc q).runningThread =
      (numbered s₀ q)[Cyclic.turns core.processq.length j (K + 1) % (s₀.proc q).threadq.length]? := by
  have hpq : p ∈ core.processq := List.mem_of_getElem? hp
  have hjn := (List.getElem?_eq_some_iff.mp hj).1
  rw [Cyclic.turns_succ hjn]
  -- place `K % n` is that of the process that ran
  by_cases hjK : j = K % core.processq.length
  · subst hjK
    rw [hp, Option.some.injEq] at hj
    subst hj
    obtain ⟨r, -, -, hnum⟩ := numbered_eq (h₀ p hpq)
    rw [if_pos rfl, hpre.procSelf, h.threadq p hpq, hnum]
    refine Cyclic.advance_startingAt (h₀ p hpq).nodup ?_
    have hthread := h.threads _ p hp
    rw [Nat.add_sub_cancel] at hthread
    rw [← hnum, ← hthread, ht]
  · have hqp : q ≠ p := by
      intro he
      subst he
      exact hjK ((List.getElem?_inj hjn hd).mp (hj.trans hp.symm))
    rw [if_neg hjK, Nat.add_zero, hpre.procOther q hqp]
    exact h.threads j q hj

/-- Any later call: the process that ran moves its cursor and the next one is
    loaded. -/
theorem coreAt_later {K : Nat} (h₀ : ∀ p ∈ core.processq, ThreadsOk s₀ p)
    (hd : core.processq.Nodup) (h : CoreAt s₀ i core (K + 1) s)
    (hy : schedYield s core.lapicId tf = some (s', u, tf')) :
    some u = turnOf s₀ core (K + 1) ∧ CoreAt s₀ i core (K + 2) s' := by
  have hqueues := queues_yield h.queues hy
  obtain ⟨p, t, hp, ht, hcase⟩ := coreAt_running h hy
  have hoff := h.waiting p t hp ht
  have hcur := h.cursor
  rw [Nat.add_sub_cancel] at hp
  rcases hcase with ⟨hon, -⟩ | ⟨-, hpre, p', hp', hu⟩
  · rw [hon] at hoff
    simp at hoff
  have hnext : core.processq[(K + 1) % core.processq.length]? = some p' := by
    rw [← hp', Cyclic.advance_getElem? hd hp, Nat.mod_add_mod]
  have hlen := (List.getElem?_eq_some_iff.mp hcur).1
  have hthreads : ∀ j q, core.processq[j]? = some q → (s'.proc q).runningThread =
      (numbered s₀ q)[Cyclic.turns core.processq.length j (K + 1) % (s₀.proc q).threadq.length]? :=
    fun _ _ hj => coreAt_threads h₀ hd h hp ht hpre hj
  refine ⟨?_, hqueues, ?_, ?_, hthreads, ?_⟩
  · simp only [turnOf, hnext, Option.bind_eq_bind, Option.bind_some]
    rw [← hu, hthreads _ p' hnext, Cyclic.turns_self]
  · rw [hpre.corelist, List.getElem?_set_self hlen]
    show some { core with runningProcess := Cyclic.advance core.processq p } = _
    rw [hp', ← hnext]
    rfl
  · intro q hq
    rw [hpre.threadq]
    exact h.threadq q hq
  · intro q v hq hv
    have hqm := List.mem_of_getElem? hq
    have hmem : ∃ c ∈ s'.corelist, q ∈ c.processq := by
      rw [hpre.corelist]
      exact ⟨_, List.mem_set hlen _, hqm⟩
    obtain ⟨c, hc, hqc⟩ := hmem
    have hvm : v ∈ (s.proc q).threadq := by
      rw [← hpre.threadq]
      exact hqueues.runningThread_mem (mem_processes hc hqc) hv
    rw [hpre.startup, h.queues.unflagged (List.mem_of_getElem? hcur) hp ht hoff hqm hvm]
    rfl

/-- A call on another core leaves this one alone. -/
theorem coreAt_other {id : BitVec 32} (h : CoreAt s₀ i core k s) (hid : id ≠ core.lapicId)
    (hy : schedYield s id tf = some (s', u, tf')) : CoreAt s₀ i core k s' := by
  have hqueues := queues_yield h.queues hy
  obtain ⟨j, core', p, t, hj, hcore', hp, ht, hcase⟩ := schedYield_cases hy
  have hji : i ≠ j := by
    intro he
    subst he
    exact hid (thisCore_some hj h.cursor).symm
  obtain ⟨hpq, hpm⟩ := h.queues.running_mem hcore' hp
  have htm := h.queues.runningThread_mem hpm ht
  have hne : ∀ q ∈ core.processq, q ≠ p := by
    intro q hq he
    subst he
    exact hji (h.queues.core_unique h.cursor hcore' hq hpq)
  have hrun : ∀ q v, q ∈ core.processq → (s.proc q).runningThread = some v → v ≠ t := by
    intro q v hq hv
    have hqm := mem_processes (List.mem_of_getElem? h.cursor) hq
    exact h.queues.other_thread hcore' h.cursor hji hpq hq htm (h.queues.runningThread_mem hqm hv)
  rcases hcase with ⟨-, -, rfl, -⟩ | ⟨-, hs', -⟩
  · refine ⟨hqueues, h.cursor, h.threadq, h.threads, ?_⟩
    intro q v hq hv
    have hvt := hrun q v (List.mem_of_getElem? hq) hv
    simpa [clearStartup, Function.update_of_ne hvt] using h.waiting q v hq hv
  · have hpre := preempted s j core' p t tf
    rw [← hs'] at hpre
    refine ⟨hqueues, ?_, ?_, ?_, ?_⟩
    · rw [hpre.corelist, List.getElem?_set_ne hji.symm]
      exact h.cursor
    · intro q hq
      rw [hpre.threadq]
      exact h.threadq q hq
    · intro l q hl
      rw [hpre.procOther q (hne q (List.mem_of_getElem? hl))]
      exact h.threads l q hl
    · intro q v hq hv
      rw [hpre.procOther q (hne q (List.mem_of_getElem? hq))] at hv
      rw [hpre.startup]
      exact h.waiting q v hq hv

/-- Every thread a core loads is the one whose turn it is, whatever the other
    cores do. -/
theorem loads_turns (h₀ : ∀ p ∈ core.processq, ThreadsOk s₀ p) (hd : core.processq.Nodup)
    {calls : List (BitVec 32 × Trapframe)} {s : Sched} {k : Nat} {loads : List (BitVec 32 × ThreadPtr)}
    (h : CoreAt s₀ i core k s) (hy : yields s calls = some loads) :
    ∀ j < (loadsOn core.lapicId loads).length,
      (loadsOn core.lapicId loads)[j]? = turnOf s₀ core (k + j) := by
  -- by induction on the calls; `k` counts those on this core
  induction calls generalizing s k loads with
  | nil =>
    intro j hj
    simp only [yields, Option.some.injEq] at hy
    subst hy
    simp [loadsOn] at hj
  | cons call calls ih =>
    obtain ⟨id, tf⟩ := call
    intro j hj
    simp only [yields, Option.bind_eq_bind, Option.bind_eq_some_iff, Option.some.injEq] at hy
    obtain ⟨⟨s', u, tf'⟩, hcall, rest, hrest, rfl⟩ := hy
    by_cases hid : id = core.lapicId
    · subst hid
      have hstep : some u = turnOf s₀ core k ∧ CoreAt s₀ i core (k + 1) s' := by
        cases k with
        | zero => exact coreAt_first h hcall
        | succ K => exact coreAt_later h₀ hd h hcall
      have hcons : loadsOn core.lapicId ((core.lapicId, u) :: rest) =
          u :: loadsOn core.lapicId rest := by simp [loadsOn]
      rw [hcons] at hj ⊢
      cases j with
      | zero => exact hstep.1
      | succ j =>
        rw [List.getElem?_cons_succ, ih hstep.2 hrest j (by simpa using hj)]
        congr 1
        omega
    · have hcons : loadsOn core.lapicId ((id, u) :: rest) = loadsOn core.lapicId rest := by
        simp [loadsOn, hid]
      rw [hcons] at hj ⊢
      exact ih (coreAt_other h hid hcall) hrest j hj

end

/-- The core with this id has a process. -/
def HasProcess (s : Sched) (id : BitVec 32) : Prop :=
  ∃ core ∈ s.corelist, core.lapicId = id ∧ core.processq ≠ []

theorem hasProcess_yield {s s' : Sched} {id id' : BitVec 32} {tf tf' : Trapframe} {u : ThreadPtr}
    (hy : schedYield s id tf = some (s', u, tf')) (h : HasProcess s id') : HasProcess s' id' := by
  obtain ⟨c, hc, hid, hq⟩ := h
  obtain ⟨i, core, p, t, -, hcore, -, -, ⟨-, -, rfl, -⟩ | ⟨-, rfl, -⟩⟩ := schedYield_cases hy
  · exact ⟨c, hc, hid, hq⟩
  · have hpre := preempted s i core p t tf
    obtain ⟨j, hj⟩ := List.mem_iff_getElem?.mp hc
    by_cases hij : i = j
    · subst hij
      rw [hcore, Option.some.injEq] at hj
      subst hj
      refine ⟨{ core with runningProcess := Cyclic.advance core.processq p }, ?_, hid, hq⟩
      rw [hpre.corelist]
      exact List.mem_set (List.getElem?_eq_some_iff.mp hcore).1 _
    · refine ⟨c, ?_, hid, hq⟩
      rw [hpre.corelist]
      exact List.mem_of_getElem? ((List.getElem?_set_ne hij).trans hj)

/-- Calls on cores that have a process all return. -/
theorem yields_return : ∀ {calls : List (BitVec 32 × Trapframe)} {s : Sched}, QueuesOk s →
    (∀ c ∈ calls, HasProcess s c.1) → ∃ loads, yields s calls = some loads ∧
      loads.map (·.1) = calls.map (·.1)
  | [], s, _, _ => ⟨[], rfl, rfl⟩
  | (id, tf) :: calls, s, h, hcalls => by
    obtain ⟨core, hc, rfl, hq⟩ := hcalls (id, tf) (List.mem_cons_self ..)
    obtain ⟨⟨s', u, tf'⟩, hy⟩ := Option.isSome_iff_exists.mp (yield_returns h hc hq tf)
    obtain ⟨loads, hl, hids⟩ := yields_return (queues_yield h hy)
      (fun c hc' => hasProcess_yield hy (hcalls c (List.mem_cons_of_mem _ hc')))
    refine ⟨(core.lapicId, u) :: loads, ?_, ?_⟩
    · simp [yields, hy, hl]
    · simp [hids]

/-! The turns, round by round. -/

section
variable {s : Sched} {core : CpuCore} {k j c : Nat} {p : ProcPtr} {t : ThreadPtr}

/-- The threads of `p` have their turns when `k % n` is the place of `p`. -/
theorem turnOf_process (h : QueuesOk s) (hc : core ∈ s.corelist) (hd : core.processq.Nodup)
    (hj : core.processq[j]? = some p) :
    (∃ t ∈ (s.proc p).threadq, turnOf s core k = some t) ↔ k % core.processq.length = j := by
  have hjn := (List.getElem?_eq_some_iff.mp hj).1
  have hp := List.mem_of_getElem? hj
  have hpos : 0 < core.processq.length := by omega
  refine ⟨?_, ?_⟩
  · intro h
    obtain ⟨t, ht, hturn⟩ := h
    simp only [turnOf, Option.bind_eq_bind, Option.bind_eq_some_iff] at hturn
    obtain ⟨q, hq, hnum⟩ := hturn
    have hqm := mem_processes hc (List.mem_of_getElem? hq)
    have htq := (mem_numbered (h.threads q hqm)).mp (List.mem_of_getElem? hnum)
    -- the thread is in one process only, and the process in one place only
    have hqp := h.thread_unique hqm (mem_processes hc hp) htq ht
    subst hqp
    exact (List.getElem?_inj (Nat.mod_lt _ hpos) hd).mp (hq.trans hj.symm)
  · intro hk
    have hok := h.threads p (mem_processes hc hp)
    have hlt := numbered_lt hok (k / core.processq.length)
    refine ⟨_, (mem_numbered hok).mp (List.getElem_mem hlt), ?_⟩
    rw [turnOf, hk, hj]
    exact List.getElem?_eq_getElem hlt

/-- A thread has its turns when `k` has one remainder modulo `n * m`. -/
theorem turnOf_thread (h : QueuesOk s) (hc : core ∈ s.corelist) (hd : core.processq.Nodup)
    (hj : core.processq[j]? = some p) (ht : (numbered s p)[c]? = some t) :
    turnOf s core k = some t ↔
      k % (core.processq.length * (s.proc p).threadq.length) = j + core.processq.length * c := by
  have hjn := (List.getElem?_eq_some_iff.mp hj).1
  have hpm := mem_processes hc (List.mem_of_getElem? hj)
  have hpos : 0 < core.processq.length := by omega
  have hok := h.threads p hpm
  have htp := (mem_numbered hok).mp (List.mem_of_getElem? ht)
  have hlt := numbered_lt hok (k / core.processq.length)
  -- `k % (n * m)` is `k % n + n * (k / n % m)`
  rw [Nat.mod_mul]
  refine ⟨?_, ?_⟩
  · intro hturn
    have hk := (turnOf_process h hc hd hj).mp ⟨t, htp, hturn⟩
    rw [turnOf, hk, hj] at hturn
    have hround := (List.getElem?_inj hlt (numbered_nodup hok)).mp (hturn.trans ht.symm)
    rw [hk, hround]
  · intro hk
    have hkj : k % core.processq.length = j := by
      have := congrArg (· % core.processq.length) hk
      simpa [Nat.mod_eq_of_lt hjn] using this
    rw [hkj, Nat.add_left_cancel_iff] at hk
    have hround := Nat.eq_of_mul_eq_mul_left hpos hk
    rw [turnOf, hkj, hj, ← ht, ← hround]
    rfl

end

/-- **Two-level round robin.** On a core whose first call is still to come, with
    `n` processes of which `p` has `m` threads: call `k` loads thread number
    `k / n % m` of process number `k % n`, any `n` calls in a row run every
    process once, and any `n * m` calls in a row run every thread of `p` once. -/
theorem round_robin (s : Sched) (h : QueuesOk s) (core : CpuCore) (hc : core ∈ s.corelist)
    (hrun : core.runningProcess = core.processq.head?)
    (hstart : ∀ p t, core.runningProcess = some p → (s.proc p).runningThread = some t →
      (s.thread t).startup = true)
    (calls : List (BitVec 32 × Trapframe)) (hcalls : ∀ c ∈ calls, HasProcess s c.1) :
    ∃ loads, yields s calls = some loads ∧
      (loadsOn core.lapicId loads).length = (calls.filter (fun c => c.1 == core.lapicId)).length ∧
      (∀ k < (loadsOn core.lapicId loads).length,
        (loadsOn core.lapicId loads)[k]? = turnOf s core k) ∧
      (∀ p ∈ core.processq, ∀ a,
        a + core.processq.length ≤ (loadsOn core.lapicId loads).length →
        ∃! k, (a ≤ k ∧ k < a + core.processq.length) ∧
          ∃ t ∈ (s.proc p).threadq, (loadsOn core.lapicId loads)[k]? = some t) ∧
      ∀ p ∈ core.processq, ∀ t ∈ (s.proc p).threadq, ∀ a,
        a + core.processq.length * (s.proc p).threadq.length ≤
          (loadsOn core.lapicId loads).length →
        ∃! k, (a ≤ k ∧ k < a + core.processq.length * (s.proc p).threadq.length) ∧
          (loadsOn core.lapicId loads)[k]? = some t := by
  obtain ⟨i, hcore⟩ := List.mem_iff_getElem?.mp hc
  have hd : core.processq.Nodup := (List.nodup_flatMap.mp h.once).1 core hc
  have h₀ : ∀ p ∈ core.processq, ThreadsOk s p := fun p hp => h.threads p (mem_processes hc hp)
  obtain ⟨loads, hy, hids⟩ := yields_return h hcalls
  have hturns : ∀ k < (loadsOn core.lapicId loads).length,
      (loadsOn core.lapicId loads)[k]? = turnOf s core k := by
    intro k hk
    have := loads_turns h₀ hd (coreAt_zero h hcore hrun hstart) hy k hk
    rwa [Nat.zero_add] at this
  refine ⟨loads, hy, ?_, hturns, ?_, ?_⟩
  · have hfilter := congrArg (fun l => (l.filter (· == core.lapicId)).length) hids
    simpa [loadsOn, List.filter_map, Function.comp_def] using hfilter
  · intro p hp a ha
    obtain ⟨j, hj⟩ := List.mem_iff_getElem?.mp hp
    have hjn := (List.getElem?_eq_some_iff.mp hj).1
    refine (existsUnique_congr ?_).mp (Cyclic.window_unique hjn a)
    intro k
    refine and_congr_right ?_
    intro hk
    rw [hturns k (by omega), turnOf_process h hc hd hj]
  · intro p hp t ht a ha
    obtain ⟨j, hj⟩ := List.mem_iff_getElem?.mp hp
    have hjn := (List.getElem?_eq_some_iff.mp hj).1
    obtain ⟨c, hcm⟩ := List.mem_iff_getElem?.mp ((mem_numbered (h₀ p hp)).mpr ht)
    have hlt : c < (s.proc p).threadq.length := by
      rw [← numbered_length (h₀ p hp)]
      exact (List.getElem?_eq_some_iff.mp hcm).1
    have hr : j + core.processq.length * c < core.processq.length * (s.proc p).threadq.length := by
      have := Nat.mul_le_mul_left core.processq.length hlt
      rw [Nat.mul_succ] at this
      omega
    refine (existsUnique_congr ?_).mp (Cyclic.window_unique hr a)
    intro k
    refine and_congr_right ?_
    intro hk
    rw [hturns k (by omega), turnOf_thread h hc hd hj hcm]

/-- Two cores with a process each; the process of core 0 has two threads. -/
def readyOps : List SchedOp :=
  [.spawn (blocksAt 1 10) [] 0x1000, .addThread 1 (some 11) 0x20000 0x2000,
    .spawn (blocksAt 2 20) [] 0x3000]

/-- Core 0 is interrupted three times, core 1 once. -/
def readyCalls : List (BitVec 32 × Trapframe) :=
  [(0, Trapframe.zero), (1, Trapframe.zero), (0, Trapframe.zero), (0, Trapframe.zero)]

theorem round_robin_ready :
    ∃ s core loads, Runs.exec schedStep twoCoresBoot readyOps = some s ∧ core ∈ s.corelist ∧
      yields s readyCalls = some loads ∧
      ∀ k < (loadsOn core.lapicId loads).length,
        (loadsOn core.lapicId loads)[k]? = turnOf s core k := by
  have hready : (Runs.exec schedStep twoCoresBoot readyOps).any (fun s =>
      s.corelist.any (fun c => c.runningProcess == c.processq.head? &&
        c.runningProcess.all (fun p => (s.proc p).runningThread.all (fun t => (s.thread t).startup))) &&
      readyCalls.all (fun c => s.corelist.any (fun d => d.lapicId == c.1 && !d.processq.isEmpty))) =
      true := by decide
  obtain ⟨s, hs, hok⟩ := (Option.any_eq_true _ _).mp hready
  rw [Bool.and_eq_true] at hok
  obtain ⟨core, hc, hcore⟩ := List.any_eq_true.mp hok.1
  rw [Bool.and_eq_true, beq_iff_eq] at hcore
  have hcalls : ∀ c ∈ readyCalls, HasProcess s c.1 := by
    intro c hcm
    obtain ⟨d, hd, hdq⟩ := List.any_eq_true.mp (List.all_eq_true.mp hok.2 c hcm)
    exact ⟨d, hd, by simpa using hdq⟩
  have hstart : ∀ p t, core.runningProcess = some p → (s.proc p).runningThread = some t →
      (s.thread t).startup = true := by
    intro p t hp ht
    have hflag := hcore.2
    simpa [hp, ht] using hflag
  have hinv := inv_run bspFirst_wf hs
  obtain ⟨loads, hy, -, hturns, -⟩ :=
    round_robin s hinv.toQueuesOk core hc hcore.1 hstart readyCalls hcalls
  exact ⟨s, core, loads, hs, hc, hy, hturns⟩

end Qnixx
