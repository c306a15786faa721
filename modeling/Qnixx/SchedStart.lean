import Qnixx.ApBoot
import Qnixx.SchedInv

/- The start of the scheduler on the BSP (`sched_start`). The process is put
   on the core under `sched_core`'s cursor, which is the first of the table;
   the timer is armed on the core `this_core` finds, which is the BSP. -/
namespace Qnixx

/-- `"idle"`. -/
def idleName : List (BitVec 8) := [0x69, 0x64, 0x6c, 0x65]

/-- `sched_start` up to `sched_begin_timer`; `thread` and `stack` are what
    `kmalloc` returns for the second thread. -/
def schedStart (s : Sched) (b : ProcessBlocks) (thread : Option ThreadPtr)
    (stack idle testFunc : BitVec 64) : Option Sched := do
  let s ← schedStep s (.spawn b idleName idle)
  let p ← b.proc
  schedStep s (.addThread p thread stack testFunc)

/-- What the processor with APIC id `id` needs before its timer fires:
    `this_core()` has a process, and `sched_yield` returns. -/
structure HasWork (s : Sched) (id : BitVec 32) : Prop where
  running : ∃ i core, thisCore s.corelist id = some i ∧ s.corelist[i]? = some core ∧
    core.runningProcess ≠ none
  yields : ∀ tf, (schedYield s id tf).isSome

section
variable {blocks : Nat → CoreBlocks} {resp : SmpResponse} {proc : ProcPtr → Process}
  {thr : ThreadPtr → Thread} {b : ProcessBlocks} {thread : Option ThreadPtr}
  {stack idle testFunc : BitVec 64} {s : Sched}

/-- After `sched_start` the first core has the new process and the others are
    idle. -/
theorem schedStart_corelist
    (hs : schedStart (schedBoot blocks resp proc thr) b thread stack idle testFunc = some s) :
    ∃ core core' p, (initCorelist blocks resp.cpus)[0]? = some core ∧
      s.corelist = (initCorelist blocks resp.cpus).set 0 core' ∧ core'.lapicId = core.lapicId ∧
      core'.processq = [p] ∧ core'.runningProcess = some p := by
  simp only [schedStart, Option.bind_eq_bind, Option.bind_eq_some_iff] at hs
  obtain ⟨s₁, hspawn, q, -, hadd⟩ := hs
  obtain ⟨p, pr, t, th, core, core', -, hsp⟩ := spawn_spawned hspawn
  obtain ⟨t', th', -, hext⟩ := addThread_extended hadd
  obtain ⟨hidle, hempty⟩ := schedBoot_idle (List.mem_of_getElem? hsp.old)
  refine ⟨core, core', p, hsp.old, hext.corelist.trans hsp.corelist, hsp.lapicId, ?_, ?_⟩
  · rw [hsp.processq, hempty, List.nil_append]
  · rcases hsp.runningProcess with ⟨-, hr, -⟩ | ⟨hbusy, -⟩
    · exact hr
    · exact absurd hidle hbusy

theorem inv_schedStart (hw : resp.Wf)
    (hs : schedStart (schedBoot blocks resp proc thr) b thread stack idle testFunc = some s) :
    SchedInv s := by
  simp only [schedStart, Option.bind_eq_bind, Option.bind_eq_some_iff] at hs
  obtain ⟨s₁, hspawn, q, -, hadd⟩ := hs
  exact inv_step (inv_step (inv_boot blocks hw proc thr) hspawn) hadd

end

/-- **The armed core has work iff the BSP is first.** For every CPU table,
    `this_core()` on the BSP has a process after `sched_start` and the first
    `sched_yield` there returns exactly when the table lists the BSP first. -/
theorem bsp_has_work_iff (blocks : Nat → CoreBlocks) (resp : SmpResponse) (hw : resp.Wf)
    (proc : ProcPtr → Process) (thr : ThreadPtr → Thread) (b : ProcessBlocks)
    (thread : Option ThreadPtr) (stack idle testFunc : BitVec 64) (s : Sched)
    (hs : schedStart (schedBoot blocks resp proc thr) b thread stack idle testFunc = some s) :
    HasWork s resp.bspLapicId ↔ (resp.cpus[0]?).map (·.lapicId) = some resp.bspLapicId := by
  obtain ⟨core, core', p, hcore, hlist, hid, hq, hrun⟩ := schedStart_corelist hs
  obtain ⟨hlen, -⟩ := List.getElem?_eq_some_iff.mp hcore
  have hfirst : (resp.cpus[0]?).map (·.lapicId) = some core'.lapicId := by
    rw [← List.getElem?_map, ← @initCorelist_ids blocks resp hw, List.getElem?_map, hcore, hid]
    rfl
  rw [hfirst, Option.some.injEq]
  have hget : s.corelist[0]? = some core' := by rw [hlist, List.getElem?_set_self hlen]
  refine ⟨?_, ?_⟩
  · intro h
    obtain ⟨⟨i, c, hthis, hc, hbusy⟩, -⟩ := h
    -- only the core at position 0 is not idle
    have hi : i = 0 := by
      apply Classical.byContradiction
      intro hi
      rw [hlist, List.getElem?_set_ne (fun h => hi h.symm)] at hc
      exact hbusy (@schedBoot_idle blocks resp proc thr c (List.mem_of_getElem? hc)).1
    subst hi
    exact thisCore_some hthis hget
  · intro hbsp
    have hinv := inv_schedStart hw hs
    rw [← hbsp]
    refine ⟨⟨0, core', thisCore_eq_some hinv.ids hget, hget, by simp [hrun]⟩, ?_⟩
    intro tf
    exact yield_returns hinv.toQueuesOk (List.mem_of_getElem? hget) (by simp [hq]) tf

/-- `sched_start` on a heap with nothing in it. -/
def startOn (resp : SmpResponse) : Option Sched :=
  schedStart (schedBoot pageBlocks resp (fun _ => blankProcess) (fun _ => blankThread))
    (blocksAt 1 10) (some 11) 0x20000 0x1000 0x2000

theorem bsp_has_work_bspFirst : ∃ s, startOn bspFirst = some s ∧ HasWork s 0 := by
  obtain ⟨s, hs⟩ : ∃ s, startOn bspFirst = some s := Option.isSome_iff_exists.mp (by decide)
  exact ⟨s, hs, (bsp_has_work_iff _ bspFirst bspFirst_wf _ _ _ _ _ _ _ s hs).mpr (by decide)⟩

/-- With the BSP second its descriptor has no process, and the timer's
    `sched_yield` dereferences NULL. -/
theorem bspSecond_has_no_work :
    bspSecond.Wf ∧ ∃ s core, startOn bspSecond = some s ∧ thisCore s.corelist 1 = some 1 ∧
      s.corelist[1]? = some core ∧ core.runningProcess = none ∧
      schedYield s 1 Trapframe.zero = none ∧ ¬ HasWork s 1 := by
  refine ⟨⟨by decide, by decide, by decide, by decide⟩, _, _, rfl, ?_, rfl, ?_, ?_, ?_⟩
  · decide
  · rfl
  · rfl
  · intro h
    have := h.yields Trapframe.zero
    revert this
    decide

end Qnixx
