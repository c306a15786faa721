import Mathlib.Data.List.Nodup
import Mathlib.Logic.Function.Basic
import Qnixx.Lib.Runs
import Qnixx.Process

/- The core list and the start of the application processors
   (`amd64/smp.c`, `sched/sched.h`). `smp_init` fills one descriptor per entry
   of the boot loader's CPU table, in table order, and hands every entry but
   the BSP's the address of `ap_entry`. The APs then run `ap_entry`
   concurrently: `apStep` is one of its three visible steps (take `ap_lock`,
   load the descriptor tables, release `ap_lock`), so a list of table
   positions is an interleaving. What `ap_entry` does to the local APIC
   (`lapic_init`, `lapic_timer_calibrate`) and to CR3 and the IDT touches none
   of this state and is left out, and so are the descriptors that
   `init_core_desc` copies from `g_gdt`, the TSS slot apart. -/
namespace Qnixx

/-- `gdtr_t`. -/
structure Gdtr where
  limit : BitVec 16
  ptr : Nat
  deriving DecidableEq

/-- `cpu_core_t`. The block `gdtr` points to is held by value. -/
structure CpuCore where
  lapicId : BitVec 32
  flags : BitVec 16
  lock : Bool
  gdt : Nat
  gdtr : Gdtr
  tss : Nat
  processq : List ProcPtr
  runningProcess : Option ProcPtr

/-- `limine_smp_info`; `gotoAddress` tells whether `ap_entry` was stored. -/
structure SmpInfo where
  lapicId : BitVec 32
  gotoAddress : Bool
  extraArgument : BitVec 64

/-- `limine_smp_response`; the CPU count is the length of the table. -/
structure SmpResponse where
  bspLapicId : BitVec 32
  cpus : List SmpInfo

/-- The blocks `kmalloc` returns for one core descriptor. -/
structure CoreBlocks where
  gdt : Nat
  tss : Nat

def initCoreDesc (b : CoreBlocks) (lapicId : BitVec 8) : CpuCore :=
  { lapicId := lapicId.setWidth 32
    gdt := b.gdt
    gdtr := { limit := 13 * 8 - 1, ptr := b.gdt }
    lock := false
    flags := 0
    runningProcess := none
    processq := []
    tss := b.tss }

/-- `this_core()` on the processor whose local APIC id is `id`. -/
def thisCore (corelist : List CpuCore) (id : BitVec 32) : Option Nat :=
  corelist.findIdx? (fun c => c.lapicId == id)

/-- The first loop of `smp_init`: one descriptor per table entry. The id is
    passed as a `uint8_t`. -/
def initCorelist (blocks : Nat → CoreBlocks) (cpus : List SmpInfo) : List CpuCore :=
  cpus.mapIdx (fun i c => initCoreDesc (blocks i) (c.lapicId.setWidth 8))

/-- The second loop of `smp_init`; `pml4` is what `vmm_make_pml4` returns. -/
def bootstrapAps (pml4 : Nat → BitVec 64) (resp : SmpResponse) : List SmpInfo :=
  resp.cpus.mapIdx (fun i c =>
    if c.lapicId = resp.bspLapicId then c
    else { c with extraArgument := pml4 i, gotoAddress := true })

/-- Where an AP is in `ap_entry`. -/
inductive ApPc where
  | entry
  | locked
  | loaded
  | halted
  deriving DecidableEq

/-- The state the APs share, and for each table position where its processor
    is and which GDT and TSS it has loaded. `tssSlot g` is the base address in
    descriptor `GDT_TSS` of the GDT at `g`. -/
structure Smp where
  cpus : List SmpInfo
  corelist : List CpuCore
  tssSlot : Nat → Nat
  apLock : Bool
  coreIdx : Nat
  pc : Nat → ApPc
  gdtr : Nat → Option Gdtr
  tr : Nat → Option Nat

/-- After `smp_init`; the TSS slot of each core's GDT is written by
    `write_tss`. -/
def smpInit (blocks : Nat → CoreBlocks) (pml4 : Nat → BitVec 64) (resp : SmpResponse) : Smp :=
  let corelist := initCorelist blocks resp.cpus
  { cpus := bootstrapAps pml4 resp
    corelist := corelist
    tssSlot := corelist.foldl (fun slot c => Function.update slot c.gdt c.tss) (fun _ => 0)
    apLock := false
    coreIdx := 0
    pc := fun _ => .entry
    gdtr := fun _ => none
    tr := fun _ => none }

/-- `mutex_acquire(&ap_lock)` by processor `i`. -/
def Smp.acquire (s : Smp) (i : Nat) : Smp :=
  { s with apLock := true, pc := Function.update s.pc i .locked }

/-- `load_gdt(core.gdtr); load_tss()` by processor `i`: the TSS is the one in
    slot `GDT_TSS` of the GDT just loaded. -/
def Smp.loadTables (s : Smp) (i : Nat) (core : CpuCore) : Smp :=
  { s with
    gdtr := Function.update s.gdtr i (some core.gdtr)
    tr := Function.update s.tr i (some (s.tssSlot core.gdtr.ptr))
    pc := Function.update s.pc i .loaded }

/-- `mutex_release(&ap_lock)` by processor `i`. -/
def Smp.release (s : Smp) (i : Nat) : Smp :=
  { s with apLock := false, pc := Function.update s.pc i .halted }

/-- One step of the processor at table position `i`; `none` while it was not
    sent to `ap_entry`, spins on the lock, or halted. -/
def apStep (s : Smp) (i : Nat) : Option Smp :=
  if (s.cpus[i]?).any (·.gotoAddress) then
    match s.pc i with
    | .entry => if s.apLock then none else some (s.acquire i)
    | .locked => (s.corelist[s.coreIdx]?).map (fun core => s.loadTables i core)
    | .loaded => some (s.release i)
    | .halted => none
  else none

theorem apStep_cases {s t : Smp} {i : Nat} (h : apStep s i = some t) :
    (∃ info, s.cpus[i]? = some info ∧ info.gotoAddress = true) ∧
    ((s.pc i = .entry ∧ s.apLock = false ∧ t = s.acquire i) ∨
     (s.pc i = .locked ∧ ∃ core, s.corelist[s.coreIdx]? = some core ∧ t = s.loadTables i core) ∨
     (s.pc i = .loaded ∧ t = s.release i)) := by
  unfold apStep at h
  split at h
  · next hap =>
    refine ⟨by simpa [Option.any_eq_true] using hap, ?_⟩
    cases hpc : s.pc i with
    | entry =>
      cases hl : s.apLock with
      | true => simp [hpc, hl] at h
      | false =>
        simp only [hpc, hl, Bool.false_eq_true, if_false, Option.some.injEq] at h
        exact .inl ⟨rfl, rfl, h.symm⟩
    | locked =>
      simp only [hpc, Option.map_eq_some_iff] at h
      obtain ⟨core, hcore, rfl⟩ := h
      exact .inr (.inl ⟨rfl, core, hcore, rfl⟩)
    | loaded => simp only [hpc, Option.some.injEq] at h; exact .inr (.inr ⟨rfl, h.symm⟩)
    | halted => simp [hpc] at h
  · simp at h

/-! The core list of `smp_init`. -/

theorem initCorelist_getElem? (blocks : Nat → CoreBlocks) (cpus : List SmpInfo) (i : Nat) :
    (initCorelist blocks cpus)[i]? =
      (cpus[i]?).map (fun c => initCoreDesc (blocks i) (c.lapicId.setWidth 8)) := by
  simp [initCorelist, List.getElem?_mapIdx]

/-- An id below 256 survives the `uint8_t` parameter of `init_core_desc`. -/
theorem lapicId_roundtrip {id : BitVec 32} (h : id.toNat < 256) :
    (id.setWidth 8).setWidth 32 = id := by
  apply BitVec.eq_of_toNat_eq
  simp only [BitVec.toNat_setWidth]
  omega

/-- A CPU table as the boot loader hands it over: no two processors share an
    id, every id fits the xAPIC's 8 bits, the BSP is in the table, and no
    processor was sent anywhere yet. -/
structure SmpResponse.Wf (resp : SmpResponse) : Prop where
  distinct : (resp.cpus.map (·.lapicId)).Nodup
  small : ∀ c ∈ resp.cpus, c.lapicId.toNat < 256
  bsp : ∃ c ∈ resp.cpus, c.lapicId = resp.bspLapicId
  parked : ∀ c ∈ resp.cpus, c.gotoAddress = false

theorem initCorelist_ids {blocks : Nat → CoreBlocks} {resp : SmpResponse} (hw : resp.Wf) :
    (initCorelist blocks resp.cpus).map (·.lapicId) = resp.cpus.map (·.lapicId) := by
  apply List.ext_getElem?
  intro i
  rw [List.getElem?_map, List.getElem?_map, initCorelist_getElem?, Option.map_map]
  cases hc : resp.cpus[i]? with
  | none => rfl
  | some c =>
    have := lapicId_roundtrip (hw.small c (List.mem_of_getElem? hc))
    simp [initCoreDesc, this]

/-- `this_core` finds the one core that has the id. -/
theorem thisCore_eq_some {corelist : List CpuCore} (hd : (corelist.map (·.lapicId)).Nodup) {i : Nat}
    {c : CpuCore} (h : corelist[i]? = some c) : thisCore corelist c.lapicId = some i := by
  obtain ⟨hi, hci⟩ := List.getElem?_eq_some_iff.mp h
  rw [thisCore, List.findIdx?_eq_some_iff_getElem]
  refine ⟨hi, by simp [hci], ?_⟩
  intro j hj
  have hjl : j < (corelist.map (·.lapicId)).length := by rw [List.length_map]; omega
  have hil : i < (corelist.map (·.lapicId)).length := by rw [List.length_map]; exact hi
  have hne : (corelist.map (·.lapicId))[j] ≠ (corelist.map (·.lapicId))[i] := by
    intro heq
    have := (List.Nodup.getElem_inj_iff hd).mp heq
    omega
  simpa [hci] using hne

theorem thisCore_some {corelist : List CpuCore} {id : BitVec 32} {i : Nat} {core : CpuCore}
    (h : thisCore corelist id = some i) (hcore : corelist[i]? = some core) : core.lapicId = id := by
  rw [thisCore, List.findIdx?_eq_some_iff_getElem] at h
  obtain ⟨hi, hid, -⟩ := h
  obtain ⟨-, rfl⟩ := List.getElem?_eq_some_iff.mp hcore
  simpa using hid

/-- Two processors with the BSP first, as most machines list them. -/
def bspFirst : SmpResponse := { bspLapicId := 0, cpus := [⟨0, false, 0⟩, ⟨1, false, 0⟩] }

theorem bspFirst_wf : bspFirst.Wf := ⟨by decide, by decide, by decide, by decide⟩

end Qnixx
