import Qnixx.Smp

/- Which descriptor the application processors load. `ap_entry` reads
   `g_corelist[core_idx]` under `ap_lock`, "protects core_idx", and nothing
   ever advances `core_idx`: every AP loads the GDT and the TSS of entry 0.
   That is its own entry only for an AP that stands first in the CPU table,
   so all APs are served right exactly when there is one AP and it is first,
   i.e. when the table has two entries and the BSP is the second. -/
namespace Qnixx

/-- What processor `i` has loaded, if anything, is the GDT and the TSS of the
    descriptor with its own local APIC id. -/
def UsesOwn (s : Smp) (i : Nat) : Prop :=
  ∀ info g, s.cpus[i]? = some info → s.gdtr i = some g →
    ∃ j core, thisCore s.corelist info.lapicId = some j ∧ s.corelist[j]? = some core ∧
      core.lapicId = info.lapicId ∧ g = core.gdtr ∧ s.tr i = some core.tss

/-- No two processors have loaded the same GDT. -/
def NoSharedGdt (s : Smp) : Prop :=
  ∀ i j g h, i ≠ j → s.gdtr i = some g → s.gdtr j = some h → g.ptr ≠ h.ptr

/-! What a run of the APs can reach. -/

/-- The tables of `smp_init` stay as they are, `core_idx` stays 0, and whoever
    has loaded anything is an AP and has loaded entry 0. -/
structure ApInv (s₀ s : Smp) : Prop where
  cpus : s.cpus = s₀.cpus
  corelist : s.corelist = s₀.corelist
  tssSlot : s.tssSlot = s₀.tssSlot
  coreIdx : s.coreIdx = 0
  loaded : ∀ i g, s.gdtr i = some g →
    (∃ info, s₀.cpus[i]? = some info ∧ info.gotoAddress = true) ∧
    ∃ core, s₀.corelist[0]? = some core ∧ g = core.gdtr ∧ s.tr i = some (s₀.tssSlot core.gdtr.ptr)

theorem apStep_inv {s₀ s t : Smp} {i : Nat} (h : ApInv s₀ s) (hs : apStep s i = some t) :
    ApInv s₀ t := by
  obtain ⟨hap, ⟨-, -, rfl⟩ | ⟨-, core, hcore, rfl⟩ | ⟨-, rfl⟩⟩ := apStep_cases hs
  · exact ⟨h.cpus, h.corelist, h.tssSlot, h.coreIdx, h.loaded⟩
  · refine ⟨h.cpus, h.corelist, h.tssSlot, h.coreIdx, ?_⟩
    intro k g hg
    simp only [Smp.loadTables] at hg ⊢
    by_cases hk : k = i
    · -- the processor that loads now
      subst hk
      simp only [Function.update_self, Option.some.injEq] at hg ⊢
      rw [h.coreIdx, h.corelist] at hcore
      rw [h.cpus] at hap
      exact ⟨hap, core, hcore, hg.symm, by rw [h.tssSlot]⟩
    · rw [Function.update_of_ne hk] at hg ⊢
      exact h.loaded k g hg
  · exact ⟨h.cpus, h.corelist, h.tssSlot, h.coreIdx, h.loaded⟩

theorem exec_apInv {s₀ s : Smp} (h0 : s₀.coreIdx = 0) (hg : ∀ i, s₀.gdtr i = none) {order : List Nat}
    (h : Runs.exec apStep s₀ order = some s) : ApInv s₀ s := by
  refine Runs.exec_inv (fun _ _ _ hp hs => apStep_inv hp hs) ?_ h
  refine ⟨rfl, rfl, rfl, h0, ?_⟩
  intro i g hi
  rw [hg i] at hi
  simp at hi

/-! The tables of `smp_init`. -/

theorem foldl_tssSlot_other {l : List CpuCore} (slot : Nat → Nat) {g : Nat} (hg : g ∉ l.map (·.gdt)) :
    l.foldl (fun slot c => Function.update slot c.gdt c.tss) slot g = slot g := by
  induction l generalizing slot with
  | nil => rfl
  | cons e l ih =>
    simp only [List.map_cons, List.mem_cons, not_or] at hg
    rw [List.foldl_cons, ih _ hg.2, Function.update_of_ne hg.1]

/-- The TSS slot of a GDT of the list is the one written last for it. -/
theorem foldl_tssSlot {l : List CpuCore} (slot : Nat → Nat) (hl : (l.map (·.gdt)).Nodup) {c : CpuCore}
    (hc : c ∈ l) : l.foldl (fun slot c => Function.update slot c.gdt c.tss) slot c.gdt = c.tss := by
  induction l generalizing slot with
  | nil => simp at hc
  | cons d l ih =>
    rw [List.map_cons, List.nodup_cons] at hl
    rw [List.foldl_cons]
    rcases List.mem_cons.mp hc with rfl | hc
    · rw [foldl_tssSlot_other _ hl.1, Function.update_self]
    · exact ih _ hl.2 hc

/-- `kmalloc` returns distinct blocks for the GDTs of the table's cores. -/
def GdtBlocksDistinct (blocks : Nat → CoreBlocks) (n : Nat) : Prop :=
  ∀ i j, i < n → j < n → i ≠ j → (blocks i).gdt ≠ (blocks j).gdt

section
variable (blocks : Nat → CoreBlocks) (pml4 : Nat → BitVec 64) {resp : SmpResponse}

theorem smpInit_core {i : Nat} {c : SmpInfo} (hw : resp.Wf) (h : resp.cpus[i]? = some c) :
    ∃ core, (smpInit blocks pml4 resp).corelist[i]? = some core ∧ core.lapicId = c.lapicId ∧
      core.gdtr.ptr = (blocks i).gdt ∧ core.gdt = (blocks i).gdt := by
  refine ⟨initCoreDesc (blocks i) (c.lapicId.setWidth 8), ?_, ?_, rfl, rfl⟩
  · simp [smpInit, initCorelist_getElem?, h]
  · exact lapicId_roundtrip (hw.small c (List.mem_of_getElem? h))

/-- `this_core` on the processor at position `i` is the descriptor at `i`. -/
theorem smpInit_thisCore {i : Nat} {c : SmpInfo} (hw : resp.Wf) (h : resp.cpus[i]? = some c) :
    thisCore (smpInit blocks pml4 resp).corelist c.lapicId = some i := by
  obtain ⟨core, hcore, hid, -, -⟩ := smpInit_core blocks pml4 hw h
  rw [← hid]
  refine thisCore_eq_some ?_ hcore
  show ((initCorelist blocks resp.cpus).map (·.lapicId)).Nodup
  rw [initCorelist_ids hw]
  exact hw.distinct

/-- The TSS slot of a core's GDT holds the core's TSS. -/
theorem smpInit_tssSlot {i : Nat} {core : CpuCore} (hb : GdtBlocksDistinct blocks resp.cpus.length)
    (h : (smpInit blocks pml4 resp).corelist[i]? = some core) :
    (smpInit blocks pml4 resp).tssSlot core.gdt = core.tss := by
  refine foldl_tssSlot _ ?_ (List.mem_of_getElem? h)
  rw [List.nodup_iff_getElem?_ne_getElem?]
  intro i j hij hj
  have hlen : ((initCorelist blocks resp.cpus).map (·.gdt)).length = resp.cpus.length := by
    simp [initCorelist]
  rw [hlen] at hj
  have hi : i < resp.cpus.length := by omega
  simp only [List.getElem?_map, initCorelist_getElem?, List.getElem?_eq_getElem hi,
    List.getElem?_eq_getElem hj, Option.map_some, initCoreDesc]
  intro heq
  exact hb i j hi hj (by omega) (Option.some.inj heq)

/-- The BSP keeps its table entry, every other processor is sent to
    `ap_entry`. -/
theorem smpInit_cpus {i : Nat} {c : SmpInfo} (h : resp.cpus[i]? = some c) :
    (smpInit blocks pml4 resp).cpus[i]? = some (if c.lapicId = resp.bspLapicId then c
      else { c with extraArgument := pml4 i, gotoAddress := true }) := by
  simp [smpInit, bootstrapAps, List.getElem?_mapIdx, h]

/-- The run in which AP `i` comes first: it takes the lock and loads entry 0. -/
theorem exec_first_ap {i : Nat} {c : SmpInfo} {core : CpuCore} (hc : resp.cpus[i]? = some c)
    (hne : c.lapicId ≠ resp.bspLapicId) (h0 : (smpInit blocks pml4 resp).corelist[0]? = some core) :
    Runs.exec apStep (smpInit blocks pml4 resp) [i, i] =
      some (((smpInit blocks pml4 resp).acquire i).loadTables i core) := by
  have hcpu := smpInit_cpus blocks pml4 hc
  rw [if_neg hne] at hcpu
  have first : apStep (smpInit blocks pml4 resp) i = some ((smpInit blocks pml4 resp).acquire i) := by
    unfold apStep
    rw [hcpu]
    rfl
  have second : apStep ((smpInit blocks pml4 resp).acquire i) i =
      some (((smpInit blocks pml4 resp).acquire i).loadTables i core) := by
    have hcpu' : ((smpInit blocks pml4 resp).acquire i).cpus[i]? =
        some { c with extraArgument := pml4 i, gotoAddress := true } := hcpu
    have hpc : ((smpInit blocks pml4 resp).acquire i).pc i = .locked := Function.update_self ..
    have h0' : ((smpInit blocks pml4 resp).acquire i).corelist[((smpInit blocks pml4 resp).acquire i).coreIdx]? =
        some core := h0
    unfold apStep
    simp only [hcpu', hpc, h0', Option.any_some, if_true, Option.map_some]
  exact Runs.exec_cons.mpr ⟨_, first, Runs.exec_cons.mpr ⟨_, second, rfl⟩⟩

/-- An AP that is not first in the table can load a descriptor that is not its
    own. -/
theorem late_ap_not_own {i : Nat} {c : SmpInfo} (hw : resp.Wf)
    (hb : GdtBlocksDistinct blocks resp.cpus.length) (hc : resp.cpus[i]? = some c)
    (hne : c.lapicId ≠ resp.bspLapicId) (hi : i ≠ 0) :
    ∃ s, Runs.exec apStep (smpInit blocks pml4 resp) [i, i] = some s ∧ ¬ UsesOwn s i := by
  obtain ⟨hil, -⟩ := List.getElem?_eq_some_iff.mp hc
  obtain ⟨d, hd⟩ : ∃ d, resp.cpus[0]? = some d := ⟨_, List.getElem?_eq_getElem (by omega)⟩
  obtain ⟨core, h0, -, hptr, -⟩ := smpInit_core blocks pml4 hw hd
  obtain ⟨own, hown, -, hownptr, -⟩ := smpInit_core blocks pml4 hw hc
  refine ⟨_, exec_first_ap blocks pml4 hc hne h0, ?_⟩
  intro huse
  have hcpu := smpInit_cpus blocks pml4 hc
  rw [if_neg hne] at hcpu
  obtain ⟨j, core', hj, hcore', -, hg, -⟩ := huse _ core.gdtr hcpu (Function.update_self ..)
  have hthis : thisCore (smpInit blocks pml4 resp).corelist c.lapicId = some j := hj
  rw [smpInit_thisCore blocks pml4 hw hc, Option.some.injEq] at hthis
  rw [← hthis] at hcore'
  have hsame : core' = own := Option.some.inj (hcore'.symm.trans hown)
  have heq : (blocks 0).gdt = (blocks i).gdt := by rw [← hptr, ← hownptr, hg, hsame]
  exact hb 0 i (by omega) hil (fun h => hi h.symm) heq

/-- A table in which only position 0 can be an AP has two entries, the BSP second. -/
theorem two_of_late_bsp (hw : resp.Wf) (h2 : 2 ≤ resp.cpus.length)
    (hlate : ∀ i c, resp.cpus[i]? = some c → i ≠ 0 → c.lapicId = resp.bspLapicId) :
    resp.cpus.length = 2 ∧ (resp.cpus[1]?).map (·.lapicId) = some resp.bspLapicId := by
  obtain ⟨c, hc⟩ : ∃ c, resp.cpus[1]? = some c := ⟨_, List.getElem?_eq_getElem (by omega)⟩
  have hc1 := hlate 1 c hc (by omega)
  refine ⟨?_, by rw [hc, Option.map_some, hc1]⟩
  -- a third entry would be a second BSP
  apply Classical.byContradiction
  intro hlen
  obtain ⟨d, hd⟩ : ∃ d, resp.cpus[2]? = some d := ⟨_, List.getElem?_eq_getElem (by omega)⟩
  have hd1 := hlate 2 d hd (by omega)
  have hne := List.nodup_iff_getElem?_ne_getElem?.mp hw.distinct 1 2 (by omega)
    (by rw [List.length_map]; omega)
  simp [hc, hd, hc1, hd1] at hne

/-- With two entries and the BSP second, only the processor at position 0
    loads tables. -/
theorem loads_only_first (hw : resp.Wf) (hlen : resp.cpus.length = 2)
    (hbsp : (resp.cpus[1]?).map (·.lapicId) = some resp.bspLapicId) {s : Smp}
    (hinv : ApInv (smpInit blocks pml4 resp) s) {i : Nat} {g : Gdtr} (hg : s.gdtr i = some g) : i = 0 := by
  obtain ⟨c, hc, hcbsp⟩ := Option.map_eq_some_iff.mp hbsp
  obtain ⟨⟨info, hinfo, hgo⟩, -⟩ := hinv.loaded i g hg
  apply Classical.byContradiction
  intro hi
  have hil : i < resp.cpus.length := by
    obtain ⟨h, -⟩ := List.getElem?_eq_some_iff.mp hinfo
    simpa [smpInit, bootstrapAps] using h
  have hi1 : i = 1 := by omega
  subst hi1
  rw [smpInit_cpus blocks pml4 hc, if_pos hcbsp, Option.some.injEq] at hinfo
  rw [← hinfo, hw.parked c (List.mem_of_getElem? hc)] at hgo
  simp at hgo

/-- The processor at position 0 loads its own descriptor, if it loads one. -/
theorem first_uses_own (hw : resp.Wf) (hb : GdtBlocksDistinct blocks resp.cpus.length)
    (h0 : 0 < resp.cpus.length) {s : Smp} (hinv : ApInv (smpInit blocks pml4 resp) s) : UsesOwn s 0 := by
  intro info g hinfo hg
  obtain ⟨-, core, hcore, hgc, htr⟩ := hinv.loaded 0 g hg
  obtain ⟨d, hd⟩ : ∃ d, resp.cpus[0]? = some d := ⟨_, List.getElem?_eq_getElem h0⟩
  obtain ⟨core', hcore', hid, hptr, hgdt⟩ := smpInit_core blocks pml4 hw hd
  have hsame : core = core' := Option.some.inj (hcore.symm.trans hcore')
  subst hsame
  have hdi : info.lapicId = d.lapicId := by
    rw [hinv.cpus, smpInit_cpus blocks pml4 hd, Option.some.injEq] at hinfo
    rw [← hinfo]
    split <;> rfl
  refine ⟨0, core, ?_, ?_, ?_, hgc, ?_⟩
  · rw [hinv.corelist, hdi]
    exact smpInit_thisCore blocks pml4 hw hd
  · rw [hinv.corelist]
    exact hcore
  · rw [hid, hdi]
  · rw [htr, hptr, ← hgdt, smpInit_tssSlot blocks pml4 hb hcore]

end

/-- Every AP loads its own descriptor, and no two load the same GDT, in every
    interleaving of the APs, iff the table has two entries and the BSP is the
    second. -/
theorem aps_use_own_iff (blocks : Nat → CoreBlocks) (pml4 : Nat → BitVec 64) (resp : SmpResponse)
    (hw : resp.Wf) (h2 : 2 ≤ resp.cpus.length)
    (hb : GdtBlocksDistinct blocks resp.cpus.length) :
    (∀ order s, Runs.exec apStep (smpInit blocks pml4 resp) order = some s →
      (∀ i, UsesOwn s i) ∧ NoSharedGdt s) ↔
    resp.cpus.length = 2 ∧ (resp.cpus[1]?).map (·.lapicId) = some resp.bspLapicId := by
  refine ⟨?_, ?_⟩
  · intro hall
    apply two_of_late_bsp hw h2
    intro i c hc hi
    apply Classical.byContradiction
    intro hne
    obtain ⟨s, hs, hno⟩ := late_ap_not_own blocks pml4 hw hb hc hne hi
    exact hno ((hall _ s hs).1 i)
  · rintro ⟨hlen, hbsp⟩ order s hs
    have hinv : ApInv (smpInit blocks pml4 resp) s := exec_apInv rfl (fun _ => rfl) hs
    refine ⟨?_, ?_⟩
    · intro i info g hinfo hg
      have hi := loads_only_first blocks pml4 hw hlen hbsp hinv hg
      subst hi
      exact first_uses_own blocks pml4 hw hb (by omega) hinv info g hinfo hg
    · intro i j g h hij hg hh
      have hi := loads_only_first blocks pml4 hw hlen hbsp hinv hg
      have hj := loads_only_first blocks pml4 hw hlen hbsp hinv hh
      exact absurd (hi.trans hj.symm) hij

/-- Two processors with the BSP second. -/
def bspSecond : SmpResponse := { bspLapicId := 1, cpus := [⟨0, false, 0⟩, ⟨1, false, 0⟩] }

/-- One page for each core's blocks. -/
def pageBlocks (i : Nat) : CoreBlocks := { gdt := 4096 * (i + 1), tss := 4096 * (i + 1) + 104 }

theorem pageBlocks_distinct (n : Nat) : GdtBlocksDistinct pageBlocks n := by
  intro i j _ _ hij
  simp only [pageBlocks]
  omega

theorem aps_use_own_bspSecond :
    2 ≤ bspSecond.cpus.length ∧
      ∀ order s, Runs.exec apStep (smpInit pageBlocks (fun _ => 0) bspSecond) order = some s →
        (∀ i, UsesOwn s i) ∧ NoSharedGdt s :=
  ⟨by decide, (aps_use_own_iff pageBlocks (fun _ => 0) bspSecond
    ⟨by decide, by decide, by decide, by decide⟩ (by decide) (pageBlocks_distinct _)).mpr
      ⟨by decide, by decide⟩⟩

/-- With the BSP first, the AP takes the lock and loads the GDT of the BSP's
    descriptor. -/
theorem ap_loads_bsp_descriptor :
    ∃ s, Runs.exec apStep (smpInit pageBlocks (fun _ => 0) bspFirst) [1, 1] = some s ∧
      s.gdtr 1 = some ⟨103, (pageBlocks 0).gdt⟩ ∧ ¬ UsesOwn s 1 := by
  refine ⟨_, rfl, rfl, ?_⟩
  intro h
  obtain ⟨j, core, hj, hcore, -, hg, -⟩ := h ⟨1, true, 0⟩ ⟨103, 4096⟩ rfl rfl
  have hj1 : some 1 = some j := hj
  cases hj1
  cases hcore
  simp [initCoreDesc, pageBlocks] at hg

end Qnixx
