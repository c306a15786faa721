import Qnixx.VmmMap

/- Where the tables are there, `vmm_map_page` and `vmm_unmap_page` write one
   page-table entry. When each table is linked by one entry only, different
   pages have different entries, so a call changes the walk of its own page and
   of no other, and calls for different pages commute. -/
namespace Qnixx
open ByteMem Radix

/-! Page numbers. -/

/-- Bits 12 to 47 of an address. -/
def pageNumber (virt : BitVec 64) : BitVec 36 := virt.extractLsb' 12 36

theorem tableIndex_val (virt : BitVec 64) (shift : Nat) :
    (tableIndex virt shift).val = virt.toNat / 2^shift % 512 := by
  simp only [tableIndex, BitVec.toNat_and, BitVec.toNat_ushiftRight, Nat.shiftRight_eq_div_pow]
  exact Nat.and_two_pow_sub_one_eq_mod _ 9

/-- The four indices are the bits of the page number. -/
theorem pageNumber_eq {virt virt' : BitVec 64} (h : VPage.of virt' = VPage.of virt) :
    pageNumber virt' = pageNumber virt := by
  simp only [VPage.of, VPage.mk.injEq, Fin.ext_iff, tableIndex_val] at h
  apply BitVec.eq_of_toNat_eq
  simp only [pageNumber, BitVec.extractLsb'_toNat, Nat.shiftRight_eq_div_pow]
  omega

/-! One entry written. -/

def VmmOp.virt : VmmOp → BitVec 64
  | .map virt _ _ => virt
  | .unmap virt => virt

/-- The entry a call leaves. -/
def VmmOp.pte : VmmOp → BitVec 64
  | .map _ phys flags => phys ||| flags
  | .unmap _ => 0#64

abbrev VmmOp.page (op : VmmOp) : VPage := VPage.of op.virt

/-- The page table of `virt`, if all the tables on its path are present. -/
def pageTableOf (s : Vm) (pml4 : Frame) (virt : BitVec 64) : Option Frame :=
  tableAt (links s.mem) pml4 (VPage.of virt).path

/-- A map finds all its tables; an unmap makes do with those there are. -/
def TablesThere (s : Vm) (pml4 : Frame) : VmmOp → Prop
  | .map virt _ _ => (pageTableOf s pml4 virt).isSome
  | .unmap _ => True

/-- The entry `i` of a page table written, if there is the table. -/
def Vm.putPte (s : Vm) (table : Option Frame) (i : Index) (value : BitVec 64) : Vm :=
  table.elim s (fun t => s.setEntry t i value)

theorem getPageTable_present {s : Vm} {pml4 t : Frame} {virt : BitVec 64}
    (h : pageTableOf s pml4 virt = some t) (alloc : Bool) :
    getPageTable s pml4 virt alloc = (s, some t) := by
  simp only [pageTableOf, VPage.path, VPage.of, tableAt, Option.bind_eq_some_iff] at h
  obtain ⟨pdpt, h4, pd, h3, pt, h2, hpt⟩ := h
  obtain rfl := Option.some.inj hpt
  simp only [getPageTable, getNextLevel_present h4, getNextLevel_present h3, getNextLevel_present h2]

theorem vmmStep_eq {s : Vm} {pml4 : Frame} {op : VmmOp} (h : TablesThere s pml4 op) :
    vmmStep pml4 s op = some (s.putPte (pageTableOf s pml4 op.virt) op.page.pt op.pte) := by
  cases op with
  | map virt phys flags =>
    obtain ⟨t, ht⟩ := Option.isSome_iff_exists.mp h
    simp only [vmmStep, vmmMapPage, getPageTable_present ht, VmmOp.virt, ht]
    rfl
  | unmap virt =>
    simp only [vmmStep, vmmUnmapPage, getPageTable_lookup, VmmOp.virt, pageTableOf]
    cases tableAt (links s.mem) pml4 (VPage.of virt).path with
    | none => rfl
    | some t => rfl

theorem vmmUnmapPage_eq (s : Vm) (pml4 : Frame) (virt : BitVec 64) :
    vmmUnmapPage s pml4 virt = s.putPte (pageTableOf s pml4 virt) (VPage.of virt).pt 0#64 := by
  have hthere : TablesThere s pml4 (.unmap virt) := trivial
  exact Option.some.inj (vmmStep_eq hthere)

section
variable {s : Vm} {pml4 : Frame}

/-- Writing the entry of a page moves no table. -/
theorem pageTableOf_putPte (h : PageTree s.mem pml4) (virt virt' : BitVec 64) (i : Index)
    (value : BitVec 64) :
    pageTableOf (s.putPte (pageTableOf s pml4 virt) i value) pml4 virt' = pageTableOf s pml4 virt' := by
  cases ht : pageTableOf s pml4 virt with
  | none => rfl
  | some t => exact tableAt_setEntry h ht value _ (VPage.path_le _)

theorem tablesThere_putPte (h : PageTree s.mem pml4) (virt : BitVec 64) (i : Index)
    (value : BitVec 64) (op : VmmOp) :
    TablesThere (s.putPte (pageTableOf s pml4 virt) i value) pml4 op ↔ TablesThere s pml4 op := by
  cases op with
  | map virt' phys flags => rw [TablesThere, TablesThere, pageTableOf_putPte h]
  | unmap virt' => exact Iff.rfl

theorem walk_putPte (h : PageTree s.mem pml4) {op : VmmOp} (hop : TablesThere s pml4 op) (w : VPage) :
    walk (s.putPte (pageTableOf s pml4 op.virt) op.page.pt op.pte).mem pml4 w =
      if w = op.page then .ofPte op.pte else walk s.mem pml4 w := by
  cases op with
  | map virt phys flags =>
    obtain ⟨t, ht⟩ := Option.isSome_iff_exists.mp hop
    simp only [VmmOp.virt, ht]
    exact walk_setEntry h ht (phys ||| flags) w
  | unmap virt =>
    have hwalk := (vmmUnmapPage_walk virt h).2 w
    rw [vmmUnmapPage_eq] at hwalk
    simpa only [VmmOp.pte, VmmOp.page, VmmOp.virt, Walk.ofPte, not_present_zero, if_false] using hwalk

/-- Different pages have different entries. -/
theorem putPte_comm (h : PageTree s.mem pml4) {virt virt' : BitVec 64}
    (hne : VPage.of virt ≠ VPage.of virt') (value value' : BitVec 64) :
    (s.putPte (pageTableOf s pml4 virt) (VPage.of virt).pt value).putPte
        (pageTableOf s pml4 virt') (VPage.of virt').pt value' =
      (s.putPte (pageTableOf s pml4 virt') (VPage.of virt').pt value').putPte
        (pageTableOf s pml4 virt) (VPage.of virt).pt value := by
  cases ht : pageTableOf s pml4 virt with
  | none => rfl
  | some t =>
    cases ht' : pageTableOf s pml4 virt' with
    | none => rfl
    | some t' =>
      have hslot : ¬ (t' = t ∧ (VPage.of virt').pt = (VPage.of virt).pt) := by
        intro heq
        have hpath := h.tree _ _ t (VPage.path_le _) (VPage.path_le _) ht (heq.1 ▸ ht')
        exact hne (VPage.eq_of_path hpath heq.2.symm)
      simp only [Vm.putPte, Option.elim, Vm.setEntry, setEntry,
        store64_comm _ value value' (entryAddr_apart hslot)]

end

/-! Calls as point updates. -/

/-- A call that is a point update: it allocates nothing, changes at most one
    aligned word of memory, and gives the page of `virt` the walk `w` and every
    other page the walk it had. -/
structure PointUpdate (pml4 : Frame) (s s' : Vm) (virt : BitVec 64) (w : Walk) : Prop where
  pmm : s'.pmm = s.pmm
  word : ∃ a : BitVec 64, a.toNat % 8 = 0 ∧ ∀ x, ¬ Inside a 8 x → s'.mem x = s.mem x
  here : walk s'.mem pml4 (VPage.of virt) = w
  others : ∀ virt', pageNumber virt' ≠ pageNumber virt →
    walk s'.mem pml4 (VPage.of virt') = walk s.mem pml4 (VPage.of virt')

theorem entryAddr_mod (t : Frame) (i : Index) : (entryAddr t i).toNat % 8 = 0 := by
  have ht := t.addr_mod
  have ht' := t.addr_lt
  have hi := i.isLt
  rw [entryAddr, BitVec.toNat_add, BitVec.toNat_ofNat]
  omega

section
variable {s : Vm} {pml4 : Frame}

theorem pointUpdate_putPte (h : PageTree s.mem pml4) {op : VmmOp} (hop : TablesThere s pml4 op) :
    PointUpdate pml4 s (s.putPte (pageTableOf s pml4 op.virt) op.page.pt op.pte) op.virt
      (.ofPte op.pte) := by
  refine ⟨?_, ?_, ?_, ?_⟩
  · cases pageTableOf s pml4 op.virt with
    | none => rfl
    | some t => rfl
  · cases pageTableOf s pml4 op.virt with
    | none => exact ⟨0#64, rfl, fun _ _ => rfl⟩
    | some t => exact ⟨_, entryAddr_mod t op.page.pt, fun x hx => store64_outside s.mem op.pte hx⟩
  · rw [walk_putPte h hop, if_pos rfl]
  · intro virt' hne
    rw [walk_putPte h hop, if_neg (fun heq => hne (pageNumber_eq heq))]

theorem vmmStep_comm (h : PageTree s.mem pml4) {op op' : VmmOp} (hop : TablesThere s pml4 op)
    (hop' : TablesThere s pml4 op') (hne : pageNumber op.virt ≠ pageNumber op'.virt) :
    (vmmStep pml4 s op).bind (vmmStep pml4 · op') = (vmmStep pml4 s op').bind (vmmStep pml4 · op) := by
  rw [vmmStep_eq hop, vmmStep_eq hop', Option.bind_some, Option.bind_some,
    vmmStep_eq ((tablesThere_putPte h _ _ _ op').mpr hop'),
    vmmStep_eq ((tablesThere_putPte h _ _ _ op).mpr hop), pageTableOf_putPte h, pageTableOf_putPte h,
    putPte_comm h (fun heq => hne (pageNumber_eq heq))]

theorem vmmMapPage_point (h : PageTree s.mem pml4) {virt flags : BitVec 64}
    (hthere : (pageTableOf s pml4 virt).isSome) (phys : BitVec 64) (hpresent : Present flags) :
    ∃ s', vmmMapPage s pml4 virt phys flags = some s' ∧
      PointUpdate pml4 s s' virt (.page (phys ||| flags)) := by
  have hop : TablesThere s pml4 (.map virt phys flags) := hthere
  have hpoint := pointUpdate_putPte h hop
  simp only [VmmOp.pte, ofPte_map hpresent] at hpoint
  exact ⟨_, vmmStep_eq hop, hpoint⟩

theorem vmmUnmapPage_point (h : PageTree s.mem pml4) (virt : BitVec 64) :
    PointUpdate pml4 s (vmmUnmapPage s pml4 virt) virt .notPresent := by
  have hop : TablesThere s pml4 (.unmap virt) := trivial
  have hpoint := pointUpdate_putPte h hop
  rw [vmmUnmapPage_eq]
  simpa only [VmmOp.pte, VmmOp.page, VmmOp.virt, Walk.ofPte, not_present_zero, if_false] using hpoint

theorem vmmUnmapPage_idem (h : PageTree s.mem pml4) (virt : BitVec 64) :
    vmmUnmapPage (vmmUnmapPage s pml4 virt) pml4 virt = vmmUnmapPage s pml4 virt := by
  rw [vmmUnmapPage_eq s, vmmUnmapPage_eq, pageTableOf_putPte h]
  cases pageTableOf s pml4 virt with
  | none => rfl
  | some t => simp only [Vm.putPte, Option.elim, Vm.setEntry, setEntry, store64_store64]

end

/-- The address in the entry of a mapped page. -/
theorem pteGetAddr_map {phys flags : BitVec 64} (hphys : pteGetAddr phys = phys)
    (hflags : pteGetAddr flags = 0#64) : pteGetAddr (phys ||| flags) = phys := by
  calc pteGetAddr (phys ||| flags)
      = pteGetAddr phys ||| pteGetAddr flags := by
        rw [pteGetAddr, BitVec.and_comm, BitVec.and_or_distrib_left, BitVec.and_comm _ phys,
          BitVec.and_comm _ flags]
        rfl
    _ = phys := by rw [hphys, hflags, BitVec.or_zero]

/-- **Where tables exist, map and unmap are point updates.** In every tree of
    4 KiB pages whose tables are linked by one entry each, and the PML4 by none:
    a map whose tables are there is a point update to `phys | flags`; an unmap is
    a point update to not-present, idempotent, and nothing at all where a table
    is missing; and calls for pages that differ in bits 12 to 47 commute. -/
theorem calls_are_point_updates (s : Vm) (pml4 : Frame)
    (hsmall : ∀ p t i, p.length < 3 → tableAt (links s.mem) pml4 p = some t →
      Present (entry s.mem t i) → ¬ Large (entry s.mem t i))
    (hunshared : Unshared (links s.mem) pml4 3) :
    (∀ virt phys flags, (pageTableOf s pml4 virt).isSome → pteGetAddr phys = phys →
      Present flags → pteGetAddr flags = 0#64 →
      ∃ s', vmmMapPage s pml4 virt phys flags = some s' ∧
        PointUpdate pml4 s s' virt (.page (phys ||| flags)) ∧ pteGetAddr (phys ||| flags) = phys) ∧
    (∀ virt, PointUpdate pml4 s (vmmUnmapPage s pml4 virt) virt .notPresent ∧
      vmmUnmapPage (vmmUnmapPage s pml4 virt) pml4 virt = vmmUnmapPage s pml4 virt ∧
      (pageTableOf s pml4 virt = none → vmmUnmapPage s pml4 virt = s)) ∧
    (∀ op op', TablesThere s pml4 op → TablesThere s pml4 op' →
      pageNumber op.virt ≠ pageNumber op'.virt →
      (vmmStep pml4 s op).bind (vmmStep pml4 · op') =
        (vmmStep pml4 s op').bind (vmmStep pml4 · op)) := by
  have htree : PageTree s.mem pml4 := ⟨tree_of_unshared hunshared, hsmall⟩
  refine ⟨?_, ?_, ?_⟩
  · intro virt phys flags hthere hphys hpresent hflags
    obtain ⟨s', hs', hpoint⟩ := vmmMapPage_point htree hthere phys hpresent
    exact ⟨s', hs', hpoint, pteGetAddr_map hphys hflags⟩
  · intro virt
    refine ⟨vmmUnmapPage_point htree virt, vmmUnmapPage_idem htree virt, ?_⟩
    intro hnone
    rw [vmmUnmapPage_eq, hnone]
    rfl
  · intro op op' hop hop' hne
    exact vmmStep_comm htree hop hop' hne

/-! A machine with one page. -/

/-- The first page is mapped to frame 6. -/
def onePageVm : Vm :=
  (vmmMapPage (emptyVm zeroedMem) (emptyVm zeroedMem).cr3 0 0x6000#64 3#64).getD (emptyVm zeroedMem)

theorem onePageVm_cr3 : onePageVm.cr3 = lowFrame 1 := by decide +kernel

theorem onePageVm_tree : PageTree onePageVm.mem onePageVm.cr3 := by
  have hroot : ∀ i, links zeroedMem (lowFrame 1) i = none := links_zeroedMem _
  have htree : PageTree (emptyVm zeroedMem).mem (lowFrame 1) := pageTree_blank hroot
  have hblank : BlankTables (lowFrame 1) (emptyVm zeroedMem) (.map 0 0x6000#64 3#64) :=
    fun _ _ i hi => absurd hi (not_present_zeroedMem _ i)
  obtain ⟨s', hs', htree', -⟩ := vmmStep_refines htree (allowed_emptyVm hroot).1 hblank
  have hvm : onePageVm = s' := by
    rw [vmmStep] at hs'
    rw [onePageVm, show (emptyVm zeroedMem).cr3 = lowFrame 1 from rfl, hs', Option.getD_some]
  rw [onePageVm_cr3, hvm]
  exact htree'

theorem onePageVm_table : (pageTableOf onePageVm onePageVm.cr3 0x1000#64).isSome := by
  decide +kernel

/-- A second page is mapped in the same page table, and the first is unmapped. -/
theorem calls_are_point_updates_two_pages :
    (∃ s', vmmMapPage onePageVm onePageVm.cr3 0x1000#64 0x7000#64 3#64 = some s' ∧
      PointUpdate onePageVm.cr3 onePageVm s' 0x1000#64 (.page 0x7003#64)) ∧
    PointUpdate onePageVm.cr3 onePageVm (vmmUnmapPage onePageVm onePageVm.cr3 0#64) 0#64 .notPresent := by
  obtain ⟨hmap, hunmap, -⟩ := calls_are_point_updates onePageVm onePageVm.cr3 onePageVm_tree.small
    (unshared_of_tree onePageVm_tree.tree)
  obtain ⟨s', hs', hpoint, -⟩ :=
    hmap 0x1000#64 0x7000#64 3#64 onePageVm_table (by decide) (by decide) (by decide)
  exact ⟨⟨s', hs', hpoint⟩, (hunmap 0#64).1⟩

end Qnixx
