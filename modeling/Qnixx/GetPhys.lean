import Qnixx.Pmm
import Qnixx.VmmPoint

/- `vmm_get_phys`. It walks the tables with the walker of `vmm_map_page`, as
   `vmm_map_page` calls it: a table that is not there is allocated and linked,
   and an entry with the page-size bit is followed like any other. What it
   returns is the frame in the page-table entry, without the offset in the
   page. -/
namespace Qnixx
open ByteMem Radix

/-- `ALIGN_DOWN`. -/
def alignDown (address align : BitVec 64) : BitVec 64 := address &&& ~~~(align - 1)

/-- The state after the call and the address; `none` is a load through NULL. -/
def vmmGetPhys (s : Vm) (virt : BitVec 64) : Option (Vm × BitVec 64) :=
  let virt := alignDown virt 0x1000#64
  match getPageTable s (vmmGetPml4 s) virt true with
  | (_, none) => none
  | (s, some pageTable) => some (s, pteGetAddr (entry s.mem pageTable (tableIndex virt 12)))

/-! Offsets in a page. -/

theorem alignDown_page (virt : BitVec 64) : alignDown virt 0x1000#64 = virt >>> 12 <<< 12 := by
  apply BitVec.eq_of_getLsbD_eq
  intro k hk
  have hmask : ∀ k < 64, (~~~(0x1000#64 - 1)).getLsbD k = decide (12 ≤ k) := by decide
  rw [alignDown, BitVec.getLsbD_and, hmask k hk, BitVec.getLsbD_shiftLeft, BitVec.getLsbD_ushiftRight]
  by_cases h : 12 ≤ k
  · simp [h, hk, show ¬ k < 12 by omega, show 12 + (k - 12) = k by omega]
  · simp [h, show k < 12 by omega]

theorem toNat_alignDown_page (virt : BitVec 64) :
    (alignDown virt 0x1000#64).toNat = virt.toNat / 4096 * 4096 := by
  have hlt := virt.isLt
  calc (alignDown virt 0x1000#64).toNat
      = virt.toNat / 2^12 * 2^12 % 2^64 := by
        rw [alignDown_page, BitVec.toNat_shiftLeft, BitVec.toNat_ushiftRight,
          Nat.shiftRight_eq_div_pow, Nat.shiftLeft_eq]
    _ = virt.toNat / 4096 * 4096 := by omega

/-- The address of a byte and that of its page lead to the same entry. -/
theorem of_alignDown (virt : BitVec 64) : VPage.of (alignDown virt 0x1000#64) = VPage.of virt := by
  simp only [VPage.of, VPage.mk.injEq, Fin.ext_iff, tableIndex_val, toNat_alignDown_page]
  omega

theorem of_add_offset {virt : BitVec 64} (ha : virt.toNat % 4096 = 0) {o : Nat} (ho : o < 4096) :
    VPage.of (virt + BitVec.ofNat 64 o) = VPage.of virt := by
  have hlt := virt.isLt
  have hadd : (virt + BitVec.ofNat 64 o).toNat = virt.toNat + o := by
    rw [BitVec.toNat_add, BitVec.toNat_ofNat]
    omega
  simp only [VPage.of, VPage.mk.injEq, Fin.ext_iff, tableIndex_val, hadd]
  omega

/-! What the lookup returns. -/

section
variable {s : Vm} {virt : BitVec 64}

theorem pageTableOf_alignDown (s : Vm) (pml4 : Frame) (virt : BitVec 64) :
    pageTableOf s pml4 (alignDown virt 0x1000#64) = pageTableOf s pml4 virt := by
  rw [pageTableOf, pageTableOf, of_alignDown]

/-- Where the tables are there, the lookup reads the page-table entry. -/
theorem vmmGetPhys_present {t : Frame} (h : pageTableOf s s.cr3 virt = some t) :
    vmmGetPhys s virt = some (s, pteGetAddr (entry s.mem t (VPage.of virt).pt)) := by
  rw [← pageTableOf_alignDown] at h
  rw [vmmGetPhys, vmmGetPml4]
  simp only [getPageTable_present h]
  rw [← of_alignDown virt]
  rfl

/-- After a page is mapped, the lookup of each of its bytes returns its frame. -/
theorem vmmGetPhys_mapped (h : PageTree s.mem s.cr3) (hthere : (pageTableOf s s.cr3 virt).isSome)
    (ha : virt.toNat % 4096 = 0) {phys flags : BitVec 64} (hphys : pteGetAddr phys = phys)
    (hflags : pteGetAddr flags = 0#64) {o : Nat} (ho : o < 4096) :
    ∃ s', vmmMapPage s (vmmGetPml4 s) virt phys flags = some s' ∧
      vmmGetPhys s' (virt + BitVec.ofNat 64 o) = some (s', phys) := by
  obtain ⟨t, ht⟩ := Option.isSome_iff_exists.mp hthere
  have hop : TablesThere s s.cr3 (.map virt phys flags) := hthere
  have hmap := vmmStep_eq hop
  simp only [VmmOp.virt, VmmOp.page, VmmOp.pte, ht, Vm.putPte, Option.elim] at hmap
  refine ⟨_, hmap, ?_⟩
  have hpage : pageTableOf (s.setEntry t (VPage.of virt).pt (phys ||| flags)) s.cr3
      (virt + BitVec.ofNat 64 o) = some t := by
    rw [pageTableOf, of_add_offset ha ho]
    exact (tableAt_setEntry h ht _ _ (VPage.path_le _)).trans ht
  rw [vmmGetPhys_present hpage, of_add_offset ha ho]
  simp only [Vm.setEntry, entry_setEntry_self, pteGetAddr_map hphys hflags]

end

/-- **When the lookup inverts the map.** In every tree of 4 KiB pages with the
    tables for `virt` there: after `phys` is mapped at `virt`, the lookup of the
    byte at offset `o` returns the address of the byte iff `o` is 0. -/
theorem get_phys_inverts_iff (s : Vm) (htree : PageTree s.mem s.cr3) (virt phys flags : BitVec 64)
    (hthere : (pageTableOf s s.cr3 virt).isSome) (hvirt : virt.toNat % 4096 = 0)
    (hphys : pteGetAddr phys = phys) (hflags : pteGetAddr flags = 0#64) (o : Nat) (ho : o < 4096) :
    ∃ s', vmmMapPage s (vmmGetPml4 s) virt phys flags = some s' ∧
      ((vmmGetPhys s' (virt + BitVec.ofNat 64 o)).map Prod.snd = some (phys + BitVec.ofNat 64 o) ↔
        o = 0) := by
  obtain ⟨s', hs', hphys'⟩ := vmmGetPhys_mapped htree hthere hvirt hphys hflags ho
  refine ⟨s', hs', ?_⟩
  rw [hphys', Option.map_some, Option.some.injEq, BitVec.self_eq_add_right]
  refine ⟨?_, fun hzero => by rw [hzero]⟩
  intro hzero
  have hnat := congrArg BitVec.toNat hzero
  rw [BitVec.toNat_ofNat, BitVec.toNat_ofNat] at hnat
  omega

/-- A page of the small machine is mapped, and its first byte looked up. -/
theorem get_phys_inverts_first_byte :
    ∃ s', vmmMapPage onePageVm (vmmGetPml4 onePageVm) 0x1000#64 0x7000#64 3#64 = some s' ∧
      (vmmGetPhys s' 0x1000#64).map Prod.snd = some 0x7000#64 := by
  obtain ⟨s', hs', hiff⟩ := get_phys_inverts_iff onePageVm onePageVm_tree 0x1000#64 0x7000#64 3#64
    onePageVm_table (by decide) (by decide) (by decide) 0 (by decide)
  exact ⟨s', hs', hiff.mpr rfl⟩

/-- A buffer 16 bytes into the page: the lookup gives the start of the frame. -/
theorem get_phys_drops_offset :
    PageTree onePageVm.mem onePageVm.cr3 ∧ (pageTableOf onePageVm onePageVm.cr3 0x1000#64).isSome ∧
      ∃ s', vmmMapPage onePageVm (vmmGetPml4 onePageVm) 0x1000#64 0x7000#64 3#64 = some s' ∧
        (vmmGetPhys s' (0x1000#64 + BitVec.ofNat 64 16)).map Prod.snd = some 0x7000#64 ∧
        (vmmGetPhys s' (0x1000#64 + BitVec.ofNat 64 16)).map Prod.snd ≠
          some (0x7000#64 + BitVec.ofNat 64 16) := by
  refine ⟨onePageVm_tree, onePageVm_table, ?_⟩
  obtain ⟨s', hs', hphys⟩ := vmmGetPhys_mapped onePageVm_tree onePageVm_table (by decide)
    (show pteGetAddr 0x7000#64 = 0x7000#64 by decide) (show pteGetAddr 3#64 = 0#64 by decide)
    (show 16 < 4096 by decide)
  refine ⟨s', hs', ?_, ?_⟩
  · rw [hphys, Option.map_some]
  · rw [hphys, Option.map_some]
    have hne : ¬ 0x7000#64 = 0x7000#64 + BitVec.ofNat 64 16 := by decide
    exact fun heq => hne (Option.some.inj heq)

/-! Large pages. -/

/-- The 4 KiB frame of `virt` in the page of `2^bits` bytes the entry `value`
    maps. Bits 13 up to the size of the page are reserved; bit 12 is a flag. -/
def largePageFrame (bits : Nat) (value virt : BitVec 64) : Option (BitVec 64) :=
  let offset := (1#64 <<< bits) - 1
  if value &&& (offset &&& ~~~0x1FFF#64) = 0#64 then
    some ((pteGetAddr value &&& ~~~offset) ||| (virt &&& offset &&& ~~~0xFFF#64))
  else none

/-- The frame the processor finds for `virt`. -/
def hardwareFrame (m : Mem) (pml4 : Frame) (virt : BitVec 64) : Option (BitVec 64) :=
  match walk m pml4 (VPage.of virt) with
  | .notPresent => none
  | .page pte => some (pteGetAddr pte)
  | .large levels value =>
    if levels = 1 then largePageFrame 21 value virt
    else if levels = 2 then largePageFrame 30 value virt
    else none

section
variable {m : Mem} {i : Index} {value : BitVec 64}

/-- A walk that ends at a page-table entry follows the links. -/
theorem tableAt_of_walk_page {p : List Index} {t : Frame} (h : walkFrom m t p i = .page value) :
    ∃ u, tableAt (links m) t p = some u ∧ entry m u i = value := by
  induction p generalizing t with
  | nil =>
    simp only [walkFrom, Walk.ofPte] at h
    split at h
    · exact ⟨t, rfl, Walk.page.inj h⟩
    · cases h
  | cons j p ih =>
    simp only [walkFrom] at h
    split at h
    · cases h
    · next hp =>
      have hlink := links_eq_some.mpr ⟨not_not.mp hp, rfl⟩
      split at h
      · cases h
      · obtain ⟨u, hu, hentry⟩ := ih h
        refine ⟨u, ?_, hentry⟩
        simp only [tableAt, hlink, Option.bind_some, hu]

/-- One that ends at a large page follows the links to its entry. -/
theorem tableAt_of_walk_large {levels : Nat} {p : List Index} {t : Frame}
    (h : walkFrom m t p i = .large levels value) :
    ∃ q r, p = q ++ r ∧ r.length + 1 = levels ∧ tableAt (links m) t q = some (pteFrame value) := by
  induction p generalizing t with
  | nil =>
    simp only [walkFrom, Walk.ofPte] at h
    split at h
    · cases h
    · cases h
  | cons j p ih =>
    simp only [walkFrom] at h
    split at h
    · cases h
    · next hp =>
      have hlink := links_eq_some.mpr ⟨not_not.mp hp, rfl⟩
      split at h
      · obtain ⟨rfl, rfl⟩ := Walk.large.inj h
        refine ⟨[j], p, rfl, rfl, ?_⟩
        simp only [tableAt, hlink, Option.bind_some]
      · obtain ⟨q, r, rfl, hlen, hq⟩ := ih h
        refine ⟨j :: q, r, rfl, hlen, ?_⟩
        simp only [tableAt, hlink, Option.bind_some, hq]

end

/-- The word of the large page `value` that the lookup takes for the page-table
    entry. Where the page has 1 GiB it goes through another word first, which it
    overwrites with a new table when it is not present. -/
def dataWord (s : Vm) (v : VPage) (levels : Nat) (value : BitVec 64) : BitVec 64 :=
  if levels = 1 then entry s.mem (pteFrame value) v.pt
  else if Present (entry s.mem (pteFrame value) v.pd) then
    entry s.mem (pteFrame (entry s.mem (pteFrame value) v.pd)) v.pt
  else entry (setEntry s.mem (pteFrame value) v.pd (tableEntry (s.pmm 0))) (s.pmm 0) v.pt

section
variable {s : Vm} {virt value : BitVec 64}

theorem vmmGetPhys_page (h : walk s.mem s.cr3 (VPage.of virt) = .page value) :
    vmmGetPhys s virt = some (s, pteGetAddr value) := by
  obtain ⟨t, ht, hentry⟩ := tableAt_of_walk_page h
  rw [vmmGetPhys_present ht, hentry]

/-- Only the page table is missing: the lookup links a new one. -/
theorem vmmGetPhys_new {pd : Frame}
    (hpd : tableAt (links s.mem) s.cr3 [(VPage.of virt).pml4, (VPage.of virt).pdpt] = some pd)
    (hempty : links s.mem pd (VPage.of virt).pd = none) :
    vmmGetPhys s virt = some (s.pmmAlloc.setEntry pd (VPage.of virt).pd (tableEntry (s.pmm 0)),
      pteGetAddr (entry (setEntry s.mem pd (VPage.of virt).pd (tableEntry (s.pmm 0))) (s.pmm 0)
        (VPage.of virt).pt)) := by
  rw [← of_alignDown virt] at hpd hempty ⊢
  simp only [tableAt, Option.bind_eq_some_iff] at hpd
  obtain ⟨pdpt, h4, pd', h3, hpd'⟩ := hpd
  obtain rfl := Option.some.inj hpd'
  simp only [VPage.of] at h4 h3 hempty
  simp only [vmmGetPhys, vmmGetPml4, getPageTable, getNextLevel_present h4, getNextLevel_present h3,
    getNextLevel_alloc hempty]
  rfl

/-- Of a large page the lookup reads a data word. -/
theorem vmmGetPhys_large {levels : Nat} (hlevels : levels = 1 ∨ levels = 2)
    (h : walk s.mem s.cr3 (VPage.of virt) = .large levels value) :
    (vmmGetPhys s virt).map Prod.snd = some (pteGetAddr (dataWord s (VPage.of virt) levels value)) := by
  obtain ⟨q, r, hpath, hlen, hq⟩ := tableAt_of_walk_large h
  rcases hlevels with rfl | rfl
  · -- the entry of a 2 MiB page is taken for the link of a page table
    obtain rfl : r = [] := List.eq_nil_of_length_eq_zero (by omega)
    rw [List.append_nil] at hpath
    have ht : pageTableOf s s.cr3 virt = some (pteFrame value) := by rw [pageTableOf, hpath, hq]
    rw [vmmGetPhys_present ht, dataWord, if_pos rfl, Option.map_some]
  · obtain ⟨c, rfl⟩ : ∃ c, r = [c] := List.length_eq_one_iff.mp (by omega)
    obtain ⟨hqp, hc⟩ := List.append_inj' (show
      [(VPage.of virt).pml4, (VPage.of virt).pdpt] ++ [(VPage.of virt).pd] = q ++ [c] from hpath) rfl
    rw [← hqp] at hq
    rw [dataWord, if_neg (by decide)]
    by_cases hp : Present (entry s.mem (pteFrame value) (VPage.of virt).pd)
    · have ht : pageTableOf s s.cr3 virt =
          some (pteFrame (entry s.mem (pteFrame value) (VPage.of virt).pd)) := by
        rw [pageTableOf, hpath, ← hc, ← hqp, tableAt_snoc, hq, Option.bind_some]
        exact links_eq_some.mpr ⟨hp, rfl⟩
      rw [vmmGetPhys_present ht, if_pos hp, Option.map_some]
    · rw [vmmGetPhys_new hq (links_eq_none.mpr hp), if_neg hp, Option.map_some]

end

/-- **When the lookup agrees with the processor.** For every memory and every
    address the processor finds a frame for: the lookup returns that frame iff
    the walk ends at a 4 KiB page, or else the data word of the large page that
    it takes for a page-table entry happens to hold it. -/
theorem get_phys_agrees_iff (s : Vm) (virt frame : BitVec 64)
    (hframe : hardwareFrame s.mem s.cr3 virt = some frame) :
    (vmmGetPhys s virt).map Prod.snd = some frame ↔
      ∀ levels value, walk s.mem s.cr3 (VPage.of virt) = .large levels value →
        pteGetAddr (dataWord s (VPage.of virt) levels value) = frame := by
  rw [hardwareFrame] at hframe
  cases hw : walk s.mem s.cr3 (VPage.of virt) with
  | notPresent =>
    rw [hw] at hframe
    cases hframe
  | page pte =>
    rw [hw] at hframe
    rw [vmmGetPhys_page hw]
    refine ⟨?_, fun _ => hframe⟩
    intro _ levels value heq
    cases heq
  | large levels value =>
    simp only [hw] at hframe
    have hlevels : levels = 1 ∨ levels = 2 := by
      split at hframe
      · exact .inl ‹_›
      · split at hframe
        · exact .inr ‹_›
        · cases hframe
    rw [vmmGetPhys_large hlevels hw, Option.some.injEq]
    refine ⟨?_, fun hall => hall levels value rfl⟩
    intro heq levels' value' hl
    obtain ⟨rfl, rfl⟩ := Walk.large.inj hl
    exact heq

theorem get_phys_agrees_first_page :
    hardwareFrame onePageVm.mem onePageVm.cr3 0#64 = some 0x6000#64 ∧
      (vmmGetPhys onePageVm 0#64).map Prod.snd = some 0x6000#64 := by
  have hframe : hardwareFrame onePageVm.mem onePageVm.cr3 0#64 = some 0x6000#64 := by decide +kernel
  have hpage : walk onePageVm.mem onePageVm.cr3 (VPage.of 0#64) = .page 0x6003#64 := by decide +kernel
  refine ⟨hframe, (get_phys_agrees_iff onePageVm 0#64 0x6000#64 hframe).mpr ?_⟩
  intro levels value hlarge
  rw [hpage] at hlarge
  cases hlarge

/-- The second 4 KiB of a 2 MiB page of zeros: the lookup returns frame 0. -/
theorem get_phys_reads_data :
    hardwareFrame (emptyVm largeMem).mem (emptyVm largeMem).cr3 0x1000#64 = some 0x201000#64 ∧
      (vmmGetPhys (emptyVm largeMem) 0x1000#64).map Prod.snd = some 0#64 := by
  decide +kernel

/-! What the lookup writes. -/

/-- No present entry is changed. -/
def KeepsPresent (s s' : Vm) : Prop :=
  ∀ t i, Present (entry s.mem t i) → entry s'.mem t i = entry s.mem t i

section
variable {s s' s'' : Vm} {pml4 t : Frame} {i : Index}

theorem KeepsPresent.trans (h : KeepsPresent s s') (h' : KeepsPresent s' s'') : KeepsPresent s s'' := by
  intro t i hp
  have hp' : Present (entry s'.mem t i) := by rwa [h t i hp]
  rw [h' t i hp', h t i hp]

/-- A level that needs a table writes an entry that was not present; then it is. -/
theorem getNextLevel_keeps {u : Option Frame} (h : getNextLevel s t i true = (s', u)) :
    KeepsPresent s s' ∧ Present (entry s'.mem t i) := by
  cases hlink : links s.mem t i with
  | some v =>
    rw [getNextLevel_present hlink] at h
    obtain ⟨rfl, -⟩ := Prod.mk.inj h
    refine ⟨fun _ _ _ => rfl, ?_⟩
    exact (links_eq_some.mp hlink).1
  | none =>
    rw [getNextLevel_alloc hlink] at h
    obtain ⟨rfl, -⟩ := Prod.mk.inj h
    refine ⟨?_, ?_⟩
    · intro u j hp
      apply entry_setEntry_other
      intro hslot
      rw [hslot.1, hslot.2] at hp
      exact links_eq_none.mp hlink hp
    · show Present (entry (setEntry s.mem t i (tableEntry (s.pmm 0))) t i)
      rw [entry_setEntry_self]
      exact present_tableEntry _

/-- A level whose entry is the same in the end found its table. -/
theorem getNextLevel_found {u : Frame} (h : getNextLevel s t i true = (s', some u))
    (hkeep : KeepsPresent s' s'') (hsame : entry s''.mem t i = entry s.mem t i) :
    s' = s ∧ links s.mem t i = some u := by
  have hp := (getNextLevel_keeps h).2
  have hp' : Present (entry s.mem t i) := by rwa [← hsame, hkeep t i hp]
  have hlink : links s.mem t i = some (pteFrame (entry s.mem t i)) := links_eq_some.mpr ⟨hp', rfl⟩
  rw [getNextLevel_present hlink] at h
  obtain ⟨rfl, hu⟩ := Prod.mk.inj h
  exact ⟨rfl, hlink.trans hu⟩

theorem getPageTable_found {virt : BitVec 64} {u : Option Frame}
    (h : getPageTable s pml4 virt true = (s', u))
    (hsame : ∀ p t i, p.length ≤ 3 → tableAt (links s.mem) pml4 p = some t →
      entry s'.mem t i = entry s.mem t i) :
    (pageTableOf s pml4 virt).isSome := by
  obtain ⟨s₁, pdpt, h4⟩ := getNextLevel_total s pml4 (tableIndex virt 39)
  obtain ⟨s₂, pd, h3⟩ := getNextLevel_total s₁ pdpt (tableIndex virt 30)
  obtain ⟨s₃, pt, h2⟩ := getNextLevel_total s₂ pd (tableIndex virt 21)
  simp only [getPageTable, h4, h3, h2] at h
  obtain ⟨rfl, -⟩ := Prod.mk.inj h
  have hk2 := (getNextLevel_keeps h2).1
  have hk3 := (getNextLevel_keeps h3).1
  -- from the top: each level found its table, so the next starts from `s` too
  obtain ⟨rfl, hl4⟩ := getNextLevel_found h4 (hk3.trans hk2) (hsame [] pml4 _ (by decide) rfl)
  have ht3 : tableAt (links s₁.mem) pml4 [tableIndex virt 39] = some pdpt := by
    simp only [tableAt, hl4, Option.bind_some]
  obtain ⟨rfl, hl3⟩ := getNextLevel_found h3 hk2 (hsame _ pdpt _ (by simp) ht3)
  have ht2 : tableAt (links s₂.mem) pml4 [tableIndex virt 39, tableIndex virt 30] = some pd := by
    simp only [tableAt, hl4, hl3, Option.bind_some]
  obtain ⟨rfl, hl2⟩ := getNextLevel_found h2 (fun _ _ _ => rfl) (hsame _ pd _ (by simp) ht2)
  simp only [pageTableOf, VPage.path, VPage.of, tableAt, hl4, hl3, hl2, Option.bind_some,
    Option.isSome_some]

theorem vmmGetPhys_found {virt r : BitVec 64} (h : vmmGetPhys s virt = some (s', r))
    (hsame : ∀ p t i, p.length ≤ 3 → tableAt (links s.mem) s.cr3 p = some t →
      entry s'.mem t i = entry s.mem t i) :
    (pageTableOf s s.cr3 virt).isSome := by
  rw [vmmGetPhys, vmmGetPml4] at h
  rw [← pageTableOf_alignDown]
  cases hcall : getPageTable s s.cr3 (alignDown virt 0x1000#64) true with
  | mk s₁ u =>
    simp only [hcall] at h
    cases u with
    | none => cases h
    | some t =>
      obtain ⟨rfl, -⟩ := Prod.mk.inj (Option.some.inj h)
      exact getPageTable_found hcall hsame

end

/-! The lookup and the frame bitmap. -/

/-- The tables, with the frame allocator's own state. -/
structure VmPmm where
  mem : Mem
  cr3 : Frame
  pmm : Pmm

namespace VmPmm

/-- The frame at an address `pmm_alloc` returned; an address has 52 bits. -/
def frameAt (address : Nat) : Frame := pteFrame (BitVec.ofNat 64 address)

/-- `none` is the NULL dereference of `pmm_alloc`. -/
def getNextLevel (s : VmPmm) (topLevel : Frame) (index : Index) (alloc : Bool) :
    Option (VmPmm × Option Frame) :=
  if Present (entry s.mem topLevel index) then
    some (s, some (pteFrame (entry s.mem topLevel index)))
  else if !alloc then some (s, none)
  else do
    let (pmm, address) ← pmmAlloc s.pmm 1
    let nextLevel := frameAt address
    some ({ s with
      mem := setEntry s.mem topLevel index (nextLevel.addr ||| ptePresent ||| pteWritable ||| pteNx)
      pmm := pmm }, some nextLevel)

def getPageTable (s : VmPmm) (pml4 : Frame) (virt : BitVec 64) (alloc : Bool) :
    Option (VmPmm × Option Frame) := do
  match ← getNextLevel s pml4 (tableIndex virt 39) alloc with
  | (s, none) => some (s, none)
  | (s, some pdpt) =>
    match ← getNextLevel s pdpt (tableIndex virt 30) alloc with
    | (s, none) => some (s, none)
    | (s, some pd) => getNextLevel s pd (tableIndex virt 21) alloc

def vmmGetPhys (s : VmPmm) (virt : BitVec 64) : Option (VmPmm × BitVec 64) := do
  let virt := alignDown virt 0x1000#64
  match ← getPageTable s s.cr3 virt true with
  | (_, none) => none
  | (s, some pageTable) => some (s, pteGetAddr (entry s.mem pageTable (tableIndex virt 12)))

/-- The frames the next calls of `pmm_alloc(1)` return. -/
def nextFrames (pmm : Pmm) : Nat → Frame
  | 0 => (pmmAlloc pmm 1).elim (frameAt 0) (fun r => frameAt r.2)
  | n + 1 => (pmmAlloc pmm 1).elim (frameAt 0) (fun r => nextFrames r.1 n)

/-- The tables with the list of frames in place of the allocator. -/
def vm (s : VmPmm) : Vm := { mem := s.mem, pmm := nextFrames s.pmm, cr3 := s.cr3, oldPml4 := none }

section
variable {s s' : VmPmm} {t : Frame} {i : Index} {virt : BitVec 64}

theorem getNextLevel_vm {alloc : Bool} {u : Option Frame} (h : getNextLevel s t i alloc = some (s', u)) :
    Qnixx.getNextLevel s.vm t i alloc = (s'.vm, u) := by
  rw [getNextLevel] at h
  rw [Qnixx.getNextLevel]
  by_cases hp : Present (entry s.mem t i)
  · rw [if_pos hp, Option.some.injEq, Prod.mk.injEq] at h
    obtain ⟨rfl, rfl⟩ := h
    exact if_pos hp
  · rw [if_neg hp] at h
    rw [if_neg (show ¬ Present (entry s.vm.mem t i) from hp)]
    cases alloc with
    | false =>
      rw [if_pos (show (!false) = true from rfl), Option.some.injEq, Prod.mk.injEq] at h
      obtain ⟨rfl, rfl⟩ := h
      rfl
    | true =>
      have halloc : ¬ (!true) = true := by decide
      rw [if_neg halloc] at h ⊢
      obtain ⟨r, hr, heq⟩ := Option.bind_eq_some_iff.mp h
      rw [Option.some.injEq, Prod.mk.injEq] at heq
      obtain ⟨rfl, rfl⟩ := heq
      simp only [vm, Vm.pmmAlloc, Vm.setEntry, nextFrames, hr, Option.elim]

theorem getPageTable_vm {pml4 : Frame} {alloc : Bool} {u : Option Frame}
    (h : getPageTable s pml4 virt alloc = some (s', u)) :
    Qnixx.getPageTable s.vm pml4 virt alloc = (s'.vm, u) := by
  obtain ⟨⟨s₁, u₁⟩, h4, h⟩ := Option.bind_eq_some_iff.mp h
  simp only [Qnixx.getPageTable, getNextLevel_vm h4]
  cases u₁ with
  | none =>
    obtain ⟨rfl, rfl⟩ := Prod.mk.inj (Option.some.inj h)
    rfl
  | some pdpt =>
    obtain ⟨⟨s₂, u₂⟩, h3, h⟩ := Option.bind_eq_some_iff.mp h
    simp only [getNextLevel_vm h3]
    cases u₂ with
    | none =>
      obtain ⟨rfl, rfl⟩ := Prod.mk.inj (Option.some.inj h)
      rfl
    | some pd => exact getNextLevel_vm h

/-- The lookup on the allocator's own state is the lookup on the frames it
    returns. -/
theorem vmmGetPhys_vm {r : BitVec 64} (h : vmmGetPhys s virt = some (s', r)) :
    Qnixx.vmmGetPhys s.vm virt = some (s'.vm, r) := by
  obtain ⟨⟨s₁, u⟩, hcall, h⟩ := Option.bind_eq_some_iff.mp h
  have hvm := getPageTable_vm hcall
  cases u with
  | none => cases h
  | some t =>
    obtain ⟨rfl, rfl⟩ := Prod.mk.inj (Option.some.inj h)
    simp only [Qnixx.vmmGetPhys, vmmGetPml4, show s.vm.cr3 = s.cr3 from rfl, hvm]
    rfl

theorem getNextLevel_there {u : Frame} (h : links s.mem t i = some u) (alloc : Bool) :
    getNextLevel s t i alloc = some (s, some u) := by
  obtain ⟨hp, rfl⟩ := links_eq_some.mp h
  rw [getNextLevel, if_pos hp]

theorem vmmGetPhys_there (h : (pageTableOf s.vm s.cr3 virt).isSome) :
    ∃ r, vmmGetPhys s virt = some (s, r) := by
  obtain ⟨t, ht⟩ := Option.isSome_iff_exists.mp h
  rw [← pageTableOf_alignDown] at ht
  simp only [pageTableOf, VPage.path, VPage.of, tableAt, Option.bind_eq_some_iff] at ht
  obtain ⟨pdpt, h4, pd, h3, pt, h2, -⟩ := ht
  simp only [vm] at h4 h3 h2
  refine ⟨pteGetAddr (entry s.mem pt (tableIndex (alignDown virt 0x1000#64) 12)), ?_⟩
  simp only [vmmGetPhys, getPageTable, getNextLevel_there h4, getNextLevel_there h3,
    getNextLevel_there h2, Option.bind_eq_bind, Option.bind_some]

end

end VmPmm

/-- The lookup returns, and every word of every table reached from CR3 and the
    frame bitmap are as they were. -/
def NoSideEffects (s : VmPmm) (virt : BitVec 64) : Prop :=
  ∃ s' r, VmPmm.vmmGetPhys s virt = some (s', r) ∧
    (∀ p t i, p.length ≤ 3 → tableAt (links s.mem) s.cr3 p = some t →
      entry s'.mem t i = entry s.mem t i) ∧
    s'.pmm.bitmap = s.pmm.bitmap

/-- **When the lookup has no side effects.** For every state of the tables and
    the frame allocator and every address: iff the three tables on the path of
    the address are present; the state is then the same as a whole. -/
theorem get_phys_pure_iff (s : VmPmm) (virt : BitVec 64) :
    (NoSideEffects s virt ↔ (tableAt (links s.mem) s.cr3 (VPage.of virt).path).isSome) ∧
      ((tableAt (links s.mem) s.cr3 (VPage.of virt).path).isSome →
        ∃ r, VmPmm.vmmGetPhys s virt = some (s, r)) := by
  refine ⟨⟨?_, ?_⟩, VmPmm.vmmGetPhys_there⟩
  · intro h
    obtain ⟨s', r, hcall, hsame, -⟩ := h
    have hfound : (pageTableOf s.vm s.vm.cr3 virt).isSome :=
      vmmGetPhys_found (VmPmm.vmmGetPhys_vm hcall) hsame
    exact hfound
  · intro h
    obtain ⟨r, hr⟩ := VmPmm.vmmGetPhys_there h
    exact ⟨s, r, hr, fun _ _ _ _ _ => rfl, rfl⟩

/-- The small machine with no page mapped, and 16 frames of memory, of which the
    first two are in use. -/
def emptyVmPmm : VmPmm :=
  ⟨zeroedMem, (emptyVm zeroedMem).cr3,
    ⟨[⟨0, 0x10000, .usable⟩], 0, fun byte => if byte = 0 then 0x03#8 else 0#8⟩⟩

theorem emptyVmPmm_lookup :
    (VmPmm.vmmGetPhys emptyVmPmm 0#64).map
        (fun r => (entry r.1.mem emptyVmPmm.cr3 (VPage.of 0#64).pml4, r.1.pmm.bitmap 0)) =
      some (0x8000000000002003#64, 0x1F#8) := by
  decide +kernel

/-- An address nobody mapped is looked up: the PML4 gets an entry, and three
    frames are marked as used. -/
theorem get_phys_builds_tables :
    ¬ NoSideEffects emptyVmPmm 0#64 ∧
      entry emptyVmPmm.mem emptyVmPmm.cr3 (VPage.of 0#64).pml4 = 0#64 ∧
      ∃ s' r, VmPmm.vmmGetPhys emptyVmPmm 0#64 = some (s', r) ∧
        entry s'.mem emptyVmPmm.cr3 (VPage.of 0#64).pml4 = 0x8000000000002003#64 ∧
        s'.pmm.bitmap 0 = 0x1F#8 := by
  obtain ⟨⟨s', r⟩, hcall, heq⟩ := Option.map_eq_some_iff.mp emptyVmPmm_lookup
  obtain ⟨hentry, hbyte⟩ := Prod.mk.inj heq
  refine ⟨?_, by decide +kernel, s', r, hcall, hentry, hbyte⟩
  intro h
  obtain ⟨s'', r', hcall', -, hbitmap⟩ := h
  obtain ⟨rfl, -⟩ := Prod.mk.inj (Option.some.inj (hcall.symm.trans hcall'))
  rw [hbitmap] at hbyte
  exact absurd hbyte (by decide)

end Qnixx
