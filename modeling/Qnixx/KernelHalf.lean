import Mathlib.Tactic.Common
import Qnixx.Lib.Runs
import Qnixx.AddressSpace

/- The kernel half of all address spaces. `vmm_make_pml4` copies the entries of
   the upper half once; from then on two PML4s share a mapping only through the
   tables below the entries they have in common. Calls of `vmm_map_page` and
   `vmm_unmap_page` write below these entries, and all PML4s see what they do,
   as long as no PML4 gets an upper entry of its own: a call that needs a new
   one puts it into the PML4 it was given and into no other. -/
namespace Qnixx
open ByteMem Radix

/-- The tables below the upper half of the PML4 `boot`, as the processor
    reaches them. -/
def kernelTables (m : Mem) (boot : Frame) : Links Frame Index := fun t i =>
  if (t = boot → 256 ≤ i.val) ∧ Present (entry m t i) ∧ ¬ Large (entry m t i) then
    some (pteFrame (entry m t i))
  else none

structure Spaces where
  vm : Vm
  /-- The PML4s: the one in CR3 at boot, and those made since. -/
  roots : List Frame

inductive KernelOp where
  | make
  | map (pml4 : Frame) (virt phys flags : BitVec 64)
  | unmap (pml4 : Frame) (virt : BitVec 64)

def kernelStep (st : Spaces) : KernelOp → Option Spaces
  | .make => some ⟨(vmmMakePml4 st.vm).1, (vmmMakePml4 st.vm).2 :: st.roots⟩
  | .map pml4 virt phys flags =>
    (vmmMapPage st.vm pml4 virt phys flags).map (fun vm => ⟨vm, st.roots⟩)
  | .unmap pml4 virt => some ⟨vmmUnmapPage st.vm pml4 virt, st.roots⟩

/-- The frames the next `n` calls of `pmm_alloc(1)` return are zero-filled and
    in use by nobody: neither a PML4 nor a table below the kernel half. -/
structure Fresh (boot : Frame) (st : Spaces) (n : Nat) : Prop where
  roots : ∀ k < n, st.vm.pmm k ∉ st.roots
  outside : ∀ k < n, Outside (kernelTables st.vm.mem boot) boot 3 (st.vm.pmm k)
  distinct : ∀ k < n, ∀ l < n, st.vm.pmm k = st.vm.pmm l → k = l
  zero : ∀ k < n, ∀ i, entry st.vm.mem (st.vm.pmm k) i = 0#64

/-- How many tables on the path of a kernel page are not there. -/
def kernelMissing (boot : Frame) (st : Spaces) (v : VPage) : Nat :=
  missing (kernelTables st.vm.mem boot) boot v.path

/-- A call for an upper-half address through one of the PML4s, with fresh
    frames from `pmm_alloc(1)`. -/
def KernelAllowed (boot : Frame) (st : Spaces) : KernelOp → Prop
  | .make => Fresh boot st 1
  | .map pml4 virt _ _ =>
    pml4 ∈ st.roots ∧ 256 ≤ (VPage.of virt).pml4.val ∧
      Fresh boot st (kernelMissing boot st (VPage.of virt))
  | .unmap pml4 virt => pml4 ∈ st.roots ∧ 256 ≤ (VPage.of virt).pml4.val

/-- The page is not in a large page of the PML4. -/
def NotLarge (m : Mem) (pml4 : Frame) (v : VPage) : Prop := ∀ levels value, walk m pml4 v ≠ .large levels value

/-- A map finds its entry of the PML4 present, or there is no other PML4; and
    no call is for an address in a large page. -/
def NoNewEntry (st : Spaces) : KernelOp → Prop
  | .make => True
  | .map pml4 virt _ _ =>
    NotLarge st.vm.mem pml4 (VPage.of virt) ∧
      (Present (entry st.vm.mem pml4 (VPage.of virt).pml4) ∨ ∀ r ∈ st.roots, r = pml4)
  | .unmap pml4 virt => NotLarge st.vm.mem pml4 (VPage.of virt)

/-- The PML4s have the same upper entries, and the tables below these form a
    tree that none of the PML4s is in. -/
structure KernelShared (boot : Frame) (st : Spaces) : Prop where
  old : captured st.vm = boot
  bootRoot : boot ∈ st.roots
  same : ∀ r ∈ st.roots, ∀ i : Index, 256 ≤ i.val → entry st.vm.mem r i = entry st.vm.mem boot i
  tree : Tree (kernelTables st.vm.mem boot) boot 3
  apart : ∀ r ∈ st.roots, ∀ p, p ≠ [] → p.length ≤ 3 → tableAt (kernelTables st.vm.mem boot) boot p ≠ some r

theorem walk_shared {boot : Frame} {st : Spaces} (h : KernelShared boot st) {r : Frame} (hr : r ∈ st.roots)
    {v : VPage} (hv : 256 ≤ v.pml4.val) : walk st.vm.mem r v = walk st.vm.mem boot v := by
  simp only [walk, VPage.path, walkFrom, h.same r hr v.pml4 hv]

/-! The links of the kernel half. -/

section
variable {m : Mem} {boot t u : Frame} {i : Index}

theorem kernelTables_some (h : kernelTables m boot t i = some u) :
    (t = boot → 256 ≤ i.val) ∧ Leads m t i u := by
  simp only [kernelTables] at h
  split at h
  · next hc => exact ⟨hc.1, hc.2.1, hc.2.2, Option.some.inj h⟩
  · cases h

theorem kernelTables_zero (h : entry m t i = 0#64) :
    kernelTables m boot t i = none := by
  rw [kernelTables, h, if_neg (fun hc => not_present_zero hc.2.1)]

theorem kernelTables_of_leads (hup : t = boot → 256 ≤ i.val) (h : Leads m t i u) :
    kernelTables m boot t i = some u := by
  rw [kernelTables, if_pos ⟨hup, h.1, h.2.1⟩, h.2.2]

theorem kernelTables_congr {m' : Mem} (h : entry m' t i = entry m t i) :
    kernelTables m' boot t i = kernelTables m boot t i := by
  simp only [kernelTables, h]

/-- Linking a table below the kernel half. -/
theorem kernelTables_link (hup : t = boot → 256 ≤ i.val) (f : Frame) :
    kernelTables (setEntry m t i (tableEntry f)) boot = link (kernelTables m boot) t i f := by
  funext u j
  by_cases h : u = t ∧ j = i
  · rw [link, if_pos h, h.1, h.2]
    apply kernelTables_of_leads hup
    refine ⟨?_, ?_, ?_⟩
    · rw [entry_setEntry_self]
      exact present_tableEntry f
    · rw [entry_setEntry_self]
      exact not_large_tableEntry f
    · rw [entry_setEntry_self, pteFrame_tableEntry]
  · rw [link, if_neg h]
    exact kernelTables_congr (entry_setEntry_other m _ h)

end

/-! What one write keeps. -/

section
variable {boot t f : Frame} {st : Spaces} {p : List Index} {i : Index}

/-- A table on a longer path is none of the PML4s. -/
theorem KernelShared.ne_root (h : KernelShared boot st) (hp : p ≠ []) (hlen : p.length ≤ 3)
    (ht : tableAt (kernelTables st.vm.mem boot) boot p = some t) {r : Frame} (hr : r ∈ st.roots) : r ≠ t := by
  intro heq
  exact h.apart r hr p hp hlen (heq ▸ ht)

/-- A new table below the kernel half: in a table all PML4s share, or in the
    only PML4 there is. -/
theorem KernelShared.link (h : KernelShared boot st)
    (hl : Linkable (kernelTables st.vm.mem boot) boot 3 p t i f) (hf : f ∉ st.roots)
    (hup : t = boot → 256 ≤ i.val) (htop : p = [] → ∀ r ∈ st.roots, r = boot) :
    KernelShared boot ⟨st.vm.pmmAlloc.setEntry t i (tableEntry f), st.roots⟩ := by
  have hlinks := kernelTables_link (m := st.vm.mem) hup f
  refine ⟨h.old, h.bootRoot, ?_, ?_, ?_⟩
  · intro r hr j hj
    by_cases hp : p = []
    · rw [htop hp r hr]
    · have hlen := Nat.le_of_lt hl.depth
      have hne := h.ne_root hp hlen hl.here hr
      have hbne := h.ne_root hp hlen hl.here h.bootRoot
      show entry (setEntry st.vm.mem t i _) r j = entry (setEntry st.vm.mem t i _) boot j
      rw [entry_setEntry_other _ _ (fun heq => hne heq.1), entry_setEntry_other _ _ (fun heq => hbne heq.1)]
      exact h.same r hr j hj
  · show Tree (kernelTables (setEntry st.vm.mem t i _) boot) boot 3
    rw [hlinks]
    exact tree_link hl
  · intro r hr q hq hlen
    show tableAt (kernelTables (setEntry st.vm.mem t i _) boot) boot q ≠ some r
    rw [hlinks, tableAt_link hl q hlen]
    by_cases hqp : q = p ++ [i]
    · rw [if_pos hqp]
      intro heq
      exact hf (Option.some.inj heq ▸ hr)
    · rw [if_neg hqp]
      exact h.apart r hr q hq hlen

/-- Writing an entry of a page table of the kernel half. -/
theorem KernelShared.write (h : KernelShared boot st) {v : VPage}
    (ht : tableAt (kernelTables st.vm.mem boot) boot v.path = some t) (value : BitVec 64) :
    KernelShared boot ⟨st.vm.setEntry t i value, st.roots⟩ := by
  have hne : ∀ {r : Frame}, r ∈ st.roots → r ≠ t := h.ne_root (by simp [VPage.path]) v.path_le ht
  have hsame : ∀ q : List Index, q.length ≤ 3 →
      tableAt (kernelTables (setEntry st.vm.mem t i value) boot) boot q =
        tableAt (kernelTables st.vm.mem boot) boot q := by
    intro q hq
    apply tableAt_agree _ q hq
    intro q' u j hq' hu
    -- a page table is not one of the tables above it
    have hslot : ¬ (u = t ∧ j = i) := by
      intro heq
      have hpath := h.tree q' v.path t (Nat.le_of_lt hq') v.path_le (heq.1 ▸ hu) ht
      rw [hpath] at hq'
      exact Nat.lt_irrefl 3 hq'
    exact kernelTables_congr (entry_setEntry_other st.vm.mem value hslot)
  refine ⟨h.old, h.bootRoot, ?_, tree_agree h.tree hsame, ?_⟩
  · intro r hr j hj
    show entry (setEntry st.vm.mem t i value) r j = entry (setEntry st.vm.mem t i value) boot j
    rw [entry_setEntry_other _ _ (fun heq => hne hr heq.1),
      entry_setEntry_other _ _ (fun heq => hne h.bootRoot heq.1)]
    exact h.same r hr j hj
  · intro r hr q hq hlen
    show tableAt (kernelTables (setEntry st.vm.mem t i value) boot) boot q ≠ some r
    rw [hsame q hlen]
    exact h.apart r hr q hq hlen

end

/-! Going down the levels. -/

/-- `getPageTable` for the kernel page `v` has followed the indices `p` to the
    table `t` and has those in `q` to go. -/
structure Below (boot : Frame) (v : VPage) (alloc : Bool) (st : Spaces) (p q : List Index) (t : Frame) :
    Prop where
  shared : KernelShared boot st
  upper : 256 ≤ v.pml4.val
  path : v.path = p ++ q
  here : tableAt (kernelTables st.vm.mem boot) boot p = some t
  small : ∀ levels value, walkFrom st.vm.mem t q v.pt ≠ .large levels value
  top : alloc = true → p = [] → Present (entry st.vm.mem boot v.pml4) ∨ ∀ r ∈ st.roots, r = boot
  fresh : alloc = true → Fresh boot st (missing (kernelTables st.vm.mem boot) t q)

section
variable {boot t : Frame} {v : VPage} {alloc : Bool} {st : Spaces} {p q : List Index} {i : Index}

theorem Below.depth (h : Below boot v alloc st p (i :: q) t) : p.length + q.length = 2 := by
  have hlen := congrArg List.length h.path
  simp only [VPage.path, List.length_append, List.length_cons, List.length_nil] at hlen
  omega

/-- The index is one of the upper half at the top, where the table is the PML4. -/
theorem Below.top_index (h : Below boot v alloc st p (i :: q) t) (hp : p = []) : i = v.pml4 := by
  have hpath := h.path
  rw [hp, VPage.path, List.nil_append, List.cons.injEq] at hpath
  exact hpath.1.symm

theorem Below.path_nil (h : Below boot v alloc st p (i :: q) t) (ht : t = boot) : p = [] := by
  have hdepth := h.depth
  exact h.shared.tree p [] boot (by omega) (by simp) (ht ▸ h.here) rfl

theorem Below.up (h : Below boot v alloc st p (i :: q) t) (ht : t = boot) : 256 ≤ i.val := by
  rw [h.top_index (h.path_nil ht)]
  exact h.upper

/-- An entry that links no table is not present: it is not that of a large page. -/
theorem Below.not_present (h : Below boot v alloc st p (i :: q) t)
    (hnone : kernelTables st.vm.mem boot t i = none) : ¬ Present (entry st.vm.mem t i) := by
  intro hp
  by_cases hl : Large (entry st.vm.mem t i)
  · apply h.small (q.length + 1) (entry st.vm.mem t i)
    simp only [walkFrom, hp, hl, not_true, if_false, if_true]
  · rw [kernelTables_of_leads h.up ⟨hp, hl, rfl⟩] at hnone
    cases hnone

theorem Below.follow (h : Below boot v alloc st p (i :: q) t) {u : Frame}
    (hlink : kernelTables st.vm.mem boot t i = some u) : Below boot v alloc st (p ++ [i]) q u := by
  have hmissing := missing_some hlink q
  refine ⟨h.shared, h.upper, ?_, ?_, ?_, ?_, hmissing ▸ h.fresh⟩
  · rw [h.path, List.append_assoc, List.singleton_append]
  · rw [tableAt_snoc, h.here]
    exact hlink
  · intro levels value
    rw [← (kernelTables_some hlink).2.walkFrom q v.pt]
    exact h.small levels value
  · intro _ hnil
    simp at hnil

/-- From a zero-filled table no walk goes on. -/
theorem walkFrom_zero {m : Mem} {f : Frame} (hzero : ∀ i, entry m f i = 0#64) (q : List Index)
    (i : Index) : walkFrom m f q i = .notPresent := by
  cases q with
  | nil => rw [walkFrom, hzero, Walk.ofPte, if_neg not_present_zero]
  | cons j q => rw [walkFrom, hzero, if_pos not_present_zero]

theorem Below.linkable (h : Below boot v true st p (i :: q) t)
    (hnone : kernelTables st.vm.mem boot t i = none) :
    Linkable (kernelTables st.vm.mem boot) boot 3 p t i (st.vm.pmm 0) := by
  have hdepth := h.depth
  have hmissing := missing_none hnone q
  refine ⟨h.shared.tree, by omega, h.here, hnone, (h.fresh rfl).outside 0 (by omega), ?_⟩
  intro _ j
  exact kernelTables_zero ((h.fresh rfl).zero 0 (by omega) j)

/-- A new table entry leaves the frames to come as they are. -/
theorem Fresh.zero_setEntry {n : Nat} (h : Fresh boot st n) (hne : ∀ k < n, st.vm.pmm k ≠ t) (value : BitVec 64)
    {k : Nat} (hk : k < n) (j : Index) : entry (setEntry st.vm.mem t i value) (st.vm.pmm k) j = 0#64 := by
  rw [entry_setEntry_other _ _ (fun heq => hne k hk heq.1)]
  exact h.zero k hk j

/-- The first of the frames becomes a table, and the others stay fresh. -/
theorem Fresh.link {n : Nat} (h : Fresh boot st (n + 1))
    (hl : Linkable (kernelTables st.vm.mem boot) boot 3 p t i (st.vm.pmm 0)) (hup : t = boot → 256 ≤ i.val)
    (hne : ∀ k < n + 1, st.vm.pmm k ≠ t) :
    Fresh boot ⟨st.vm.pmmAlloc.setEntry t i (tableEntry (st.vm.pmm 0)), st.roots⟩ n := by
  refine ⟨?_, ?_, ?_, ?_⟩
  · intro k hk
    exact h.roots (k + 1) (by omega)
  · intro k hk
    show Outside (kernelTables (setEntry st.vm.mem t i _) boot) boot 3 (st.vm.pmm (k + 1))
    rw [kernelTables_link hup]
    apply outside_link hl (h.outside (k + 1) (by omega))
    intro heq
    have hkz := h.distinct (k + 1) (by omega) 0 (by omega) heq
    omega
  · intro k hk l hl' heq
    have hkl := h.distinct (k + 1) (by omega) (l + 1) (by omega) heq
    omega
  · intro k hk j
    exact h.zero_setEntry hne _ (Nat.succ_lt_succ hk) j

theorem Below.extend (h : Below boot v true st p (i :: q) t)
    (hnone : kernelTables st.vm.mem boot t i = none) :
    Below boot v true ⟨st.vm.pmmAlloc.setEntry t i (tableEntry (st.vm.pmm 0)), st.roots⟩ (p ++ [i]) q
      (st.vm.pmm 0) := by
  have hl := h.linkable hnone
  have hfresh := h.fresh rfl
  rw [missing_none hnone q] at hfresh
  -- the frames of this call are not the table written
  have hne : ∀ k < q.length + 1, st.vm.pmm k ≠ t := by
    intro k hk heq
    exact hfresh.outside k hk p (Nat.le_of_lt hl.depth) (heq ▸ h.here)
  have hzero : ∀ j, entry (setEntry st.vm.mem t i (tableEntry (st.vm.pmm 0))) (st.vm.pmm 0) j = 0#64 :=
    hfresh.zero_setEntry hne _ (Nat.succ_pos _)
  have hnew : missing (kernelTables (setEntry st.vm.mem t i (tableEntry (st.vm.pmm 0))) boot)
      (st.vm.pmm 0) q = q.length := missing_blank (fun j => kernelTables_zero (hzero j)) q
  have hshared := h.shared.link hl (hfresh.roots 0 (by omega)) h.up (by
    intro hp
    rcases h.top rfl hp with hpresent | honly
    · rw [← h.top_index hp] at hpresent
      have ht : t = boot := by
        have hhere := h.here
        rw [hp] at hhere
        exact (Option.some.inj hhere).symm
      exact absurd (ht ▸ hpresent) (h.not_present hnone)
    · exact honly)
  refine ⟨hshared, h.upper, ?_, ?_, ?_, ?_, ?_⟩
  · rw [h.path, List.append_assoc, List.singleton_append]
  · show tableAt (kernelTables (setEntry st.vm.mem t i _) boot) boot (p ++ [i]) = some (st.vm.pmm 0)
    rw [kernelTables_link h.up]
    exact tableAt_link_self hl
  · intro levels value
    show walkFrom (setEntry st.vm.mem t i _) (st.vm.pmm 0) q v.pt ≠ _
    rw [walkFrom_zero hzero]
    intro heq
    cases heq
  · intro _ hnil
    simp at hnil
  · intro _
    show Fresh boot _ (missing (kernelTables (setEntry st.vm.mem t i _) boot) (st.vm.pmm 0) q)
    rw [hnew]
    exact hfresh.link hl h.up hne

/-- One level down: to the next table, or without `alloc` to none. -/
theorem Below.level (h : Below boot v alloc st p (i :: q) t) :
    (alloc = false ∧ getNextLevel st.vm t i alloc = (st.vm, none)) ∨
      ∃ s' u, getNextLevel st.vm t i alloc = (s', some u) ∧
        Below boot v alloc ⟨s', st.roots⟩ (p ++ [i]) q u := by
  cases hlink : kernelTables st.vm.mem boot t i with
  | some u =>
    obtain ⟨hp, -, hu⟩ := (kernelTables_some hlink).2
    refine .inr ⟨st.vm, u, ?_, h.follow hlink⟩
    apply getNextLevel_present
    exact links_eq_some.mpr ⟨hp, hu⟩
  | none =>
    have hempty : links st.vm.mem t i = none := links_eq_none.mpr (h.not_present hlink)
    cases alloc with
    | false => exact .inl ⟨rfl, getNextLevel_lookup hempty⟩
    | true => exact .inr ⟨_, _, getNextLevel_alloc hempty, h.extend hlink⟩

end

theorem getPageTable_below {boot : Frame} {virt : BitVec 64} {alloc : Bool} {st : Spaces}
    (h : Below boot (VPage.of virt) alloc st [] (VPage.of virt).path boot) :
    (alloc = false ∧ ∃ s', getPageTable st.vm boot virt alloc = (s', none) ∧
        KernelShared boot ⟨s', st.roots⟩) ∨
      ∃ s' t, getPageTable st.vm boot virt alloc = (s', some t) ∧
        KernelShared boot ⟨s', st.roots⟩ ∧
        tableAt (kernelTables s'.mem boot) boot (VPage.of virt).path = some t := by
  rcases h.level with ⟨halloc, h₁⟩ | ⟨s₁, pdpt, h₁, hb₁⟩
  · refine .inl ⟨halloc, st.vm, ?_, h.shared⟩
    simp only [getPageTable, VPage.of] at h₁ ⊢
    rw [h₁]
  · rcases hb₁.level with ⟨halloc, h₂⟩ | ⟨s₂, pd, h₂, hb₂⟩
    · refine .inl ⟨halloc, s₁, ?_, hb₁.shared⟩
      simp only [getPageTable, VPage.of] at h₁ h₂ ⊢
      simp only [h₁, h₂]
    · rcases hb₂.level with ⟨halloc, h₃⟩ | ⟨s₃, pt, h₃, hb₃⟩
      · refine .inl ⟨halloc, s₂, ?_, hb₂.shared⟩
        simp only [getPageTable, VPage.of] at h₁ h₂ h₃ ⊢
        simp only [h₁, h₂, h₃]
      · refine .inr ⟨s₃, pt, ?_, hb₃.shared, hb₃.here⟩
        simp only [getPageTable, VPage.of] at h₁ h₂ h₃ ⊢
        simp only [h₁, h₂, h₃]

/-! One call. -/

section
variable {boot pml4 : Frame} {st st' : Spaces}

/-- Through any of the PML4s the first level is that of the boot PML4, unless
    it has to be allocated. -/
theorem getPageTable_root (h : KernelShared boot st) (hr : pml4 ∈ st.roots) {virt : BitVec 64}
    (hv : 256 ≤ (VPage.of virt).pml4.val) (alloc : Bool)
    (htop : alloc = true → Present (entry st.vm.mem pml4 (VPage.of virt).pml4) ∨ ∀ r ∈ st.roots, r = pml4) :
    getPageTable st.vm pml4 virt alloc = getPageTable st.vm boot virt alloc := by
  have hentry := h.same pml4 hr (VPage.of virt).pml4 hv
  have hlevel : getNextLevel st.vm pml4 (tableIndex virt 39) alloc =
      getNextLevel st.vm boot (tableIndex virt 39) alloc := by
    simp only [VPage.of] at hentry htop
    by_cases hp : Present (entry st.vm.mem boot (tableIndex virt 39))
    · simp only [getNextLevel, hentry, hp, if_true]
    · cases alloc with
      | false => simp [getNextLevel, hentry, hp]
      | true =>
        rcases htop rfl with hpresent | honly
        · rw [hentry] at hpresent
          exact absurd hpresent hp
        · rw [honly boot h.bootRoot]
  simp only [getPageTable, hlevel]

theorem KernelShared.below (h : KernelShared boot st) (hr : pml4 ∈ st.roots) {v : VPage}
    (hv : 256 ≤ v.pml4.val) (alloc : Bool) (hsmall : NotLarge st.vm.mem pml4 v)
    (htop : alloc = true → Present (entry st.vm.mem pml4 v.pml4) ∨ ∀ r ∈ st.roots, r = pml4)
    (hfresh : alloc = true → Fresh boot st (kernelMissing boot st v)) :
    Below boot v alloc st [] v.path boot := by
  refine ⟨h, hv, rfl, rfl, ?_, ?_, hfresh⟩
  · intro levels value hlarge
    exact hsmall levels value ((walk_shared h hr hv).trans hlarge)
  · intro halloc _
    rcases htop halloc with hpresent | honly
    · rw [h.same pml4 hr v.pml4 hv] at hpresent
      exact .inl hpresent
    · rw [honly boot h.bootRoot]
      exact .inr honly

theorem shared_map (h : KernelShared boot st) {virt phys flags : BitVec 64}
    (hallowed : KernelAllowed boot st (.map pml4 virt phys flags))
    (hcond : NoNewEntry st (.map pml4 virt phys flags))
    (hstep : kernelStep st (.map pml4 virt phys flags) = some st') : KernelShared boot st' := by
  obtain ⟨hr, hv, hfresh⟩ := hallowed
  obtain ⟨hsmall, htop⟩ := hcond
  have hbelow := h.below hr hv true hsmall (fun _ => htop) (fun _ => hfresh)
  rcases getPageTable_below hbelow with ⟨halloc, -⟩ | ⟨s₁, t, hcall, hshared, ht⟩
  · cases halloc
  · rw [← getPageTable_root h hr hv true (fun _ => htop)] at hcall
    simp only [kernelStep, vmmMapPage, hcall, Option.map_some, Option.some.injEq] at hstep
    rw [← hstep]
    exact hshared.write ht (phys ||| flags)

theorem shared_unmap (h : KernelShared boot st) {virt : BitVec 64}
    (hallowed : KernelAllowed boot st (.unmap pml4 virt)) (hcond : NoNewEntry st (.unmap pml4 virt))
    (hstep : kernelStep st (.unmap pml4 virt) = some st') : KernelShared boot st' := by
  obtain ⟨hr, hv⟩ := hallowed
  have hbelow := h.below hr hv false hcond nofun nofun
  have hroot := getPageTable_root h hr hv false nofun
  simp only [kernelStep, vmmUnmapPage, hroot, Option.some.injEq] at hstep
  rw [← hstep]
  rcases getPageTable_below hbelow with ⟨-, s₁, hcall, hshared⟩ | ⟨s₁, t, hcall, hshared, ht⟩
  · rw [hcall]
    exact hshared
  · rw [hcall]
    exact hshared.write ht 0#64

/-- A new PML4 is not in the tree, and gets the upper entries of the first. -/
theorem shared_make (h : KernelShared boot st) (hallowed : KernelAllowed boot st .make)
    (hstep : kernelStep st .make = some st') : KernelShared boot st' := by
  simp only [kernelStep, Option.some.injEq] at hstep
  have hnot := hallowed.roots 0 (by decide)
  have hout := hallowed.outside 0 (by decide)
  have hne : st.vm.pmm 0 ≠ captured st.vm := by
    rw [h.old]
    intro heq
    exact hnot (heq ▸ h.bootRoot)
  have hbne : boot ≠ st.vm.pmm 0 := by
    rw [← h.old]
    exact hne.symm
  have hold : ∀ t, t ≠ st.vm.pmm 0 → ∀ i, entry (vmmMakePml4 st.vm).1.mem t i = entry st.vm.mem t i := by
    intro t ht i
    rw [entry_vmmMakePml4 st.vm, if_neg (fun hc => ht hc.1), if_neg (fun hc => ht hc.1)]
  have hsame : ∀ q : List Index, q.length ≤ 3 →
      tableAt (kernelTables (vmmMakePml4 st.vm).1.mem boot) boot q =
        tableAt (kernelTables st.vm.mem boot) boot q := by
    intro q hq
    apply tableAt_agree _ q hq
    intro q' u j hq' hu
    apply kernelTables_congr
    apply hold
    intro heq
    exact hout q' (Nat.le_of_lt hq') (heq ▸ hu)
  rw [← hstep]
  refine ⟨?_, List.mem_cons_of_mem _ h.bootRoot, ?_, tree_agree h.tree hsame, ?_⟩
  · simp only [vmmMakePml4, captured, Option.getD_some]
    exact h.old
  · intro r hr i hi
    rcases List.mem_cons.mp hr with rfl | hr
    · show entry (vmmMakePml4 st.vm).1.mem (st.vm.pmm 0) i = _
      rw [entry_vmmMakePml4 st.vm, if_pos ⟨rfl, hi⟩, h.old, hold boot hbne]
    · have hrne : r ≠ st.vm.pmm 0 := fun heq => hnot (heq ▸ hr)
      show entry (vmmMakePml4 st.vm).1.mem r i = entry (vmmMakePml4 st.vm).1.mem boot i
      rw [hold r hrne, hold boot hbne]
      exact h.same r hr i hi
  · intro r hr q hq hlen
    rw [hsame q hlen]
    rcases List.mem_cons.mp hr with rfl | hr
    · exact hout q hlen
    · exact h.apart r hr q hq hlen

theorem shared_step {op : KernelOp} (h : KernelShared boot st)
    (hop : KernelAllowed boot st op ∧ NoNewEntry st op) (hstep : kernelStep st op = some st') :
    KernelShared boot st' := by
  cases op with
  | make => exact shared_make h hop.1 hstep
  | map pml4 virt phys flags => exact shared_map h hop.1 hop.2 hstep
  | unmap pml4 virt => exact shared_unmap h hop.1 hop.2 hstep

end

/-! Runs. -/

/-- The boot PML4 is the only one. -/
def bootSpaces (s : Vm) : Spaces := ⟨s, [vmmGetPml4 s]⟩

theorem shared_boot {s : Vm} (hold : s.oldPml4 = none)
    (htree : Tree (kernelTables s.mem (vmmGetPml4 s)) (vmmGetPml4 s) 3) :
    KernelShared (vmmGetPml4 s) (bootSpaces s) := by
  refine ⟨?_, List.mem_singleton.mpr rfl, ?_, htree, ?_⟩
  · simp only [bootSpaces, captured, hold, Option.getD_none]
  · intro r hr i _
    rw [List.mem_singleton.mp hr]
  · intro r hr p hp hlen ht
    rw [List.mem_singleton.mp hr] at ht
    exact hp (htree p [] _ hlen (by simp) ht rfl)

/-- **The kernel half is shared.** Let the tables below the upper half of the
    boot PML4 form a tree, large pages allowed. After every run of
    `vmm_make_pml4`, `vmm_map_page` and `vmm_unmap_page` on upper-half addresses
    through any of the PML4s, in which no map needs a new entry in a PML4 that
    is not the only one and no call is for an address in a large page, all
    PML4s have the same walk for every upper-half page. -/
theorem kernel_half_shared (s : Vm) (hold : s.oldPml4 = none)
    (htree : Tree (kernelTables s.mem (vmmGetPml4 s)) (vmmGetPml4 s) 3) (ops : List KernelOp) (st : Spaces)
    (hallowed : Runs.Meets kernelStep (KernelAllowed (vmmGetPml4 s)) (bootSpaces s) ops)
    (hcond : Runs.Meets kernelStep NoNewEntry (bootSpaces s) ops)
    (hrun : Runs.exec kernelStep (bootSpaces s) ops = some st) :
    ∀ r ∈ st.roots, ∀ r' ∈ st.roots, ∀ v : VPage, 256 ≤ v.pml4.val →
      walk st.vm.mem r v = walk st.vm.mem r' v := by
  have hshared := Runs.exec_inv_of (fun _ _ _ => shared_step) (shared_boot hold htree)
    (Runs.meets_and hallowed hcond) hrun
  intro r hr r' hr' v hv
  rw [walk_shared hshared hr hv, walk_shared hshared hr' hv]

/-! Two small machines, with the boot PML4 in frame 1. -/

theorem entry_zeroedMem (t : Frame) (i : Index) : entry zeroedMem t i = 0#64 := by
  simp [entry, load64, zeroedMem]

/-- Three frames that are no PML4s are fresh where every entry is zero or
    links another one. -/
theorem fresh_of_entries {boot x : Frame} {st : Spaces} {n : Nat} (hboot : boot ∈ st.roots)
    (hentry : ∀ t i, entry st.vm.mem t i = 0#64 ∨ entry st.vm.mem t i = tableEntry x)
    (hroots : ∀ k < 3, st.vm.pmm k ∉ st.roots) (hx : ∀ k < 3, st.vm.pmm k ≠ x)
    (hdistinct : ∀ k < 3, ∀ l < 3, st.vm.pmm k = st.vm.pmm l → k = l)
    (hzero : ∀ k < 3, ∀ i, entry st.vm.mem (st.vm.pmm k) i = 0#64) (hn : n ≤ 3) : Fresh boot st n := by
  refine ⟨fun k hk => hroots k (by omega), ?_, fun k hk l hl => hdistinct k (by omega) l (by omega),
    fun k hk => hzero k (by omega)⟩
  intro k hk
  apply outside_unlinked
  · intro heq
    exact hroots k (by omega) (heq ▸ hboot)
  · intro t i hlink
    rcases hentry t i with hz | hlinks
    · rw [kernelTables_zero hz] at hlink
      cases hlink
    · have hu := (kernelTables_some hlink).2.2.2
      rw [hlinks, pteFrame_tableEntry] at hu
      exact hx k (by omega) hu.symm

theorem entry_kernelMem (t : Frame) (i : Index) :
    entry kernelMem t i = if t = lowFrame 1 ∧ i = 256 then tableEntry (lowFrame 15) else 0#64 := by
  rw [kernelMem]
  by_cases h : t = lowFrame 1 ∧ i = 256
  · rw [if_pos h, h.1, h.2, entry_setEntry_self]
  · rw [if_neg h, entry_setEntry_other _ _ h, entry_zeroedMem]

/-- After `vmm_make_pml4` frame 2 has that entry too. -/
theorem entry_kernelMem_made (t : Frame) (i : Index) :
    entry (vmmMakePml4 (emptyVm kernelMem)).1.mem t i =
      if (t = lowFrame 1 ∨ t = lowFrame 2) ∧ i = 256 then tableEntry (lowFrame 15) else 0#64 := by
  rw [entry_vmmMakePml4]
  show (if t = lowFrame 2 ∧ 256 ≤ i.val then entry kernelMem (lowFrame 1) i
    else if t = lowFrame 2 ∧ i.val < 64 then 0#64 else entry kernelMem t i) = _
  have h12 : lowFrame 2 ≠ lowFrame 1 := by decide
  rw [entry_kernelMem, entry_kernelMem]
  by_cases h1 : t = lowFrame 1
  · subst h1
    simp [h12.symm]
  · by_cases h2 : t = lowFrame 2
    · subst h2
      by_cases hi : i = 256
      · subst hi
        simp
      · simp [h12, hi]
    · simp [h1, h2]

theorem tree_kernelMem : Tree (kernelTables kernelMem (lowFrame 1)) (lowFrame 1) 3 := by
  have hblank : ∀ t i, kernelTables zeroedMem (lowFrame 1) t i = none :=
    fun t i => kernelTables_zero (entry_zeroedMem t i)
  have hout : Outside (kernelTables zeroedMem (lowFrame 1)) (lowFrame 1) 3 (lowFrame 15) := by
    apply outside_unlinked (by decide)
    intro t i
    rw [hblank]
    exact nofun
  have hl : Linkable (kernelTables zeroedMem (lowFrame 1)) (lowFrame 1) 3 [] (lowFrame 1) 256 (lowFrame 15) :=
    ⟨tree_blank (hblank _) 3, by decide, rfl, hblank _ _, hout, fun _ => hblank _⟩
  rw [kernelMem, kernelTables_link (fun _ => by decide)]
  exact tree_link hl

/-- A PML4 is made, then a page of the upper half is mapped through `root`. -/
def makeThenMap (root : Frame) : List KernelOp :=
  [.make, .map root 0xFFFF800000000000#64 0x6000#64 3#64]

/-- The page is below the entry both have, and mapped through the new PML4. -/
theorem kernel_half_shared_made :
    ∃ st, Runs.exec kernelStep (bootSpaces (emptyVm kernelMem)) (makeThenMap (lowFrame 2)) = some st ∧
      ∀ r ∈ st.roots, ∀ r' ∈ st.roots, ∀ v : VPage, 256 ≤ v.pml4.val →
        walk st.vm.mem r v = walk st.vm.mem r' v := by
  have hmake : kernelStep (bootSpaces (emptyVm kernelMem)) .make =
      some ⟨(vmmMakePml4 (emptyVm kernelMem)).1, [lowFrame 2, lowFrame 1]⟩ := rfl
  obtain ⟨s', hs'⟩ := vmmMapPage_total (vmmMakePml4 (emptyVm kernelMem)).1 (lowFrame 2)
    0xFFFF800000000000#64 0x6000#64 3#64
  have hrun : Runs.exec kernelStep (bootSpaces (emptyVm kernelMem)) (makeThenMap (lowFrame 2)) =
      some ⟨s', [lowFrame 2, lowFrame 1]⟩ := by
    refine Runs.exec_cons.mpr ⟨_, hmake, Runs.exec_cons.mpr ⟨_, ?_, rfl⟩⟩
    rw [kernelStep, hs', Option.map_some]
  have hleads : Leads (vmmMakePml4 (emptyVm kernelMem)).1.mem (lowFrame 2) 256 (lowFrame 15) := by
    rw [Leads, entry_kernelMem_made, if_pos (by decide)]
    exact ⟨present_tableEntry _, not_large_tableEntry _, pteFrame_tableEntry _⟩
  refine ⟨_, hrun, kernel_half_shared (emptyVm kernelMem) rfl tree_kernelMem (makeThenMap (lowFrame 2)) _ ?_ ?_ hrun⟩
  · refine (Runs.meets_cons hmake).mpr ⟨?_, ⟨by decide, by decide, ?_⟩, fun _ _ => trivial⟩
    · apply fresh_of_entries (x := lowFrame 15) (by decide) ?_ (by decide) (by decide) (by decide) ?_
        (by decide)
      · intro t i
        show entry kernelMem t i = _ ∨ entry kernelMem t i = _
        rw [entry_kernelMem]
        split
        · exact .inr rfl
        · exact .inl rfl
      · intro k hk i
        show entry kernelMem (lowFrame (Fin.ofNat 16 (2 + k))) i = 0#64
        have hne : ∀ k < 3, lowFrame (Fin.ofNat 16 (2 + k)) ≠ lowFrame 1 := by decide
        rw [entry_kernelMem, if_neg (fun hc => hne k hk hc.1)]
    · apply fresh_of_entries (x := lowFrame 15) (by decide) ?_ (by decide) (by decide) (by decide) ?_
        (missing_le _ _ _)
      · intro t i
        rw [entry_kernelMem_made]
        split
        · exact .inr rfl
        · exact .inl rfl
      · intro k hk i
        have hne : ∀ k < 3, ¬ (lowFrame (Fin.ofNat 16 (2 + (k + 1))) = lowFrame 1 ∨
            lowFrame (Fin.ofNat 16 (2 + (k + 1))) = lowFrame 2) := by decide
        refine (entry_kernelMem_made _ i).trans (if_neg ?_)
        exact fun hc => hne k hk hc.1
  · refine (Runs.meets_cons hmake).mpr ⟨trivial, ⟨?_, .inl hleads.1⟩, fun _ _ => trivial⟩
    intro levels value
    have hzero : ∀ i, entry (vmmMakePml4 (emptyVm kernelMem)).1.mem (lowFrame 15) i = 0#64 := by
      intro i
      rw [entry_kernelMem_made, if_neg (fun hc => absurd hc.1 (by decide))]
    have hwalk : walk (vmmMakePml4 (emptyVm kernelMem)).1.mem (lowFrame 2)
        (VPage.of 0xFFFF800000000000#64) = .notPresent :=
      (hleads.walkFrom _ _).trans (walkFrom_zero hzero _ _)
    rw [hwalk]
    exact nofun

/-! Where the boot PML4 has no upper entry. -/

theorem setEntry_zeroedMem (t : Frame) (i : Index) : setEntry zeroedMem t i 0#64 = zeroedMem := by
  funext x
  simp [setEntry, store64, zeroedMem]

theorem copyUpper_zeroedMem (new old : Frame) : copyUpper zeroedMem new old = zeroedMem := by
  rw [copyUpper]
  generalize (List.finRange 512).filter _ = is
  induction is with
  | nil => rfl
  | cons i is ih => rw [List.foldl_cons, entry_zeroedMem, setEntry_zeroedMem, ih]

theorem memzero_zeroedMem (ptr : BitVec 64) : memzero zeroedMem ptr 512 = zeroedMem := by
  rw [memzero_eq_fill _ _ (by decide)]
  funext x
  simp [fill, zeroedMem]

/-- The state after `vmm_make_pml4` on zeroed memory. -/
def madeZeroed : Spaces :=
  let s := emptyVm zeroedMem
  ⟨{ s.pmmAlloc with oldPml4 := some s.cr3 }, [s.pmm 0, s.cr3]⟩

theorem make_zeroedMem : kernelStep (bootSpaces (emptyVm zeroedMem)) .make = some madeZeroed := by
  simp only [kernelStep, bootSpaces, vmmMakePml4, emptyVm, memzero_zeroedMem, copyUpper_zeroedMem]
  rfl

/-- The map needs a new entry in the boot PML4, and the PML4 made before does
    not get it: the page is there in one and not in the other. -/
theorem kernel_half_splits :
    Tree (kernelTables zeroedMem (lowFrame 1)) (lowFrame 1) 3 ∧
      Runs.Meets kernelStep (KernelAllowed (lowFrame 1)) (bootSpaces (emptyVm zeroedMem)) (makeThenMap (lowFrame 1)) ∧
      ∃ st, Runs.exec kernelStep (bootSpaces (emptyVm zeroedMem)) (makeThenMap (lowFrame 1)) = some st ∧
        st.roots = [lowFrame 2, lowFrame 1] ∧
        walk st.vm.mem (lowFrame 1) (VPage.of 0xFFFF800000000000#64) = .page 0x6003#64 ∧
        walk st.vm.mem (lowFrame 2) (VPage.of 0xFFFF800000000000#64) = .notPresent := by
  have hfresh : ∀ (st : Spaces) (n : Nat), lowFrame 1 ∈ st.roots → st.vm.mem = zeroedMem →
      (∀ k < 3, st.vm.pmm k ∉ st.roots) → (∀ k < 3, st.vm.pmm k ≠ lowFrame 15) →
      (∀ k < 3, ∀ l < 3, st.vm.pmm k = st.vm.pmm l → k = l) → n ≤ 3 → Fresh (lowFrame 1) st n := by
    intro st n hboot hmem hroots hx hdistinct hn
    refine fresh_of_entries hboot ?_ hroots hx hdistinct ?_ hn
    · intro t i
      rw [hmem]
      exact .inl (entry_zeroedMem t i)
    · intro k _ i
      rw [hmem]
      exact entry_zeroedMem _ i
  refine ⟨tree_blank (fun i => kernelTables_zero (entry_zeroedMem _ i)) 3, ?_, ?_⟩
  · refine (Runs.meets_cons make_zeroedMem).mpr ⟨?_, ⟨by decide, by decide, ?_⟩, fun _ _ => trivial⟩
    · exact hfresh _ _ (by decide) rfl (by decide) (by decide) (by decide) (by decide)
    · exact hfresh madeZeroed _ (by decide) rfl (by decide) (by decide) (by decide) (missing_le _ _ _)
  · have hrun : (kernelStep madeZeroed
        (.map (lowFrame 1) 0xFFFF800000000000#64 0x6000#64 3#64)).any (fun st =>
          st.roots = [lowFrame 2, lowFrame 1] ∧
            walk st.vm.mem (lowFrame 1) (VPage.of 0xFFFF800000000000#64) = .page 0x6003#64 ∧
            walk st.vm.mem (lowFrame 2) (VPage.of 0xFFFF800000000000#64) = .notPresent) = true := by
      decide +kernel
    obtain ⟨st, hst, hwalks⟩ := (Option.any_eq_true _ _).mp hrun
    refine ⟨st, Runs.exec_cons.mpr ⟨_, make_zeroedMem, Runs.exec_cons.mpr ⟨st, hst, rfl⟩⟩, ?_⟩
    exact of_decide_eq_true hwalks

end Qnixx
