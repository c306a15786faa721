import Mathlib.Tactic.Common
import Qnixx.Vmm

/- New address spaces. `vmm_make_pml4` is to return a table that is empty in
   the lower half and the kernel's in the upper half. Its `memzero` counts
   bytes where the loop after it counts entries: 512 bytes are 64 entries, and
   entries 64 to 255 keep what the frame held. The lower half is empty exactly
   when these words map nothing as they stand. -/
namespace Qnixx
open ByteMem

/-! The entries of the new table. -/

theorem entry_fold_set (new old : Frame) (is : List Index) (m : Mem) (t : Frame) (j : Index) :
    entry (is.foldl (fun m i => setEntry m new i (entry m old i)) m) t j =
      if t = new ∧ j ∈ is then entry m old j else entry m t j := by
  induction is generalizing m with
  | nil => simp
  | cons i is ih =>
    have hold : ∀ j, entry (setEntry m new i (entry m old i)) old j = entry m old j := by
      intro j
      by_cases hslot : old = new ∧ j = i
      · rw [hslot.2, ← hslot.1, entry_setEntry_self]
      · exact entry_setEntry_other m _ hslot
    rw [List.foldl_cons, ih, hold]
    by_cases hin : t = new ∧ j ∈ is
    · rw [if_pos hin, if_pos ⟨hin.1, List.mem_cons_of_mem i hin.2⟩]
    · rw [if_neg hin]
      by_cases hslot : t = new ∧ j = i
      · rw [if_pos ⟨hslot.1, hslot.2 ▸ List.mem_cons_self ..⟩, hslot.1, hslot.2, entry_setEntry_self]
      · rw [entry_setEntry_other m _ hslot, if_neg]
        intro h
        rcases List.mem_cons.mp h.2 with hi | hi
        · exact hslot ⟨h.1, hi⟩
        · exact hin ⟨h.1, hi⟩

theorem entry_memzero (m : Mem) (f t : Frame) (j : Index) :
    entry (memzero m f.addr 512) t j = if t = f ∧ j.val < 64 then 0#64 else entry m t j := by
  rw [memzero_eq_fill m f.addr (by decide)]
  have hj := j.isLt
  by_cases hlow : t = f ∧ j.val < 64
  · rw [if_pos hlow, hlow.1]
    exact load64_fill_zero m f.addr (by omega) (by decide)
  · rw [if_neg hlow]
    apply load64_fill_outside
    intro k hk
    have hf := f.addr_mod
    have ht := t.addr_mod
    have hf' := f.addr_lt
    have ht' := t.addr_lt
    have hne : t.addr.toNat ≠ f.addr.toNat ∨ 64 ≤ j.val := by
      by_contra hcon
      rw [not_or, not_not, Nat.not_le] at hcon
      exact hlow ⟨Frame.addr_injective (BitVec.eq_of_toNat_eq hcon.1), hcon.2⟩
    simp only [Inside, entryAddr]
    bv_omega

/-- The PML4 whose upper half the next call copies. -/
def captured (s : Vm) : Frame := s.oldPml4.getD (vmmGetPml4 s)

/-- The entries of all tables after `vmm_make_pml4`. -/
theorem entry_vmmMakePml4 (s : Vm) (t : Frame) (j : Index) :
    entry (vmmMakePml4 s).1.mem t j =
      if t = s.pmm 0 ∧ 256 ≤ j.val then entry s.mem (captured s) j
      else if t = s.pmm 0 ∧ j.val < 64 then 0#64
      else entry s.mem t j := by
  have hmem : (vmmMakePml4 s).1.mem =
      copyUpper (memzero s.mem (s.pmm 0).addr 512) (s.pmm 0) (captured s) := by
    simp only [vmmMakePml4, captured]
  rw [hmem, copyUpper, entry_fold_set]
  simp only [List.mem_filter, List.mem_finRange, true_and, decide_eq_true_eq]
  by_cases hup : t = s.pmm 0 ∧ 256 ≤ j.val
  · -- the entries copied are none of those cleared
    have hlow : ¬ (captured s = s.pmm 0 ∧ j.val < 64) := by omega
    rw [if_pos hup, if_pos hup, entry_memzero, if_neg hlow]
  · rw [if_neg hup, if_neg hup, entry_memzero]

/-! Walks that end before a page. -/

theorem walkFrom_notPresent (m : Mem) (t : Frame) (j : Index) (p : List Index) (i : Index) :
    walkFrom m t (j :: p) i = .notPresent ↔ (Present (entry m t j) →
      ¬ Large (entry m t j) ∧ walkFrom m (pteFrame (entry m t j)) p i = .notPresent) := by
  simp only [walkFrom]
  by_cases hp : Present (entry m t j)
  · by_cases hl : Large (entry m t j)
    · simp [hp, hl]
    · simp [hp, hl]
  · simp [hp]

/-- No walk from the page-directory-pointer table `t` on finds a page. -/
def MapsNothing (m : Mem) (t : Frame) : Prop := ∀ j k i, walkFrom m t [j, k] i = .notPresent

/-- The entries `memzero` was meant to clear and did not. -/
def Kept (j : Index) : Prop := 64 ≤ j.val ∧ j.val < 256

/-- What the kept entries of `f` held maps nothing, seen as entries of a PML4. -/
def KeptHarmless (m : Mem) (f : Frame) : Prop :=
  ∀ j, Kept j → Present (entry m f j) →
    ¬ Large (entry m f j) ∧ MapsNothing m (pteFrame (entry m f j))

theorem keptHarmless_iff (m : Mem) (f : Frame) :
    KeptHarmless m f ↔ ∀ v : VPage, Kept v.pml4 → walk m f v = .notPresent := by
  refine ⟨?_, ?_⟩
  · intro h v hv
    refine (walkFrom_notPresent m f v.pml4 [v.pdpt, v.pd] v.pt).mpr ?_
    intro hp
    exact ⟨(h v.pml4 hv hp).1, (h v.pml4 hv hp).2 v.pdpt v.pd v.pt⟩
  · intro h j hj hp
    have hall : ∀ k l i, _ := fun k l i => (walkFrom_notPresent m f j [k, l] i).mp (h ⟨j, k, l, i⟩ hj) hp
    exact ⟨(hall 0 0 0).1, fun k l i => (hall k l i).2⟩

/-- The entry `i` of `t` leads to the table `u`. -/
def Leads (m : Mem) (t : Frame) (i : Index) (u : Frame) : Prop :=
  Present (entry m t i) ∧ ¬ Large (entry m t i) ∧ pteFrame (entry m t i) = u

theorem Leads.walkFrom {m : Mem} {t u : Frame} {j : Index} (h : Leads m t j u) (p : List Index)
    (i : Index) : walkFrom m t (j :: p) i = walkFrom m u p i := by
  simp only [Qnixx.walkFrom, h.1, h.2.1, not_true, if_false, h.2.2]

/-- No path through a kept entry comes back to the frame. If one did, the walk
    that goes round once more would end at a present entry. -/
theorem kept_no_return {m : Mem} {f : Frame} (h : ∀ v : VPage, Kept v.pml4 → walk m f v = .notPresent)
    {j : Index} (hj : Kept j) {t : Frame} (ht : Leads m f j t) :
    t ≠ f ∧ ∀ k u, Leads m t k u → u ≠ f ∧ ∀ l w, Leads m u l w → w ≠ f := by
  have hpresent : ∀ (g : Frame) (i : Index) (u : Frame), Leads m g i u → Walk.ofPte (entry m g i) ≠ .notPresent := by
    intro g i u hg
    simp [Walk.ofPte, hg.1]
  refine ⟨?_, ?_⟩
  · intro htf
    rw [htf] at ht
    have hwalk : walk m f ⟨j, j, j, j⟩ = .ofPte (entry m f j) := by
      simp only [walk, VPage.path, ht.walkFrom]
      rfl
    exact hpresent f j f ht (hwalk ▸ h ⟨j, j, j, j⟩ hj)
  · intro k u hu
    refine ⟨?_, ?_⟩
    · intro huf
      rw [huf] at hu
      have hwalk : walk m f ⟨j, k, j, k⟩ = .ofPte (entry m t k) := by
        simp only [walk, VPage.path, ht.walkFrom, hu.walkFrom]
        rfl
      exact hpresent t k f hu (hwalk ▸ h ⟨j, k, j, k⟩ hj)
    · intro l w hw hwf
      rw [hwf] at hw
      have hwalk : walk m f ⟨j, k, l, j⟩ = .ofPte (entry m f j) := by
        simp only [walk, VPage.path, ht.walkFrom, hu.walkFrom, hw.walkFrom]
        rfl
      exact hpresent f j t ht (hwalk ▸ h ⟨j, k, l, j⟩ hj)

/-- Two memories that differ only in the other entries of `f`. -/
structure SameBut (m m' : Mem) (f : Frame) : Prop where
  others : ∀ t, t ≠ f → ∀ i, entry m' t i = entry m t i
  kept : ∀ i, Kept i → entry m' f i = entry m f i

theorem SameBut.symm {m m' : Mem} {f : Frame} (h : SameBut m m' f) : SameBut m' m f :=
  ⟨fun t ht i => (h.others t ht i).symm, fun i hi => (h.kept i hi).symm⟩

/-- One level down: a walk that ends early still does when its first entry is
    the same and what follows still ends early. -/
theorem notPresent_down {m m' : Mem} {t : Frame} {j i : Index} {p : List Index}
    (hentry : entry m' t j = entry m t j) (h : walkFrom m t (j :: p) i = .notPresent)
    (hnext : ∀ u, Leads m t j u → walkFrom m u p i = .notPresent → walkFrom m' u p i = .notPresent) :
    walkFrom m' t (j :: p) i = .notPresent := by
  refine (walkFrom_notPresent m' t j p i).mpr ?_
  rw [hentry]
  intro hp
  obtain ⟨hlarge, hwalk⟩ := (walkFrom_notPresent m t j p i).mp h hp
  exact ⟨hlarge, hnext _ ⟨hp, hlarge, rfl⟩ hwalk⟩

theorem kept_walks_same {m m' : Mem} {f : Frame} (hsame : SameBut m m' f)
    (h : ∀ v : VPage, Kept v.pml4 → walk m f v = .notPresent) (v : VPage) (hv : Kept v.pml4) :
    walk m' f v = .notPresent := by
  -- the tables on the way are not `f`, so their entries are the same
  refine notPresent_down (hsame.kept v.pml4 hv) (h v hv) ?_
  intro pdpt hpdpt hwalk
  obtain ⟨hne, hreturn⟩ := kept_no_return h hv hpdpt
  refine notPresent_down (hsame.others pdpt hne _) hwalk ?_
  intro pd hpd hwalk₁
  obtain ⟨hne₁, hreturn₁⟩ := hreturn v.pdpt pd hpd
  refine notPresent_down (hsame.others pd hne₁ _) hwalk₁ ?_
  intro pt hpt hwalk₂
  rw [walkFrom, hsame.others pt (hreturn₁ v.pd pt hpt)]
  exact hwalk₂

/-! The new table. -/

/-- `new` is empty in the lower half and walks like `old` in the upper half. -/
structure EmptyBelow (m : Mem) (new old : Frame) : Prop where
  lower : ∀ v : VPage, v.pml4.val < 256 → walk m new v = .notPresent
  upper : ∀ v : VPage, 256 ≤ v.pml4.val → walk m new v = walk m old v

section
variable {s : Vm}

theorem vmmMakePml4_sameBut (s : Vm) :
    SameBut s.mem (vmmMakePml4 s).1.mem (s.pmm 0) := by
  refine ⟨?_, ?_⟩
  · intro t ht i
    rw [entry_vmmMakePml4 s, if_neg (fun h => ht h.1), if_neg (fun h => ht h.1)]
  · intro i hi
    have hupper : ¬ 256 ≤ i.val := Nat.not_le.mpr hi.2
    have hcleared : ¬ i.val < 64 := Nat.not_lt.mpr hi.1
    rw [entry_vmmMakePml4 s, if_neg (fun h => hupper h.2), if_neg (fun h => hcleared h.2)]

theorem walk_cleared (s : Vm) (v : VPage) (hv : v.pml4.val < 64) :
    walk (vmmMakePml4 s).1.mem (s.pmm 0) v = .notPresent := by
  refine (walkFrom_notPresent _ _ v.pml4 [v.pdpt, v.pd] v.pt).mpr ?_
  intro hp
  rw [entry_vmmMakePml4 s, if_neg (by omega), if_pos ⟨rfl, hv⟩] at hp
  exact absurd hp (by decide)

theorem walk_copied (hne : s.pmm 0 ≠ captured s) (v : VPage) (hv : 256 ≤ v.pml4.val) :
    walk (vmmMakePml4 s).1.mem (s.pmm 0) v = walk (vmmMakePml4 s).1.mem (captured s) v := by
  have hentry : entry (vmmMakePml4 s).1.mem (s.pmm 0) v.pml4 =
      entry (vmmMakePml4 s).1.mem (captured s) v.pml4 := by
    rw [entry_vmmMakePml4 s, if_pos ⟨rfl, hv⟩, entry_vmmMakePml4 s,
      if_neg (fun h => hne h.1.symm), if_neg (fun h => hne h.1.symm)]
  simp only [walk, VPage.path, walkFrom, hentry]

theorem vmmMakePml4_emptyBelow (hne : s.pmm 0 ≠ captured s) :
    EmptyBelow (vmmMakePml4 s).1.mem (s.pmm 0) (captured s) ↔ KeptHarmless s.mem (s.pmm 0) := by
  have hsame := vmmMakePml4_sameBut s
  rw [keptHarmless_iff]
  refine ⟨?_, ?_⟩
  · intro h
    exact kept_walks_same hsame.symm (fun v hv => h.lower v hv.2)
  · intro h
    refine ⟨?_, walk_copied hne⟩
    intro v hv
    by_cases hlow : v.pml4.val < 64
    · exact walk_cleared s v hlow
    · exact kept_walks_same hsame h v ⟨Nat.not_lt.mp hlow, hv⟩

end

/-! Over the life of the kernel. -/

/-- A call of `vmm_make_pml4`, or anything else: that may leave any memory, any
    frames to come and any CR3, but does not reach the static variable. -/
inductive SpaceOp where
  | make
  | other (mem : Mem) (pmm : Nat → Frame) (cr3 : Frame)

def spaceStep (s : Vm) : SpaceOp → Vm
  | .make => (vmmMakePml4 s).1
  | .other mem pmm cr3 => { s with mem, pmm, cr3 }

/-- The PML4 in CR3 at the first call, among `ops` or the one after them. -/
def firstPml4 (s : Vm) : List SpaceOp → Frame
  | [] => vmmGetPml4 s
  | .make :: _ => vmmGetPml4 s
  | .other mem pmm cr3 :: ops => firstPml4 { s with mem, pmm, cr3 } ops

theorem captured_keeps {s : Vm} {f : Frame} (ops : List SpaceOp) (h : s.oldPml4 = some f) :
    captured (ops.foldl spaceStep s) = f := by
  induction ops generalizing s with
  | nil => simp only [List.foldl_nil, captured, h, Option.getD_some]
  | cons op ops ih =>
    rw [List.foldl_cons]
    apply ih
    cases op with
    | make => simp only [spaceStep, vmmMakePml4, h, Option.getD_some]
    | other mem pmm cr3 => exact h

theorem captured_first {s : Vm} (ops : List SpaceOp) (h : s.oldPml4 = none) :
    captured (ops.foldl spaceStep s) = firstPml4 s ops := by
  induction ops generalizing s with
  | nil => simp only [List.foldl_nil, captured, h, Option.getD_none, firstPml4]
  | cons op ops ih =>
    rw [List.foldl_cons]
    cases op with
    | make =>
      apply captured_keeps
      simp only [spaceStep, vmmMakePml4, h, Option.getD_none, firstPml4]
    | other mem pmm cr3 => exact ih h

/-- **New address spaces.** Whatever happened since boot, the table a call
    returns is empty below and the first call's PML4 above iff the words 64 to
    255 its frame held map nothing. -/
theorem new_space_iff (boot : Vm) (hboot : boot.oldPml4 = none) (ops : List SpaceOp)
    (hunused : (ops.foldl spaceStep boot).pmm 0 ≠ firstPml4 boot ops) :
    EmptyBelow (vmmMakePml4 (ops.foldl spaceStep boot)).1.mem
        (vmmMakePml4 (ops.foldl spaceStep boot)).2 (firstPml4 boot ops) ↔
      KeptHarmless (ops.foldl spaceStep boot).mem ((ops.foldl spaceStep boot).pmm 0) := by
  have hcaptured := captured_first ops hboot
  rw [← hcaptured] at hunused ⊢
  exact vmmMakePml4_emptyBelow hunused

/-- A first call with frame 1 in CR3; then CR3 holds frame 9, and frame 2 is
    free again. -/
def reusedVm : Vm :=
  [.make, .other reusedMem (emptyVm reusedMem).pmm ((emptyVm reusedMem).pmm 7)].foldl spaceStep (emptyVm kernelMem)

theorem entry_reusedMem {t : Frame} {j : Index} (h₁ : t ≠ lowFrame 1)
    (h₂ : t = lowFrame 2 → j ≠ 3 ∧ j ≠ 300 ∧ j ≠ 100) : ¬ Present (entry reusedMem t j) := by
  rw [reusedMem, entry_setEntry_other _ _ (fun h => (h₂ h.1).2.2 h.2),
    entry_setEntry_other _ _ (fun h => (h₂ h.1).2.1 h.2), entry_setEntry_other _ _ (fun h => (h₂ h.1).1 h.2),
    kernelMem, entry_setEntry_other _ _ (fun h => h₁ h.1)]
  exact not_present_zeroedMem t j

theorem keptHarmless_reusedMem : KeptHarmless reusedMem (lowFrame 2) := by
  intro j hj hp
  obtain rfl : j = 100 := by
    by_contra hne
    refine entry_reusedMem (by decide) (fun _ => ⟨?_, ?_, hne⟩) hp
    · rintro rfl
      exact absurd hj.1 (by decide)
    · rintro rfl
      exact absurd hj.2 (by decide)
  have hentry : entry reusedMem (lowFrame 2) 100 = tableEntry (lowFrame 5) := entry_setEntry_self ..
  rw [hentry, pteFrame_tableEntry]
  refine ⟨not_large_tableEntry _, ?_⟩
  intro k l i
  refine (walkFrom_notPresent reusedMem (lowFrame 5) k [l] i).mpr ?_
  intro hp'
  exact absurd hp' (entry_reusedMem (by decide) (fun h => absurd h (by decide)))

/-- Entry 3 is cleared, entry 100 is kept, and the entries 256 and 300 are those
    of frame 1. -/
theorem new_space_iff_reused :
    EmptyBelow (vmmMakePml4 reusedVm).1.mem (vmmMakePml4 reusedVm).2 (lowFrame 1) ∧
      [3, 100, 256, 300].map (entry (vmmMakePml4 reusedVm).1.mem (vmmMakePml4 reusedVm).2) =
        [0, tableEntry (lowFrame 5), tableEntry (lowFrame 15), 0] := by
  refine ⟨(new_space_iff (emptyVm kernelMem) rfl _ (by decide)).mpr keptHarmless_reusedMem, ?_⟩
  show [3, 100, 256, 300].map (entry (vmmMakePml4 reusedVm).1.mem (reusedVm.pmm 0)) = _
  simp only [List.map_cons, List.map_nil, entry_vmmMakePml4]
  decide +kernel

/-- Word 64 of frame 2 points to frame 2 itself. -/
def staleWord : Mem := store64 (fun _ => 0) 0x2200#64 0x2001#64

/-- The frame becomes a PML4 in which a lower-half page is mapped. -/
theorem new_space_maps_lower_page :
    (emptyVm staleWord).pmm 0 ≠ (emptyVm staleWord).cr3 ∧
      ¬ EmptyBelow (vmmMakePml4 (emptyVm staleWord)).1.mem (vmmMakePml4 (emptyVm staleWord)).2
        (emptyVm staleWord).cr3 := by
  have hne : (emptyVm staleWord).pmm 0 ≠ (emptyVm staleWord).cr3 := by decide
  refine ⟨hne, ?_⟩
  intro h
  -- the word is kept, and the walk that takes it four times ends at it
  have hkept := (keptHarmless_iff _ _).mp ((vmmMakePml4_emptyBelow hne).mp h)
  have hwalk : walk staleWord (lowFrame 2) ⟨64, 64, 64, 64⟩ = .page 0x2001#64 := by decide +kernel
  have hempty : walk staleWord (lowFrame 2) ⟨64, 64, 64, 64⟩ = .notPresent :=
    hkept ⟨64, 64, 64, 64⟩ ⟨by decide, by decide⟩
  rw [hwalk] at hempty
  exact absurd hempty (by decide)

end Qnixx
