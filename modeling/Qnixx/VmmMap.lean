import Mathlib.Tactic.Common
import Mathlib.Logic.Function.Basic
import Qnixx.Lib.Runs
import Qnixx.Vmm

/- Mapping and unmapping pages of one PML4. The tables implement a map from
   virtual pages to page-table entries (`PageMap`): from a well-formed tree,
   every run of `vmm_map_page` and `vmm_unmap_page` gives each page what the
   abstract map says, as long as the frames that become tables hold no present
   word. `get_next_level` does not clear a new table, so whatever present words
   its frame held become mappings of pages nobody mapped. -/
namespace Qnixx
open ByteMem Radix

/-- The frames the next `n` calls of `pmm_alloc(1)` return are in use by nobody:
    they are no tables of the tree, and different from each other. -/
structure Unused (s : Vm) (pml4 : Frame) (n : Nat) : Prop where
  outside : ∀ k < n, Outside (links s.mem) pml4 3 (s.pmm k)
  distinct : ∀ k < n, ∀ l < n, s.pmm k = s.pmm l → k = l

/-- These frames hold no present word. In the last of them, which becomes the
    page table of `v`, the word of `v` itself is overwritten and may be any. -/
def Blank (s : Vm) (v : VPage) (n : Nat) : Prop :=
  ∀ k < n, ∀ i, Present (entry s.mem (s.pmm k) i) → k + 1 = n ∧ i = v.pt

/-- How many tables on the path of `v` are not there. -/
def tablesMissing (s : Vm) (pml4 : Frame) (v : VPage) : Nat := missing (links s.mem) pml4 v.path

/-! Going down the levels. -/

/-- `getPageTable` for `v`, called in `s₀`, has followed the indices `p` to the
    table `t` and has those in `q` to go. -/
structure Descent (pml4 : Frame) (v : VPage) (s₀ s : Vm) (p q : List Index) (t : Frame) : Prop where
  path : v.path = p ++ q
  tree : PageTree s.mem pml4
  here : tableAt (links s.mem) pml4 p = some t
  others : ∀ w, w ≠ v → walk s.mem pml4 w = walk s₀.mem pml4 w
  unused : Unused s pml4 (missing (links s.mem) t q)
  blank : Blank s v (missing (links s.mem) t q)

section
variable {pml4 t : Frame} {v : VPage} {s₀ s : Vm} {p q : List Index} {i : Index}

theorem Descent.depth (h : Descent pml4 v s₀ s p (i :: q) t) : p.length + q.length = 2 := by
  have hlen := congrArg List.length h.path
  simp only [VPage.path, List.length_append, List.length_cons, List.length_nil] at hlen
  omega

theorem Descent.linkable (h : Descent pml4 v s₀ s p (i :: q) t) (hempty : links s.mem t i = none) :
    Linkable (links s.mem) pml4 3 p t i (s.pmm 0) := by
  have hdepth := h.depth
  have hmissing := missing_none hempty q
  refine ⟨h.tree.tree, by omega, h.here, hempty, ?_, ?_⟩
  · exact h.unused.outside 0 (by omega)
  · intro hupper j
    apply links_eq_none.mpr
    intro hj
    have hlast := (h.blank 0 (by omega) j hj).1
    omega

/-- A frame to come is none of the tables, and not the frame taken now. -/
theorem Descent.next_frame (h : Descent pml4 v s₀ s p (i :: q) t) (hempty : links s.mem t i = none)
    {k : Nat} (hk : k < q.length) :
    s.pmm (k + 1) ≠ s.pmm 0 ∧ s.pmm (k + 1) ≠ t := by
  have hdepth := h.depth
  have hmissing := missing_none hempty q
  refine ⟨?_, ?_⟩
  · intro heq
    have hkz := h.unused.distinct (k + 1) (by omega) 0 (by omega) heq
    omega
  · intro heq
    exact h.unused.outside (k + 1) (by omega) p (by omega) (heq ▸ h.here)

/-- The new table lacks every table below it. -/
theorem Descent.missing_new (h : Descent pml4 v s₀ s p (i :: q) t) (hempty : links s.mem t i = none) :
    missing (link (links s.mem) t i (s.pmm 0)) (s.pmm 0) q = q.length := by
  have hl := h.linkable hempty
  have hdepth := h.depth
  cases q with
  | nil => rfl
  | cons j q =>
    apply missing_blank
    intro k
    rw [List.length_cons] at hdepth
    simp only [link, hl.ne, false_and, if_false]
    exact hl.blank (by omega) k

theorem Descent.alloc (h : Descent pml4 v s₀ s p (i :: q) t) (hempty : links s.mem t i = none) :
    Descent pml4 v s₀ (s.pmmAlloc.setEntry t i (tableEntry (s.pmm 0))) (p ++ [i]) q (s.pmm 0) := by
  have hl := h.linkable hempty
  have hlinks := links_setEntry_table s.mem t i (s.pmm 0)
  have hmissing := missing_none hempty q
  have hnew := h.missing_new hempty
  refine ⟨?_, pageTree_link h.tree hl, ?_, ?_, ⟨?_, ?_⟩, ?_⟩
  · rw [h.path, List.append_assoc, List.singleton_append]
  · show tableAt (links (setEntry s.mem t i (tableEntry (s.pmm 0)))) pml4 (p ++ [i]) = some (s.pmm 0)
    rw [hlinks]
    exact tableAt_link_self hl
  · intro w hw
    rw [← h.others w hw]
    apply walk_link h.tree hl
    intro hpath hpresent
    -- the new table is the page table, and `w` another page of it
    have hpt := (h.blank 0 (by omega) w.pt hpresent)
    have hq : q = [] := List.eq_nil_of_length_eq_zero (by omega)
    have hv : w.path = v.path := by rw [hpath, h.path, hq]
    exact hw (VPage.eq_of_path hv hpt.2)
  · intro k hk
    simp only [Vm.setEntry, Vm.pmmAlloc, hlinks, hnew] at hk ⊢
    exact outside_link hl (h.unused.outside (k + 1) (by omega)) (h.next_frame hempty hk).1
  · intro k hk l hl' heq
    simp only [Vm.setEntry, Vm.pmmAlloc, hlinks, hnew] at hk hl' heq
    have hkl := h.unused.distinct (k + 1) (by omega) (l + 1) (by omega) heq
    omega
  · intro k hk j hj
    simp only [Vm.setEntry, Vm.pmmAlloc, hlinks, hnew] at hk hj ⊢
    have hslot : ¬ (s.pmm (k + 1) = t ∧ j = i) := fun heq => (h.next_frame hempty hk).2 heq.1
    rw [entry_setEntry_other s.mem _ hslot] at hj
    have hlast := h.blank (k + 1) (by omega) j hj
    exact ⟨by omega, hlast.2⟩

theorem Descent.follow (h : Descent pml4 v s₀ s p (i :: q) t) {u : Frame}
    (hlink : links s.mem t i = some u) : Descent pml4 v s₀ s (p ++ [i]) q u := by
  have hmissing := missing_some hlink q
  refine ⟨?_, h.tree, ?_, h.others, hmissing ▸ h.unused, hmissing ▸ h.blank⟩
  · rw [h.path, List.append_assoc, List.singleton_append]
  · rw [tableAt_snoc, h.here]
    exact hlink

/-- One level down. -/
theorem Descent.level (h : Descent pml4 v s₀ s p (i :: q) t) :
    ∃ s' u, getNextLevel s t i true = (s', some u) ∧ Descent pml4 v s₀ s' (p ++ [i]) q u := by
  cases hlink : links s.mem t i with
  | none => exact ⟨_, _, getNextLevel_alloc hlink, h.alloc hlink⟩
  | some u => exact ⟨s, u, getNextLevel_present hlink true, h.follow hlink⟩

end

theorem getPageTable_descent {s : Vm} {pml4 : Frame} {virt : BitVec 64} (htree : PageTree s.mem pml4)
    (hunused : Unused s pml4 (tablesMissing s pml4 (VPage.of virt)))
    (hblank : Blank s (VPage.of virt) (tablesMissing s pml4 (VPage.of virt))) :
    ∃ s' t, getPageTable s pml4 virt true = (s', some t) ∧
      Descent pml4 (VPage.of virt) s s' (VPage.of virt).path [] t := by
  have h₀ : Descent pml4 (VPage.of virt) s s []
      [tableIndex virt 39, tableIndex virt 30, tableIndex virt 21] pml4 :=
    ⟨rfl, htree, rfl, fun _ _ => rfl, hunused, hblank⟩
  obtain ⟨s₁, pdpt, hpdpt, h₁⟩ := h₀.level
  obtain ⟨s₂, pd, hpd, h₂⟩ := h₁.level
  obtain ⟨s₃, pt, hpt, h₃⟩ := h₂.level
  refine ⟨s₃, pt, ?_, h₃⟩
  simp only [getPageTable, hpdpt, hpd, hpt]

/-! One call. -/

theorem vmmMapPage_walk {s : Vm} {pml4 : Frame} {virt : BitVec 64} (phys flags : BitVec 64)
    (htree : PageTree s.mem pml4)
    (hunused : Unused s pml4 (tablesMissing s pml4 (VPage.of virt)))
    (hblank : Blank s (VPage.of virt) (tablesMissing s pml4 (VPage.of virt))) :
    ∃ s', vmmMapPage s pml4 virt phys flags = some s' ∧ PageTree s'.mem pml4 ∧
      ∀ w, walk s'.mem pml4 w =
        if w = VPage.of virt then .ofPte (phys ||| flags) else walk s.mem pml4 w := by
  obtain ⟨s₁, t, hcall, h⟩ := getPageTable_descent htree hunused hblank
  refine ⟨s₁.setEntry t (VPage.of virt).pt (phys ||| flags), ?_, ?_, ?_⟩
  · simp only [vmmMapPage, hcall]
    rfl
  · exact pageTree_setEntry h.tree h.here _
  · intro w
    refine (walk_setEntry h.tree h.here (phys ||| flags) w).trans ?_
    by_cases hw : w = VPage.of virt
    · simp only [hw, if_true]
    · simp only [hw, if_false]
      exact h.others w hw

theorem vmmUnmapPage_walk {s : Vm} {pml4 : Frame} (virt : BitVec 64) (htree : PageTree s.mem pml4) :
    PageTree (vmmUnmapPage s pml4 virt).mem pml4 ∧
      ∀ w, walk (vmmUnmapPage s pml4 virt).mem pml4 w =
        if w = VPage.of virt then .notPresent else walk s.mem pml4 w := by
  cases ht : tableAt (links s.mem) pml4 (VPage.of virt).path with
  | none =>
    have hsame : vmmUnmapPage s pml4 virt = s := by simp only [vmmUnmapPage, getPageTable_lookup, ht]
    rw [hsame]
    refine ⟨htree, ?_⟩
    intro w
    by_cases hw : w = VPage.of virt
    · rw [if_pos hw, hw, walk_eq htree, ht]
      rfl
    · rw [if_neg hw]
  | some t =>
    have hwrite : (vmmUnmapPage s pml4 virt).mem = setEntry s.mem t (VPage.of virt).pt 0#64 := by
      simp only [vmmUnmapPage, getPageTable_lookup, ht]
      rfl
    rw [hwrite]
    refine ⟨pageTree_setEntry htree ht _, ?_⟩
    intro w
    rw [walk_setEntry htree ht]
    rfl

/-! Runs. -/

inductive VmmOp where
  | map (virt phys flags : BitVec 64)
  | unmap (virt : BitVec 64)

def vmmStep (pml4 : Frame) (s : Vm) : VmmOp → Option Vm
  | .map virt phys flags => vmmMapPage s pml4 virt phys flags
  | .unmap virt => some (vmmUnmapPage s pml4 virt)

/-- What the page tables stand for: what each virtual page gives. -/
abbrev PageMap := VPage → Walk

def PageMap.apply (a : PageMap) : VmmOp → PageMap
  | .map virt phys flags => Function.update a (VPage.of virt) (.page (phys ||| flags))
  | .unmap virt => Function.update a (VPage.of virt) .notPresent

/-- A call the manager is made for: `phys` a frame, `flags` with `PTE_PRESENT`
    and no address bits, and frames from `pmm_alloc(1)` that nobody uses. -/
def Allowed (pml4 : Frame) (s : Vm) : VmmOp → Prop
  | .map virt phys flags =>
    pteGetAddr phys = phys ∧ Present flags ∧ pteGetAddr flags = 0#64 ∧
      Unused s pml4 (tablesMissing s pml4 (VPage.of virt))
  | .unmap _ => True

/-- The frames that become tables in the call hold no present word. -/
def BlankTables (pml4 : Frame) (s : Vm) : VmmOp → Prop
  | .map virt _ _ => Blank s (VPage.of virt) (tablesMissing s pml4 (VPage.of virt))
  | .unmap _ => True

theorem ofPte_map {phys flags : BitVec 64} (h : Present flags) :
    Walk.ofPte (phys ||| flags) = .page (phys ||| flags) := by
  have hor : Present (phys ||| flags) := by
    rw [present_iff] at h ⊢
    rw [BitVec.getLsbD_or, h, Bool.or_true]
  simp only [Walk.ofPte, hor, if_true]

theorem vmmStep_refines {pml4 : Frame} {s : Vm} {op : VmmOp} (htree : PageTree s.mem pml4)
    (hallowed : Allowed pml4 s op) (hblank : BlankTables pml4 s op) :
    ∃ s', vmmStep pml4 s op = some s' ∧ PageTree s'.mem pml4 ∧
      walk s'.mem pml4 = PageMap.apply (walk s.mem pml4) op := by
  cases op with
  | map virt phys flags =>
    obtain ⟨_, hpresent, _, hunused⟩ := hallowed
    obtain ⟨s', hs', htree', hwalk⟩ := vmmMapPage_walk phys flags htree hunused hblank
    refine ⟨s', hs', htree', ?_⟩
    funext w
    rw [hwalk w, ofPte_map hpresent]
    simp only [PageMap.apply, Function.update_apply]
  | unmap virt =>
    obtain ⟨htree', hwalk⟩ := vmmUnmapPage_walk virt htree
    refine ⟨_, rfl, htree', ?_⟩
    funext w
    rw [hwalk w]
    simp only [PageMap.apply, Function.update_apply]

/-- **Page tables as a map.** From a well-formed tree of 4 KiB pages, in every
    run of maps and unmaps whose new tables are blank, the walk of each page
    gives what the last call for it says, and what it gave at the start when
    there was none. -/
theorem walks_follow_map {pml4 : Frame} {s : Vm} {ops : List VmmOp} (htree : PageTree s.mem pml4)
    (hallowed : Runs.Meets (vmmStep pml4) (Allowed pml4) s ops)
    (hblank : Runs.Meets (vmmStep pml4) (BlankTables pml4) s ops) :
    ∃ s', Runs.exec (vmmStep pml4) s ops = some s' ∧
      ∀ v, walk s'.mem pml4 v = ops.foldl PageMap.apply (walk s.mem pml4) v := by
  induction ops generalizing s with
  | nil => exact ⟨s, rfl, fun _ => rfl⟩
  | cons op ops ih =>
    obtain ⟨s₁, hs₁, htree₁, hwalk⟩ := vmmStep_refines htree hallowed.1 hblank.1
    obtain ⟨s', hrun, hrest⟩ := ih htree₁ (hallowed.2 s₁ hs₁) (hblank.2 s₁ hs₁)
    refine ⟨s', Runs.exec_cons.mpr ⟨s₁, hs₁, hrun⟩, ?_⟩
    intro v
    rw [hrest v, hwalk, List.foldl_cons]

/-! A PML4 with no entries. -/

theorem pageTree_blank {m : Mem} {pml4 : Frame} (h : ∀ i, links m pml4 i = none) : PageTree m pml4 := by
  refine ⟨tree_blank h 3, ?_⟩
  · intro p t i _ ht hpresent
    rw [← (tableAt_blank h ht).2] at hpresent
    exact absurd hpresent (links_eq_none.mp (h i))

theorem unused_emptyVm {mem : Mem} (h : ∀ i, links mem (lowFrame 1) i = none) :
    Unused (emptyVm mem) (lowFrame 1) 3 := by
  refine ⟨?_, ?_⟩
  · intro k hk p _ heq
    have hne : ∀ k < 3, lowFrame 1 ≠ lowFrame (Fin.ofNat 16 (2 + k)) := by decide
    exact hne k hk (tableAt_blank h heq).2
  · have hne : ∀ k < 3, ∀ l < 3,
        lowFrame (Fin.ofNat 16 (2 + k)) = lowFrame (Fin.ofNat 16 (2 + l)) → k = l := by decide
    exact hne

theorem tablesMissing_emptyVm {mem : Mem} (h : ∀ i, links mem (lowFrame 1) i = none) (v : VPage) :
    tablesMissing (emptyVm mem) (lowFrame 1) v = 3 := missing_blank h v.path

theorem allowed_emptyVm {mem : Mem} (h : ∀ i, links mem (lowFrame 1) i = none) :
    Runs.Meets (vmmStep (lowFrame 1)) (Allowed (lowFrame 1)) (emptyVm mem) [.map 0 0x6000#64 3#64] := by
  refine ⟨⟨by decide, by decide, by decide, ?_⟩, fun _ _ => trivial⟩
  rw [show tablesMissing (emptyVm mem) (lowFrame 1) (VPage.of 0) = 3 from tablesMissing_emptyVm h _]
  exact unused_emptyVm h

/-- On zeroed memory the first page is mapped, and no other. -/
theorem walks_follow_map_zeroed :
    ∃ s', Runs.exec (vmmStep (lowFrame 1)) (emptyVm zeroedMem) [.map 0 0x6000#64 3#64] = some s' ∧
      ∀ v, walk s'.mem (lowFrame 1) v =
        [VmmOp.map 0 0x6000#64 3#64].foldl PageMap.apply (walk zeroedMem (lowFrame 1)) v := by
  have hroot : ∀ i, links zeroedMem (lowFrame 1) i = none := links_zeroedMem _
  refine walks_follow_map (pageTree_blank hroot) (allowed_emptyVm hroot) ⟨?_, fun _ _ => trivial⟩
  intro k _ i hi
  exact absurd hi (not_present_zeroedMem _ i)

/-- Memory with one word, `0x5001`, in frame 4: a present entry in its second
    slot. -/
def staleMem : Mem := store64 (fun _ => 0) 0x4008#64 0x5001#64

/-- Frame 4 becomes the page table of the first page, and its old word maps the
    second page, which nobody touched. -/
theorem stale_table_maps_page :
    PageTree staleMem (lowFrame 1) ∧
      Runs.Meets (vmmStep (lowFrame 1)) (Allowed (lowFrame 1)) (emptyVm staleMem)
        [.map 0 0x6000#64 3#64] ∧
      ∃ s', Runs.exec (vmmStep (lowFrame 1)) (emptyVm staleMem) [.map 0 0x6000#64 3#64] = some s' ∧
        walk s'.mem (lowFrame 1) (VPage.of 0x1000#64) = .page 0x5001#64 ∧
        [VmmOp.map 0 0x6000#64 3#64].foldl PageMap.apply (walk staleMem (lowFrame 1))
          (VPage.of 0x1000#64) = .notPresent := by
  have hroot : ∀ i, links staleMem (lowFrame 1) i = none := by decide +kernel
  refine ⟨pageTree_blank hroot, allowed_emptyVm hroot, ?_⟩
  have hrun : (Runs.exec (vmmStep (lowFrame 1)) (emptyVm staleMem) [.map 0 0x6000#64 3#64]).any
      (fun s' => walk s'.mem (lowFrame 1) (VPage.of 0x1000#64) = .page 0x5001#64) = true := by
    decide +kernel
  obtain ⟨s', hs', hwalk⟩ := (Option.any_eq_true _ _).mp hrun
  refine ⟨s', hs', of_decide_eq_true hwalk, ?_⟩
  decide +kernel

end Qnixx
