import Qnixx.VmmMap

/- What a mapped page may be used for. On x86-64 the rights of a page are those
   that every entry of its walk gives: it is writable if all of them have the
   W bit, open to user code if all have the U bit, and executable if none has
   NX. `vmm_map_page` puts the flags it is given into the last entry; the three
   above it are filled by `get_next_level`, with fixed bits. -/
namespace Qnixx
open ByteMem Radix

def pteUser : BitVec 64 := 1#64 <<< 2

structure Rights where
  writable : Bool
  user : Bool
  executable : Bool
  deriving DecidableEq

/-- The rights one entry gives, and those the flags of `vmm_map_page` ask for. -/
def entryRights (value : BitVec 64) : Rights :=
  ⟨value &&& pteWritable ≠ 0#64, value &&& pteUser ≠ 0#64, ¬ value &&& pteNx ≠ 0#64⟩

/-- The rights a walk through these entries gives. -/
def effectiveRights (entries : List (BitVec 64)) : Rights :=
  ⟨entries.all (fun e => (entryRights e).writable), entries.all (fun e => (entryRights e).user),
    entries.all (fun e => (entryRights e).executable)⟩

/-- The entries the walk of a page reads. -/
def walkEntries (m : Mem) (t : Frame) : List Index → Index → List (BitVec 64)
  | [], i => [entry m t i]
  | j :: p, i =>
    if Present (entry m t j) ∧ ¬ Large (entry m t j) then
      entry m t j :: walkEntries m (pteFrame (entry m t j)) p i
    else [entry m t j]

def pageRights (m : Mem) (pml4 : Frame) (v : VPage) : Rights :=
  effectiveRights (walkEntries m pml4 v.path v.pt)

theorem entryRights_bits (value : BitVec 64) :
    entryRights value = ⟨value.getLsbD 1, value.getLsbD 2, !value.getLsbD 63⟩ := by
  simp only [entryRights, pteWritable, pteUser, pteNx, and_bit_ne_zero value (show 1 < 64 by decide),
    and_bit_ne_zero value (show 2 < 64 by decide), and_bit_ne_zero value (show 63 < 64 by decide),
    Bool.decide_eq_true, decide_not]

theorem entryRights_tableEntry (f : Frame) : entryRights (tableEntry f) = ⟨true, false, false⟩ := by
  have hbit : ∀ k, (k < 12 ∨ 52 ≤ k) →
      (tableEntry f).getLsbD k = (ptePresent ||| pteWritable ||| pteNx).getLsbD k := by
    intro k hk
    rw [tableEntry, BitVec.or_assoc, BitVec.or_assoc, ← BitVec.or_assoc ptePresent, BitVec.getLsbD_or,
      f.getLsbD_addr k hk, Bool.false_or]
  rw [entryRights_bits, hbit 1 (by decide), hbit 2 (by decide), hbit 63 (by decide)]
  decide

/-! Trees that `get_next_level` made. -/

/-- A tree whose entries above the page tables were all written by
    `get_next_level`. -/
structure MadeTree (m : Mem) (pml4 : Frame) : Prop where
  tree : Tree (links m) pml4 3
  made : ∀ p t i, p.length < 3 → tableAt (links m) pml4 p = some t → Present (entry m t i) →
    ∃ f, entry m t i = tableEntry f

section
variable {m : Mem} {pml4 t f : Frame} {p : List Index} {i : Index}

theorem MadeTree.pageTree (h : MadeTree m pml4) : PageTree m pml4 := by
  refine ⟨h.tree, ?_⟩
  intro p t i hp ht hpresent
  obtain ⟨f, hf⟩ := h.made p t i hp ht hpresent
  rw [hf]
  exact not_large_tableEntry f

theorem madeTree_link (h : MadeTree m pml4) (hl : Linkable (links m) pml4 3 p t i f) :
    MadeTree (setEntry m t i (tableEntry f)) pml4 :=
  ⟨tree_setEntry_table hl, fun _ _ _ => entries_link (P := fun x => ∃ f, x = tableEntry f) ⟨f, rfl⟩ h.made hl⟩

theorem madeTree_setEntry (h : MadeTree m pml4) {v : VPage}
    (ht : tableAt (links m) pml4 v.path = some t) (value : BitVec 64) :
    MadeTree (setEntry m t i value) pml4 :=
  ⟨tree_setEntry h.pageTree ht value,
    fun _ _ _ => entries_setEntry (P := fun x => ∃ f, x = tableEntry f) h.pageTree h.made ht value⟩

/-- The entries of a walk that reaches its page table. -/
theorem walkEntries_made {u : Frame} (hmade : ∀ q u j, q.length < p.length → tableAt (links m) t q = some u →
      Present (entry m u j) → ∃ f, entry m u j = tableEntry f)
    (ht : tableAt (links m) t p = some u) :
    ∃ fs : List Frame, fs.length = p.length ∧
      walkEntries m t p i = fs.map tableEntry ++ [entry m u i] := by
  induction p generalizing t with
  | nil =>
    cases ht
    exact ⟨[], rfl, rfl⟩
  | cons j p ih =>
    rw [tableAt] at ht
    obtain ⟨w, hw, hrest⟩ := Option.bind_eq_some_iff.mp ht
    obtain ⟨hpresent, hframe⟩ := links_eq_some.mp hw
    obtain ⟨f, hf⟩ := hmade [] t j (by simp) rfl hpresent
    have hlarge : ¬ Large (entry m t j) := by
      rw [hf]
      exact not_large_tableEntry f
    obtain ⟨fs, hlen, hfs⟩ := ih (by
      intro q x k hq hx
      apply hmade (j :: q) x k (by simpa using hq)
      rw [tableAt, hw, Option.bind_some]
      exact hx) hrest
    refine ⟨f :: fs, by rw [List.length_cons, List.length_cons, hlen], ?_⟩
    rw [walkEntries, if_pos ⟨hpresent, hlarge⟩, hframe, hfs, hf]
    rfl

end

/-- Above the page table every entry gives the W bit, no U bit and NX. -/
theorem effectiveRights_made {fs : List Frame} (hfs : fs ≠ []) (value : BitVec 64) :
    effectiveRights (fs.map tableEntry ++ [value]) = ⟨(entryRights value).writable, false, false⟩ := by
  obtain ⟨f, fs, rfl⟩ := List.exists_cons_of_ne_nil hfs
  have hwritable : (fs.map tableEntry).all (fun e => (entryRights e).writable) = true := by
    simp [entryRights_tableEntry]
  simp [effectiveRights, entryRights_tableEntry, hwritable]

/-! Going down the levels. -/

section
variable {pml4 t : Frame} {v : VPage} {s₀ s : Vm} {p q : List Index} {i : Index}

theorem Descent.level_made (h : Descent pml4 v s₀ s p (i :: q) t) (hm : MadeTree s.mem pml4) :
    ∃ s' u, getNextLevel s t i true = (s', some u) ∧ Descent pml4 v s₀ s' (p ++ [i]) q u ∧
      MadeTree s'.mem pml4 := by
  cases hlink : links s.mem t i with
  | none => exact ⟨_, _, getNextLevel_alloc hlink, h.alloc hlink, madeTree_link hm (h.linkable hlink)⟩
  | some u => exact ⟨s, u, getNextLevel_present hlink true, h.follow hlink, hm⟩

end

theorem getPageTable_made {s : Vm} {pml4 : Frame} {virt : BitVec 64} (hm : MadeTree s.mem pml4)
    (hunused : Unused s pml4 (tablesMissing s pml4 (VPage.of virt)))
    (hblank : Blank s (VPage.of virt) (tablesMissing s pml4 (VPage.of virt))) :
    ∃ s' t, getPageTable s pml4 virt true = (s', some t) ∧ MadeTree s'.mem pml4 ∧
      tableAt (links s'.mem) pml4 (VPage.of virt).path = some t := by
  have h₀ : Descent pml4 (VPage.of virt) s s []
      [tableIndex virt 39, tableIndex virt 30, tableIndex virt 21] pml4 :=
    ⟨rfl, hm.pageTree, rfl, fun _ _ => rfl, hunused, hblank⟩
  obtain ⟨s₁, pdpt, hpdpt, h₁, hm₁⟩ := h₀.level_made hm
  obtain ⟨s₂, pd, hpd, h₂, hm₂⟩ := h₁.level_made hm₁
  obtain ⟨s₃, pt, hpt, h₃, hm₃⟩ := h₂.level_made hm₂
  refine ⟨s₃, pt, ?_, hm₃, h₃.here⟩
  simp only [getPageTable, hpdpt, hpd, hpt]

/-- The frames the next `n` calls of `pmm_alloc(1)` return are zero-filled. -/
def ZeroFilled (s : Vm) (n : Nat) : Prop := ∀ k < n, ∀ i, entry s.mem (s.pmm k) i = 0#64

theorem ZeroFilled.blank {s : Vm} {n : Nat} (h : ZeroFilled s n) (v : VPage) : Blank s v n := by
  intro k hk i hpresent
  rw [h k hk i] at hpresent
  exact absurd hpresent (by decide)

/-- The rights of a page just mapped: what the last entry says of writing, and
    neither user access nor execution. -/
theorem pageRights_mapped {s : Vm} {pml4 : Frame} {virt : BitVec 64} (phys flags : BitVec 64)
    (hm : MadeTree s.mem pml4) (hunused : Unused s pml4 (tablesMissing s pml4 (VPage.of virt)))
    (hzero : ZeroFilled s (tablesMissing s pml4 (VPage.of virt))) :
    ∃ s', vmmMapPage s pml4 virt phys flags = some s' ∧
      pageRights s'.mem pml4 (VPage.of virt) = ⟨(entryRights (phys ||| flags)).writable, false, false⟩ := by
  obtain ⟨s₁, t, hcall, hm₁, ht⟩ := getPageTable_made hm hunused (hzero.blank _)
  refine ⟨s₁.setEntry t (VPage.of virt).pt (phys ||| flags), ?_, ?_⟩
  · simp only [vmmMapPage, hcall]
    rfl
  · have hm₂ := madeTree_setEntry (i := (VPage.of virt).pt) hm₁ ht (phys ||| flags)
    have ht₂ := (tableAt_setEntry (i := (VPage.of virt).pt) hm₁.pageTree ht (phys ||| flags) _
      (VPage.of virt).path_le).trans ht
    obtain ⟨fs, hlen, hfs⟩ := walkEntries_made (p := (VPage.of virt).path) (i := (VPage.of virt).pt)
      hm₂.made ht₂
    have hne : fs ≠ [] := by
      intro hnil
      rw [hnil] at hlen
      cases hlen
    show effectiveRights (walkEntries (setEntry s₁.mem t _ _) pml4 _ _) = _
    rw [hfs, effectiveRights_made hne, entry_setEntry_self]

/-- **When a page gets the rights asked for.** In every tree `get_next_level`
    made, mapping any page, mapped before or not, with any flags that have
    `PTE_PRESENT` gives it the rights the flags encode iff they have `PTE_NX` and
    not `PTE_USER`, and bit 1 of `phys`, which no page address has, does not add
    `PTE_WRITABLE`. -/
theorem rights_obtained_iff (s : Vm) (pml4 : Frame) (virt phys flags : BitVec 64)
    (hm : MadeTree s.mem pml4) (hunused : Unused s pml4 (tablesMissing s pml4 (VPage.of virt)))
    (hzero : ZeroFilled s (tablesMissing s pml4 (VPage.of virt))) (hpresent : Present flags) :
    ∃ s', vmmMapPage s pml4 virt phys flags = some s' ∧
      (∃ pte, walk s'.mem pml4 (VPage.of virt) = .page pte) ∧
      (pageRights s'.mem pml4 (VPage.of virt) = entryRights flags ↔
        flags &&& pteNx ≠ 0#64 ∧ flags &&& pteUser = 0#64 ∧
          (phys &&& pteWritable ≠ 0#64 → flags &&& pteWritable ≠ 0#64)) := by
  obtain ⟨s', hs', hrights⟩ := pageRights_mapped phys flags hm hunused hzero
  obtain ⟨s₁, hs₁, -, hwalk⟩ := vmmMapPage_walk phys flags hm.pageTree hunused (hzero.blank _)
  have hsame : s₁ = s' := Option.some.inj (hs₁.symm.trans hs')
  subst hsame
  refine ⟨s₁, hs₁, ⟨phys ||| flags, ?_⟩, ?_⟩
  · rw [hwalk, if_pos rfl, ofPte_map hpresent]
  · have huser : flags &&& pteUser = 0#64 ↔ flags.getLsbD 2 = false := by
      rw [← Bool.not_eq_true, ← and_bit_ne_zero flags (show 2 < 64 by decide), not_not]
      rfl
    rw [hrights, entryRights_bits, entryRights_bits, huser, pteNx, pteWritable,
      and_bit_ne_zero flags (by decide), and_bit_ne_zero flags (by decide),
      and_bit_ne_zero phys (by decide), BitVec.getLsbD_or]
    cases phys.getLsbD 1 <;> cases flags.getLsbD 1 <;> cases flags.getLsbD 2 <;>
      cases flags.getLsbD 63 <;> simp

theorem madeTree_blank {m : Mem} {pml4 : Frame} (h : ∀ i, links m pml4 i = none) : MadeTree m pml4 := by
  refine ⟨tree_blank h 3, ?_⟩
  intro p t i _ ht hpresent
  rw [← (tableAt_blank h ht).2] at hpresent
  exact absurd hpresent (links_eq_none.mp (h i))

/-- The empty tree on zeroed memory, where three tables are missing. -/
theorem emptyVm_ready :
    MadeTree zeroedMem (lowFrame 1) ∧ Unused (emptyVm zeroedMem) (lowFrame 1)
        (tablesMissing (emptyVm zeroedMem) (lowFrame 1) (VPage.of 0)) ∧
      ZeroFilled (emptyVm zeroedMem) (tablesMissing (emptyVm zeroedMem) (lowFrame 1) (VPage.of 0)) := by
  have hroot : ∀ i, links zeroedMem (lowFrame 1) i = none := links_zeroedMem _
  refine ⟨madeTree_blank hroot, ?_, ?_⟩
  · rw [tablesMissing_emptyVm hroot]
    exact unused_emptyVm hroot
  · intro k _ i
    simp [entry, load64, emptyVm, zeroedMem]

/-- A page to read and write, `PTE_PRESENT | PTE_WRITABLE | PTE_NX`. -/
theorem rights_obtained_data :
    ∃ s', vmmMapPage (emptyVm zeroedMem) (lowFrame 1) 0 0x6000#64 0x8000000000000003#64 = some s' ∧
      pageRights s'.mem (lowFrame 1) (VPage.of 0) = ⟨true, false, false⟩ := by
  obtain ⟨hm, hunused, hzero⟩ := emptyVm_ready
  obtain ⟨s', hs', -, hiff⟩ := rights_obtained_iff (emptyVm zeroedMem) (lowFrame 1) 0 0x6000#64
    0x8000000000000003#64 hm hunused hzero (by decide)
  exact ⟨s', hs', (hiff.mpr (by decide)).trans (by decide)⟩

/-- A page of user code, `PTE_PRESENT | PTE_USER`, that user code can neither
    read nor run. -/
theorem user_code_refused :
    MadeTree zeroedMem (lowFrame 1) ∧ Unused (emptyVm zeroedMem) (lowFrame 1)
        (tablesMissing (emptyVm zeroedMem) (lowFrame 1) (VPage.of 0)) ∧
      ZeroFilled (emptyVm zeroedMem) (tablesMissing (emptyVm zeroedMem) (lowFrame 1) (VPage.of 0)) ∧
      walk zeroedMem (lowFrame 1) (VPage.of 0) = .notPresent ∧ Present 5#64 ∧
      ∃ s', vmmMapPage (emptyVm zeroedMem) (lowFrame 1) 0 0x6000#64 5#64 = some s' ∧
        pageRights s'.mem (lowFrame 1) (VPage.of 0) = ⟨false, false, false⟩ ∧
        entryRights 5#64 = ⟨false, true, true⟩ := by
  obtain ⟨hm, hunused, hzero⟩ := emptyVm_ready
  obtain ⟨s', hs', hrights⟩ := pageRights_mapped 0x6000#64 5#64 hm hunused hzero
  refine ⟨hm, hunused, hzero, ?_, by decide, s', hs', hrights.trans (by decide), by decide⟩
  simp only [walk, VPage.path, walkFrom, not_present_zeroedMem, not_false_iff, if_true]

end Qnixx
