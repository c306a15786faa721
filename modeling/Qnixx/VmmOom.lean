import Qnixx.AddressSpace
import Qnixx.Pmm

/- Out of memory. `pmm_alloc` returns 0 when it finds no frames, and 0 is also
   the address of frame 0; nothing in `mm/vmm.c` looks at the difference. A call
   that gets no frame goes on with frame 0: it is linked as a table, cleared as
   a new PML4, or handed out as an allocation. -/
namespace Qnixx
open ByteMem Radix

/-- Frame 0, whose address is what `pmm_alloc` returns when it fails. -/
def zeroFrame : Frame := ⟨0#64, by decide⟩

/-- `vmm_alloc_pages`, on the frame allocator's own state. -/
def vmmAllocPages (higherHalf : Nat) (s : Pmm) (pages : BitVec 64) : Option (Pmm × Nat) :=
  (pmmAlloc s pages).map (fun r => (r.1, (r.2 + higherHalf) % 2^64))

/-! What each function may not do. -/

/-- `get_next_level` does not write to frame 0, does not link it and does not
    return it as a table it allocated. -/
structure NextLevelSafe (s : Vm) (t : Frame) (i : Index) (alloc : Bool) : Prop where
  words : ∀ j, entry (getNextLevel s t i alloc).1.mem zeroFrame j = entry s.mem zeroFrame j
  linked : ∀ u j, links (getNextLevel s t i alloc).1.mem u j = some zeroFrame →
    links s.mem u j = some zeroFrame
  result : ¬ Present (entry s.mem t i) → (getNextLevel s t i alloc).2 ≠ some zeroFrame

/-- `vmm_make_pml4` does not write to frame 0, does not return it, and links it
    only where it copies an entry that does. -/
structure MakeSafe (s : Vm) : Prop where
  words : ∀ j, entry (vmmMakePml4 s).1.mem zeroFrame j = entry s.mem zeroFrame j
  linked : ∀ u j, links (vmmMakePml4 s).1.mem u j = some zeroFrame →
    links s.mem u j = some zeroFrame ∨ (u = s.pmm 0 ∧ links s.mem (captured s) j = some zeroFrame)
  result : (vmmMakePml4 s).2 ≠ zeroFrame

/-- `vmm_alloc_pages` does not return the direct-map address of frame 0. -/
def AllocPagesSafe (higherHalf : Nat) (s : Pmm) (pages : BitVec 64) : Prop :=
  ∀ r, vmmAllocPages higherHalf s pages = some r → r.2 ≠ higherHalf % 2^64

/-- The calls of `get_next_level` on the way down: state, table and index. -/
def levelCalls (s : Vm) (t : Frame) : List Index → List (Vm × Frame × Index)
  | [] => []
  | i :: p => (s, t, i) :: match getNextLevel s t i true with
    | (s', some u) => levelCalls s' u p
    | (_, none) => []

/-- The call needs a table, and there is no frame for it. -/
def CannotAllocate (c : Vm × Frame × Index) : Prop :=
  ¬ Present (entry c.1.mem c.2.1 c.2.2) ∧ c.1.pmm 0 = zeroFrame

/-- `vmm_map_page` changes no word of any table when a table it needs cannot be
    allocated, and its calls of `get_next_level` are safe. -/
structure MapSafe (s : Vm) (pml4 : Frame) (virt phys flags : BitVec 64) : Prop where
  calls : ∀ c ∈ levelCalls s pml4 (VPage.of virt).path, NextLevelSafe c.1 c.2.1 c.2.2 true
  unchanged : (∃ c ∈ levelCalls s pml4 (VPage.of virt).path, CannotAllocate c) →
    ∀ s', vmmMapPage s pml4 virt phys flags = some s' → ∀ t i, entry s'.mem t i = entry s.mem t i

/-! When they do not. -/

/-- Every table that is not there gets a frame, and is linked in a table that
    is not frame 0. -/
def AllocsSucceed (s : Vm) (t : Frame) : List Index → Prop
  | [] => True
  | i :: p =>
    if Present (entry s.mem t i) then AllocsSucceed s (pteFrame (entry s.mem t i)) p
    else (s.pmm 0 ≠ zeroFrame ∧ t ≠ zeroFrame) ∧
      AllocsSucceed (s.pmmAlloc.setEntry t i (tableEntry (s.pmm 0))) (s.pmm 0) p

section
variable {s : Vm} {t : Frame} {i : Index}

theorem nextLevelSafe_unchanged {alloc : Bool} {u : Option Frame}
    (h : getNextLevel s t i alloc = (s, u)) (hu : ¬ Present (entry s.mem t i) → u = none) :
    NextLevelSafe s t i alloc := by
  refine ⟨?_, ?_, ?_⟩
  · intro j
    rw [h]
  · intro u' j hlink
    rwa [h] at hlink
  · intro hp
    rw [h, hu hp]
    exact nofun

theorem nextLevelSafe_alloc (h : ¬ Present (entry s.mem t i)) :
    NextLevelSafe s t i true ↔ s.pmm 0 ≠ zeroFrame ∧ t ≠ zeroFrame := by
  have hempty : links s.mem t i = none := links_eq_none.mpr h
  have hcall := getNextLevel_alloc hempty
  refine ⟨?_, ?_⟩
  · intro hsafe
    refine ⟨?_, ?_⟩
    · intro hzero
      apply hsafe.result h
      rw [hcall, hzero]
    · -- the entry written was not present, and now is
      intro ht
      have hword := hsafe.words i
      rw [hcall] at hword
      have hnew : entry (setEntry s.mem t i (tableEntry (s.pmm 0))) t i = entry s.mem t i := by
        rw [ht] at hword ⊢
        exact hword
      rw [entry_setEntry_self] at hnew
      exact h (hnew ▸ present_tableEntry _)
  · intro h
    obtain ⟨hf, ht⟩ := h
    refine ⟨?_, ?_, ?_⟩
    · intro j
      rw [hcall]
      exact entry_setEntry_other s.mem _ (fun heq => ht heq.1.symm)
    · intro u j hlink
      rw [hcall] at hlink
      have hlinks : link (links s.mem) t i (s.pmm 0) u j = some zeroFrame := by
        rw [← links_setEntry_table]
        exact hlink
      rw [link] at hlinks
      split at hlinks
      · exact absurd (Option.some.inj hlinks) hf
      · exact hlinks
    · intro _
      rw [hcall]
      exact fun heq => hf (Option.some.inj heq)

theorem nextLevelSafe_iff (s : Vm) (t : Frame) (i : Index) (alloc : Bool) :
    NextLevelSafe s t i alloc ↔ (Present (entry s.mem t i) ∨ alloc = false ∨
      (s.pmm 0 ≠ zeroFrame ∧ t ≠ zeroFrame)) := by
  by_cases hp : Present (entry s.mem t i)
  · have hlink : links s.mem t i = some (pteFrame (entry s.mem t i)) := links_eq_some.mpr ⟨hp, rfl⟩
    have hsafe := nextLevelSafe_unchanged (getNextLevel_present hlink alloc) (fun hn => absurd hp hn)
    exact ⟨fun _ => .inl hp, fun _ => hsafe⟩
  · cases alloc with
    | false =>
      have hempty : links s.mem t i = none := links_eq_none.mpr hp
      have hsafe := nextLevelSafe_unchanged (getNextLevel_lookup hempty) (fun _ => rfl)
      exact ⟨fun _ => .inr (.inl rfl), fun _ => hsafe⟩
    | true =>
      rw [nextLevelSafe_alloc hp]
      simp [hp]

end

theorem levelCalls_safe (p : List Index) : ∀ (s : Vm) (t : Frame),
    (∀ c ∈ levelCalls s t p, NextLevelSafe c.1 c.2.1 c.2.2 true) ↔ AllocsSucceed s t p := by
  induction p with
  | nil =>
    intro s t
    simp [levelCalls, AllocsSucceed]
  | cons i p ih =>
    intro s t
    rw [levelCalls, List.forall_mem_cons, nextLevelSafe_iff, AllocsSucceed]
    by_cases hp : Present (entry s.mem t i)
    · have hlink : links s.mem t i = some (pteFrame (entry s.mem t i)) := links_eq_some.mpr ⟨hp, rfl⟩
      rw [getNextLevel_present hlink, if_pos hp, ih]
      simp [hp]
    · have hempty : links s.mem t i = none := links_eq_none.mpr hp
      rw [getNextLevel_alloc hempty, if_neg hp, ih]
      simp [hp]

theorem mapSafe_iff (s : Vm) (pml4 : Frame) (virt phys flags : BitVec 64) :
    MapSafe s pml4 virt phys flags ↔ AllocsSucceed s pml4 (VPage.of virt).path := by
  rw [← levelCalls_safe]
  refine ⟨fun h => h.calls, fun h => ⟨h, ?_⟩⟩
  -- where the calls are safe, all allocations succeed
  intro h
  obtain ⟨c, hc, hp, hzero⟩ := h
  exact absurd hzero ((nextLevelSafe_alloc hp).mp (h c hc)).1

theorem makeSafe_iff (s : Vm) : MakeSafe s ↔ s.pmm 0 ≠ zeroFrame := by
  refine ⟨fun h => h.result, fun hf => ⟨?_, ?_, hf⟩⟩
  · intro j
    rw [entry_vmmMakePml4, if_neg (fun hc => hf hc.1.symm), if_neg (fun hc => hf hc.1.symm)]
  · intro u j hlink
    rw [links, entry_vmmMakePml4] at hlink
    by_cases hup : u = s.pmm 0 ∧ 256 ≤ j.val
    · rw [if_pos hup] at hlink
      exact .inr ⟨hup.1, hlink⟩
    · rw [if_neg hup] at hlink
      by_cases hlow : u = s.pmm 0 ∧ j.val < 64
      · -- a cleared entry links nothing
        rw [if_pos hlow, if_neg (by decide)] at hlink
        cases hlink
      · rw [if_neg hlow] at hlink
        exact .inl hlink

theorem pmmAlloc_lt {s : Pmm} {pages : BitVec 64} {r : Pmm × Nat} (h : pmmAlloc s pages = some r) :
    r.2 < 2^64 := by
  obtain ⟨size, -, hr⟩ := Option.bind_eq_some_iff.mp h
  dsimp only at hr
  split at hr
  · cases hr
    exact Nat.two_pow_pos 64
  · cases hr
    exact Nat.mod_lt _ (by decide)

theorem allocPagesSafe_iff (higherHalf : Nat) (s : Pmm) (pages : BitVec 64) :
    AllocPagesSafe higherHalf s pages ↔ ∀ r, pmmAlloc s pages = some r → r.2 ≠ 0 := by
  refine ⟨?_, ?_⟩
  · intro hsafe r hr hzero
    apply hsafe (r.1, (r.2 + higherHalf) % 2^64)
    · rw [vmmAllocPages, hr]
      rfl
    · rw [hzero, Nat.zero_add]
  · intro hsome r hr
    obtain ⟨r', hr', heq⟩ := Option.map_eq_some_iff.mp hr
    have hlt := pmmAlloc_lt hr'
    have hne := hsome r' hr'
    rw [← heq]
    dsimp only
    omega

/-- **When out of memory turns into frame 0.** For every state and every
    argument, each function leaves frame 0 alone, and `vmm_map_page` leaves the
    tables as they were when it lacks one, iff no `pmm_alloc` the call makes
    returns 0 and no table that gets a new entry is itself frame 0. -/
theorem frame_zero_iff (s : Vm) (p : Pmm) :
    (∀ t i alloc, NextLevelSafe s t i alloc ↔
      (Present (entry s.mem t i) ∨ alloc = false ∨ (s.pmm 0 ≠ zeroFrame ∧ t ≠ zeroFrame))) ∧
    (∀ pml4 virt phys flags, MapSafe s pml4 virt phys flags ↔
      AllocsSucceed s pml4 (VPage.of virt).path) ∧
    (∀ higherHalf pages, AllocPagesSafe higherHalf p pages ↔
      ∀ r, pmmAlloc p pages = some r → r.2 ≠ 0) ∧
    (MakeSafe s ↔ s.pmm 0 ≠ zeroFrame) :=
  ⟨nextLevelSafe_iff s, mapSafe_iff s, fun higherHalf => allocPagesSafe_iff higherHalf p, makeSafe_iff s⟩

/-- No frame is left. -/
def exhaustedVm : Vm := { emptyVm zeroedMem with pmm := fun _ => zeroFrame }

/-- A page is mapped when no frame is left: the PML4 gets frame 0 as a table,
    and frame 0 is written as one. -/
theorem frame_zero_linked :
    ¬ MapSafe exhaustedVm (lowFrame 1) 0 0x6000#64 3#64 ∧
      ∃ s', vmmMapPage exhaustedVm (lowFrame 1) 0 0x6000#64 3#64 = some s' ∧
        links s'.mem (lowFrame 1) 0 = some zeroFrame ∧
        entry s'.mem zeroFrame 0 = 0x6003#64 := by
  refine ⟨?_, ?_⟩
  · rw [mapSafe_iff]
    intro h
    have hp : ¬ Present (entry exhaustedVm.mem (lowFrame 1) (VPage.of 0).pml4) := not_present_zeroedMem _ _
    rw [VPage.path, AllocsSucceed, if_neg hp] at h
    exact h.1.1 rfl
  · have hrun : (vmmMapPage exhaustedVm (lowFrame 1) 0 0x6000#64 3#64).any (fun s' =>
        links s'.mem (lowFrame 1) 0 = some zeroFrame ∧ entry s'.mem zeroFrame 0 = 0x6003#64) = true := by
      decide +kernel
    obtain ⟨s', hs', hlinked⟩ := (Option.any_eq_true _ _).mp hrun
    exact ⟨s', hs', of_decide_eq_true hlinked⟩

end Qnixx
