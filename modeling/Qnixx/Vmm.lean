import Mathlib.Tactic.Common
import Mathlib.Data.List.FinRange
import Qnixx.LibKern
import Qnixx.Paging

/- The virtual memory manager (`mm/vmm.c`). A table pointer is the frame it
   points to through the direct map, NULL is `none`. Which frames `pmm_alloc(1)`
   returns is an input: `pmm` lists them in the order of the calls. TLB
   flushes change no memory and are left out; a walk here reads memory. -/
namespace Qnixx
open ByteMem Radix

structure Vm where
  mem : Mem
  /-- What the next calls of `pmm_alloc(1)` return. -/
  pmm : Nat → Frame
  /-- The frame in CR3, whose flag bits the kernel leaves clear. -/
  cr3 : Frame
  /-- The static `old_pml4` of `vmm_make_pml4`. -/
  oldPml4 : Option Frame

/-- The state after a call of `pmm_alloc(1)`, which returns `s.pmm 0`. -/
def Vm.pmmAlloc (s : Vm) : Vm := { s with pmm := fun n => s.pmm (n + 1) }

def Vm.setEntry (s : Vm) (t : Frame) (i : Index) (value : BitVec 64) : Vm :=
  { s with mem := Qnixx.setEntry s.mem t i value }

def getNextLevel (s : Vm) (topLevel : Frame) (index : Index) (alloc : Bool) : Vm × Option Frame :=
  if Present (entry s.mem topLevel index) then
    (s, some (pteFrame (entry s.mem topLevel index)))
  else if !alloc then (s, none)
  else
    let nextLevel := s.pmm 0
    (s.pmmAlloc.setEntry topLevel index (nextLevel.addr ||| ptePresent ||| pteWritable ||| pteNx),
      some nextLevel)

def getPageTable (s : Vm) (pml4 : Frame) (virt : BitVec 64) (alloc : Bool) : Vm × Option Frame :=
  let pml4Index := tableIndex virt 39
  let pdptIndex := tableIndex virt 30
  let pdIndex := tableIndex virt 21
  match getNextLevel s pml4 pml4Index alloc with
  | (s, none) => (s, none)
  | (s, some pdpt) =>
    match getNextLevel s pdpt pdptIndex alloc with
    | (s, none) => (s, none)
    | (s, some pd) => getNextLevel s pd pdIndex alloc

/-- `none` is a store through NULL. -/
def vmmMapPage (s : Vm) (pml4 : Frame) (virt phys flags : BitVec 64) : Option Vm :=
  match getPageTable s pml4 virt true with
  | (_, none) => none
  | (s, some pageTable) => some (s.setEntry pageTable (tableIndex virt 12) (phys ||| flags))

def vmmUnmapPage (s : Vm) (pml4 : Frame) (virt : BitVec 64) : Vm :=
  match getPageTable s pml4 virt false with
  | (s, none) => s
  | (s, some pageTable) => s.setEntry pageTable (tableIndex virt 12) 0#64

/-- `vmm_get_pml4`. -/
def vmmGetPml4 (s : Vm) : Frame := s.cr3

/-- The last loop of `vmm_make_pml4`, over the upper half of the table. -/
def copyUpper (m : Mem) (newPml4 oldPml4 : Frame) : Mem :=
  ((List.finRange 512).filter (fun i => 256 ≤ i.val)).foldl
    (fun m i => setEntry m newPml4 i (entry m oldPml4 i)) m

/-- The table and the state after the call. `vmm_alloc_pages(1)` is the next
    frame of `pmm_alloc`, through the direct map. -/
def vmmMakePml4 (s : Vm) : Vm × Frame :=
  let oldPml4 := s.oldPml4.getD (vmmGetPml4 s)
  let newPml4 := s.pmm 0
  let cleared := memzero s.mem newPml4.addr 512
  ({ s.pmmAlloc with mem := copyUpper cleared newPml4 oldPml4, oldPml4 := some oldPml4 }, newPml4)

/-! What one level does. -/

section
variable {s : Vm} {t : Frame} {i : Index}

theorem getNextLevel_present {u : Frame} (h : links s.mem t i = some u) (alloc : Bool) :
    getNextLevel s t i alloc = (s, some u) := by
  obtain ⟨hp, rfl⟩ := links_eq_some.mp h
  rw [getNextLevel, if_pos hp]

theorem getNextLevel_lookup (h : links s.mem t i = none) : getNextLevel s t i false = (s, none) := by
  rw [getNextLevel, if_neg (links_eq_none.mp h)]
  rfl

theorem getNextLevel_alloc (h : links s.mem t i = none) :
    getNextLevel s t i true = (s.pmmAlloc.setEntry t i (tableEntry (s.pmm 0)), some (s.pmm 0)) := by
  rw [getNextLevel, if_neg (links_eq_none.mp h)]
  rfl

end

/-- Without `alloc` the tables are only read. -/
theorem getPageTable_lookup (s : Vm) (pml4 : Frame) (virt : BitVec 64) :
    getPageTable s pml4 virt false = (s, tableAt (links s.mem) pml4 (VPage.of virt).path) := by
  simp only [getPageTable, VPage.path, VPage.of, tableAt]
  cases h4 : links s.mem pml4 (tableIndex virt 39) with
  | none => simp only [getNextLevel_lookup h4, Option.bind_none]
  | some pdpt =>
    simp only [getNextLevel_present h4, Option.bind_some]
    cases h3 : links s.mem pdpt (tableIndex virt 30) with
    | none => simp only [getNextLevel_lookup h3, Option.bind_none]
    | some pd =>
      simp only [getNextLevel_present h3, Option.bind_some]
      cases h2 : links s.mem pd (tableIndex virt 21) with
      | none => simp only [getNextLevel_lookup h2, Option.bind_none]
      | some pt => simp only [getNextLevel_present h2, Option.bind_some]

/-- With `alloc` every level gives a table. -/
theorem getNextLevel_total (s : Vm) (t : Frame) (i : Index) :
    ∃ s' u, getNextLevel s t i true = (s', some u) := by
  cases h : links s.mem t i with
  | none => exact ⟨_, _, getNextLevel_alloc h⟩
  | some u => exact ⟨s, u, getNextLevel_present h true⟩

theorem vmmMapPage_total (s : Vm) (pml4 : Frame) (virt phys flags : BitVec 64) :
    ∃ s', vmmMapPage s pml4 virt phys flags = some s' := by
  obtain ⟨s1, pdpt, h4⟩ := getNextLevel_total s pml4 (tableIndex virt 39)
  obtain ⟨s2, pd, h3⟩ := getNextLevel_total s1 pdpt (tableIndex virt 30)
  obtain ⟨s3, pt, h2⟩ := getNextLevel_total s2 pd (tableIndex virt 21)
  refine ⟨s3.setEntry pt (tableIndex virt 12) (phys ||| flags), ?_⟩
  simp only [vmmMapPage, getPageTable, h4, h3, h2]

/-! A small machine. -/

/-- The frame with this number, below 16. -/
def lowFrame (n : Fin 16) : Frame := ⟨BitVec.ofNat 64 (4096 * n.val), by revert n; decide⟩

/-- The PML4 is frame 1, and the frames from 2 on are the next ones free. -/
def emptyVm (mem : Mem) : Vm :=
  { mem, pmm := fun k => lowFrame (Fin.ofNat 16 (2 + k)), cr3 := lowFrame 1, oldPml4 := none }

def zeroedMem : Mem := fun _ => 0

/-- The PML4 links frame 15 at its first upper entry. -/
def kernelMem : Mem := setEntry zeroedMem (lowFrame 1) 256 (tableEntry (lowFrame 15))

/-- Frame 2 was a table before: its entries 3, 100 and 300 still lead to empty
    tables. -/
def reusedMem : Mem :=
  setEntry (setEntry (setEntry kernelMem (lowFrame 2) 3 (tableEntry (lowFrame 4)))
    (lowFrame 2) 300 (tableEntry (lowFrame 6))) (lowFrame 2) 100 (tableEntry (lowFrame 5))

/-- The PML4 leads through frames 2 and 3 to a 2 MiB page at `0x200000`. -/
def largeMem : Mem :=
  setEntry (setEntry (setEntry zeroedMem (lowFrame 1) 0 (tableEntry (lowFrame 2)))
    (lowFrame 2) 0 (tableEntry (lowFrame 3))) (lowFrame 3) 0 0x200083#64

theorem not_present_zeroedMem (t : Frame) (i : Index) : ¬ Present (entry zeroedMem t i) := by
  simp [entry, load64, zeroedMem, Present]

theorem links_zeroedMem (t : Frame) (i : Index) : links zeroedMem t i = none :=
  links_eq_none.mpr (not_present_zeroedMem t i)

end Qnixx
