import Mathlib.Tactic.Common
import Qnixx.Lib.ByteMem
import Qnixx.Lib.Radix

/- x86-64 page tables as the processor reads them: 512 entries of eight bytes
   in a page-aligned frame, four levels of them, and the walk of a virtual
   page. Physical memory is the byte memory of `ByteMem`; the kernel reaches
   it through the direct map at `VMM_HIGHER_HALF`, so a table pointer is named
   here by the frame it points to. Physical addresses have 52 bits, the width
   of `PTE_ADDR_MASK`. -/
namespace Qnixx
open ByteMem Radix

def pteAddrMask : BitVec 64 := 0x000FFFFFFFFFF000#64
def ptePresent : BitVec 64 := 1#64 <<< 0
def pteWritable : BitVec 64 := 1#64 <<< 1
def pteNx : BitVec 64 := 1#64 <<< 63

/-- `PTE_GET_ADDR`. -/
def pteGetAddr (value : BitVec 64) : BitVec 64 := value &&& pteAddrMask

def Present (value : BitVec 64) : Prop := value &&& ptePresent ≠ 0#64

instance (value : BitVec 64) : Decidable (Present value) :=
  inferInstanceAs (Decidable (value &&& ptePresent ≠ 0#64))

/-- The page-size bit, which ends a walk above the page tables. -/
def Large (value : BitVec 64) : Prop := value &&& (1#64 <<< 7) ≠ 0#64

instance (value : BitVec 64) : Decidable (Large value) :=
  inferInstanceAs (Decidable (value &&& (1#64 <<< 7) ≠ 0#64))

/-- The address of a page frame: page-aligned and below `2^52`. -/
structure Frame where
  addr : BitVec 64
  aligned : pteGetAddr addr = addr
  deriving DecidableEq

/-- An index into a table. -/
abbrev Index := Fin 512

theorem pteGetAddr_idem (value : BitVec 64) : pteGetAddr (pteGetAddr value) = pteGetAddr value := by
  simp only [pteGetAddr, BitVec.and_assoc, BitVec.and_self]

/-- The frame an entry points to. -/
def pteFrame (value : BitVec 64) : Frame := ⟨pteGetAddr value, pteGetAddr_idem value⟩

def entryAddr (t : Frame) (i : Index) : BitVec 64 := t.addr + BitVec.ofNat 64 (8 * i.val)

/-- `t[i]`. -/
def entry (m : Mem) (t : Frame) (i : Index) : BitVec 64 := load64 m (entryAddr t i)

/-- `t[i] = value`. -/
def setEntry (m : Mem) (t : Frame) (i : Index) (value : BitVec 64) : Mem :=
  store64 m (entryAddr t i) value

/-- What the entries of a table link, page-size bits aside. -/
def links (m : Mem) : Links Frame Index := fun t i =>
  if Present (entry m t i) then some (pteFrame (entry m t i)) else none

/-- A virtual page: its index at each of the four levels. -/
structure VPage where
  pml4 : Index
  pdpt : Index
  pd : Index
  pt : Index
  deriving DecidableEq

/-- The nine bits of an address from bit `shift` on. -/
def tableIndex (virt : BitVec 64) (shift : Nat) : Index :=
  ⟨((virt >>> shift) &&& 0x1FF#64).toNat, by
    rw [BitVec.toNat_and]
    exact Nat.lt_succ_of_le Nat.and_le_right⟩

def VPage.of (virt : BitVec 64) : VPage :=
  ⟨tableIndex virt 39, tableIndex virt 30, tableIndex virt 21, tableIndex virt 12⟩

/-- The indices that lead from the PML4 to the page table. -/
def VPage.path (v : VPage) : List Index := [v.pml4, v.pdpt, v.pd]

/-- Where a walk ends: at an entry without the present bit, at the entry of a
    4 KiB page, or at an entry with the page-size bit and `levels` levels
    below it (a 2 MiB page, a 1 GiB page, a reserved-bit fault in the PML4). -/
inductive Walk where
  | notPresent
  | page (pte : BitVec 64)
  | large (levels : Nat) (value : BitVec 64)
  deriving DecidableEq

/-- What the page-table entry `value` gives. -/
def Walk.ofPte (value : BitVec 64) : Walk := if Present value then .page value else .notPresent

def walkFrom (m : Mem) (t : Frame) : List Index → Index → Walk
  | [], i => .ofPte (entry m t i)
  | j :: p, i =>
    if ¬ Present (entry m t j) then .notPresent
    else if Large (entry m t j) then .large (p.length + 1) (entry m t j)
    else walkFrom m (pteFrame (entry m t j)) p i

/-- The hardware walk of a virtual page. -/
def walk (m : Mem) (pml4 : Frame) (v : VPage) : Walk := walkFrom m pml4 v.path v.pt

/-! Entries and the memory they are in. -/

theorem and_bit_ne_zero (value : BitVec 64) {k : Nat} (hk : k < 64) :
    value &&& (1#64 <<< k) ≠ 0#64 ↔ value.getLsbD k = true := by
  have hbit : BitVec.twoPow 64 k ≠ 0#64 := by
    intro hzero
    have hset := congrArg (fun value => value.getLsbD k) hzero
    simp [hk] at hset
  rw [← BitVec.twoPow_eq, BitVec.and_twoPow]
  cases value.getLsbD k <;> simp [hbit]

theorem present_iff (value : BitVec 64) : Present value ↔ value.getLsbD 0 = true :=
  and_bit_ne_zero value (by decide)

theorem not_present_zero : ¬ Present 0#64 := by decide

theorem large_iff (value : BitVec 64) : Large value ↔ value.getLsbD 7 = true :=
  and_bit_ne_zero value (by decide)

theorem Frame.addr_injective {t u : Frame} (h : t.addr = u.addr) : t = u := by
  cases t
  cases u
  simp only [Frame.mk.injEq]
  exact h

/-- The bits of a frame's address outside the mask are clear. -/
theorem Frame.getLsbD_addr (t : Frame) (k : Nat) (hk : k < 12 ∨ 52 ≤ k) : t.addr.getLsbD k = false := by
  have hmask : pteAddrMask.getLsbD k = false := by
    rcases hk with hk | hk
    · have hall : ∀ k < 12, pteAddrMask.getLsbD k = false := by decide
      exact hall k hk
    · by_cases h64 : k < 64
      · have hall : ∀ k < 64, 52 ≤ k → pteAddrMask.getLsbD k = false := by decide
        exact hall k h64 hk
      · exact BitVec.getLsbD_of_ge _ _ (by omega)
  rw [← t.aligned, pteGetAddr, BitVec.getLsbD_and, hmask, Bool.and_false]

theorem Frame.addr_mod (t : Frame) : t.addr.toNat % 4096 = 0 := by
  have hlow : t.addr.setWidth 12 = 0#12 := by
    apply BitVec.eq_of_getLsbD_eq
    intro k hk
    rw [BitVec.getLsbD_setWidth, t.getLsbD_addr k (Or.inl hk)]
    simp
  have hnat := congrArg BitVec.toNat hlow
  rwa [BitVec.toNat_setWidth] at hnat

theorem Frame.addr_lt (t : Frame) : t.addr.toNat < 2^52 := by
  apply Nat.lt_pow_two_of_testBit
  intro k hk
  rw [BitVec.testBit_toNat]
  exact t.getLsbD_addr k (Or.inr hk)

/-- Different entries, of one table or of two, have no byte in common. -/
theorem entryAddr_apart {t u : Frame} {i j : Index} (h : ¬ (u = t ∧ j = i)) :
    Apart (entryAddr t i) (entryAddr u j) := by
  have hne : t.addr.toNat ≠ u.addr.toNat ∨ i.val ≠ j.val := by
    by_contra hcon
    rw [not_or, not_not, not_not] at hcon
    exact h ⟨Frame.addr_injective (BitVec.eq_of_toNat_eq hcon.1.symm), Fin.ext hcon.2.symm⟩
  have ht := t.addr_mod
  have hu := u.addr_mod
  have ht' := t.addr_lt
  have hu' := u.addr_lt
  have hi := i.isLt
  have hj := j.isLt
  simp only [Apart, entryAddr]
  bv_omega

@[simp] theorem entry_setEntry_self (m : Mem) (t : Frame) (i : Index) (value : BitVec 64) :
    entry (setEntry m t i value) t i = value := load64_store64 m _ value

theorem entry_setEntry_other (m : Mem) {t u : Frame} {i j : Index} (value : BitVec 64)
    (h : ¬ (u = t ∧ j = i)) : entry (setEntry m t i value) u j = entry m u j :=
  load64_store64_apart m value (entryAddr_apart h)

theorem links_eq_some {m : Mem} {t u : Frame} {i : Index} :
    links m t i = some u ↔ Present (entry m t i) ∧ pteFrame (entry m t i) = u := by
  rw [links]
  by_cases hp : Present (entry m t i)
  · simp only [hp, if_true, Option.some.injEq, true_and]
  · simp [hp]

theorem links_eq_none {m : Mem} {t : Frame} {i : Index} :
    links m t i = none ↔ ¬ Present (entry m t i) := by
  rw [links]
  by_cases hp : Present (entry m t i)
  · simp [hp]
  · simp [hp]

/-- The entry that links the table in the frame `f`. -/
def tableEntry (f : Frame) : BitVec 64 := f.addr ||| ptePresent ||| pteWritable ||| pteNx

theorem present_tableEntry (f : Frame) : Present (tableEntry f) := by
  rw [present_iff]
  simp [tableEntry, ptePresent]

theorem not_large_tableEntry (f : Frame) : ¬ Large (tableEntry f) := by
  have hflags : (ptePresent ||| pteWritable ||| pteNx).getLsbD 7 = false := by decide
  rw [large_iff, tableEntry, BitVec.or_assoc, BitVec.or_assoc, ← BitVec.or_assoc ptePresent,
    BitVec.getLsbD_or, f.getLsbD_addr 7 (by decide), hflags]
  simp

theorem pteFrame_tableEntry (f : Frame) : pteFrame (tableEntry f) = f := by
  apply Frame.addr_injective
  have hflags : (ptePresent ||| pteWritable ||| pteNx) &&& pteAddrMask = 0#64 := by decide
  calc pteGetAddr (tableEntry f)
      = (f.addr ||| (ptePresent ||| pteWritable ||| pteNx)) &&& pteAddrMask := by
        simp only [pteGetAddr, tableEntry, BitVec.or_assoc]
    _ = pteGetAddr f.addr ||| ((ptePresent ||| pteWritable ||| pteNx) &&& pteAddrMask) := by
        rw [BitVec.and_comm, BitVec.and_or_distrib_left, BitVec.and_comm pteAddrMask f.addr,
          BitVec.and_comm pteAddrMask]
        rfl
    _ = f.addr := by rw [hflags, BitVec.or_zero, f.aligned]

theorem links_setEntry_table (m : Mem) (t : Frame) (i : Index) (f : Frame) :
    links (setEntry m t i (tableEntry f)) = link (links m) t i f := by
  funext u j
  by_cases h : u = t ∧ j = i
  · rw [h.1, h.2]
    simp only [links, link, entry_setEntry_self, present_tableEntry, pteFrame_tableEntry, if_true,
      and_self]
  · simp only [links, link, entry_setEntry_other m _ h, h, if_false]

/-! Well-formed trees of 4 KiB pages. -/

/-- The tables of the three upper levels and the page tables form a tree, and
    no entry above the page tables maps a large page. -/
structure PageTree (m : Mem) (pml4 : Frame) : Prop where
  tree : Tree (links m) pml4 3
  small : ∀ p t i, p.length < 3 → tableAt (links m) pml4 p = some t → Present (entry m t i) →
    ¬ Large (entry m t i)

/-- The entry of a page, if there is a page table for it. -/
def pteWalk (m : Mem) (table : Option Frame) (i : Index) : Walk :=
  table.elim .notPresent (fun t => .ofPte (entry m t i))

theorem walkFrom_eq (m : Mem) (p : List Index) (t : Frame) (i : Index)
    (hsmall : ∀ q u j, q.length < p.length → tableAt (links m) t q = some u → Present (entry m u j) →
      ¬ Large (entry m u j)) :
    walkFrom m t p i = pteWalk m (tableAt (links m) t p) i := by
  induction p generalizing t with
  | nil => rfl
  | cons j p ih =>
    by_cases hj : Present (entry m t j)
    · have hlarge := hsmall [] t j (by simp) rfl hj
      have hlink : links m t j = some (pteFrame (entry m t j)) := links_eq_some.mpr ⟨hj, rfl⟩
      have hrest := ih (pteFrame (entry m t j)) (by
        intro q u k hq hu
        apply hsmall (j :: q) u k (by simpa using hq)
        simp only [tableAt, hlink, Option.bind_some, hu])
      simp only [walkFrom, hj, hlarge, not_true, if_false, hrest, tableAt, hlink, Option.bind_some]
    · simp only [walkFrom, hj, not_false_iff, if_true, tableAt, links, if_false, Option.bind_none]
      rfl

theorem walk_eq {m : Mem} {pml4 : Frame} (h : PageTree m pml4) (v : VPage) :
    walk m pml4 v = pteWalk m (tableAt (links m) pml4 v.path) v.pt :=
  walkFrom_eq m v.path pml4 v.pt h.small

theorem VPage.path_le (v : VPage) : v.path.length ≤ 3 := Nat.le_refl 3

/-- A page is its path and its index in the page table. -/
theorem VPage.eq_of_path {v w : VPage} (hpath : w.path = v.path) (hpt : w.pt = v.pt) : w = v := by
  cases v
  cases w
  simp only [VPage.path, List.cons.injEq, and_true] at hpath
  simp only at hpt
  simp only [VPage.mk.injEq]
  exact ⟨hpath.1, hpath.2.1, hpath.2.2, hpt⟩

section
variable {m : Mem} {pml4 t f : Frame} {p : List Index} {i : Index}

/-- A page table is not one of the tables above it. -/
theorem PageTree.upper_ne (h : PageTree m pml4) {v : VPage} {u : Frame} (hp : p.length < 3)
    (hu : tableAt (links m) pml4 p = some u) (ht : tableAt (links m) pml4 v.path = some t) : u ≠ t := by
  intro heq
  have hpath := h.tree p v.path t (Nat.le_of_lt hp) v.path_le (heq ▸ hu) ht
  rw [hpath] at hp
  exact Nat.lt_irrefl 3 hp

/-! Linking a table. -/

/-- What holds of all present entries above the page tables, and of the new one,
    holds of them after a table is linked. -/
theorem entries_link {P : BitVec 64 → Prop} (hentry : P (tableEntry f))
    (hall : ∀ q u j, q.length < 3 → tableAt (links m) pml4 q = some u → Present (entry m u j) → P (entry m u j))
    (hl : Linkable (links m) pml4 3 p t i f) {q : List Index} {u : Frame} {j : Index} (hq : q.length < 3)
    (hu : tableAt (links (setEntry m t i (tableEntry f))) pml4 q = some u)
    (hpresent : Present (entry (setEntry m t i (tableEntry f)) u j)) :
    P (entry (setEntry m t i (tableEntry f)) u j) := by
  rw [links_setEntry_table, tableAt_link hl q (Nat.le_of_lt hq)] at hu
  by_cases hslot : u = t ∧ j = i
  · rw [hslot.1, hslot.2, entry_setEntry_self]
    exact hentry
  · rw [entry_setEntry_other m _ hslot] at hpresent ⊢
    by_cases hqp : q = p ++ [i]
    · -- the new table is empty
      rw [if_pos hqp, Option.some.injEq] at hu
      rw [hqp, List.length_append, List.length_singleton] at hq
      have hblank := hl.blank hq j
      rw [hu] at hblank
      exact absurd hpresent (links_eq_none.mp hblank)
    · rw [if_neg hqp] at hu
      exact hall q u j hq hu hpresent

theorem tree_setEntry_table (hl : Linkable (links m) pml4 3 p t i f) :
    Tree (links (setEntry m t i (tableEntry f))) pml4 3 := by
  rw [links_setEntry_table]
  exact tree_link hl

theorem pageTree_link (h : PageTree m pml4) (hl : Linkable (links m) pml4 3 p t i f) :
    PageTree (setEntry m t i (tableEntry f)) pml4 :=
  ⟨tree_setEntry_table hl, fun _ _ _ => entries_link (P := (¬ Large ·)) (not_large_tableEntry f) h.small hl⟩

/-- Linking a table changes the walk of no page whose entry in it is not
    present. -/
theorem walk_link (h : PageTree m pml4) (hl : Linkable (links m) pml4 3 p t i f) (w : VPage)
    (hw : w.path = p ++ [i] → ¬ Present (entry m f w.pt)) :
    walk (setEntry m t i (tableEntry f)) pml4 w = walk m pml4 w := by
  rw [walk_eq (pageTree_link h hl), walk_eq h, links_setEntry_table, tableAt_link hl w.path w.path_le]
  by_cases hpath : w.path = p ++ [i]
  · rw [if_pos hpath, hpath, hl.path_empty]
    have hslot : ¬ (f = t ∧ w.pt = i) := fun heq => hl.ne heq.1
    simp only [pteWalk, Option.elim, entry_setEntry_other m _ hslot, Walk.ofPte, hw hpath, if_false]
  · rw [if_neg hpath]
    cases hu : tableAt (links m) pml4 w.path with
    | none => simp only [pteWalk, Option.elim]
    | some u =>
      have hslot : ¬ (u = t ∧ w.pt = i) := fun heq => h.upper_ne hl.depth hl.here hu heq.1.symm
      simp only [pteWalk, Option.elim, entry_setEntry_other m _ hslot]

/-! Writing an entry of a page table. -/

theorem tableAt_setEntry (h : PageTree m pml4) {v : VPage}
    (ht : tableAt (links m) pml4 v.path = some t) (value : BitVec 64) (q : List Index)
    (hq : q.length ≤ 3) :
    tableAt (links (setEntry m t i value)) pml4 q = tableAt (links m) pml4 q := by
  apply tableAt_agree _ q hq
  intro p u j hp hu
  have hslot : ¬ (u = t ∧ j = i) := fun heq => h.upper_ne hp hu ht heq.1
  simp only [links, entry_setEntry_other m value hslot]

/-- What holds of all present entries above the page tables stays so. -/
theorem entries_setEntry {P : BitVec 64 → Prop} (h : PageTree m pml4)
    (hall : ∀ q u j, q.length < 3 → tableAt (links m) pml4 q = some u → Present (entry m u j) → P (entry m u j))
    {v : VPage} (ht : tableAt (links m) pml4 v.path = some t) (value : BitVec 64) {q : List Index} {u : Frame}
    {j : Index} (hq : q.length < 3) (hu : tableAt (links (setEntry m t i value)) pml4 q = some u)
    (hpresent : Present (entry (setEntry m t i value) u j)) : P (entry (setEntry m t i value) u j) := by
  rw [tableAt_setEntry h ht value q (Nat.le_of_lt hq)] at hu
  have hslot : ¬ (u = t ∧ j = i) := fun heq => h.upper_ne hq hu ht heq.1
  rw [entry_setEntry_other m value hslot] at hpresent ⊢
  exact hall q u j hq hu hpresent

theorem tree_setEntry (h : PageTree m pml4) {v : VPage} (ht : tableAt (links m) pml4 v.path = some t)
    (value : BitVec 64) : Tree (links (setEntry m t i value)) pml4 3 :=
  tree_agree h.tree (tableAt_setEntry h ht value)

theorem pageTree_setEntry (h : PageTree m pml4) {v : VPage}
    (ht : tableAt (links m) pml4 v.path = some t) (value : BitVec 64) :
    PageTree (setEntry m t i value) pml4 :=
  ⟨tree_setEntry h ht value, fun _ _ _ => entries_setEntry (P := (¬ Large ·)) h h.small ht value⟩

theorem walk_setEntry (h : PageTree m pml4) {v : VPage}
    (ht : tableAt (links m) pml4 v.path = some t) (value : BitVec 64) (w : VPage) :
    walk (setEntry m t v.pt value) pml4 w = if w = v then .ofPte value else walk m pml4 w := by
  rw [walk_eq (pageTree_setEntry h ht value), walk_eq h, tableAt_setEntry h ht value _ w.path_le]
  by_cases hwv : w = v
  · rw [if_pos hwv, hwv, ht]
    simp only [pteWalk, Option.elim, entry_setEntry_self]
  · rw [if_neg hwv]
    cases hu : tableAt (links m) pml4 w.path with
    | none => simp only [pteWalk, Option.elim]
    | some u =>
      have hslot : ¬ (u = t ∧ w.pt = v.pt) := by
        intro heq
        have hpath := h.tree w.path v.path t w.path_le v.path_le (heq.1 ▸ hu) ht
        exact hwv (VPage.eq_of_path hpath heq.2)
      simp only [pteWalk, Option.elim, entry_setEntry_other m value hslot]

end

end Qnixx
