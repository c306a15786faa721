import Mathlib.Data.List.Nodup
import Qnixx.Bitmap
import Qnixx.Lib.Runs

/- Process ids (`sched/process.c`). `alloc_pid` takes the first id whose bit
   reads as clear, in a bitmap that `kmalloc` returned and nobody cleared.
   Only the bits 1 to 7 of the first byte are read as they are: bit 8 always
   reads as clear, so the loop ends there at the latest and the bitmap is
   never grown. -/
namespace Qnixx

/-- `pid_bitmap` (`none` is NULL) and `pid_bitmap_bytes`. -/
structure PidState where
  bitmap : Option Bitmap
  bytes : Nat

/-- What the heap returns: the memory of the first `kmalloc`, and `krealloc`
    of a block to a size, `none` being NULL. -/
structure PidHeap where
  kmalloc : Bitmap
  krealloc : Bitmap → Nat → Option Bitmap

def pidBoot : PidState := { bitmap := none, bytes := 1 }

/-- The loop of `alloc_pid` from `i` on; `none` is a failed assert, or a loop
    that has not ended after `fuel` turns. -/
def allocPidLoop (heap : PidHeap) : Nat → Nat → Bitmap → Nat → Option (Nat × PidState)
  | 0, _, _, _ => none
  | fuel + 1, i, bitmap, bytes => do
    let (bitmap, bytes) ←
      if i / 8 > bytes then (heap.krealloc bitmap (bytes + 1 + 2)).map (fun b => (b, bytes + 1))
      else some (bitmap, bytes)
    if readsFree bitmap i then
      some (i, { bitmap := some (bitmapSetBit bitmap i), bytes := bytes })
    else allocPidLoop heap fuel (i + 1) bitmap bytes

def allocPid (heap : PidHeap) (fuel : Nat) (s : PidState) : Option (Nat × PidState) :=
  allocPidLoop heap fuel 1 (s.bitmap.getD heap.kmalloc) s.bytes

def freePid (s : PidState) (pid : Nat) : Option PidState :=
  if pid > 0 then s.bitmap.map (fun b => { s with bitmap := some (bitmapUnsetBit b pid) }) else none

/-! What the loop returns. -/

/-- The first of the bits 1 to 7 that is clear, or else 8. -/
def FirstClear (bitmap : Bitmap) (pid : Nat) : Prop :=
  1 ≤ pid ∧ pid ≤ 8 ∧ (∀ q, 1 ≤ q → q < pid → Bitmap.bit bitmap q = true) ∧
    (pid < 8 → Bitmap.bit bitmap pid = false)

theorem FirstClear.unique {bitmap : Bitmap} {p q : Nat} (hp : FirstClear bitmap p)
    (hq : FirstClear bitmap q) : p = q := by
  obtain ⟨hp1, hp8, hpset, hpclear⟩ := hp
  obtain ⟨hq1, hq8, hqset, hqclear⟩ := hq
  rcases Nat.lt_trichotomy p q with hlt | heq | hlt
  · have := hqset p hp1 hlt
    rw [hpclear (by omega)] at this
    simp at this
  · exact heq
  · have := hpset q hq1 hlt
    rw [hqclear (by omega)] at this
    simp at this

theorem allocPidLoop_spec (heap : PidHeap) {bitmap : Bitmap} {bytes : Nat} (hb : 1 ≤ bytes) :
    ∀ {fuel i : Nat}, 1 ≤ i → i ≤ 8 → 8 < fuel + i →
      (∀ q, 1 ≤ q → q < i → Bitmap.bit bitmap q = true) →
      ∃ pid, FirstClear bitmap pid ∧ allocPidLoop heap fuel i bitmap bytes =
        some (pid, { bitmap := some (bitmapSetBit bitmap pid), bytes := bytes })
  | 0, i, hi, hi8, hf, hset => by omega
  | fuel + 1, i, hi, hi8, hf, hset => by
    have hnogrow : ¬ (i / 8 > bytes) := by omega
    rw [allocPidLoop]
    simp only [hnogrow, if_false, Option.bind_eq_bind, Option.bind_some]
    cases hr : readsFree bitmap i with
    | true =>
      refine ⟨i, ⟨hi, hi8, hset, ?_⟩, by simp⟩
      intro hlt
      rcases (readsFree_iff bitmap i).mp hr with hclear | hhigh
      · exact hclear
      · omega
    | false =>
      have hbit : Bitmap.bit bitmap i = true := by
        apply Classical.byContradiction
        intro hne
        rw [readsFree_of_clear (by simpa using hne)] at hr
        simp at hr
      -- bit 8 reads as free whatever it holds, so the scan ends there
      have hne8 : i ≠ 8 := by
        intro he
        subst he
        rw [(readsFree_iff bitmap 8).mpr (.inr (by decide))] at hr
        simp at hr
      have hset' : ∀ q, 1 ≤ q → q < i + 1 → Bitmap.bit bitmap q = true := by
        intro q hq hlt
        by_cases hqi : q = i
        · rw [hqi]
          exact hbit
        · exact hset q hq (by omega)
      have hf' : 8 < fuel + (i + 1) := by omega
      obtain ⟨pid, hpid, heq⟩ := allocPidLoop_spec heap hb (by omega) (by omega) hf' hset'
      exact ⟨pid, hpid, by simpa using heq⟩

/-- `alloc_pid` always returns, after at most eight turns of its loop. -/
theorem allocPid_spec (heap : PidHeap) {fuel : Nat} (hf : 8 ≤ fuel) {s : PidState} (hb : 1 ≤ s.bytes) :
    ∃ pid, FirstClear (s.bitmap.getD heap.kmalloc) pid ∧ allocPid heap fuel s =
      some (pid, { bitmap := some (bitmapSetBit (s.bitmap.getD heap.kmalloc) pid), bytes := s.bytes }) :=
  allocPidLoop_spec heap hb (by decide) (by decide) (by omega) (by intro q hq hlt; omega)

/-! Runs. -/

inductive PidOp where
  | alloc
  | free (pid : Nat)

/-- One call; the list holds the live ids, and only these are freed. -/
def pidStep (heap : PidHeap) (fuel : Nat) (st : PidState × List Nat) : PidOp →
    Option (PidState × List Nat)
  | .alloc => (allocPid heap fuel st.1).map (fun r => (r.2, r.1 :: st.2))
  | .free pid =>
    if pid ∈ st.2 then (freePid st.1 pid).map (fun s => (s, st.2.erase pid)) else none

/-- The smallest positive id that is not live. -/
def Lowest (live : List Nat) (pid : Nat) : Prop :=
  1 ≤ pid ∧ pid ∉ live ∧ ∀ q, 1 ≤ q → q < pid → q ∈ live

/-- An allocation returns the smallest positive id that is not live. -/
def ReturnsLowest (heap : PidHeap) (fuel : Nat) (st : PidState × List Nat) : PidOp → Prop
  | .alloc => ∃ pid s, allocPid heap fuel st.1 = some (pid, s) ∧ Lowest st.2 pid
  | .free _ => True

/-- The smallest positive id that is not live is at most 8, and where it is
    less its bit is clear. -/
def LowestReadable (heap : PidHeap) (st : PidState × List Nat) : PidOp → Prop
  | .alloc => ∃ pid, Lowest st.2 pid ∧ pid ≤ 8 ∧
      (pid < 8 → Bitmap.bit (st.1.bitmap.getD heap.kmalloc) pid = false)
  | .free _ => True

instance (live : List Nat) (pid : Nat) : Decidable (Lowest live pid) :=
  decidable_of_iff (1 ≤ pid ∧ pid ∉ live ∧ ∀ q < pid, 1 ≤ q → q ∈ live)
    ⟨fun h => ⟨h.1, h.2.1, fun q hq hlt => h.2.2 q hlt hq⟩,
      fun h => ⟨h.1, h.2.1, fun q hlt hq => h.2.2 q hq hlt⟩⟩

theorem lowestReadable_alloc (heap : PidHeap) (st : PidState × List Nat) :
    (∃ pid < 9, Lowest st.2 pid ∧ (pid < 8 → Bitmap.bit (st.1.bitmap.getD heap.kmalloc) pid = false)) ↔
      LowestReadable heap st .alloc := by
  refine ⟨?_, ?_⟩
  · intro h
    obtain ⟨pid, hlt, hlow, hclear⟩ := h
    exact ⟨pid, hlow, Nat.le_of_lt_succ hlt, hclear⟩
  · intro h
    obtain ⟨pid, hlow, h8, hclear⟩ := h
    exact ⟨pid, Nat.lt_succ_of_le h8, hlow, hclear⟩

instance (heap : PidHeap) (st : PidState × List Nat) : (op : PidOp) → Decidable (LowestReadable heap st op)
  | .alloc => decidable_of_iff _ (lowestReadable_alloc heap st)
  | .free _ => isTrue trivial

/-- While ids are unique, the bits of the live ones are set. -/
structure PidInv (heap : PidHeap) (st : PidState × List Nat) : Prop where
  bytes : 1 ≤ st.1.bytes
  nodup : st.2.Nodup
  set : ∀ q ∈ st.2, Bitmap.bit (st.1.bitmap.getD heap.kmalloc) q = true

section
variable {heap : PidHeap} {fuel : Nat} {st st' : PidState × List Nat} {op : PidOp}

theorem pidInv_boot (heap : PidHeap) : PidInv heap (pidBoot, []) :=
  ⟨Nat.le_refl 1, List.nodup_nil, by simp⟩

theorem returnsLowest_iff (hf : 8 ≤ fuel) (h : PidInv heap st) :
    ReturnsLowest heap fuel st op ↔ LowestReadable heap st op := by
  cases op with
  | free pid => exact Iff.rfl
  | alloc =>
    obtain ⟨pid, hfirst, halloc⟩ := allocPid_spec heap hf h.bytes
    refine ⟨?_, ?_⟩
    · intro h
      obtain ⟨pid', s, heq, hlow⟩ := h
      rw [halloc, Option.some.injEq, Prod.mk.injEq] at heq
      rw [← heq.1] at hlow
      exact ⟨pid, hlow, hfirst.2.1, hfirst.2.2.2⟩
    · intro h
      obtain ⟨low, hlow, h8, hclear⟩ := h
      -- every id below is live, so its bit is set and the scan passes it
      have hset : ∀ q, 1 ≤ q → q < low → Bitmap.bit (st.1.bitmap.getD heap.kmalloc) q = true :=
        fun q hq hlt => h.set q (hlow.2.2 q hq hlt)
      have heq : pid = low := hfirst.unique ⟨hlow.1, h8, hset, hclear⟩
      subst heq
      exact ⟨pid, _, halloc, hlow⟩

theorem pidInv_step (h : PidInv heap st) (hr : ReturnsLowest heap fuel st op) (hf : 8 ≤ fuel)
    (hs : pidStep heap fuel st op = some st') : PidInv heap st' := by
  cases op with
  | alloc =>
    obtain ⟨pid, s, halloc, hlow⟩ := hr
    obtain ⟨pid', -, halloc'⟩ := allocPid_spec heap hf h.bytes
    rw [halloc, Option.some.injEq, Prod.mk.injEq] at halloc'
    obtain ⟨rfl, rfl⟩ := halloc'
    simp only [pidStep, halloc, Option.map_some, Option.some.injEq] at hs
    subst hs
    refine ⟨h.bytes, List.nodup_cons.mpr ⟨hlow.2.1, h.nodup⟩, ?_⟩
    intro q hq
    dsimp only [Option.getD_some]
    rw [bit_set]
    rcases List.mem_cons.mp hq with rfl | hq
    · simp
    · simp [h.set q hq]
  | free pid =>
    simp only [pidStep] at hs
    split at hs
    · next hlive =>
      obtain ⟨s, hfree, rfl⟩ := Option.map_eq_some_iff.mp hs
      unfold freePid at hfree
      split at hfree
      · obtain ⟨b, hb, rfl⟩ := Option.map_eq_some_iff.mp hfree
        refine ⟨h.bytes, h.nodup.erase pid, ?_⟩
        intro q hq
        have hne : pid ≠ q := by
          intro he
          subst he
          exact (h.nodup.mem_erase_iff.mp hq).1 rfl
        have hset := h.set q (List.mem_of_mem_erase hq)
        rw [hb, Option.getD_some] at hset
        dsimp only [Option.getD_some]
        rw [bit_unset, hset]
        simp [hne]
      · simp at hfree
    · simp at hs

theorem pid_run_iff (hf : 8 ≤ fuel) {ops : List PidOp} {st : PidState × List Nat} (h : PidInv heap st) :
    Runs.Meets (pidStep heap fuel) (ReturnsLowest heap fuel) st ops ↔
      Runs.Meets (pidStep heap fuel) (LowestReadable heap) st ops := by
  refine Runs.meets_iff_of_inv (P := PidInv heap) ?_ (fun _ _ hp => returnsLowest_iff hf hp) h
  intro st op st' hp hc hs
  exact pidInv_step hp hc hf hs

end

/-- **Unique process ids.** Whatever memory the heap returns, every allocation
    of a run returns the smallest positive id that is not live iff at every
    allocation that id is at most 8 and, where it is less, its bit is clear. -/
theorem pids_lowest_iff (heap : PidHeap) (fuel : Nat) (hf : 8 ≤ fuel) (ops : List PidOp) :
    Runs.Meets (pidStep heap fuel) (ReturnsLowest heap fuel) (pidBoot, []) ops ↔
      Runs.Meets (pidStep heap fuel) (LowestReadable heap) (pidBoot, []) ops :=
  pid_run_iff hf (pidInv_boot heap)

/-- A heap whose memory is zero. -/
def zeroHeap : PidHeap := { kmalloc := fun _ => 0, krealloc := fun b _ => some b }

/-- The id that was freed is the next one. -/
theorem pids_lowest_iff_three :
    Runs.Meets (pidStep zeroHeap 8) (ReturnsLowest zeroHeap 8) (pidBoot, [])
      [.alloc, .alloc, .free 1, .alloc] ∧
    (Runs.exec (pidStep zeroHeap 8) (pidBoot, []) [.alloc, .alloc, .free 1, .alloc]).map Prod.snd =
      some [1, 2] := by
  have hreadable : Runs.Meets (pidStep zeroHeap 8) (LowestReadable zeroHeap) (pidBoot, [])
      [.alloc, .alloc, .free 1, .alloc] := by
    decide +kernel
  exact ⟨(pids_lowest_iff zeroHeap 8 (by decide) _).mpr hreadable, by decide +kernel⟩

/-- The eighth and the ninth process both get the id 8. -/
theorem pid_eight_twice :
    ¬ Runs.Meets (pidStep zeroHeap 8) (ReturnsLowest zeroHeap 8) (pidBoot, [])
      (List.replicate 8 .alloc ++ [.alloc]) := by
  have hrun : (Runs.exec (pidStep zeroHeap 8) (pidBoot, []) (List.replicate 8 .alloc)).any (fun st =>
      st.2 == [8, 7, 6, 5, 4, 3, 2, 1] && (allocPid zeroHeap 8 st.1).any (fun r => r.1 == 8)) = true := by
    decide +kernel
  obtain ⟨st, hst, hcheck⟩ := (Option.any_eq_true _ _).mp hrun
  rw [Bool.and_eq_true, beq_iff_eq] at hcheck
  obtain ⟨⟨pid, s⟩, halloc, hpid⟩ := (Option.any_eq_true _ _).mp hcheck.2
  intro hmeets
  obtain ⟨⟨pid', s', halloc', hlow⟩, -⟩ := Runs.meets_append hmeets hst
  rw [halloc, Option.some.injEq, Prod.mk.injEq] at halloc'
  have h8 : pid = 8 := beq_iff_eq.mp hpid
  rw [← halloc'.1, h8, hcheck.1] at hlow
  exact hlow.2.1 (List.mem_cons_self ..)

end Qnixx
