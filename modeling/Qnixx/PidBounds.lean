import Qnixx.Pid

/- Which bytes of the pid bitmap are touched, against the size of its block.
   The block has one byte. `alloc_pid` grows it when `i/8` exceeds
   `pid_bitmap_bytes`, which starts at 1: byte 1 is never found to be missing,
   and bit 8, where every scan ends at the latest, is in it. -/
namespace Qnixx

/-- A read or write of one byte of the bitmap, and the number of bytes last
    asked for when it is made. -/
structure Access where
  byte : Nat
  size : Nat
  deriving DecidableEq

/-- The loop of `alloc_pid`, which also counts the bytes asked for and lists
    its accesses: one for `bitmap_test_bit`, and one more for `bitmap_set_bit`. -/
def tracedPidLoop (heap : PidHeap) : Nat → Nat → Bitmap → Nat → Nat →
    Option (Nat × PidState × Nat) × List Access
  | 0, _, _, _, _ => (none, [])
  | fuel + 1, i, bitmap, bytes, size =>
    let grown :=
      if i / 8 > bytes then
        (heap.krealloc bitmap (bytes + 1 + 2)).map (fun b => (b, bytes + 1, bytes + 1 + 2))
      else some (bitmap, bytes, size)
    match grown with
    | none => (none, [])
    | some (bitmap, bytes, size) =>
      if readsFree bitmap i then
        (some (i, { bitmap := some (bitmapSetBit bitmap i), bytes := bytes }, size),
          [⟨i / 8, size⟩, ⟨i / 8, size⟩])
      else
        let rest := tracedPidLoop heap fuel (i + 1) bitmap bytes size
        (rest.1, ⟨i / 8, size⟩ :: rest.2)

/-- The state, and the bytes last asked for: none before the first call. -/
abbrev SizedPids := PidState × Nat

/-- `kmalloc(sizeof(uint8_t))` when there is no bitmap yet. -/
def sizeOnAlloc (st : SizedPids) : Nat := if st.1.bitmap.isNone then 1 else st.2

/-- What a call leaves and what it touches. `free_pid` does not look whether
    there is a bitmap. -/
def tracedPidCall (heap : PidHeap) (fuel : Nat) (st : SizedPids) : PidOp → Option SizedPids × List Access
  | .alloc =>
    let r := tracedPidLoop heap fuel 1 (st.1.bitmap.getD heap.kmalloc) st.1.bytes (sizeOnAlloc st)
    (r.1.map (fun r => (r.2.1, r.2.2)), r.2)
  | .free pid =>
    if pid > 0 then ((freePid st.1 pid).map (fun s => (s, st.2)), [⟨pid / 8, st.2⟩]) else (none, [])

def sizedPidStep (heap : PidHeap) (fuel : Nat) (st : SizedPids) (op : PidOp) : Option SizedPids :=
  (tracedPidCall heap fuel st op).1

/-- Every byte the call touches is inside the block. -/
def InsideBlock (heap : PidHeap) (fuel : Nat) (st : SizedPids) (op : PidOp) : Prop :=
  ∀ a ∈ (tracedPidCall heap fuel st op).2, a.byte < a.size

/-! The list of accesses aside, the calls are those of `Pid`. -/

theorem tracedPidLoop_erase (heap : PidHeap) (fuel i : Nat) (bitmap : Bitmap) (bytes size : Nat) :
    (tracedPidLoop heap fuel i bitmap bytes size).1.map (fun r => (r.1, r.2.1)) =
      allocPidLoop heap fuel i bitmap bytes := by
  induction fuel generalizing i bitmap bytes size with
  | zero => rfl
  | succ fuel ih =>
    rw [tracedPidLoop, allocPidLoop]
    -- the turn after the bitmap was grown, or was not
    by_cases hgrow : i / 8 > bytes
    · simp only [hgrow, if_true]
      cases heap.krealloc bitmap (bytes + 1 + 2) with
      | none => rfl
      | some b =>
        simp only [Option.map_some, Option.bind_eq_bind, Option.bind_some]
        cases readsFree b i with
        | true => rfl
        | false => exact ih ..
    · simp only [hgrow, if_false, Option.bind_eq_bind, Option.bind_some]
      cases readsFree bitmap i with
      | true => rfl
      | false => exact ih ..

theorem tracedPidCall_alloc (heap : PidHeap) (fuel : Nat) (st : SizedPids) :
    (sizedPidStep heap fuel st .alloc).map Prod.fst = (allocPid heap fuel st.1).map Prod.snd := by
  rw [allocPid, ← tracedPidLoop_erase heap fuel 1 _ _ (sizeOnAlloc st), sizedPidStep, tracedPidCall]
  simp only [Option.map_map]
  rfl

/-! The bytes a scan touches. -/

theorem allocPidLoop_le {heap : PidHeap} {fuel i pid : Nat} {bitmap : Bitmap} {bytes : Nat}
    {s : PidState} (h : allocPidLoop heap fuel i bitmap bytes = some (pid, s)) : i ≤ pid := by
  induction fuel generalizing i bitmap bytes with
  | zero => simp [allocPidLoop] at h
  | succ fuel ih =>
    have hturn : ∀ b n, (if readsFree b i then some (i, PidState.mk (some (bitmapSetBit b i)) n)
        else allocPidLoop heap fuel (i + 1) b n) = some (pid, s) → i ≤ pid := by
      intro b n h
      split at h
      · rw [Option.some.injEq, Prod.mk.injEq] at h
        exact Nat.le_of_eq h.1
      · exact Nat.le_of_succ_le (ih h)
    rw [allocPidLoop] at h
    split at h
    · obtain ⟨⟨b, n⟩, -, h⟩ := Option.bind_eq_some_iff.mp h
      exact hturn b n h
    · exact hturn bitmap bytes h

/-- A scan that ends at bit 8 or before never grows the bitmap; it touches the
    byte of the bit where it ends, and none after it. -/
theorem tracedPidLoop_accesses {heap : PidHeap} {bitmap : Bitmap} {bytes : Nat} (hb : 1 ≤ bytes)
    {pid : Nat} {s : PidState} (hpid : pid ≤ 8) (size : Nat) {fuel i : Nat}
    (h : allocPidLoop heap fuel i bitmap bytes = some (pid, s)) :
    (tracedPidLoop heap fuel i bitmap bytes size).1 = some (pid, s, size) ∧
      (∀ a ∈ (tracedPidLoop heap fuel i bitmap bytes size).2, a.byte ≤ pid / 8 ∧ a.size = size) ∧
      ⟨pid / 8, size⟩ ∈ (tracedPidLoop heap fuel i bitmap bytes size).2 := by
  induction fuel generalizing i with
  | zero => simp [allocPidLoop] at h
  | succ fuel ih =>
    have hi := allocPidLoop_le h
    have hnogrow : ¬ (i / 8 > bytes) := by omega
    rw [allocPidLoop] at h
    rw [tracedPidLoop]
    simp only [hnogrow, if_false, Option.bind_eq_bind, Option.bind_some] at h ⊢
    cases hfree : readsFree bitmap i with
    | true =>
      rw [hfree, if_pos rfl, Option.some.injEq, Prod.mk.injEq] at h
      obtain ⟨rfl, rfl⟩ := h
      rw [if_pos rfl]
      refine ⟨rfl, ?_, List.mem_cons_self ..⟩
      intro a ha
      simp only [List.mem_cons, List.not_mem_nil, or_false, or_self] at ha
      rw [ha]
      exact ⟨Nat.le_refl _, rfl⟩
    | false =>
      simp only [hfree, Bool.false_eq_true, if_false] at h ⊢
      obtain ⟨hres, hall, hlast⟩ := ih h
      refine ⟨hres, ?_, List.mem_cons_of_mem _ hlast⟩
      intro a ha
      rcases List.mem_cons.mp ha with rfl | ha
      · exact ⟨Nat.div_le_div_right hi, rfl⟩
      · exact hall a ha

/-! One call. -/

/-- A block, once there is one, has one byte. -/
structure OneByte (st : SizedPids) : Prop where
  bytes : st.1.bytes = 1
  size : st.2 = if st.1.bitmap.isSome then 1 else 0

/-- Some bit of the first byte that can be an id is clear; and only ids in the
    first byte are given back, once there is a bitmap. -/
def FirstByte (heap : PidHeap) (st : SizedPids) : PidOp → Prop
  | .alloc => ∃ q, 1 ≤ q ∧ q < 8 ∧ Bitmap.bit (st.1.bitmap.getD heap.kmalloc) q = false
  | .free pid => pid = 0 ∨ (st.1.bitmap.isSome ∧ pid < 8)

section
variable {heap : PidHeap} {fuel : Nat} {st st' : SizedPids} {op : PidOp}

theorem OneByte.sizeOnAlloc (h : OneByte st) : Qnixx.sizeOnAlloc st = 1 := by
  rw [Qnixx.sizeOnAlloc, h.size]
  cases st.1.bitmap with
  | none => rfl
  | some b => rfl

/-- What a call of `alloc_pid` returns and touches: the byte of the id, and none
    after it. -/
theorem tracedPidCall_spec (heap : PidHeap) (hf : 8 ≤ fuel) (h : OneByte st) :
    ∃ pid, FirstClear (st.1.bitmap.getD heap.kmalloc) pid ∧
      sizedPidStep heap fuel st .alloc =
        some (⟨some (bitmapSetBit (st.1.bitmap.getD heap.kmalloc) pid), st.1.bytes⟩, 1) ∧
      (∀ a ∈ (tracedPidCall heap fuel st .alloc).2, a.byte ≤ pid / 8 ∧ a.size = 1) ∧
      ⟨pid / 8, 1⟩ ∈ (tracedPidCall heap fuel st .alloc).2 := by
  have hb : 1 ≤ st.1.bytes := Nat.le_of_eq h.bytes.symm
  obtain ⟨pid, hfirst, halloc⟩ := allocPid_spec heap hf hb
  obtain ⟨hres, hall, hlast⟩ := tracedPidLoop_accesses hb hfirst.2.1 (Qnixx.sizeOnAlloc st) halloc
  rw [h.sizeOnAlloc] at hres hall hlast
  refine ⟨pid, hfirst, ?_, ?_, ?_⟩
  · simp only [sizedPidStep, tracedPidCall, h.sizeOnAlloc, hres, Option.map_some]
  · rw [tracedPidCall, h.sizeOnAlloc]
    exact hall
  · rw [tracedPidCall, h.sizeOnAlloc]
    exact hlast

theorem oneByte_step (hf : 8 ≤ fuel) (h : OneByte st) (hs : sizedPidStep heap fuel st op = some st') :
    OneByte st' := by
  cases op with
  | alloc =>
    obtain ⟨pid, -, hstep, -⟩ := tracedPidCall_spec heap hf h
    rw [hstep, Option.some.injEq] at hs
    subst hs
    exact ⟨h.bytes, rfl⟩
  | free pid =>
    simp only [sizedPidStep, tracedPidCall] at hs
    split at hs
    · next hpos =>
      obtain ⟨s, hfree, rfl⟩ := Option.map_eq_some_iff.mp hs
      rw [freePid, if_pos hpos] at hfree
      obtain ⟨b, hb, rfl⟩ := Option.map_eq_some_iff.mp hfree
      have hsize := h.size
      rw [hb] at hsize
      exact ⟨h.bytes, hsize⟩
    · cases hs

theorem insideBlock_iff (hf : 8 ≤ fuel) (h : OneByte st) :
    InsideBlock heap fuel st op ↔ FirstByte heap st op := by
  cases op with
  | alloc =>
    obtain ⟨pid, hfirst, -, hall, hlast⟩ := tracedPidCall_spec heap hf h
    obtain ⟨hpos, h8, hset, hclear⟩ := hfirst
    refine ⟨?_, ?_⟩
    · intro hinside
      have hlt : pid / 8 < 1 := hinside _ hlast
      exact ⟨pid, hpos, by omega, hclear (by omega)⟩
    · intro hfree a ha
      obtain ⟨q, hq, hq8, hbit⟩ := hfree
      -- the scan stops at `q` at the latest
      have hle : pid ≤ q := by
        apply Nat.le_of_not_lt
        intro hlt
        rw [hset q hq hlt] at hbit
        cases hbit
      obtain ⟨hbyte, hsize⟩ := hall a ha
      omega
  | free pid =>
    have hsize := h.size
    simp only [InsideBlock, FirstByte, tracedPidCall]
    by_cases hpos : pid > 0
    · simp only [hpos, if_true, List.mem_singleton, forall_eq, hsize]
      cases st.1.bitmap with
      | none => simp; omega
      | some b => simp; omega
    · have hzero : pid = 0 := by omega
      simp [hzero]

end

/-- **When the pid bitmap is touched inside its block.** Whatever memory the
    heap returns, in every run of `alloc_pid` and `free_pid`, each byte touched
    is below the number last asked for iff at every allocation one of the bits
    1 to 7 is clear, and every id given back is below 8 (or is 0, which the
    assert stops) with the bitmap there. -/
theorem pid_bitmap_inside_iff (heap : PidHeap) (fuel : Nat) (hf : 8 ≤ fuel) (ops : List PidOp) :
    Runs.Meets (sizedPidStep heap fuel) (InsideBlock heap fuel) (pidBoot, 0) ops ↔
      Runs.Meets (sizedPidStep heap fuel) (FirstByte heap) (pidBoot, 0) ops := by
  have hboot : OneByte (pidBoot, 0) := ⟨rfl, rfl⟩
  refine Runs.meets_iff_of_inv (P := OneByte) ?_ (fun _ _ h => insideBlock_iff hf h) hboot
  intro st op st' h _ hs
  exact oneByte_step hf h hs

/-- One id is taken and given back. -/
theorem pid_bitmap_inside_one :
    Runs.Meets (sizedPidStep zeroHeap 8) (InsideBlock zeroHeap 8) (pidBoot, 0) [.alloc, .free 1] := by
  refine (pid_bitmap_inside_iff zeroHeap 8 (by decide) _).mpr ⟨⟨1, by decide, by decide, by decide⟩, ?_⟩
  intro st hst
  have hone : OneByte (pidBoot, 0) := ⟨rfl, rfl⟩
  obtain ⟨pid, -, hstep, -⟩ := tracedPidCall_spec zeroHeap (Nat.le_refl 8) hone
  rw [hstep, Option.some.injEq] at hst
  subst hst
  exact ⟨.inr ⟨rfl, by decide⟩, fun _ _ => trivial⟩

/-- The eighth process: byte 1 of a block of one byte is read and written. -/
theorem pid_bitmap_left :
    ¬ Runs.Meets (sizedPidStep zeroHeap 8) (InsideBlock zeroHeap 8) (pidBoot, 0)
      (List.replicate 7 .alloc ++ [.alloc]) := by
  have hrun : (Runs.exec (sizedPidStep zeroHeap 8) (pidBoot, 0) (List.replicate 7 .alloc)).any (fun st =>
      (tracedPidCall zeroHeap 8 st .alloc).2.contains ⟨1, 1⟩) = true := by
    decide +kernel
  obtain ⟨st, hst, htouch⟩ := (Option.any_eq_true _ _).mp hrun
  intro hmeets
  have hinside := (Runs.meets_append hmeets hst).1
  exact absurd (hinside ⟨1, 1⟩ (List.contains_iff_mem.mp htouch)) (by decide)

end Qnixx
