import Mathlib.Data.List.Pairwise
import Mathlib.Data.List.Perm.Basic
import Qnixx.Lib.Runs
import Qnixx.Pmm

/- Who owns a frame. A run of `pmm_alloc` and `pmm_free` carries, beside the
   state, the list of live allocations, each with its pointer and its number
   of frames; only these are freed. The invariant ties the bitmap to the list:
   a bit that is clear belongs to a usable frame that no allocation has. An
   allocation preserves it when its scan is honest (`HonestScan`); `pmm_init`
   and `pmm_free` always do. -/
namespace Qnixx

/-- The page of frame `f` lies in the entry. -/
def InEntry (e : MemmapEntry) (f : Nat) : Prop :=
  e.base ≤ f * 0x1000 ∧ (f + 1) * 0x1000 ≤ e.base + e.length

def UsableFrame (entries : List MemmapEntry) (f : Nat) : Prop :=
  ∃ e ∈ entries, e.type = .usable ∧ InEntry e f

/-- Two entries have no byte in common. -/
def Separate (a b : MemmapEntry) : Prop :=
  a.base + a.length ≤ b.base ∨ b.base + b.length ≤ a.base

/-- A memory map that the bootloader may hand over. -/
structure MemmapWf (entries : List MemmapEntry) : Prop where
  aligned : ∀ e ∈ entries, e.base % 0x1000 = 0 ∧ e.length % 0x1000 = 0
  nonempty : ∀ e ∈ entries, e.type = .usable → 0 < e.length
  bounded : ∀ e ∈ entries, e.base + e.length < 2^64
  disjoint : entries.Pairwise Separate
  room : ∃ e ∈ entries, e.type = .usable ∧ ∀ size, getBitmapSize entries = some size → size ≤ e.length

/-! The size of the bitmap. -/

theorem higherChunk_usable {entry : MemmapEntry} (h : entry.type = .usable)
    (chunk : Option MemmapEntry) : ∃ d, higherChunk chunk entry = some d ∧
      (d = entry ∨ chunk = some d) ∧ entry.base ≤ d.base ∧ ∀ c, chunk = some c → c.base ≤ d.base := by
  unfold higherChunk
  rw [if_neg (fun hn => hn h)]
  cases chunk with
  | none => exact ⟨entry, rfl, .inl rfl, Nat.le_refl _, by simp⟩
  | some c =>
    by_cases hlt : entry.base > c.base
    · refine ⟨entry, by simp [hlt], .inl rfl, Nat.le_refl _, ?_⟩
      intro c' hc'
      rw [← Option.some.inj hc']
      omega
    · refine ⟨c, by simp [hlt], .inr rfl, by omega, ?_⟩
      intro c' hc'
      cases hc'
      exact Nat.le_refl _

theorem higherChunk_other {entry : MemmapEntry} (h : entry.type ≠ .usable)
    (chunk : Option MemmapEntry) : higherChunk chunk entry = chunk := by
  unfold higherChunk
  rw [if_pos h]

/-- What the loop keeps is usable, and nothing usable starts above it. -/
theorem foldl_higherChunk : ∀ {entries : List MemmapEntry} {init : Option MemmapEntry}
    {c : MemmapEntry}, entries.foldl higherChunk init = some c →
    (init = some c ∨ (c ∈ entries ∧ c.type = .usable)) ∧
      (∀ i, init = some i → i.base ≤ c.base) ∧ ∀ e ∈ entries, e.type = .usable → e.base ≤ c.base
  | [], init, c, h => by
    refine ⟨.inl h, ?_, by simp⟩
    intro i hi
    have hic : some i = some c := hi.symm.trans h
    cases hic
    exact Nat.le_refl _
  | entry :: entries, init, c, h => by
    rw [List.foldl_cons] at h
    obtain ⟨hin, hinit, hall⟩ := foldl_higherChunk h
    by_cases hu : entry.type = .usable
    · -- `d` is the chunk kept after this entry: the entry, or `init`
      obtain ⟨d, hd, hfrom, hentry, hkeep⟩ := higherChunk_usable hu init
      rw [hd] at hin hinit
      have hdc := hinit d rfl
      refine ⟨?_, ?_, ?_⟩
      · rcases hin with heq | ⟨hmem, hcu⟩
        · rw [Option.some.inj heq] at hfrom
          rcases hfrom with rfl | hold
          · exact .inr ⟨List.mem_cons_self .., hu⟩
          · exact .inl hold
        · exact .inr ⟨List.mem_cons_of_mem _ hmem, hcu⟩
      · intro i hi
        have := hkeep i hi
        omega
      · intro e he heu
        rcases List.mem_cons.mp he with rfl | he
        · omega
        · exact hall e he heu
    · rw [higherChunk_other hu] at hin hinit
      refine ⟨?_, hinit, ?_⟩
      · rcases hin with heq | ⟨hmem, hcu⟩
        · exact .inl heq
        · exact .inr ⟨List.mem_cons_of_mem _ hmem, hcu⟩
      · intro e he heu
        rcases List.mem_cons.mp he with rfl | he
        · exact absurd heu hu
        · exact hall e he heu

theorem foldl_higherChunk_isSome : ∀ {entries : List MemmapEntry} {init : Option MemmapEntry},
    (init.isSome ∨ ∃ e ∈ entries, e.type = .usable) → (entries.foldl higherChunk init).isSome
  | [], init, h => by
    rcases h with hinit | ⟨e, he, -⟩
    · exact hinit
    · simp at he
  | entry :: entries, init, h => by
    rw [List.foldl_cons]
    apply foldl_higherChunk_isSome
    by_cases hu : entry.type = .usable
    · obtain ⟨d, hd, -⟩ := higherChunk_usable hu init
      exact .inl (by rw [hd]; rfl)
    · rw [higherChunk_other hu]
      rcases h with hinit | ⟨e, he, heu⟩
      · exact .inl hinit
      · rcases List.mem_cons.mp he with rfl | he
        · exact absurd heu hu
        · exact .inr ⟨e, he, heu⟩

/-- The chunk found is a usable entry, and none starts above it. -/
theorem findHighestMemChunk_some {entries : List MemmapEntry} {c : MemmapEntry}
    (h : findHighestMemChunk entries = some c) :
    c ∈ entries ∧ c.type = .usable ∧ ∀ e ∈ entries, e.type = .usable → e.base ≤ c.base := by
  obtain ⟨hin, -, hall⟩ := foldl_higherChunk h
  rcases hin with hnone | ⟨hmem, hu⟩
  · simp at hnone
  · exact ⟨hmem, hu, hall⟩

/-- The size is computed from the end of some usable entry, the one that starts
    highest. -/
theorem getBitmapSize_some {entries : List MemmapEntry} {size : Nat}
    (h : getBitmapSize entries = some size) :
    ∃ c ∈ entries, c.type = .usable ∧ (∀ e ∈ entries, e.type = .usable → e.base ≤ c.base) ∧
      size = alignUp ((c.base + c.length) % 2^64 / 0x1000 / 8) 0x1000 := by
  obtain ⟨c, hc, rfl⟩ := Option.map_eq_some_iff.mp h
  obtain ⟨hmem, hu, hall⟩ := findHighestMemChunk_some hc
  exact ⟨c, hmem, hu, hall, rfl⟩

theorem getBitmapSize_isSome {entries : List MemmapEntry} (h : ∃ e ∈ entries, e.type = .usable) :
    ∃ size, getBitmapSize entries = some size := by
  obtain ⟨c, hc⟩ := Option.isSome_iff_exists.mp (foldl_higherChunk_isSome (.inr h))
  exact ⟨_, Option.map_eq_some_iff.mpr ⟨c, hc, rfl⟩⟩

theorem alignUp_mono {a b : Nat} (h : a ≤ b) : alignUp a 0x1000 ≤ alignUp b 0x1000 := by
  unfold alignUp
  exact Nat.mul_le_mul_right _ (Nat.div_le_div_right (by omega))

/-! Where the bitmap goes. -/

theorem takeBitmap_some : ∀ {size : Nat} {entries entries' : List MemmapEntry} {storage : Nat},
    takeBitmap size entries = some (storage, entries') →
    ∃ before e after, entries = before ++ e :: after ∧ e.type = .usable ∧ size ≤ e.length ∧
      storage = e.base ∧
      entries' = before ++ { e with length := e.length - size, base := e.base + size } :: after
  | size, [], entries', storage, h => by simp [takeBitmap] at h
  | size, entry :: entries, entries', storage, h => by
    rw [takeBitmap] at h
    split at h
    · next hfit =>
      simp only [Option.some.injEq, Prod.mk.injEq] at h
      exact ⟨[], entry, entries, rfl, hfit.1, hfit.2, h.1.symm, h.2.symm⟩
    · obtain ⟨⟨storage', rest⟩, hr, heq⟩ := Option.map_eq_some_iff.mp h
      simp only [Prod.mk.injEq] at heq
      obtain ⟨rfl, rfl⟩ := heq
      obtain ⟨before, e, after, rfl, hu, hlen, rfl, rfl⟩ := takeBitmap_some hr
      exact ⟨entry :: before, e, after, rfl, hu, hlen, rfl, rfl⟩

theorem takeBitmap_isSome : ∀ {size : Nat} {entries : List MemmapEntry},
    (∃ e ∈ entries, e.type = .usable ∧ size ≤ e.length) → (takeBitmap size entries).isSome
  | size, [], h => by simp at h
  | size, entry :: entries, h => by
    rw [takeBitmap]
    split
    · rfl
    · next hno =>
      obtain ⟨e, he, hfit⟩ := h
      rcases List.mem_cons.mp he with rfl | he
      · exact absurd hfit hno
      · rw [Option.isSome_map]
        exact takeBitmap_isSome ⟨e, he, hfit⟩

/-! Marking pages free. -/

/-- The bits `unsetPages` clears, in order. -/
def touchedPages (address : Nat) : Nat → List Nat
  | 0 => []
  | count + 1 => address / 0x1000 :: touchedPages ((address + 0x1000) % 2^64) count

/-- The bits the second loop of `init_bitmap` clears, in order. -/
def touchedBits (bitmapSize : Nat) (entries : List MemmapEntry) : List Nat :=
  entries.flatMap (fun entry =>
    if entry.type = .usable ∧ entry.length ≥ bitmapSize then
      touchedPages entry.base (pageCount entry.length)
    else [])

theorem unsetPages_touched (count : Nat) (bitmap : Bitmap) (address : Nat) :
    unsetPages bitmap address count = (touchedPages address count).foldl bitmapUnsetBit bitmap := by
  induction count generalizing bitmap address with
  | zero => rfl
  | succ count ih => rw [unsetPages, ih, touchedPages, List.foldl_cons]

theorem clearUsable_touched (size : Nat) (bitmap : Bitmap) (entries : List MemmapEntry) :
    clearUsable size bitmap entries = (touchedBits size entries).foldl bitmapUnsetBit bitmap := by
  rw [clearUsable, touchedBits, List.foldl_flatMap]
  congr 1
  funext b entry
  split
  · exact unsetPages_touched ..
  · rfl

theorem bit_foldl_unset (l : List Nat) (bitmap : Bitmap) (f : Nat) :
    Bitmap.bit (l.foldl bitmapUnsetBit bitmap) f = false ↔ f ∈ l ∨ Bitmap.bit bitmap f = false := by
  induction l generalizing bitmap with
  | nil => simp
  | cons i l ih =>
    rw [List.foldl_cons, ih, bit_unset, List.mem_cons]
    by_cases hi : i = f
    · simp [hi]
    · simp [hi, Ne.symm hi]

theorem mem_touchedPages {f count address : Nat} (h : address + 0x1000 * count < 2^64) :
    f ∈ touchedPages address count ↔ address / 0x1000 ≤ f ∧ f < address / 0x1000 + count := by
  induction count generalizing address with
  | zero =>
    simp only [touchedPages, List.not_mem_nil, false_iff]
    omega
  | succ count ih =>
    -- below 2^64 the address of the next page does not wrap
    have hmod : (address + 0x1000) % 2^64 = address + 0x1000 := by omega
    have hrest : address + 0x1000 + 0x1000 * count < 2^64 := by omega
    rw [touchedPages, List.mem_cons, hmod, ih hrest]
    omega

/-- The pages of an aligned entry are the frames in it. -/
theorem mem_touchedPages_entry {e : MemmapEntry} {f : Nat}
    (ha : e.base % 0x1000 = 0 ∧ e.length % 0x1000 = 0) (hb : e.base + e.length < 2^64) :
    f ∈ touchedPages e.base (pageCount e.length) ↔ InEntry e f := by
  have hcount : 0x1000 * pageCount e.length = e.length := by
    unfold pageCount
    omega
  rw [mem_touchedPages (by omega), InEntry]
  omega

/-- The second loop clears the frames of the usable entries that could hold
    the bitmap. -/
theorem mem_touchedBits {size : Nat} {entries : List MemmapEntry} {f : Nat}
    (ha : ∀ e ∈ entries, e.base % 0x1000 = 0 ∧ e.length % 0x1000 = 0)
    (hb : ∀ e ∈ entries, e.base + e.length < 2^64) :
    f ∈ touchedBits size entries ↔ ∃ e ∈ entries, e.type = .usable ∧ size ≤ e.length ∧ InEntry e f := by
  rw [touchedBits, List.mem_flatMap]
  refine ⟨?_, ?_⟩
  · intro h
    obtain ⟨e, he, hf⟩ := h
    split at hf
    · next hfit => exact ⟨e, he, hfit.1, hfit.2, (mem_touchedPages_entry (ha e he) (hb e he)).mp hf⟩
    · simp at hf
  · intro h
    obtain ⟨e, he, hu, hlen, hin⟩ := h
    refine ⟨e, he, ?_⟩
    rw [if_pos ⟨hu, hlen⟩]
    exact (mem_touchedPages_entry (ha e he) (hb e he)).mpr hin

/-- Inside the storage every bit is set before the second loop, so the clear
    bits are those the loop clears. -/
theorem bit_init {size f : Nat} (mem : Nat → BitVec 8) (entries : List MemmapEntry)
    (hf : f < size * 8) :
    Bitmap.bit (clearUsable size (fun i => if i < size then 0xFF else mem i) entries) f = false ↔
      f ∈ touchedBits size entries := by
  have hset : Bitmap.bit (fun i => if i < size then 0xFF else mem i) f = true := by
    have hin : f / 8 < size := by omega
    have hmod : f % 8 < 8 := Nat.mod_lt _ (by decide)
    simp only [Bitmap.bit, hin, if_true]
    rw [show (0xFF : BitVec 8) = BitVec.allOnes 8 from rfl, BitVec.getLsbD_allOnes]
    simp [hmod]
  rw [clearUsable_touched, bit_foldl_unset, hset]
  simp

/-! What `pmm_init` leaves. -/

/-- No byte of frame `f` is in the bitmap's storage. -/
def OutsideStorage (storage size f : Nat) : Prop :=
  (f + 1) * 0x1000 ≤ storage ∨ storage + size ≤ f * 0x1000

/-- The memory map without the bitmap's storage. -/
structure Carved (map : List MemmapEntry) (size storage : Nat) (entries : List MemmapEntry) : Prop where
  frames : ∀ f, UsableFrame entries f → UsableFrame map f ∧ OutsideStorage storage size f
  aligned : ∀ e ∈ entries, e.base % 0x1000 = 0 ∧ e.length % 0x1000 = 0
  bounded : ∀ e ∈ entries, e.base + e.length < 2^64
  size : ∃ size', getBitmapSize entries = some size' ∧ size' ≤ size

theorem Separate.symm {a b : MemmapEntry} (h : Separate a b) : Separate b a := Or.symm h

instance : Std.Symm Separate := ⟨fun _ _ h => h.symm⟩

/-- The highest entry also ends highest, unless it is empty. -/
theorem highest_ends_highest {map : List MemmapEntry} (hd : map.Pairwise Separate) {a c : MemmapEntry}
    (ha : a ∈ map) (hc : c ∈ map) (hpos : 0 < c.length) (hle : a.base ≤ c.base) :
    a.base + a.length ≤ c.base + c.length := by
  by_cases hac : a = c
  · cases hac
    exact Nat.le_refl _
  · rcases hd.forall ha hc hac with hbefore | hafter
    · omega
    · omega

/-- An entry of the new map is an old one, or what is left of `e`. -/
theorem mem_carved {before after : List MemmapEntry} {e x : MemmapEntry} {size : Nat}
    (hx : x ∈ before ++ { e with length := e.length - size, base := e.base + size } :: after) :
    (x ∈ before ++ after ∧ x ∈ before ++ e :: after) ∨
      x = { e with length := e.length - size, base := e.base + size } := by
  simp only [List.mem_append, List.mem_cons] at hx ⊢
  rcases hx with hx | rfl | hx
  · exact .inl ⟨.inl hx, .inl hx⟩
  · exact .inr rfl
  · exact .inl ⟨.inr hx, .inr (.inr hx)⟩

/-- A map whose usable entries end where entries of `map` end needs no larger
    bitmap. -/
theorem bitmapSize_le {map entries : List MemmapEntry} {size size' : Nat} (hw : MemmapWf map)
    (hsize : getBitmapSize map = some size) (hsize' : getBitmapSize entries = some size')
    (hends : ∀ x ∈ entries, x.type = .usable →
      ∃ a ∈ map, a.type = .usable ∧ a.base + a.length = x.base + x.length) : size' ≤ size := by
  obtain ⟨c, hc, hcu, hhigh, hsz⟩ := getBitmapSize_some hsize
  obtain ⟨x, hx, hxu, -, rfl⟩ := getBitmapSize_some hsize'
  obtain ⟨a, ha, hau, haend⟩ := hends x hx hxu
  have hle := highest_ends_highest hw.disjoint ha hc (hw.nonempty c hc hcu) (hhigh a ha hau)
  have hcb := hw.bounded c hc
  rw [hsz]
  refine alignUp_mono (Nat.div_le_div_right (Nat.div_le_div_right ?_))
  rw [← haend, Nat.mod_eq_of_lt hcb, Nat.mod_eq_of_lt (by omega)]
  exact hle

theorem getBitmapSize_aligned {entries : List MemmapEntry} {size : Nat}
    (h : getBitmapSize entries = some size) : size % 0x1000 = 0 := by
  obtain ⟨c, -, -, -, hsize⟩ := getBitmapSize_some h
  rw [hsize, alignUp]
  exact Nat.mul_mod_left _ _

section
variable {map entries : List MemmapEntry} {size storage : Nat}

/-- A usable frame of the new map was one before and is not in the storage. -/
theorem carved_frames (hd : map.Pairwise Separate) (ht : takeBitmap size map = some (storage, entries))
    {f : Nat} (hf : UsableFrame entries f) : UsableFrame map f ∧ OutsideStorage storage size f := by
  obtain ⟨before, e, after, rfl, hu, hlen, rfl, rfl⟩ := takeBitmap_some ht
  have hsep : ∀ x ∈ before ++ after, Separate e x :=
    (List.pairwise_cons.mp ((List.pairwise_middle Separate.symm).mp hd)).1
  obtain ⟨x, hx, hxu, hin⟩ := hf
  rcases mem_carved hx with ⟨hother, hold⟩ | rfl
  · -- the storage is the front of `e`, which no other entry overlaps
    refine ⟨⟨x, hold, hxu, hin⟩, ?_⟩
    rcases hsep x hother with hbefore | hafter
    · exact .inr (by have := hin.1; omega)
    · exact .inl (by have := hin.2; omega)
  · obtain ⟨hlow, hupp⟩ := hin
    dsimp only at hlow hupp
    exact ⟨⟨e, by simp, hu, by omega, by omega⟩, .inr hlow⟩

theorem carved_aligned (ha : ∀ e ∈ map, e.base % 0x1000 = 0 ∧ e.length % 0x1000 = 0)
    (hsize : size % 0x1000 = 0) (ht : takeBitmap size map = some (storage, entries))
    {x : MemmapEntry} (hx : x ∈ entries) : x.base % 0x1000 = 0 ∧ x.length % 0x1000 = 0 := by
  obtain ⟨before, e, after, rfl, -, hlen, rfl, rfl⟩ := takeBitmap_some ht
  rcases mem_carved hx with ⟨-, hold⟩ | rfl
  · exact ha x hold
  · have := ha e (by simp)
    dsimp only
    omega

/-- An entry of the new map ends where one of the old map does. -/
theorem carved_ends (ht : takeBitmap size map = some (storage, entries)) {x : MemmapEntry}
    (hx : x ∈ entries) : ∃ a ∈ map, a.type = x.type ∧ a.base ≤ x.base ∧
      a.base + a.length = x.base + x.length := by
  obtain ⟨before, e, after, rfl, -, hlen, rfl, rfl⟩ := takeBitmap_some ht
  rcases mem_carved hx with ⟨-, hold⟩ | rfl
  · exact ⟨x, hold, rfl, Nat.le_refl _, rfl⟩
  · refine ⟨e, by simp, rfl, ?_, ?_⟩
    · dsimp only
      omega
    · dsimp only
      omega

theorem carved_bounded (hb : ∀ e ∈ map, e.base + e.length < 2^64)
    (ht : takeBitmap size map = some (storage, entries)) {x : MemmapEntry} (hx : x ∈ entries) :
    x.base + x.length < 2^64 := by
  obtain ⟨a, ha, -, -, hend⟩ := carved_ends ht hx
  rw [← hend]
  exact hb a ha

theorem carved (hw : MemmapWf map) (hsize : getBitmapSize map = some size)
    (ht : takeBitmap size map = some (storage, entries)) : Carved map size storage entries := by
  refine ⟨fun f hf => carved_frames hw.disjoint ht hf,
    fun x hx => carved_aligned hw.aligned (getBitmapSize_aligned hsize) ht hx,
    fun x hx => carved_bounded hw.bounded ht hx, ?_⟩
  have hleft : ∃ x ∈ entries, x.type = .usable := by
    obtain ⟨before, e, after, -, hu, -, -, rfl⟩ := takeBitmap_some ht
    exact ⟨{ e with length := e.length - size, base := e.base + size }, by simp, hu⟩
  obtain ⟨size', hsize'⟩ := getBitmapSize_isSome hleft
  refine ⟨size', hsize', bitmapSize_le hw hsize hsize' ?_⟩
  intro x hx hxu
  obtain ⟨a, ha, htype, -, hend⟩ := carved_ends ht hx
  exact ⟨a, ha, htype.trans hxu, hend⟩

end

/-! Runs. -/

/-- A live allocation: the pointer `pmm_alloc` returned and the number of
    frames it was asked for. -/
abbrev Allocation := Nat × BitVec 64

/-- The frames of an allocation. -/
def Has (a : Allocation) (f : Nat) : Prop := a.1 / 0x1000 ≤ f ∧ f < a.1 / 0x1000 + a.2.toNat

/-- Two allocations have no frame in common. -/
def NoOverlap (a b : Allocation) : Prop := ∀ f, Has a f → ¬ Has b f

theorem NoOverlap.symm {a b : Allocation} (h : NoOverlap a b) : NoOverlap b a := fun f hb ha => h f ha hb

inductive PmmOp where
  | alloc (frames : BitVec 64)
  | free (ptr : Nat) (frames : BitVec 64)

/-- One call. `pmm_alloc` returns 0 when it finds nothing; only what is live
    may be freed. -/
def pmmStep (st : Pmm × List Allocation) : PmmOp → Option (Pmm × List Allocation)
  | .alloc frames => do
    let (s, ptr) ← pmmAlloc st.1 frames
    some (s, if ptr = 0 then st.2 else (ptr, frames) :: st.2)
  | .free ptr frames =>
    if (ptr, frames) ∈ st.2 then some (pmmFree st.1 ptr frames, st.2.erase (ptr, frames)) else none

/-- The scan of the call can be trusted. -/
def HonestStep (st : Pmm × List Allocation) : PmmOp → Prop
  | .alloc frames => ∀ size, getBitmapSize st.1.entries = some size →
      HonestScan st.1.bitmap (size * 8) frames.toNat
  | .free _ _ => True

instance (st : Pmm × List Allocation) : (op : PmmOp) → Decidable (HonestStep st op)
  | .alloc frames => inferInstanceAs (Decidable (∀ size ∈ getBitmapSize st.1.entries,
      HonestScan st.1.bitmap (size * 8) frames.toNat))
  | .free _ _ => isTrue trivial

structure PmmInv (entries : List MemmapEntry) (size : Nat) (st : Pmm × List Allocation) : Prop where
  memmap : st.1.entries = entries
  clear : ∀ f < size * 8, Bitmap.bit st.1.bitmap f = false →
    UsableFrame entries f ∧ ∀ a ∈ st.2, ¬ Has a f
  aligned : ∀ a ∈ st.2, a.1 % 0x1000 = 0
  usable : ∀ a ∈ st.2, ∀ f, Has a f → UsableFrame entries f
  disjoint : st.2.Pairwise NoOverlap

section
variable {entries : List MemmapEntry} {size : Nat} {st st' : Pmm × List Allocation}

theorem usableFrame_lt (hb : ∀ e ∈ entries, e.base + e.length < 2^64) {f : Nat}
    (h : UsableFrame entries f) : (f + 1) * 0x1000 < 2^64 := by
  obtain ⟨e, he, -, -, hupp⟩ := h
  have := hb e he
  omega

/-- Marking frames that were free and usable, as one more allocation. -/
theorem inv_take {bit : Nat} {frames : BitVec 64} (h : PmmInv entries size st)
    (hfree : ∀ f, bit ≤ f → f < bit + frames.toNat →
      UsableFrame entries f ∧ ∀ a ∈ st.2, ¬ Has a f) :
    PmmInv entries size ({ st.1 with entries, bitmap := setBits st.1.bitmap bit frames.toNat },
      (0x1000 * bit, frames) :: st.2) := by
  have hhas : ∀ f, Has (0x1000 * bit, frames) f ↔ bit ≤ f ∧ f < bit + frames.toNat := by
    intro f
    simp only [Has]
    omega
  refine ⟨rfl, ?_, ?_, ?_, ?_⟩
  · intro f hf hbit
    rw [bit_setBits, Bool.or_eq_false_iff, decide_eq_false_iff_not] at hbit
    obtain ⟨hu, hlive⟩ := h.clear f hf hbit.2
    refine ⟨hu, ?_⟩
    intro a ha
    rcases List.mem_cons.mp ha with rfl | ha
    · rw [hhas]
      exact hbit.1
    · exact hlive a ha
  · intro a ha
    rcases List.mem_cons.mp ha with rfl | ha
    · exact Nat.mul_mod_right ..
    · exact h.aligned a ha
  · intro a ha f hf
    rcases List.mem_cons.mp ha with rfl | ha
    · rw [hhas] at hf
      exact (hfree f hf.1 hf.2).1
    · exact h.usable a ha f hf
  · refine List.pairwise_cons.mpr ⟨?_, h.disjoint⟩
    intro a ha f hf
    rw [hhas] at hf
    exact (hfree f hf.1 hf.2).2 a ha

/-- An honest allocation hands out free frames. -/
theorem inv_alloc (hb : ∀ e ∈ entries, e.base + e.length < 2^64)
    (hsize : getBitmapSize entries = some size) {frames : BitVec 64} (h : PmmInv entries size st)
    (hc : HonestStep st (.alloc frames)) (hs : pmmStep st (.alloc frames) = some st') :
    PmmInv entries size st' := by
  simp only [pmmStep, pmmAlloc, h.memmap, hsize, Option.bind_eq_bind, Option.bind_some] at hs
  have hscan := hc size (by rw [h.memmap]; exact hsize)
  split at hs
  · -- nothing found
    simp only [Option.bind_some, if_true, Option.some.injEq] at hs
    rw [← hs]
    exact ⟨h.memmap, h.clear, h.aligned, h.usable, h.disjoint⟩
  · next hne =>
    have hn : 1 ≤ frames.toNat := by
      apply Classical.byContradiction
      intro hz
      have hzero : frames.toNat = 0 := by omega
      rw [hzero] at hne
      exact hne (findLoop_zero _ _ _)
    obtain ⟨hfit, hclear⟩ := (honestScan_iff _ _ hn).mp hscan hne
    generalize findContigiousChunk st.1.bitmap (size * 8) frames.toNat = bit at hs hne hfit hclear
    have hfree : ∀ f, bit ≤ f → f < bit + frames.toNat →
        UsableFrame entries f ∧ ∀ a ∈ st.2, ¬ Has a f :=
      fun f hf hf' => h.clear f (by omega) (hclear f hf hf')
    -- the last frame is usable, so nothing wraps
    have hlast := usableFrame_lt hb (hfree (bit + frames.toNat - 1) (by omega) (by omega)).1
    have hptr : pageSize * bit % 2^64 = 0x1000 * bit := by
      unfold pageSize
      omega
    have hcount : (bit + frames.toNat) % 2^64 - bit = frames.toNat := by omega
    have hnz : ¬ (0x1000 * bit = 0) := by omega
    simp only [hptr, hcount, hnz, Option.bind_some, if_false, Option.some.injEq] at hs
    rw [← hs]
    exact inv_take h hfree

/-- The frames `pmm_free` marks free: nothing wraps when they are usable. -/
theorem pmmFree_bitmap (hb : ∀ e ∈ entries, e.base + e.length < 2^64) {s : Pmm} {ptr : Nat}
    {frames : BitVec 64} (ha : ptr % 0x1000 = 0)
    (hu : ∀ f, Has (ptr, frames) f → UsableFrame entries f) :
    (pmmFree s ptr frames).bitmap = unsetBits s.bitmap (ptr / 0x1000) frames.toNat := by
  apply pmmFree_eq ha
  by_cases hz : frames.toNat = 0
  · exact .inl hz
  · have hhas : Has (ptr, frames) (ptr / 0x1000 + frames.toNat - 1) := by
      simp only [Has]
      omega
    have hlast := usableFrame_lt hb (hu _ hhas)
    exact .inr (by omega)

/-- Freeing a live allocation gives back its frames and no other. -/
theorem inv_free (hb : ∀ e ∈ entries, e.base + e.length < 2^64) {ptr : Nat} {frames : BitVec 64}
    (h : PmmInv entries size st) (hs : pmmStep st (.free ptr frames) = some st') :
    PmmInv entries size st' := by
  simp only [pmmStep] at hs
  split at hs
  · next hlive =>
    rw [Option.some.injEq] at hs
    have hperm := List.perm_cons_erase hlive
    obtain ⟨hothers, hrest⟩ := List.pairwise_cons.mp ((hperm.pairwise_iff NoOverlap.symm).mp h.disjoint)
    have hpages : (pmmFree st.1 ptr frames).bitmap = unsetBits st.1.bitmap (ptr / 0x1000) frames.toNat :=
      pmmFree_bitmap hb (h.aligned _ hlive) (h.usable _ hlive)
    rw [← hs]
    refine ⟨h.memmap, ?_, ?_, ?_, hrest⟩
    · intro f hf hbit
      dsimp only at hbit
      rw [hpages, bit_unsetBits] at hbit
      by_cases hin : Has (ptr, frames) f
      · exact ⟨h.usable _ hlive f hin, fun a ha => hothers a ha f hin⟩
      · have hin' : ¬ (ptr / 0x1000 ≤ f ∧ f < ptr / 0x1000 + frames.toNat) := hin
        rw [decide_eq_false hin', Bool.not_false, Bool.true_and] at hbit
        obtain ⟨hu, hno⟩ := h.clear f hf hbit
        exact ⟨hu, fun a ha => hno a (List.mem_of_mem_erase ha)⟩
    · intro a ha
      exact h.aligned a (List.mem_of_mem_erase ha)
    · intro a ha f hf
      exact h.usable a (List.mem_of_mem_erase ha) f hf
  · simp at hs

theorem inv_pmmStep (hb : ∀ e ∈ entries, e.base + e.length < 2^64)
    (hsize : getBitmapSize entries = some size) {op : PmmOp} (h : PmmInv entries size st)
    (hc : HonestStep st op) (hs : pmmStep st op = some st') : PmmInv entries size st' := by
  cases op with
  | alloc frames => exact inv_alloc hb hsize h hc hs
  | free ptr frames => exact inv_free hb h hs

end

/-- `pmm_init` in terms of its parts. -/
theorem pmmInit_some {map entries : List MemmapEntry} {size storage : Nat} (mem : Nat → BitVec 8)
    (hsize : getBitmapSize map = some size) (ht : takeBitmap size map = some (storage, entries)) :
    pmmInit map mem = some ⟨entries, storage,
      clearUsable size (fun i => if i < size then 0xFF else mem i) entries⟩ := by
  simp only [pmmInit, hsize, ht, Option.bind_eq_bind, Option.bind_some]

/-- With a usable entry that can hold the bitmap, the two loops of `init_bitmap` get
    as far as the second. -/
theorem bitmap_parts {map : List MemmapEntry} (hroom : ∃ e ∈ map, e.type = .usable ∧
      ∀ size, getBitmapSize map = some size → size ≤ e.length) :
    ∃ size storage entries, getBitmapSize map = some size ∧
      takeBitmap size map = some (storage, entries) := by
  obtain ⟨e, he, hu, hroom⟩ := hroom
  obtain ⟨size, hsize⟩ := getBitmapSize_isSome ⟨e, he, hu⟩
  obtain ⟨⟨storage, entries⟩, ht⟩ :=
    Option.isSome_iff_exists.mp (takeBitmap_isSome ⟨e, he, hu, hroom size hsize⟩)
  exact ⟨size, storage, entries, hsize, ht⟩

/-- After `pmm_init` a clear bit is a usable frame, whatever the memory held. -/
theorem inv_init {map : List MemmapEntry} (hw : MemmapWf map) (mem : Nat → BitVec 8) :
    ∃ s size size', pmmInit map mem = some s ∧ getBitmapSize map = some size ∧
      getBitmapSize s.entries = some size' ∧ Carved map size s.storage s.entries ∧
      PmmInv s.entries size' (s, []) := by
  obtain ⟨size, storage, entries, hsize, ht⟩ := bitmap_parts hw.room
  have hcarved := carved hw hsize ht
  obtain ⟨size', hsize', hle⟩ := hcarved.size
  refine ⟨_, size, size', pmmInit_some mem hsize ht, hsize, hsize', hcarved, rfl, ?_, by simp, by simp,
    List.Pairwise.nil⟩
  intro f hf hbit
  refine ⟨?_, by simp⟩
  rw [bit_init mem entries (by omega), mem_touchedBits hcarved.aligned hcarved.bounded] at hbit
  obtain ⟨e, he, hu, -, hin⟩ := hbit
  exact ⟨e, he, hu, hin⟩

/-- The live allocations have no frame in common, and their frames are usable
    and not the bitmap's. -/
structure Exclusive (map : List MemmapEntry) (size : Nat) (st : Pmm × List Allocation) : Prop where
  disjoint : st.2.Pairwise NoOverlap
  frames : ∀ a ∈ st.2, ∀ f, Has a f → UsableFrame map f ∧ OutsideStorage st.1.storage size f

theorem pmmStep_storage {st st' : Pmm × List Allocation} {op : PmmOp} (h : pmmStep st op = some st') :
    st'.1.storage = st.1.storage := by
  cases op with
  | alloc frames =>
    simp only [pmmStep, pmmAlloc, Option.bind_eq_bind, Option.bind_eq_some_iff, Option.some.injEq] at h
    obtain ⟨⟨s, ptr⟩, ⟨size, -, hs⟩, rfl⟩ := h
    split at hs
    · rw [Option.some.injEq, Prod.mk.injEq] at hs
      rw [← hs.1]
    · rw [Option.some.injEq, Prod.mk.injEq] at hs
      rw [← hs.1]
  | free ptr frames =>
    simp only [pmmStep] at h
    split at h
    · rw [Option.some.injEq] at h
      rw [← h]
      rfl
    · simp at h

/-- **Exclusive ownership of frames.** `pmm_init` succeeds, and in every run
    whose allocations all scan honestly no frame has two owners and every frame
    that was handed out is usable and not in the bitmap. -/
theorem frames_exclusive (map : List MemmapEntry) (hw : MemmapWf map) (mem : Nat → BitVec 8) :
    ∃ s size, pmmInit map mem = some s ∧ getBitmapSize map = some size ∧
      ∀ ops st, Runs.exec pmmStep (s, []) ops = some st → Runs.Meets pmmStep HonestStep (s, []) ops →
        Exclusive map size st := by
  obtain ⟨s, size, size', hinit, hsize, hsize', hcarved, hinv⟩ := inv_init hw mem
  refine ⟨s, size, hinit, hsize, ?_⟩
  intro ops st hrun hmeets
  have hend : PmmInv s.entries size' st :=
    Runs.exec_inv_of (fun _ _ _ hp hc hs => inv_pmmStep hcarved.bounded hsize' hp hc hs) hinv hmeets hrun
  have hstorage : st.1.storage = s.storage :=
    Runs.exec_inv (P := fun st => st.1.storage = s.storage)
      (fun _ _ _ hp hs => (pmmStep_storage hs).trans hp) rfl hrun
  refine ⟨hend.disjoint, ?_⟩
  intro a ha f hf
  rw [hstorage]
  exact hcarved.frames f (hend.usable a ha f hf)

/-- One usable entry that holds the bitmap, a page of it. -/
theorem memmapWf_single {base length : Nat} (ha : base % 0x1000 = 0 ∧ length % 0x1000 = 0)
    (hl : 0x1000 ≤ length) (hb : base + length < 0x1000000) :
    MemmapWf [{ base := base, length := length, type := .usable }] := by
  refine ⟨?_, ?_, ?_, List.pairwise_singleton .., _, List.mem_cons_self .., rfl, ?_⟩
  · intro e he
    rw [List.mem_singleton.mp he]
    exact ha
  · intro e he _
    rw [List.mem_singleton.mp he]
    exact Nat.lt_of_lt_of_le (by decide) hl
  · intro e he
    rw [List.mem_singleton.mp he]
    exact Nat.lt_trans hb (by decide)
  · intro size hsize
    obtain ⟨c, hc, -, -, rfl⟩ := getBitmapSize_some hsize
    rw [List.mem_singleton.mp hc, alignUp]
    dsimp only
    omega

/-- Sixteen usable frames from the second one of the machine on. -/
def roomyMap : List MemmapEntry := [{ base := 0x1000, length := 0x10000, type := .usable }]

/-- The frame freed in the middle stays free: two frames in a row are not to be
    had from it on. -/
theorem frames_exclusive_roomyMap :
    ∃ s size st, pmmInit roomyMap (fun _ => 0) = some s ∧
      Runs.exec pmmStep (s, []) [.alloc 1, .alloc 1, .free 0x2000 1, .alloc 2] = some st ∧
      Runs.Meets pmmStep HonestStep (s, []) [.alloc 1, .alloc 1, .free 0x2000 1, .alloc 2] ∧
      st.2 = [(0x4000, 2), (0x3000, 1)] ∧ Exclusive roomyMap size st := by
  obtain ⟨s, size, hs, hsize, hall⟩ :=
    frames_exclusive roomyMap (memmapWf_single (by decide) (by decide) (by decide)) (fun _ => 0)
  have hrun : (pmmInit roomyMap (fun _ => 0)).all (fun s =>
      decide (Runs.Meets pmmStep HonestStep (s, []) [.alloc 1, .alloc 1, .free 0x2000 1, .alloc 2]) &&
      (Runs.exec pmmStep (s, []) [.alloc 1, .alloc 1, .free 0x2000 1, .alloc 2]).any (fun st =>
        st.2 == [(0x4000, 2), (0x3000, 1)])) = true := by
    decide +kernel
  rw [hs, Option.all_some, Bool.and_eq_true, decide_eq_true_eq] at hrun
  obtain ⟨hmeets, hlive⟩ := hrun
  obtain ⟨st, hst, hlive⟩ := (Option.any_eq_true _ _).mp hlive
  exact ⟨s, size, st, hs, hst, hmeets, beq_iff_eq.mp hlive, hall _ st hst hmeets⟩

/-- Two usable frames, at `0x40000`. The bitmap takes the first. -/
def lowMap : List MemmapEntry := [{ base := 0x40000, length := 0x2000, type := .usable }]

/-- Two calls of `pmm_alloc(1)` return frame 8, which is not usable, both
    times: its bit is set and reads as free. -/
theorem frame_handed_out_twice :
    MemmapWf lowMap ∧ ∃ s st, pmmInit lowMap (fun _ => 0) = some s ∧
      Runs.exec pmmStep (s, []) [.alloc 1, .alloc 1] = some st ∧
      ¬ st.2.Pairwise NoOverlap ∧ ¬ UsableFrame lowMap 8 := by
  refine ⟨memmapWf_single (by decide) (by decide) (by decide), ?_⟩
  have hrun : ((pmmInit lowMap (fun _ => 0)).any (fun s =>
      (Runs.exec pmmStep (s, []) [.alloc 1, .alloc 1]).any (fun st =>
        st.2 == [(0x8000, 1), (0x8000, 1)]))) = true := by decide +kernel
  obtain ⟨s, hs, hst⟩ := (Option.any_eq_true _ _).mp hrun
  obtain ⟨st, hst, hlive⟩ := (Option.any_eq_true _ _).mp hst
  refine ⟨s, st, hs, hst, ?_, ?_⟩
  · rw [beq_iff_eq.mp hlive]
    intro hpair
    exact (List.pairwise_cons.mp hpair).1 _ (List.mem_cons_self ..) 8 ⟨by decide, by decide⟩
      ⟨by decide, by decide⟩
  · intro h
    obtain ⟨e, he, -, hlow, -⟩ := h
    rw [List.mem_singleton.mp he] at hlow
    simp at hlow

end Qnixx
