import Mathlib.Data.List.Pairwise
import Qnixx.PmmOwnership

/- What `init_bitmap` does to the bits of the memory map: which bytes its
   second loop writes, and which frames it leaves free. The maps here may have
   empty usable entries. The entry of highest base, from whose end
   `get_bitmap_size` computes, may then be one. -/
namespace Qnixx

/-- A memory map of page-aligned, disjoint entries, one of which can hold the
    bitmap. -/
structure MemmapOk (entries : List MemmapEntry) : Prop where
  aligned : ∀ e ∈ entries, e.base % 0x1000 = 0 ∧ e.length % 0x1000 = 0
  bounded : ∀ e ∈ entries, e.base + e.length < 2^64
  disjoint : entries.Pairwise Separate
  room : ∃ e ∈ entries, e.type = .usable ∧ ∀ size, getBitmapSize entries = some size → size ≤ e.length

section
variable {map entries : List MemmapEntry} {size storage : Nat}

/-- The clear bits after initialisation. -/
theorem bit_pmmInit (hw : MemmapOk map) (hsize : getBitmapSize map = some size)
    (ht : takeBitmap size map = some (storage, entries)) (mem : Nat → BitVec 8) {f : Nat}
    (hf : f < size * 8) :
    Bitmap.bit (clearUsable size (fun i => if i < size then 0xFF else mem i) entries) f = false ↔
      ∃ e ∈ entries, e.type = .usable ∧ size ≤ e.length ∧ InEntry e f := by
  rw [bit_init mem entries hf]
  exact mem_touchedBits (fun x hx => carved_aligned hw.aligned (getBitmapSize_aligned hsize) ht hx)
    (fun x hx => carved_bounded hw.bounded ht hx)

end

/-- **Nothing is freed that must not be.** For every map, a clear bit inside
    the bitmap is a frame of a usable entry with no byte in the bitmap's
    storage. -/
theorem init_frees_only_usable (map : List MemmapEntry) (hw : MemmapOk map) (mem : Nat → BitVec 8) :
    ∃ s size, pmmInit map mem = some s ∧ getBitmapSize map = some size ∧
      ∀ f < size * 8, Bitmap.bit s.bitmap f = false →
        UsableFrame map f ∧ OutsideStorage s.storage size f := by
  obtain ⟨size, storage, entries, hsize, ht⟩ := bitmap_parts hw.room
  refine ⟨_, size, pmmInit_some mem hsize ht, hsize, ?_⟩
  intro f hf hbit
  obtain ⟨e, he, hu, -, hin⟩ := (bit_pmmInit hw hsize ht mem hf).mp hbit
  exact carved_frames hw.disjoint ht ⟨e, he, hu, hin⟩

/-- A usable entry of `frames` frames from address 0 on. -/
def oneChunk (frames : Nat) : List MemmapEntry :=
  [{ base := 0, length := frames * 0x1000, type := .usable }]

theorem oneChunk_ok {frames : Nat} (hpos : 0 < frames) (hb : frames * 0x1000 < 2^64) :
    MemmapOk (oneChunk frames) := by
  refine ⟨?_, ?_, List.pairwise_singleton .., ⟨_, List.mem_singleton.mpr rfl, rfl, ?_⟩⟩
  · intro e he
    rw [List.mem_singleton.mp he]
    exact ⟨rfl, Nat.mul_mod_left _ _⟩
  · intro e he
    rw [List.mem_singleton.mp he, Nat.zero_add]
    exact hb
  · intro size hsize
    cases hsize
    dsimp only
    rw [Nat.zero_add, Nat.mod_eq_of_lt hb, alignUp]
    omega

theorem init_frees_only_usable_oneChunk :
    ∃ s size, pmmInit (oneChunk 0x1000) (fun _ => 0) = some s ∧
      getBitmapSize (oneChunk 0x1000) = some size ∧
      ∀ f < size * 8, Bitmap.bit s.bitmap f = false →
        UsableFrame (oneChunk 0x1000) f ∧ OutsideStorage s.storage size f :=
  init_frees_only_usable (oneChunk 0x1000) (oneChunk_ok (by decide) (by decide)) (fun _ => 0)

/-! Which frames are freed. -/

section
variable {map entries : List MemmapEntry} {size storage : Nat}

/-- A usable frame outside the storage is in the map the second loop reads. -/
theorem frames_carved (ht : takeBitmap size map = some (storage, entries)) {f : Nat}
    (hf : UsableFrame map f) (hout : OutsideStorage storage size f) : UsableFrame entries f := by
  obtain ⟨before, e, after, rfl, hu, hlen, rfl, rfl⟩ := takeBitmap_some ht
  obtain ⟨x, hx, hxu, hin⟩ := hf
  rcases List.mem_append.mp hx with hx | hx
  · exact ⟨x, by simp [hx], hxu, hin⟩
  · rcases List.mem_cons.mp hx with rfl | hx
    · refine ⟨{ x with length := x.length - size, base := x.base + size }, by simp, hxu, ?_⟩
      obtain ⟨hlow, hupp⟩ := hin
      simp only [OutsideStorage] at hout
      refine ⟨?_, ?_⟩
      · dsimp only
        omega
      · dsimp only
        omega
    · exact ⟨x, by simp [hx], hxu, hin⟩

/-- Taking bytes off the front of an entry keeps it apart from the others. -/
theorem carved_separate (hd : map.Pairwise Separate)
    (ht : takeBitmap size map = some (storage, entries)) : entries.Pairwise Separate := by
  obtain ⟨before, e, after, rfl, -, hlen, rfl, rfl⟩ := takeBitmap_some ht
  obtain ⟨hhead, hrest⟩ := List.pairwise_cons.mp ((List.pairwise_middle Separate.symm).mp hd)
  refine (List.pairwise_middle Separate.symm).mpr (List.pairwise_cons.mpr ⟨?_, hrest⟩)
  intro x hx
  rcases hhead x hx with hbefore | hafter
  · refine .inl ?_
    dsimp only
    omega
  · refine .inr ?_
    dsimp only
    omega

/-- A frame is in one entry only. -/
theorem inEntry_unique (hd : entries.Pairwise Separate) {a b : MemmapEntry} (ha : a ∈ entries)
    (hb : b ∈ entries) {f : Nat} (hfa : InEntry a f) (hfb : InEntry b f) : a = b := by
  apply Classical.byContradiction
  intro hne
  obtain ⟨hla, hua⟩ := hfa
  obtain ⟨hlb, hub⟩ := hfb
  rcases hd.forall ha hb hne with hbefore | hafter
  · omega
  · omega

end

/-- **Which memory is lost.** After `init_bitmap` every usable frame inside the
    bitmap and outside its storage is free iff every usable entry the second
    loop reads is at least as long as the bitmap, or empty, or starts behind
    the frames the bitmap has bits for. -/
theorem init_frees_all_iff (map : List MemmapEntry) (hw : MemmapOk map) (mem : Nat → BitVec 8)
    (size storage : Nat) (entries : List MemmapEntry) (hsize : getBitmapSize map = some size)
    (ht : takeBitmap size map = some (storage, entries)) :
    (∃ s, pmmInit map mem = some s ∧ ∀ f < size * 8, UsableFrame map f →
      OutsideStorage s.storage size f → Bitmap.bit s.bitmap f = false) ↔
    ∀ e ∈ entries, e.type = .usable →
      size ≤ e.length ∨ e.length = 0 ∨ size * 8 ≤ e.base / 0x1000 := by
  have hinit := pmmInit_some mem hsize ht
  refine ⟨?_, ?_⟩
  · rintro ⟨s, hs, hfree⟩ e he hu
    rw [hinit, Option.some.injEq] at hs
    subst hs
    apply Classical.byContradiction
    intro hno
    obtain ⟨hbase, hlength⟩ := carved_aligned hw.aligned (getBitmapSize_aligned hsize) ht he
    -- the first frame of the skipped entry stays set
    have hin : InEntry e (e.base / 0x1000) := ⟨by omega, by omega⟩
    obtain ⟨husable, hout⟩ := carved_frames hw.disjoint ht ⟨e, he, hu, hin⟩
    have hlt : e.base / 0x1000 < size * 8 := by omega
    obtain ⟨x, hx, -, hxlen, hxin⟩ :=
      (bit_pmmInit hw hsize ht mem hlt).mp (hfree _ hlt husable hout)
    have hsame := inEntry_unique (carved_separate hw.disjoint ht) he hx hin hxin
    subst hsame
    omega
  · intro hall
    refine ⟨_, hinit, ?_⟩
    intro f hf husable hout
    -- outside the storage, a frame of the map is one of what the first loop left
    obtain ⟨e, he, hu, hin⟩ := frames_carved ht husable hout
    refine (bit_pmmInit hw hsize ht mem hf).mpr ⟨e, he, hu, ?_, hin⟩
    obtain ⟨hlow, hupp⟩ := hin
    rcases hall e he hu with hlen | hempty | hbehind
    · exact hlen
    · omega
    · omega

theorem init_frees_all_oneChunk :
    ∃ s, pmmInit (oneChunk 0x1000) (fun _ => 0) = some s ∧ ∀ f < 0x1000 * 8,
      UsableFrame (oneChunk 0x1000) f → OutsideStorage s.storage 0x1000 f →
        Bitmap.bit s.bitmap f = false :=
  (init_frees_all_iff (oneChunk 0x1000) (oneChunk_ok (by decide) (by decide)) (fun _ => 0) 0x1000 0
    [{ base := 0x1000, length := 0xFFF000, type := .usable }] (by decide) (by decide)).mpr (by decide)

/-- A page below a chunk of 256 MiB, whose bitmap takes three pages. -/
def lowPage : List MemmapEntry :=
  [{ base := 0x1000, length := 0x1000, type := .usable },
    { base := 0x100000, length := 0x10000000, type := .usable }]

theorem lowPage_ok : MemmapOk lowPage := by
  refine ⟨by decide, by decide, ?_, ⟨_, List.mem_cons_of_mem _ (List.mem_singleton.mpr rfl), rfl, ?_⟩⟩
  · refine List.pairwise_pair.mpr (.inl ?_)
    decide
  · intro size hsize
    cases hsize
    decide

/-- Frame 1 is usable, inside the bitmap and outside its storage, and stays
    in use: its entry is shorter than the bitmap. -/
theorem low_page_lost :
    MemmapOk lowPage ∧ ∃ s, pmmInit lowPage (fun _ => 0) = some s ∧ getBitmapSize lowPage = some 0x3000 ∧
      UsableFrame lowPage 1 ∧ OutsideStorage s.storage 0x3000 1 ∧ Bitmap.bit s.bitmap 1 = true := by
  have hsize : getBitmapSize lowPage = some 0x3000 := by decide
  have ht : takeBitmap 0x3000 lowPage = some (0x100000,
      [{ base := 0x1000, length := 0x1000, type := .usable },
        { base := 0x103000, length := 0xFFFD000, type := .usable }]) := by decide
  refine ⟨lowPage_ok, _, pmmInit_some _ hsize ht, hsize, ?_, .inl (by decide), ?_⟩
  · exact ⟨_, List.mem_cons_self .., rfl, by decide, by decide⟩
  · rw [← Bool.not_eq_false, bit_pmmInit lowPage_ok hsize ht _ (by decide)]
    intro h
    obtain ⟨e, he, -, hlen, hlow, -⟩ := h
    rcases List.mem_cons.mp he with rfl | he
    · exact absurd hlen (by decide)
    · rw [List.mem_singleton.mp he] at hlow
      exact absurd hlow (by decide)

/-! Which bytes the second loop writes. -/

/-- The second loop clears the frames of this entry. -/
structure Frees (size : Nat) (e : MemmapEntry) : Prop where
  usable : e.type = .usable
  long : size ≤ e.length
  pos : 0 < e.length

/-- The frame behind the entry's last. -/
def MemmapEntry.endFrame (e : MemmapEntry) : Nat := (e.base + e.length) / 0x1000

/-- How many frames the bitmap has bits for when the highest entry ends at
    frame `n`: eighths of `n`, cut off, then rounded up to a page. -/
def bitmapFrames (n : Nat) : Nat :=
  if n / 8 % 0x1000 = 0 then n - n % 8 else (n / 0x8000 + 1) * 0x8000

section
variable {map entries : List MemmapEntry} {size storage : Nat}

theorem bitmapSize_frames (hw : MemmapOk map) {c : MemmapEntry}
    (hc : findHighestMemChunk map = some c) (hsize : getBitmapSize map = some size) :
    size * 8 = bitmapFrames c.endFrame := by
  have hb := hw.bounded c (findHighestMemChunk_some hc).1
  rw [getBitmapSize, hc, Option.map_some, Option.some.injEq, Nat.mod_eq_of_lt hb] at hsize
  rw [← hsize, bitmapFrames, MemmapEntry.endFrame, alignUp]
  split
  · omega
  · omega

/-- Every byte written is one of the bitmap's iff no entry whose frames are
    cleared ends behind the bitmap's frames. -/
theorem touched_inside (hw : MemmapOk map) (hsize : getBitmapSize map = some size)
    (ht : takeBitmap size map = some (storage, entries)) :
    (∀ f ∈ touchedBits size entries, f / 8 < size) ↔
      ∀ e ∈ entries, Frees size e → e.endFrame ≤ size * 8 := by
  have halign : ∀ x ∈ entries, x.base % 0x1000 = 0 ∧ x.length % 0x1000 = 0 :=
    fun x hx => carved_aligned hw.aligned (getBitmapSize_aligned hsize) ht hx
  have hmem : ∀ f, f ∈ touchedBits size entries ↔
      ∃ e ∈ entries, e.type = .usable ∧ size ≤ e.length ∧ InEntry e f :=
    fun f => mem_touchedBits halign (fun x hx => carved_bounded hw.bounded ht hx)
  refine ⟨?_, ?_⟩
  · intro hin e he hfrees
    obtain ⟨hbase, hlength⟩ := halign e he
    have hpos := hfrees.pos
    -- the last frame of the entry
    have hlast : InEntry e (e.endFrame - 1) := by
      rw [MemmapEntry.endFrame]
      exact ⟨by omega, by omega⟩
    have := hin _ ((hmem _).mpr ⟨e, he, hfrees.usable, hfrees.long, hlast⟩)
    omega
  · intro hends f hf
    obtain ⟨e, he, hu, hlen, hlow, hupp⟩ := (hmem f).mp hf
    have := hends e he ⟨hu, hlen, by omega⟩
    rw [MemmapEntry.endFrame] at this
    omega

theorem endFrame_le_highest (hw : MemmapOk map) {c : MemmapEntry}
    (hc : findHighestMemChunk map = some c) (hpos : 0 < c.length)
    (ht : takeBitmap size map = some (storage, entries)) {e : MemmapEntry} (he : e ∈ entries)
    (hu : e.type = .usable) : e.endFrame ≤ c.endFrame := by
  obtain ⟨hmem, -, hall⟩ := findHighestMemChunk_some hc
  obtain ⟨a, ha, htype, -, hend⟩ := carved_ends ht he
  have := highest_ends_highest hw.disjoint ha hmem hpos (hall a ha (htype.trans hu))
  rw [MemmapEntry.endFrame, MemmapEntry.endFrame]
  omega

end

/-- **When the bitmap is large enough.** Let `c` be the usable entry of highest
    base and `n` the frame it ends at. Every byte the second loop writes is one
    of the bitmap's, except: when `n` is not a multiple of 8 but `n / 8` is one
    of 0x1000, and some entry whose frames are cleared reaches into the last
    `n % 8` frames; or when `c` is empty, and such an entry ends behind the
    bitmap's frames. -/
theorem touched_inside_iff (map : List MemmapEntry) (hw : MemmapOk map) (c : MemmapEntry)
    (hc : findHighestMemChunk map = some c) (size storage : Nat) (entries : List MemmapEntry)
    (hsize : getBitmapSize map = some size) (ht : takeBitmap size map = some (storage, entries)) :
    (∀ f ∈ touchedBits size entries, f / 8 < size) ↔
      (c.endFrame % 8 ≠ 0 → c.endFrame / 8 % 0x1000 = 0 →
        ∀ e ∈ entries, Frees size e → e.endFrame ≤ c.endFrame - c.endFrame % 8) ∧
      (c.length = 0 → ∀ e ∈ entries, Frees size e → e.endFrame ≤ bitmapFrames c.endFrame) := by
  rw [touched_inside hw hsize ht, bitmapSize_frames hw hc hsize]
  refine ⟨?_, ?_⟩
  · intro hends
    refine ⟨?_, fun _ => hends⟩
    intro _ hround e he hfrees
    have := hends e he hfrees
    rwa [bitmapFrames, if_pos hround] at this
  · rintro ⟨hround, hempty⟩ e he hfrees
    -- an empty `c` may lie below the end of another entry
    by_cases hpos : c.length = 0
    · exact hempty hpos e he hfrees
    · have hle := endFrame_le_highest hw hc (by omega) ht he hfrees.usable
      rw [bitmapFrames]
      split
      · next hpage =>
        -- nothing is rounded up, so the division by 8 cuts off `n % 8` frames
        by_cases hmod : c.endFrame % 8 = 0
        · omega
        · exact hround hmod hpage e he hfrees
      · omega

theorem touched_inside_oneChunk :
    getBitmapSize (oneChunk 0x1000) = some 0x1000 ∧
      ∀ f ∈ touchedBits 0x1000 [{ base := 0x1000, length := 0xFFF000, type := .usable }],
        f / 8 < 0x1000 := by
  refine ⟨by decide, (touched_inside_iff (oneChunk 0x1000) (oneChunk_ok (by decide) (by decide))
    { base := 0, length := 0x1000000, type := .usable } rfl 0x1000 0 _ (by decide) (by decide)).mpr ?_⟩
  refine ⟨fun hmod => absurd rfl hmod, fun hempty => absurd hempty (by decide)⟩

/-- 0x8001 frames: the bitmap has 0x8000 bits, and the bit of the last frame is
    in the byte behind it. -/
theorem last_frame_outside_bitmap :
    MemmapOk (oneChunk 0x8001) ∧ getBitmapSize (oneChunk 0x8001) = some 0x1000 ∧
      ∃ entries, takeBitmap 0x1000 (oneChunk 0x8001) = some (0, entries) ∧
        0x8000 ∈ touchedBits 0x1000 entries ∧ ¬ 0x8000 / 8 < 0x1000 := by
  refine ⟨oneChunk_ok (by decide) (by decide), by decide,
    [{ base := 0x1000, length := 0x8000000, type := .usable }], by decide, ?_, by decide⟩
  · refine (mem_touchedBits (by decide) (by decide)).mpr ⟨_, List.mem_singleton.mpr rfl, rfl, by decide, ?_⟩
    exact ⟨by decide, by decide⟩

end Qnixx
