import Qnixx.PmmInit

/- `find_contigious_chunk` asks for the size of the bitmap again on every turn,
   from a memory map out of which `init_bitmap` has taken the bitmap. The answer
   depends on which usable entry the strict comparison of
   `find_highest_mem_chunk` keeps: the first of those with the highest base. -/
namespace Qnixx

/-- The bitmap bytes for memory that ends at the address. -/
def bitmapBytes (address : Nat) : Nat := alignUp (address / 0x1000 / 8) 0x1000

/-- Where an entry ends. -/
def MemmapEntry.stop (e : MemmapEntry) : Nat := e.base + e.length

/-- The first of the usable entries with the highest base. -/
structure FirstHighest (before : List MemmapEntry) (c : MemmapEntry) (after : List MemmapEntry) : Prop where
  usable : c.type = .usable
  above : ∀ x ∈ before, x.type = .usable → x.base < c.base
  notBelow : ∀ x ∈ after, x.type = .usable → x.base ≤ c.base

/-- A chunk no usable entry starts above is kept. -/
theorem foldl_higherChunk_keep {c : MemmapEntry} : ∀ {entries : List MemmapEntry},
    (∀ x ∈ entries, x.type = .usable → x.base ≤ c.base) → entries.foldl higherChunk (some c) = some c
  | [], _ => rfl
  | entry :: entries, h => by
    have hstep : higherChunk (some c) entry = some c := by
      by_cases hu : entry.type = .usable
      · have hle := h entry (List.mem_cons_self ..) hu
        simp only [higherChunk, hu]
        rw [if_neg (by simp), if_neg (by omega)]
      · exact higherChunk_other hu (some c)
    rw [List.foldl_cons, hstep]
    exact foldl_higherChunk_keep (fun x hx => h x (List.mem_cons_of_mem _ hx))

/-- A usable entry above the chunk kept so far replaces it. -/
theorem higherChunk_above {chunk : Option MemmapEntry} {c : MemmapEntry} (hu : c.type = .usable)
    (h : ∀ i, chunk = some i → i.base < c.base) : higherChunk chunk c = some c := by
  cases chunk with
  | none => simp [higherChunk, hu]
  | some i => simp [higherChunk, hu, h i rfl]

theorem FirstHighest.found {before after : List MemmapEntry} {c : MemmapEntry}
    (h : FirstHighest before c after) : findHighestMemChunk (before ++ c :: after) = some c := by
  have hbefore : ∀ i, before.foldl higherChunk none = some i → i.base < c.base := by
    intro i hi
    obtain ⟨hmem, hu, -⟩ := findHighestMemChunk_some hi
    exact h.above i hmem hu
  rw [findHighestMemChunk, List.foldl_append, List.foldl_cons, higherChunk_above h.usable hbefore]
  exact foldl_higherChunk_keep h.notBelow

theorem exists_firstHighest : ∀ {entries : List MemmapEntry}, (∃ e ∈ entries, e.type = .usable) →
    ∃ before c after, entries = before ++ c :: after ∧ FirstHighest before c after
  | [], h => by simp at h
  | entry :: entries, h => by
    by_cases hrest : ∃ e ∈ entries, e.type = .usable
    · obtain ⟨before, c, after, rfl, hc⟩ := exists_firstHighest hrest
      by_cases hhead : entry.type = .usable ∧ c.base ≤ entry.base
      · refine ⟨[], entry, before ++ c :: after, rfl, hhead.1, by simp, ?_⟩
        intro x hx hu
        have hle := (findHighestMemChunk_some hc.found).2.2 x hx hu
        omega
      · refine ⟨entry :: before, c, after, rfl, hc.usable, ?_, hc.notBelow⟩
        intro x hx hu
        rcases List.mem_cons.mp hx with rfl | hx
        · apply Nat.lt_of_not_le
          intro hle
          exact hhead ⟨hu, hle⟩
        · exact hc.above x hx hu
    · have hnone : ∀ x ∈ entries, x.type ≠ .usable := fun x hx hu => hrest ⟨x, hx, hu⟩
      obtain ⟨e, he, hu⟩ := h
      rcases List.mem_cons.mp he with rfl | he
      · exact ⟨[], e, entries, rfl, hu, by simp, fun x hx hxu => absurd hxu (hnone x hx)⟩
      · exact absurd hu (hnone e he)

/-- Entries below the highest one do not count in front of it. -/
theorem findHighestMemChunk_append {entries : List MemmapEntry} {c : MemmapEntry}
    (h : findHighestMemChunk entries = some c) {front : List MemmapEntry}
    (hfront : ∀ x ∈ front, x.type = .usable → x.base < c.base) :
    findHighestMemChunk (front ++ entries) = some c := by
  obtain ⟨hmem, hu, -⟩ := findHighestMemChunk_some h
  obtain ⟨before, d, after, rfl, hd⟩ := exists_firstHighest ⟨c, hmem, hu⟩
  have hdc : d = c := Option.some.inj (hd.found.symm.trans h)
  subst hdc
  have happ : FirstHighest (front ++ before) d after := by
    refine ⟨hd.usable, ?_, hd.notBelow⟩
    intro x hx hxu
    rcases List.mem_append.mp hx with hx | hx
    · exact hfront x hx hxu
    · exact hd.above x hx hxu
  rw [← List.append_assoc]
  exact happ.found

theorem getBitmapSize_of_highest {entries : List MemmapEntry} {c : MemmapEntry}
    (h : findHighestMemChunk entries = some c) (hb : c.stop < 2^64) :
    getBitmapSize entries = some (bitmapBytes c.stop) := by
  rw [MemmapEntry.stop] at hb
  rw [getBitmapSize, h, Option.map_some, Nat.mod_eq_of_lt hb]
  rfl

/-- What the bitmap leaves of the entry that holds it. -/
def MemmapEntry.carve (size : Nat) (e : MemmapEntry) : MemmapEntry :=
  { e with length := e.length - size, base := e.base + size }

theorem takeBitmap_first {size : Nat} {e : MemmapEntry} (hu : e.type = .usable) (hlen : size ≤ e.length)
    (after : List MemmapEntry) : ∀ {before : List MemmapEntry},
    (∀ x ∈ before, ¬ (x.type = .usable ∧ x.length ≥ size)) →
    takeBitmap size (before ++ e :: after) = some (e.base, before ++ e.carve size :: after)
  | [], _ => by
    rw [List.nil_append, takeBitmap, if_pos ⟨hu, hlen⟩]
    rfl
  | x :: before, h => by
    rw [List.cons_append, takeBitmap, if_neg (h x (List.mem_cons_self ..)),
      takeBitmap_first hu hlen after (fun y hy => h y (List.mem_cons_of_mem _ hy))]
    rfl

/-- The highest entry `c` and the entry `e` that gets the bitmap, the first
    usable one with room for it. -/
structure Holder (map before : List MemmapEntry) (e : MemmapEntry) (after : List MemmapEntry)
    (c : MemmapEntry) : Prop where
  highest : findHighestMemChunk map = some c
  split : map = before ++ e :: after
  usable : e.type = .usable
  room : bitmapBytes c.stop ≤ e.length
  first : ∀ x ∈ before, ¬ (x.type = .usable ∧ x.length ≥ bitmapBytes c.stop)

section
variable {map before after : List MemmapEntry} {c e : MemmapEntry}

theorem Holder.le (h : Holder map before e after c) {x : MemmapEntry} (hx : x ∈ map)
    (hu : x.type = .usable) : x.base ≤ c.base :=
  (findHighestMemChunk_some h.highest).2.2 x hx hu

theorem Holder.mem (h : Holder map before e after c) : e ∈ map := by
  rw [h.split]
  simp

theorem Holder.mem_before (h : Holder map before e after c) {x : MemmapEntry} (hx : x ∈ before) :
    x ∈ map := by
  rw [h.split]
  simp [hx]

theorem Holder.mem_after (h : Holder map before e after c) {x : MemmapEntry} (hx : x ∈ after) :
    x ∈ map := by
  rw [h.split]
  simp [hx]

/-- No entry in front of the holder starts above it. -/
theorem Holder.before_le (h : Holder map before e after c)
    (hs : map.Pairwise (fun a b => a.base ≤ b.base)) {x : MemmapEntry} (hx : x ∈ before) :
    x.base ≤ e.base := by
  rw [h.split] at hs
  exact (List.pairwise_append.mp hs).2.2 x hx e (List.mem_cons_self ..)

/-- What is left of the holder is the highest entry now, if nothing is above
    it and nothing usable in front of it is level with it. -/
theorem Holder.carved_highest (h : Holder map before e after c) {size : Nat}
    (hbefore : ∀ x ∈ before, x.type = .usable → x.base < e.base + size)
    (htop : c.base ≤ e.base + size) :
    findHighestMemChunk (before ++ e.carve size :: after) = some (e.carve size) := by
  apply FirstHighest.found
  refine ⟨h.usable, hbefore, ?_⟩
  intro x hx hu
  exact Nat.le_trans (h.le (h.mem_after hx) hu) htop

/-- The highest entry stays so when the rest of the holder is below it. -/
theorem Holder.highest_stays (h : Holder map before e after c)
    (hs : map.Pairwise (fun a b => a.base ≤ b.base)) (hlt : e.base < c.base) {size : Nat}
    (hbelow : e.base + size < c.base) :
    findHighestMemChunk (before ++ e.carve size :: after) = some c := by
  have hsplit := h.split
  obtain ⟨hmem, hu, -⟩ := findHighestMemChunk_some h.highest
  have hafter : c ∈ after := by
    rw [hsplit] at hmem
    rcases List.mem_append.mp hmem with hbefore | hrest
    · have := h.before_le hs hbefore
      omega
    · rcases List.mem_cons.mp hrest with rfl | hrest
      · omega
      · exact hrest
  -- the highest entry is found behind the holder, before and after
  obtain ⟨d, hd⟩ := Option.isSome_iff_exists.mp (foldl_higherChunk_isSome (.inr ⟨c, hafter, hu⟩))
  obtain ⟨hdmem, hdu, hdall⟩ := findHighestMemChunk_some hd
  have hcd := hdall c hafter hu
  have hfront : ∀ x ∈ before ++ [e], x.type = .usable → x.base < d.base := by
    intro x hx _
    rcases List.mem_append.mp hx with hx | hx
    · have := h.before_le hs hx
      omega
    · rw [List.mem_singleton.mp hx]
      omega
  have hold := findHighestMemChunk_append hd hfront
  rw [List.append_assoc, List.singleton_append, ← hsplit, h.highest] at hold
  cases hold
  have hfront' : ∀ x ∈ before ++ [e.carve size], x.type = .usable → x.base < c.base := by
    intro x hx _
    rcases List.mem_append.mp hx with hx | hx
    · have := h.before_le hs hx
      omega
    · rw [List.mem_singleton.mp hx]
      exact hbelow
  have hnew := findHighestMemChunk_append hd hfront'
  rwa [List.append_assoc, List.singleton_append] at hnew

/-- When there is no bitmap nothing is taken, and the holder is the first
    usable entry. -/
theorem Holder.eq_of_empty (h : Holder map before e after c) (hsize : bitmapBytes c.stop = 0)
    (hbase : e.base = c.base) : e = c := by
  have hfound : findHighestMemChunk map = some e := by
    rw [h.split]
    apply FirstHighest.found
    refine ⟨h.usable, ?_, ?_⟩
    · intro x hx hu
      exact absurd ⟨hu, by omega⟩ (h.first x hx)
    · intro x hx hu
      have := h.le (h.mem_after hx) hu
      omega
  exact Option.some.inj (hfound.symm.trans h.highest)

theorem MemmapOk.exists_holder (hw : MemmapOk map) : ∃ before e after c, Holder map before e after c := by
  obtain ⟨x, hx, hu, hroom⟩ := hw.room
  obtain ⟨c, hc⟩ := Option.isSome_iff_exists.mp (foldl_higherChunk_isSome (.inr ⟨x, hx, hu⟩))
  have hsize := getBitmapSize_of_highest hc (hw.bounded c (findHighestMemChunk_some hc).1)
  have hsome : (map.find? (fun x => x.type = .usable ∧ x.length ≥ bitmapBytes c.stop)).isSome := by
    rw [List.find?_isSome]
    exact ⟨x, hx, decide_eq_true ⟨hu, hroom _ hsize⟩⟩
  obtain ⟨e, he⟩ := Option.isSome_iff_exists.mp hsome
  obtain ⟨hfit, before, after, hsplit, hfirst⟩ := List.find?_eq_some_iff_append.mp he
  obtain ⟨heu, helen⟩ := of_decide_eq_true hfit
  refine ⟨before, e, after, c, hc, hsplit, heu, helen, ?_⟩
  intro x hx hfits
  have := hfirst x hx
  rw [decide_eq_true hfits] at this
  cases this

theorem carve_stop {size : Nat} (h : size ≤ e.length) : (e.carve size).stop = e.stop := by
  simp only [MemmapEntry.stop, MemmapEntry.carve]
  omega

/-- The size after `init_bitmap`, when what is left of the holder is the
    highest entry. -/
theorem Holder.size_of_carved (h : Holder map before e after c) (hw : MemmapOk map)
    (hbefore : ∀ x ∈ before, x.type = .usable → x.base < e.base + bitmapBytes c.stop)
    (htop : c.base ≤ e.base + bitmapBytes c.stop) :
    getBitmapSize (before ++ e.carve (bitmapBytes c.stop) :: after) = some (bitmapBytes e.stop) := by
  have hstop := carve_stop h.room
  rw [getBitmapSize_of_highest (h.carved_highest hbefore htop) ?_, hstop]
  rw [hstop]
  exact hw.bounded e h.mem

/-- The size after `init_bitmap`, by where the holder lies. -/
theorem Holder.size_iff (h : Holder map before e after c) (hw : MemmapOk map)
    (hs : map.Pairwise (fun a b => a.base ≤ b.base)) :
    getBitmapSize (before ++ e.carve (bitmapBytes c.stop) :: after) = some (bitmapBytes c.stop) ↔
      (e.base = c.base → bitmapBytes e.stop = bitmapBytes c.stop) ∧
        (e.base < c.base → e.base + bitmapBytes c.stop = c.base →
          bitmapBytes c.base = bitmapBytes c.stop) := by
  obtain ⟨hcmem, hcu, -⟩ := findHighestMemChunk_some h.highest
  have hle := h.le h.mem h.usable
  have hroom := h.room
  by_cases hbase : e.base = c.base
  · have hiff : (e.base = c.base → bitmapBytes e.stop = bitmapBytes c.stop) ∧
        (e.base < c.base → e.base + bitmapBytes c.stop = c.base →
          bitmapBytes c.base = bitmapBytes c.stop) ↔ bitmapBytes e.stop = bitmapBytes c.stop :=
      ⟨fun hcond => hcond.1 hbase, fun hsame => ⟨fun _ => hsame, fun hlt => absurd hbase (by omega)⟩⟩
    rw [hiff]
    by_cases hzero : bitmapBytes c.stop = 0
    · -- there is no bitmap and nothing is taken
      have hec := h.eq_of_empty hzero hbase
      subst hec
      refine ⟨fun _ => rfl, fun _ => ?_⟩
      apply h.size_of_carved hw ?_ (by omega)
      intro x hx hu
      exact absurd ⟨hu, by omega⟩ (h.first x hx)
    · rw [h.size_of_carved hw ?_ (by omega), Option.some.injEq]
      intro x hx hu
      have := h.le (h.mem_before hx) hu
      omega
  · have hlt : e.base < c.base := by omega
    have hends : e.stop ≤ c.base := by
      have hne : e ≠ c := by
        intro heq
        rw [heq] at hlt
        omega
      rcases hw.disjoint.forall h.mem hcmem hne with hbefore | hafter
      · exact hbefore
      · omega
    by_cases hlevel : e.base + bitmapBytes c.stop = c.base
    · -- the bitmap takes the whole holder, and `c` starts where it ends
      have hstop : e.stop = c.base := by
        rw [MemmapEntry.stop] at hends ⊢
        omega
      rw [h.size_of_carved hw ?_ (by omega), hstop, Option.some.injEq]
      · exact ⟨fun hsame => ⟨fun hb => absurd hb hbase, fun _ _ => hsame⟩, fun hcond => hcond.2 hlt hlevel⟩
      · intro x hx _
        have := h.before_le hs hx
        omega
    · have hbelow : e.base + bitmapBytes c.stop < c.base := by
        rw [MemmapEntry.stop] at hends
        omega
      rw [getBitmapSize_of_highest (h.highest_stays hs hlt hbelow) (hw.bounded c hcmem)]
      exact ⟨fun _ => ⟨fun hb => absurd hb hbase, fun _ hl => absurd hl hlevel⟩, fun _ => rfl⟩

end

/-- **When the bitmap size is stable.** For every sorted map, with `c` the
    usable entry `find_highest_mem_chunk` finds and `e` the one that holds the
    bitmap: after `init_bitmap` the size is what it was iff
    - if `e` starts where `c` starts, memory up to the end of `e` needs the same
      bitmap as memory up to the end of `c`;
    - if what is left of `e` starts where `c` starts, so does memory up to the
      start of `c`. -/
theorem bitmap_size_stable_iff (map : List MemmapEntry) (hw : MemmapOk map)
    (hs : map.Pairwise (fun a b => a.base ≤ b.base)) (mem : Nat → BitVec 8) :
    ∃ before e after c, Holder map before e after c ∧
      ((∃ s, pmmInit map mem = some s ∧ getBitmapSize s.entries = getBitmapSize map) ↔
        (e.base = c.base → bitmapBytes e.stop = bitmapBytes c.stop) ∧
          (e.base < c.base → e.base + bitmapBytes c.stop = c.base →
            bitmapBytes c.base = bitmapBytes c.stop)) := by
  obtain ⟨before, e, after, c, h⟩ := hw.exists_holder
  refine ⟨before, e, after, c, h, ?_⟩
  have hsize := getBitmapSize_of_highest h.highest (hw.bounded c (findHighestMemChunk_some h.highest).1)
  have ht := takeBitmap_first h.usable h.room after h.first
  rw [← h.split] at ht
  rw [pmmInit_some mem hsize ht, hsize, ← h.size_iff hw hs]
  simp

theorem bitmap_size_stable_oneChunk :
    ∃ s, pmmInit (oneChunk 0x1000) (fun _ => 0) = some s ∧
      getBitmapSize s.entries = getBitmapSize (oneChunk 0x1000) := by
  obtain ⟨before, e, after, c, h, hiff⟩ := bitmap_size_stable_iff (oneChunk 0x1000)
    (oneChunk_ok (by decide) (by decide)) (List.pairwise_singleton ..) (fun _ => 0)
  -- the only entry is both
  have hec : e = c := by
    have he := List.mem_singleton.mp h.mem
    have hc := List.mem_singleton.mp (findHighestMemChunk_some h.highest).1
    rw [he, hc]
  rw [hiff, hec]
  exact ⟨fun _ => rfl, fun hlt => absurd hlt (Nat.lt_irrefl _)⟩

/-- Two pages, and directly behind them memory up to 256 MiB. -/
def fullHolder : List MemmapEntry :=
  [{ base := 0, length := 0x2000, type := .usable },
    { base := 0x2000, length := 0xFFFE000, type := .usable }]

/-- The bitmap takes both pages. What is left of them starts at the second
    entry and comes first, and the size is 0 from then on. -/
theorem bitmap_size_drops :
    MemmapOk fullHolder ∧ fullHolder.Pairwise (fun a b => a.base ≤ b.base) ∧
      getBitmapSize fullHolder = some 0x2000 ∧
      ∃ s, pmmInit fullHolder (fun _ => 0) = some s ∧ getBitmapSize s.entries = some 0 := by
  have hsize : getBitmapSize fullHolder = some 0x2000 := by decide
  have ht : takeBitmap 0x2000 fullHolder = some (0,
      [{ base := 0x2000, length := 0, type := .usable },
        { base := 0x2000, length := 0xFFFE000, type := .usable }]) := by decide
  refine ⟨⟨by decide, by decide, ?_, ?_⟩, ?_, hsize, _, pmmInit_some _ hsize ht, by decide⟩
  · refine List.pairwise_pair.mpr (.inl ?_)
    decide
  · refine ⟨_, List.mem_cons_self .., rfl, ?_⟩
    intro size hsize'
    rw [hsize] at hsize'
    cases hsize'
    decide
  · refine List.pairwise_pair.mpr ?_
    decide

end Qnixx
