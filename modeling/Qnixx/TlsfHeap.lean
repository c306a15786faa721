import Qnixx.TlsfRep

/- The operations of the allocator, from one state at rest to the next. At rest
   the flags of neighbours agree, no two free blocks are neighbours, the free
   blocks are those in the lists, and of every used block all data is known. -/
namespace Qnixx.Tlsf
open ByteMem Tiling

/-! Flags of neighbours. -/

/-- The flags agree, and free blocks have been merged; `prev` is whether the
    block before them is free. -/
def Flags : Bool → List Blk → Prop
  | _, [] => True
  | prev, b :: bs => b.prevFree = prev ∧ (prev = true → b.free = false) ∧ Flags b.free bs

/-- Whether the last block is free. -/
def endFree (prev : Bool) : List Blk → Bool
  | [] => prev
  | b :: bs => endFree b.free bs

theorem flags_append (bs cs : List Blk) : ∀ prev, Flags prev (bs ++ cs) ↔ Flags prev bs ∧ Flags (endFree prev bs) cs := by
  induction bs with
  | nil =>
    intro prev
    exact ⟨fun h => ⟨trivial, h⟩, fun h => h.2⟩
  | cons b bs ih =>
    intro prev
    rw [List.cons_append, Flags, Flags, endFree, ih]
    tauto

theorem endFree_snoc (prev : Bool) (bs : List Blk) (b : Blk) : endFree prev (bs ++ [b]) = b.free := by
  induction bs generalizing prev with
  | nil => rfl
  | cons c bs ih => exact ih c.free

/-- A block between the operations. -/
structure Blk.Settled (b : Blk) : Prop where
  listed : b.listed = b.free
  linked : b.linked = b.free
  data : b.free = false → b.data.length = b.size

/-- The allocator between the operations. -/
structure Rest (m₀ : Mem) (t : Control) (bs : List Blk) : Prop where
  rep : Rep m₀ t bs
  flags : Flags false bs
  settled : ∀ b ∈ bs, b.Settled

/-! What the clients have: the blocks in use, with their data; and the pools. -/

structure Live where
  ptr : Nat
  size : Nat
  data : List Byte

def Blk.live (b : Blk) : Live := ⟨b.addr + 16, b.size, b.data⟩

def live (bs : List Blk) : List Live := (bs.filter (fun b => !b.free && b.size != 0)).map Blk.live

/-- Where every pool starts and ends, with the block behind its last data. -/
def pools (bs : List Blk) : List (Nat × Nat) := areas (bs.map Blk.piece)

theorem live_append (bs cs : List Blk) : live (bs ++ cs) = live bs ++ live cs := by
  rw [live, List.filter_append, List.map_append]
  rfl

theorem live_cons (b : Blk) (bs : List Blk) :
    live (b :: bs) = if (!b.free && b.size != 0) = true then b.live :: live bs else live bs := by
  rw [live, List.filter_cons]
  split
  · rfl
  · rfl

theorem live_cons_free {b : Blk} (h : b.free = true) (bs : List Blk) : live (b :: bs) = live bs := by
  rw [live_cons, h]
  rfl

theorem live_cons_used {b : Blk} (h : b.free = false) (hsize : b.size ≠ 0) (bs : List Blk) :
    live (b :: bs) = b.live :: live bs := by
  rw [live_cons, h, bne_iff_ne.mpr hsize]
  rfl

theorem pools_congr {bs cs : List Blk} (h : pools bs = pools cs) (pre : List Blk) : pools (pre ++ bs) = pools (pre ++ cs) := by
  rw [pools, pools, List.map_append, List.map_append]
  exact areas_append_congr h _

theorem pools_same {b c : Blk} (haddr : c.addr = b.addr) (hsize : c.size = b.size) (bs : List Blk) :
    pools (c :: bs) = pools (b :: bs) := by
  rw [pools, pools, List.map_cons, List.map_cons, Blk.piece, Blk.piece, haddr, hsize]

theorem pools_cons_congr {bs cs : List Blk} (h : pools bs = pools cs) (b : Blk) : pools (b :: bs) = pools (b :: cs) :=
  pools_congr h [b]

theorem pools_pair {b b' n n' : Blk} (haddr : b'.addr = b.addr) (hsize : b'.size = b.size) (hnaddr : n'.addr = n.addr)
    (hnsize : n'.size = n.size) (bs : List Blk) : pools (b' :: n' :: bs) = pools (b :: n :: bs) :=
  (pools_same haddr hsize _).trans (pools_cons_congr (pools_same hnaddr hnsize bs) b)

/-- Two neighbours and the block that they are joined to. -/
theorem pools_join {b c b' : Blk} (hb : b.size ≠ 0) (hc : c.size ≠ 0) (hnext : c.addr = b.stop) (haddr : b'.addr = b.addr)
    (hsize : b'.size = b.size + (c.size + 8)) (bs : List Blk) : pools (b' :: bs) = pools (b :: c :: bs) := by
  have hpiece : b'.piece = ⟨b.piece.start, c.piece.stop, false⟩ := by
    rw [Blk.stop] at hnext
    simp only [Blk.piece, Piece.mk.injEq, beq_eq_false_iff_ne]
    omega
  rw [pools, pools, List.map_cons, List.map_cons, List.map_cons, areas_join (piece_last hb) (piece_last hc), hpiece]

/-- A block is cut in two, before a block that changes only its flags. -/
theorem pools_cut {b c d n n' : Blk} (hd : d.size ≠ 0) (hc : c.size ≠ 0) (hnext : c.addr = d.stop)
    (haddr : b.addr = d.addr) (hn : n'.addr = n.addr ∧ n'.size = n.size) (hsize : b.size = d.size + (c.size + 8))
    (bs : List Blk) : pools (d :: c :: n' :: bs) = pools (b :: n :: bs) :=
  (pools_join hd hc hnext haddr hsize _).symm.trans (pools_cons_congr (pools_same hn.1 hn.2 bs) b)

section
variable {m₀ : Mem} {t : Control} {bs pre post : List Blk} {b f n : Blk}

/-- Where the blocks are cut: before a free block there is none, and behind it
    there is one that is used. -/
theorem Flags.at_free (h : Flags false (pre ++ b :: n :: post)) (hfree : b.free = true) :
    endFree false pre = false ∧ b.prevFree = false ∧ n.prevFree = true ∧ n.free = false := by
  obtain ⟨-, hb, hmerged, hn, hnmerged, -⟩ := (flags_append _ _ _).mp h
  have hend : endFree false pre = false := by
    rw [← Bool.not_eq_true]
    intro hend
    rw [hmerged hend] at hfree
    cases hfree
  refine ⟨hend, hb.trans hend, hn.trans hfree, hnmerged hfree⟩

/-! Locating a block. -/

/-- What `block_locate_free` finds for a size: nothing, and then no free block
    has the size rounded up to its class; or a block that is large enough, in
    the first class that has one. -/
theorem Rep.blockLocateFree (h : Rep m₀ t bs) {k : Nat} (hwords : k % 8 = 0) (hpos : 0 < k) (hlt : k < 2^32) :
    (Tlsf.blockLocateFree t (BitVec.ofNat 64 k) = some (0, t) ∧
      ∀ c ∈ bs, c.listed = true → c.size < classMin (searchClass k)) ∨
    ∃ pre b post t', bs = pre ++ b :: post ∧ b.listed = true ∧ classMin (searchClass k) ≤ b.size ∧
      (∀ c ∈ bs, c.listed = true → classMin (searchClass k) ≤ c.size → ClassLe (sizeClass b.size) (sizeClass c.size)) ∧
      Tlsf.blockLocateFree t (BitVec.ofNat 64 k) = some (b.ptr, t') ∧
      Rep m₀ t' (pre ++ { b with listed := false } :: post) ∧ t'.blockNull = t.blockNull := by
  have hk : (BitVec.ofNat 64 k).toNat = k := by
    rw [BitVec.toNat_ofNat, Nat.mod_eq_of_lt (by omega)]
  have hne : BitVec.ofNat 64 k ≠ 0 := ofNat_ne_zero hpos (by omega)
  have hsearch : mappingSearch (BitVec.ofNat 64 k) = searchClass k := by
    rw [mappingSearch_eq (by omega), hk]
  have hlisted : ∀ c ∈ bs, c.listed = true → (c.addr, c.size) ∈ entries bs :=
    fun c hc hl => mem_entries.mpr ⟨c, hc, hl, rfl⟩
  have hnone : (∀ e ∈ entries bs, ¬ ClassLe (searchClass k) (sizeClass e.2)) →
      ∀ c ∈ bs, c.listed = true → c.size < classMin (searchClass k) := by
    intro hall c hc hl
    apply Nat.lt_of_not_le
    intro hle
    exact hall _ (hlisted c hc hl) (searchClass_le_iff.mpr hle)
  rw [Tlsf.blockLocateFree, if_pos hne, hsearch]
  dsimp only
  by_cases hfl : (searchClass k).1 < flIndexCount
  · rw [if_pos hfl]
    obtain ⟨⟨p, fl, sl⟩, hfound, hcase⟩ := searchSuitableBlock_found h.lists h.phys.nodes.small hfl (searchClass_snd_lt k)
    rw [hfound]
    simp only [Option.bind_eq_bind, Option.bind_some]
    rcases hcase with ⟨hnull, hall⟩ | ⟨e, he, hptr, hclass, hle, hfirst⟩
    · left
      have hnull : p = 0 := hnull
      rw [if_neg (not_not.mpr hnull)]
      exact ⟨rfl, hnone hall⟩
    · right
      obtain ⟨b, hb, hbl, rfl⟩ := mem_entries.mp he
      obtain ⟨pre, post, rfl⟩ := List.append_of_mem hb
      have hptr : p = b.ptr := hptr
      have hclass : sizeClass b.size = (fl, sl) := hclass
      obtain ⟨t', hremove, hrep, hz⟩ := h.unlist hbl hclass
      have hfits := h.fits_at
      have hmin : classMin (searchClass k) ≤ b.size := searchClass_le_iff.mp (hclass ▸ hle)
      have hsize : k ≤ b.size := Nat.le_trans (le_classMin_searchClass hwords) hmin
      have hassert : tlsfAssert (BitVec.ofNat 64 k ≤ blockSize t.mem b.ptr) = some () := by
        apply tlsfAssert_true
        have hblt := h.phys.size_lt
        rw [decide_eq_true_eq, h.holds_at.blockSize hfits, BitVec.le_def, hk, BitVec.toNat_ofNat,
          Nat.mod_eq_of_lt (by omega)]
        exact hsize
      refine ⟨pre, b, post, t', rfl, hbl, hmin, ?_, ?_, hrep, hz⟩
      · intro c hc hl hmin
        rw [hclass]
        exact hfirst _ (hlisted c hc hl) (searchClass_le_iff.mpr hmin)
      · rw [hptr, if_pos hfits.ptr_ne, hassert, Option.bind_some, hremove]
        rfl
  · left
    rw [if_neg hfl]
    refine ⟨rfl, hnone ?_⟩
    intro e he hle
    have := sizeClass_fst_lt (h.phys.nodes.small e he)
    rcases hle with hlt | ⟨heq, -⟩
    · have hlt : (searchClass k).1 < (sizeClass e.2).1 := hlt
      omega
    · have heq : (searchClass k).1 = (sizeClass e.2).1 := heq
      omega

/-! Using a block that was located. -/

/-- The free block that is cut off behind `size` bytes of data. -/
def Blk.tail (b : Blk) (size : Nat) (prev : Bool) : Blk :=
  { b.rest size true prev with linked := true, listed := true }

theorem Rep.blockTrimFree_split (h : Rep m₀ t (pre ++ b :: n :: post)) (hfree : b.free = true) (hlisted : b.listed = false)
    (hdata : b.data = []) {size : Nat} (hwords : size % 8 = 0) (hleast : 24 ≤ size) (hroom : size + 32 ≤ b.size) :
    ∃ t', Tlsf.blockTrimFree t b.ptr (BitVec.ofNat 64 size) = some t' ∧
      Rep m₀ t' (pre ++ { b with size := size, linked := true } :: b.tail size true :: { n with prevFree := true } :: post) ∧
      t'.blockNull = t.blockNull := by
  have hblt := h.phys.size_lt
  have hcan := h.blockCanSplit size (by omega)
  have hisFree := h.holds_at.blockIsFree h.fits_at
  obtain ⟨m1, g, hsplit, hrep1⟩ := h.blockSplit hwords (.inr hleast) hroom hlisted
  have hptr : (({ b.rest size true g with linked := true } : Blk)).ptr = BitVec.ofNat 64 (b.addr + 8 + size) := rfl
  obtain ⟨m2, hlink, hrep2⟩ := hrep1.blockLinkNext (by show size ≠ 0; omega)
  simp only [hdata, List.take_nil] at hrep2
  rw [List.append_cons] at hrep2
  have hrep3 := hrep2.blockSetPrevFree
  obtain ⟨t', hinsert, hrep4, hz⟩ := hrep3.blockInsert rfl (by show b.size - (size + 8) ≠ 0; omega) rfl
  rw [← List.append_cons] at hrep4
  refine ⟨t', ?_, ?_, hz⟩
  · rw [Tlsf.blockTrimFree, tlsfAssert_true (hisFree.trans hfree), hcan, decide_eq_true hroom, if_pos rfl]
    simp only [Option.bind_eq_bind, Option.bind_some]
    rw [hsplit]
    simp only [Option.bind_some]
    rw [show Tlsf.blockLinkNext m1 b.ptr = some (BitVec.ofNat 64 (b.addr + 8 + size), m2) from hlink]
    exact hinsert
  · simp only [hdata]
    exact hrep4

/-- The block with its data, in use. -/
def Blk.claim (b : Blk) (size : Nat) (data : List Byte) : Blk :=
  { b with size := size, free := false, linked := false, listed := false, data := data }

/-- How a block is cut for a request: the size it keeps, and what comes behind
    it. -/
def Cuts (b n : Blk) (size k : Nat) (tl : List Blk) : Prop :=
  (size + 32 ≤ b.size ∧ k = size ∧ tl = [b.tail size false, { n with prevFree := true }]) ∨
    (b.size < size + 32 ∧ k = b.size ∧ tl = [{ n with prevFree := false }])

theorem length_loadBytes (m : Mem) (a : BitVec 64) (k : Nat) : (loadBytes m a k).length = k := by
  rw [loadBytes, List.length_map, List.length_range]

/-- Bytes in memory are the first of all that are loaded. -/
theorem loadBytes_take {m : Mem} {a : BitVec 64} {bs : List Byte} (h : Holds m a bs) {k : Nat} (hk : bs.length ≤ k) :
    (loadBytes m a k).take bs.length = bs := by
  have hbs := h.loadBytes (Nat.le_refl bs.length)
  rw [List.take_length] at hbs
  rw [loadBytes, ← List.map_take, List.take_range, Nat.min_eq_left hk]
  exact hbs

/-- A block in use, with all its data known. -/
theorem Rep.claim (h : Rep m₀ t (pre ++ b :: post)) (hfree : b.free = false) (hlisted : b.listed = false) :
    ∃ d, d.length = b.size ∧ d.take b.data.length = b.data ∧ Rep m₀ t (pre ++ b.claim b.size d :: post) := by
  have hforget := h.forget false (fun h => absurd h Bool.false_ne_true) 0
  have hobserve := hforget.observe rfl hlisted
  refine ⟨loadBytes t.mem (BitVec.ofNat 64 (b.addr + 16)) b.size, length_loadBytes _ _ _,
    loadBytes_take h.holds_at.data h.fits_at.known, ?_⟩
  simp only [hfree, hlisted] at hobserve
  exact hobserve

theorem Rep.blockPrepareUsed (h : Rep m₀ t (pre ++ b :: n :: post)) (hfree : b.free = true) (hlisted : b.listed = false)
    (hdata : b.data = []) {size : Nat} (hwords : size % 8 = 0) (hleast : 24 ≤ size) (hle : size ≤ b.size) :
    ∃ t' k d tl, Tlsf.blockPrepareUsed t b.ptr (BitVec.ofNat 64 size) = some (BitVec.ofNat 64 (b.addr + 16), t') ∧
      Cuts b n size k tl ∧ d.length = k ∧ Rep m₀ t' (pre ++ b.claim k d :: (tl ++ post)) ∧
      t'.blockNull = t.blockNull := by
  have hblt := h.phys.size_lt
  have hfits := h.fits_at
  have hptr : blockToPtr b.ptr = BitVec.ofNat 64 (b.addr + 16) := by
    rw [BitVec.ofNat_add]
    rfl
  have hassert : tlsfAssert (BitVec.ofNat 64 size != 0) = some () :=
    tlsfAssert_true (bne_iff_ne.mpr (ofNat_ne_zero (by omega) (by omega)))
  rw [Tlsf.blockPrepareUsed, if_pos hfits.ptr_ne, hassert]
  simp only [Option.bind_eq_bind, Option.bind_some]
  by_cases hroom : size + 32 ≤ b.size
  · obtain ⟨t1, htrim, hrep1, hz⟩ := h.blockTrimFree_split hfree hlisted hdata hwords hleast hroom
    obtain ⟨m2, hmark, hrep2⟩ := hrep1.blockMarkAsUsed (by show size ≠ 0; omega)
    obtain ⟨d, hd, -, hrep3⟩ := hrep2.claim rfl hlisted
    refine ⟨{ t1 with mem := m2 }, size, d, [b.tail size false, { n with prevFree := true }], ?_, .inl ⟨hroom, rfl, rfl⟩, hd,
      hrep3, hz⟩
    rw [htrim, Option.bind_some, show Tlsf.blockMarkAsUsed t1.mem b.ptr = some m2 from hmark, hptr]
    rfl
  · have hcan := h.blockCanSplit size (by omega)
    have hisFree := h.holds_at.blockIsFree hfits
    have htrim : Tlsf.blockTrimFree t b.ptr (BitVec.ofNat 64 size) = some t := by
      rw [Tlsf.blockTrimFree, tlsfAssert_true (hisFree.trans hfree), hcan, decide_eq_false hroom]
      rfl
    obtain ⟨m2, hmark, hrep2⟩ := h.blockMarkAsUsed (by omega)
    obtain ⟨d, hd, -, hrep3⟩ := hrep2.claim rfl hlisted
    refine ⟨{ t with mem := m2 }, b.size, d, [{ n with prevFree := false }], ?_, .inr ⟨by omega, rfl, rfl⟩, hd, hrep3, rfl⟩
    rw [htrim, Option.bind_some, hmark, hptr]
    rfl

theorem Rest.settled_at (h : Rest m₀ t (pre ++ b :: post)) : b.Settled := h.settled b (by simp)

/-- A free block `f` that is in no list yet, between blocks at rest. -/
structure Loose (m₀ : Mem) (t : Control) (pre : List Blk) (f n : Blk) (post : List Blk) : Prop where
  rep : Rep m₀ t (pre ++ f :: n :: post)
  before : Flags false pre
  behind : Flags n.free post
  settled : ∀ c, c ∈ pre ∨ c = n ∨ c ∈ post → c.Settled
  size : f.size ≠ 0
  free : f.free = true
  linked : f.linked = true
  listed : f.listed = false
  data : f.data = []
  prev : f.prevFree = endFree false pre
  next : n.prevFree = true

theorem Cuts.size_le {size k : Nat} {tl : List Blk} (h : Cuts b n size k tl) (hle : size ≤ b.size) : 
    size ≤ k ∧ k ≤ b.size ∧ k < size + 32 := by
  rcases h with ⟨hroom, rfl, -⟩ | ⟨hclose, rfl, -⟩
  · exact ⟨Nat.le_refl _, by omega, by omega⟩
  · exact ⟨hle, Nat.le_refl _, hclose⟩

theorem Cuts.live {size k : Nat} {tl : List Blk} (h : Cuts b n size k tl) (post : List Blk) :
    Tlsf.live (tl ++ post) = Tlsf.live (n :: post) := by
  rcases h with ⟨-, -, rfl⟩ | ⟨-, -, rfl⟩
  · rw [List.cons_append, live_cons_free rfl, List.singleton_append, live_cons, live_cons]
    rfl
  · rw [List.singleton_append, live_cons, live_cons]
    rfl

theorem Cuts.pools {size k : Nat} {tl : List Blk} (h : Cuts b n size k tl) (hsize : size ≠ 0) (d : List Byte)
    (post : List Blk) : Tlsf.pools (b.claim k d :: (tl ++ post)) = Tlsf.pools (b :: n :: post) := by
  rcases h with ⟨hroom, rfl, rfl⟩ | ⟨-, rfl, rfl⟩
  · rw [List.cons_append, List.singleton_append]
    refine pools_cut hsize ?_ ?_ ?_ ?_ ?_ _
    · show b.size - (k + 8) ≠ 0
      omega
    · rfl
    · rfl
    · exact ⟨rfl, rfl⟩
    · show b.size = k + (b.size - (k + 8) + 8)
      omega
  · exact pools_pair rfl rfl rfl rfl post

/-- A loose block in use, with what is cut off behind it. -/
theorem Loose.claimed {t' : Control} (h : Loose m₀ t pre f n post) (hn : n.free = false) {size k : Nat} {d : List Byte}
    {tl : List Blk} (hcuts : Cuts f n size k tl) (hd : d.length = k)
    (hrep : Rep m₀ t' (pre ++ f.claim k d :: (tl ++ post))) : Rest m₀ t' (pre ++ f.claim k d :: (tl ++ post)) := by
  have hnsettled : n.Settled := h.settled n (by simp)
  refine ⟨hrep, ?_, ?_⟩
  · refine (flags_append _ _ _).mpr ⟨h.before, h.prev, fun _ => rfl, ?_⟩
    rcases hcuts with ⟨-, -, rfl⟩ | ⟨-, -, rfl⟩
    · exact ⟨rfl, fun h => absurd h Bool.false_ne_true, rfl, fun _ => hn, h.behind⟩
    · exact ⟨rfl, fun h => absurd h Bool.false_ne_true, h.behind⟩
  · intro c hc
    have hnext : ∀ p, Blk.Settled { n with prevFree := p } :=
      fun _ => ⟨hnsettled.listed, hnsettled.linked, hnsettled.data⟩
    simp only [List.mem_append, List.mem_cons] at hc
    rcases hc with hc | rfl | hc | hc
    · exact h.settled c (.inl hc)
    · exact ⟨rfl, rfl, fun _ => hd⟩
    · rcases hcuts with ⟨-, -, rfl⟩ | ⟨-, -, rfl⟩
      · simp only [List.mem_cons, List.not_mem_nil, or_false] at hc
        rcases hc with rfl | rfl
        · exact ⟨rfl, rfl, fun h => absurd h.symm Bool.false_ne_true⟩
        · exact hnext true
      · simp only [List.mem_cons, List.not_mem_nil, or_false] at hc
        rw [hc]
        exact hnext false
    · exact h.settled c (.inr (.inr hc))

/-- The blocks `bs'` are `bs` with a new block `u` in use, for a request. -/
structure Served (bs : List Blk) (size : Nat) (bs' : List Blk) (u : Blk) : Prop where
  mem : u ∈ bs'
  used : u.free = false
  large : size ≤ u.size
  close : u.size < size + 32
  live : (live bs').Perm (u.live :: live bs)
  pools : pools bs' = pools bs

theorem Loose.prepareUsed (h : Loose m₀ t pre f n post) (hn : n.free = false) {size : Nat} (hwords : size % 8 = 0)
    (hleast : 24 ≤ size) (hle : size ≤ f.size) :
    ∃ bs' t' u, Tlsf.blockPrepareUsed t f.ptr (BitVec.ofNat 64 size) = some (BitVec.ofNat 64 (u.addr + 16), t') ∧
      u.addr = f.addr ∧ Served (pre ++ f :: n :: post) size bs' u ∧ Rest m₀ t' bs' ∧ t'.blockNull = t.blockNull := by
  obtain ⟨t', k, d, tl, hrun, hcuts, hd, hrep, hz⟩ := h.rep.blockPrepareUsed h.free h.listed h.data hwords hleast hle
  have hk := hcuts.size_le hle
  refine ⟨_, t', f.claim k d, hrun, rfl, ⟨?_, rfl, hk.1, hk.2.2, ?_, ?_⟩, h.claimed hn hcuts hd hrep, hz⟩
  · simp
  · rw [live_append, live_append, live_cons_used rfl (by show k ≠ 0; omega), hcuts.live, live_cons_free h.free]
    exact List.perm_middle
  · apply pools_congr
    exact hcuts.pools (by omega) d post

/-- Of a free block only the place matters. -/
theorem Served.of_free {f' : Blk} {size : Nat} {bs' : List Blk} {u : Blk} (h : Served (pre ++ f' :: post) size bs' u)
    (hfree : f.free = true) (hfree' : f'.free = f.free) (haddr : f'.addr = f.addr) (hsize : f'.size = f.size) :
    Served (pre ++ f :: post) size bs' u := by
  refine { h with live := ?_, pools := ?_ }
  · have hlive := h.live
    rw [live_append, live_cons_free (hfree'.trans hfree)] at hlive
    rw [live_append, live_cons_free hfree]
    exact hlive
  · rw [h.pools]
    apply pools_congr
    exact pools_same haddr hsize post

/-- No free block has the size, rounded up to its class. -/
def NoFit (bs : List Blk) (size : Nat) : Prop := ∀ c ∈ bs, c.free = true → c.size < classMin (searchClass size)

/-- `block_locate_free` at rest. -/
theorem Rest.blockLocateFree (h : Rest m₀ t bs) {k : Nat} (hwords : k % 8 = 0) (hleast : 24 ≤ k) (hlt : k < 2^32) :
    (Tlsf.blockLocateFree t (BitVec.ofNat 64 k) = some (0, t) ∧ NoFit bs k) ∨
    ¬ NoFit bs k ∧ ∃ pre b n post t', bs = pre ++ b :: n :: post ∧ k ≤ b.size ∧ n.free = false ∧ endFree false pre = false ∧
      Tlsf.blockLocateFree t (BitVec.ofNat 64 k) = some (b.ptr, t') ∧
      Loose m₀ t' pre { b with listed := false } n post ∧ b.free = true ∧ t'.blockNull = t.blockNull := by
  rcases h.rep.blockLocateFree hwords (by omega) hlt with ⟨hnull, hnone⟩ | ⟨pre, b, post, t', rfl, hbl, hmin, -, hfound, hrep, hz⟩
  · left
    refine ⟨hnull, ?_⟩
    intro c hc hf
    exact hnone c hc ((h.settled c hc).listed.trans hf)
  · right
    have hsettled := h.settled_at
    have hfree : b.free = true := hsettled.listed.symm.trans hbl
    have hle : k ≤ b.size := Nat.le_trans (le_classMin_searchClass hwords) hmin
    obtain ⟨n, post', rfl⟩ := h.rep.phys.exists_next (b := b) (by omega)
    obtain ⟨hend, hprev, hnprev, hnfree⟩ := h.flags.at_free hfree
    obtain ⟨hpre, -, -, -, -, hpost⟩ := (flags_append _ _ _).mp h.flags
    have hfit : ¬ NoFit (pre ++ b :: n :: post') k := fun hno => absurd hmin (Nat.not_le.mpr (hno b (by simp) hfree))
    refine ⟨hfit, pre, b, n, post', t', rfl, hle, hnfree, hend, hfound, ⟨hrep, hpre, hpost, ?_, ?_, hfree,
      hsettled.linked.trans hfree, rfl, h.rep.fits_at.ofListed hbl, hprev.trans hend.symm, hnprev⟩, hfree, hz⟩
    · rintro c (hc | rfl | hc)
      · exact h.settled c (List.mem_append_left _ hc)
      · exact h.settled c (by simp)
      · exact h.settled c (by simp [hc])
    · show b.size ≠ 0
      omega

/-! Requests. -/

/-- The size that is searched for. -/
def request (size : Nat) : Nat :=
  if size = 0 then 0
  else if (size + 7) % 2^64 / 8 * 8 < 2^32 then max ((size + 7) % 2^64 / 8 * 8) 24 else 0

theorem adjustRequestSize_eq (size : BitVec 64) :
    adjustRequestSize size alignSize = some (BitVec.ofNat 64 (request size.toNat)) :=
  adjustRequestSize_words size

theorem request_cases (size : Nat) :
    request size = 0 ∨ request size % 8 = 0 ∧ 24 ≤ request size ∧ request size < 2^32 := by
  rw [request]
  split
  · exact .inl rfl
  · split
    · right
      omega
    · exact .inl rfl

/-- Without the wrap a request is covered. -/
theorem le_request {size : Nat} (hpos : request size ≠ 0) (hlt : size + 7 < 2^64) : size ≤ request size := by
  rw [request] at hpos ⊢
  split
  · omega
  · next hne =>
    rw [if_neg hne] at hpos
    split
    · omega
    · next hbig =>
      rw [if_neg hbig] at hpos
      exact absurd rfl hpos

/-- A request from `2^32 - 7` on is refused, until the sum wraps. -/
theorem request_eq_zero_iff {size : Nat} (hlt : size < 2^64) :
    request size = 0 ↔ size = 0 ∨ 2^32 - 7 ≤ size ∧ size + 7 < 2^64 := by
  rw [request]
  split
  · omega
  · split
    · omega
    · omega

/-! `tlsf_malloc`. -/

theorem Rest.tlsfMalloc (h : Rest m₀ t bs) (size : BitVec 64) :
    (Tlsf.tlsfMalloc t size = some (0, t) ∧ (request size.toNat = 0 ∨ NoFit bs (request size.toNat))) ∨
    ∃ bs' t' u, request size.toNat ≠ 0 ∧ ¬ NoFit bs (request size.toNat) ∧ Served bs (request size.toNat) bs' u ∧
      (∃ b ∈ bs, b.free = true ∧ u.addr = b.addr) ∧
      Tlsf.tlsfMalloc t size = some (BitVec.ofNat 64 (u.addr + 16), t') ∧ Rest m₀ t' bs' ∧ t'.blockNull = t.blockNull := by
  rw [Tlsf.tlsfMalloc, adjustRequestSize_eq]
  simp only [Option.bind_eq_bind, Option.bind_some]
  rcases request_cases size.toNat with hzero | ⟨hwords, hleast, hlt⟩
  · left
    rw [hzero]
    exact ⟨rfl, .inl rfl⟩
  · rcases h.blockLocateFree hwords hleast hlt with
      ⟨hnull, hnone⟩ | ⟨hfit, pre, b, n, post, t1, rfl, hle, hn, -, hfound, hloose, hfree, hz⟩
    · left
      rw [hnull]
      exact ⟨rfl, .inr hnone⟩
    · right
      obtain ⟨bs', t', u, hprep, haddr, hserved, hrest, hz'⟩ := hloose.prepareUsed hn hwords hleast hle
      refine ⟨bs', t', u, by omega, hfit, hserved.of_free hfree rfl rfl rfl, ⟨b, by simp, hfree, haddr⟩, ?_, hrest,
        hz'.trans hz⟩
      rw [hfound, Option.bind_some]
      exact hprep

/-! Freeing. -/

theorem Loose.mergePrev (h : Loose m₀ t pre f n post) :
    ∃ pre' f' t', blockMergePrev t f.ptr = some (f'.ptr, t') ∧ Loose m₀ t' pre' f' n post ∧
      endFree false pre' = false ∧ live pre' = live pre ∧
      pools (pre' ++ f' :: n :: post) = pools (pre ++ f :: n :: post) ∧ t'.blockNull = t.blockNull := by
  cases hend : endFree false pre with
  | false => exact ⟨pre, f, t, h.rep.blockMergePrev_used (h.prev.trans hend), h, hend, rfl, rfl, rfl⟩
  | true =>
    rcases List.eq_nil_or_concat pre with rfl | ⟨pre', p, rfl⟩
    · cases hend
    · rw [List.concat_eq_append] at h hend ⊢
      rw [endFree_snoc] at hend
      have hp : p.Settled := h.settled p (by simp)
      have hrep := h.rep
      rw [← List.append_cons] at hrep
      have hpfits := hrep.fits_at
      have hplisted : p.listed = true := hp.listed.trans hend
      have hpleast := hpfits.listed_least hplisted
      have hflags := (flags_append _ _ _).mp h.before
      obtain ⟨hbefore, hpprev, hpmerged, -⟩ := hflags
      have hpend : endFree false pre' = false := by
        rw [← Bool.not_eq_true]
        intro hend'
        rw [hpmerged hend'] at hend
        cases hend
      have hfprev : f.prevFree = true := by
        rw [h.prev, endFree_snoc, hend]
      obtain ⟨t', hmerge, hrep', hz⟩ := hrep.blockMergePrev_free h.size hfprev h.listed hend (hp.linked.trans hend) hplisted
      refine ⟨pre', { p with size := p.size + (f.size + 8), linked := true, listed := false }, t', hmerge,
        ⟨hrep', hbefore, h.behind, ?_, ?_, hend, rfl, rfl, hpfits.ofListed hplisted, hpprev, h.next⟩, hpend, ?_, ?_, hz⟩
      · intro c hc
        apply h.settled
        rcases hc with hc | hc
        · exact .inl (List.mem_append_left _ hc)
        · exact .inr hc
      · show p.size + (f.size + 8) ≠ 0
        omega
      · rw [live_append, live_cons_free hend]
        exact (List.append_nil _).symm
      · rw [← List.append_cons]
        apply pools_congr
        refine pools_join (by omega) h.size (hrep.phys.next_addr (by omega)) ?_ ?_ _
        · rfl
        · rfl

theorem Loose.mergeNext (h : Loose m₀ t pre f n post) :
    ∃ f' n' post' t', blockMergeNext t f.ptr = some (f.ptr, t') ∧ Loose m₀ t' pre f' n' post' ∧ f'.addr = f.addr ∧
      f.size ≤ f'.size ∧ n'.free = false ∧ live (n' :: post') = live (n :: post) ∧
      pools (pre ++ f' :: n' :: post') = pools (pre ++ f :: n :: post) ∧ t'.blockNull = t.blockNull := by
  cases hn : n.free with
  | false => exact ⟨f, n, post, t, h.rep.blockMergeNext_used h.size hn, h, rfl, Nat.le_refl _, hn, rfl, rfl, rfl⟩
  | true =>
    have hnsettled : n.Settled := h.settled n (by simp)
    have hnfits : n.Fits := h.rep.phys.fits n (by simp)
    have hnlisted : n.listed = true := hnsettled.listed.trans hn
    have hnleast := hnfits.listed_least hnlisted
    have hpost : ∃ n' post', post = n' :: post' := by
      have hrep := h.rep
      rw [List.append_cons] at hrep
      exact hrep.phys.exists_next (by omega)
    obtain ⟨n', post', rfl⟩ := hpost
    obtain ⟨hprev, hmerged, hbehind⟩ := h.behind
    obtain ⟨t', hmerge, hrep', hz⟩ := h.rep.blockMergeNext_free h.size h.listed hn hnlisted
    refine ⟨{ f with size := f.size + (n.size + 8), linked := true }, n', post', t', hmerge,
      ⟨hrep', h.before, hbehind, ?_, ?_, h.free, rfl, h.listed, h.data, h.prev, hprev.trans hn⟩, rfl, ?_, hmerged hn, ?_, ?_, hz⟩
    · intro c hc
      apply h.settled
      rcases hc with hc | rfl | hc
      · exact .inl hc
      · exact .inr (.inr List.mem_cons_self)
      · exact .inr (.inr (List.mem_cons_of_mem _ hc))
    · show f.size + (n.size + 8) ≠ 0
      omega
    · show f.size ≤ f.size + (n.size + 8)
      omega
    · exact (live_cons_free hn _).symm
    · apply pools_congr
      refine pools_join h.size (by omega) (h.rep.phys.next_addr h.size) ?_ ?_ _
      · rfl
      · rfl

theorem Loose.insert (h : Loose m₀ t pre f n post) (hend : endFree false pre = false) (hn : n.free = false) :
    ∃ t', blockInsert t f.ptr = some t' ∧ Rest m₀ t' (pre ++ { f with listed := true } :: n :: post) ∧
      t'.blockNull = t.blockNull := by
  obtain ⟨t', hinsert, hrep, hz⟩ := h.rep.blockInsert h.listed h.size h.data
  refine ⟨t', hinsert, ⟨hrep, ?_, ?_⟩, hz⟩
  · refine (flags_append _ _ _).mpr ⟨h.before, h.prev, ?_, h.next.trans h.free.symm, fun _ => hn, h.behind⟩
    intro hend'
    rw [hend] at hend'
    cases hend'
  · intro c hc
    simp only [List.mem_append, List.mem_cons] at hc
    rcases hc with hc | rfl | hc
    · exact h.settled c (.inl hc)
    · exact ⟨h.free.symm, h.linked.trans h.free.symm, fun hf => absurd (h.free.symm.trans hf) (by decide)⟩
    · exact h.settled c (.inr hc)

/-- `tlsf_free` of a block in use: it is gone, merged with its free neighbours,
    and nothing else changes. -/
theorem Rest.tlsfFree (h : Rest m₀ t (pre ++ b :: n :: post)) (hfree : b.free = false) (hsize : b.size ≠ 0) :
    ∃ bs' t', Tlsf.tlsfFree t (BitVec.ofNat 64 (b.addr + 16)) = some t' ∧ Rest m₀ t' bs' ∧
      live bs' = live pre ++ live (n :: post) ∧ pools bs' = pools (pre ++ b :: n :: post) ∧
      t'.blockNull = t.blockNull := by
  have hfits := h.rep.fits_at
  have hhigh := hfits.high
  have hsettled := h.settled_at
  obtain ⟨hbefore, hbprev, -, hnprev, -, hbehind⟩ := (flags_append _ _ _).mp h.flags
  have hptr : blockFromPtr (BitVec.ofNat 64 (b.addr + 16)) = b.ptr := by
    rw [blockFromPtr, blockStartOffset, Blk.ptr]
    bv_omega
  have hne : BitVec.ofNat 64 (b.addr + 16) ≠ 0 := ofNat_ne_zero (by omega) (by have := hfits.least_of_ne hsize; omega)
  have hassert : tlsfAssert (!blockIsFree t.mem b.ptr) = some () := by
    apply tlsfAssert_true
    rw [h.rep.holds_at.blockIsFree hfits, hfree]
    rfl
  obtain ⟨m1, hmark, hrep1⟩ := h.rep.blockMarkAsFree hsize
  have hrep2 := hrep1.forget true (fun _ => rfl) 0
  have hloose : Loose m₀ { t with mem := m1 } pre { b with free := true, linked := true, data := [] }
      { n with prevFree := true } post := by
    refine ⟨hrep2, hbefore, hbehind, ?_, hsize, rfl, rfl, hsettled.listed.trans hfree, rfl, hbprev, rfl⟩
    have hn : n.Settled := h.settled n (by simp)
    rintro c (hc | rfl | hc)
    · exact h.settled c (List.mem_append_left _ hc)
    · exact ⟨hn.listed, hn.linked, hn.data⟩
    · exact h.settled c (by simp [hc])
  obtain ⟨pre', f1, t1, hprev, hloose1, hend, hlive1, hpools1, hz1⟩ := hloose.mergePrev
  obtain ⟨f2, n2, post2, t2, hnext, hloose2, haddr, -, hn2, hlive2, hpools2, hz2⟩ := hloose1.mergeNext
  obtain ⟨t3, hinsert, hrest, hz3⟩ := hloose2.insert hend hn2
  have hf2 : f2.ptr = f1.ptr := by rw [Blk.ptr, Blk.ptr, haddr]
  refine ⟨_, t3, ?_, hrest, ?_, ?_, ?_⟩
  · rw [Tlsf.tlsfFree, if_pos hne, hptr]
    simp only [Option.bind_eq_bind]
    rw [hassert, Option.bind_some, hmark, Option.bind_some,
      show blockMergePrev { t with mem := m1 } b.ptr = some (f1.ptr, t1) from hprev]
    simp only [Option.bind_some]
    rw [hnext]
    simp only [Option.bind_some]
    rw [← hf2]
    exact hinsert
  · have hf : live ({ f2 with listed := true } :: n2 :: post2) = live (n2 :: post2) := by
      apply live_cons_free
      exact hloose2.free
    rw [live_append, hlive1, hf, hlive2, live_cons, live_cons]
    rfl
  · calc
      pools (pre' ++ { f2 with listed := true } :: n2 :: post2) = pools (pre' ++ f2 :: n2 :: post2) := by
        apply pools_congr
        apply pools_same <;> rfl
      _ = pools (pre' ++ f1 :: { n with prevFree := true } :: post) := hpools2
      _ = pools (pre ++ { b with free := true, linked := true, data := [] } :: { n with prevFree := true } :: post) := hpools1
      _ = pools (pre ++ b :: n :: post) := by
        apply pools_congr
        apply pools_pair <;> rfl
  · rw [hz3, hz2, hz1]

/-! Cutting a used block to a size. -/

/-- A used block `b` whose data may be known only in part, between blocks at
    rest. -/
structure Held (m₀ : Mem) (t : Control) (pre : List Blk) (b n : Blk) (post : List Blk) : Prop where
  rep : Rep m₀ t (pre ++ b :: n :: post)
  before : Flags false pre
  behind : Flags n.free post
  settled : ∀ c, c ∈ pre ∨ c = n ∨ c ∈ post → c.Settled
  size : b.size ≠ 0
  used : b.free = false
  listed : b.listed = false
  prev : b.prevFree = endFree false pre
  next : n.prevFree = false

theorem Rest.held (h : Rest m₀ t (pre ++ b :: n :: post)) (hused : b.free = false) (hsize : b.size ≠ 0) :
    Held m₀ t pre b n post := by
  obtain ⟨hbefore, hbprev, -, hnprev, -, hbehind⟩ := (flags_append _ _ _).mp h.flags
  refine ⟨h.rep, hbefore, hbehind, ?_, hsize, hused, h.settled_at.listed.trans hused, hbprev, hnprev.trans hused⟩
  rintro c (hc | rfl | hc)
  · exact h.settled c (List.mem_append_left _ hc)
  · exact h.settled c (by simp)
  · exact h.settled c (by simp [hc])

theorem Held.assert_used (h : Held m₀ t pre b n post) : tlsfAssert (!blockIsFree t.mem b.ptr) = some () := by
  apply tlsfAssert_true
  rw [h.rep.holds_at.blockIsFree h.rep.fits_at, h.used]
  rfl

/-- The end of the block is cut off and freed. Of no bytes, nothing is left. -/
theorem Held.trim_split (h : Held m₀ t pre b n post) {size : Nat} (hwords : size % 8 = 0) (hleast : size = 0 ∨ 24 ≤ size)
    (hroom : size + 32 ≤ b.size) :
    ∃ t' d tl, blockTrimUsed t b.ptr (BitVec.ofNat 64 size) = some t' ∧ Rest m₀ t' (pre ++ b.claim size d :: tl) ∧
      d.length = size ∧ d.take b.data.length = b.data.take size ∧ live tl = live (n :: post) ∧
      (size ≠ 0 → pools (pre ++ b.claim size d :: tl) = pools (pre ++ b :: n :: post)) ∧ t'.blockNull = t.blockNull := by
  have hblt := h.rep.phys.size_lt
  have hcan := h.rep.blockCanSplit size (by omega)
  have hnsettled : n.Settled := h.settled n (by simp)
  obtain ⟨m1, g, hsplit, hrep1⟩ := h.rep.blockSplit hwords (hleast.imp_left fun hz => ⟨hz, h.used⟩) hroom h.listed
  obtain ⟨d, hd, hfront, hrep2⟩ := hrep1.claim h.used h.listed
  rw [List.append_cons] at hrep2
  have hrep3 := hrep2.blockSetPrevUsed
  generalize hclaim : Blk.claim { b with size := size, linked := false, data := b.data.take size } size d = u at hrep3
  have hu : u = b.claim size d := hclaim.symm
  have hloose : Loose m₀ { t with mem := blockSetPrevUsed m1 (BitVec.ofNat 64 (b.addr + 8 + size)) } (pre ++ [u])
      { b.rest size true false with linked := true } { n with prevFree := true } post := by
    refine ⟨hrep3, ?_, h.behind, ?_, ?_, rfl, rfl, rfl, rfl, ?_, rfl⟩
    · refine (flags_append _ _ _).mpr ⟨h.before, ?_, ?_, trivial⟩
      · rw [hu]
        exact h.prev
      · intro _
        rw [hu]
        rfl
    · rintro c (hc | rfl | hc)
      · rcases List.mem_append.mp hc with hc | hc
        · exact h.settled c (.inl hc)
        · rw [List.mem_singleton.mp hc, hu]
          exact ⟨rfl, rfl, fun _ => hd⟩
      · exact ⟨hnsettled.listed, hnsettled.linked, hnsettled.data⟩
      · exact h.settled c (.inr (.inr hc))
    · show b.size - (size + 8) ≠ 0
      omega
    · rw [endFree_snoc, hu]
      rfl
  obtain ⟨f, n', post', t2, hmerge, hloose2, haddr, -, hn', hlive, hpools, hz2⟩ := hloose.mergeNext
  obtain ⟨t3, hinsert, hrest, hz3⟩ := hloose2.insert (by rw [endFree_snoc, hu]; rfl) hn'
  rw [← List.append_cons, hu] at hrest
  refine ⟨t3, d, _, ?_, hrest, hd, ?_, ?_, ?_, hz3.trans hz2⟩
  · rw [blockTrimUsed, h.assert_used, hcan, decide_eq_true hroom, if_pos rfl]
    simp only [Option.bind_eq_bind, Option.bind_some]
    rw [hsplit]
    simp only [Option.bind_some]
    rw [show blockMergeNext { t with mem := blockSetPrevUsed m1 (BitVec.ofNat 64 (b.addr + 8 + size)) }
      (BitVec.ofNat 64 (b.addr + 8 + size)) = some (BitVec.ofNat 64 (b.addr + 8 + size), t2) from hmerge]
    simp only [Option.bind_some]
    rw [show BitVec.ofNat 64 (b.addr + 8 + size) = f.ptr by rw [Blk.ptr, haddr]; rfl]
    exact hinsert
  · -- of a longer prefix the first `size` bytes are left
    have hfront : d.take (b.data.take size).length = b.data.take size := hfront
    rw [List.length_take] at hfront
    rw [← hfront]
    have hd' : d.length = size := hd
    rcases Nat.le_total size b.data.length with hcase | hcase
    · rw [Nat.min_eq_left hcase, List.take_of_length_le (by omega), List.take_of_length_le (by omega)]
    · rw [Nat.min_eq_right hcase]
  · have hf : live ({ f with listed := true } :: n' :: post') = live (n' :: post') := by
      apply live_cons_free
      exact hloose2.free
    rw [hf, hlive, live_cons, live_cons]
    rfl
  · intro hsize
    have hfirst : pools (pre ++ b.claim size d :: { f with listed := true } :: n' :: post') =
        pools ((pre ++ [u]) ++ f :: n' :: post') := by
      rw [← List.append_cons, hu]
      apply pools_congr
      apply pools_cons_congr
      apply pools_same <;> rfl
    rw [hfirst, hpools, ← List.append_cons, hu]
    apply pools_congr
    refine pools_cut (d := b.claim size d) (c := { b.rest size true false with linked := true }) hsize ?_ ?_ ?_ ?_ ?_ _
    · show b.size - (size + 8) ≠ 0
      omega
    · rfl
    · rfl
    · exact ⟨rfl, rfl⟩
    · show b.size = size + (b.size - (size + 8) + 8)
      omega

theorem Held.trim (h : Held m₀ t pre b n post) {size : Nat} (hwords : size % 8 = 0) (hleast : 24 ≤ size)
    (hle : size ≤ b.size) :
    ∃ t' k d tl, blockTrimUsed t b.ptr (BitVec.ofNat 64 size) = some t' ∧ Rest m₀ t' (pre ++ b.claim k d :: tl) ∧
      size ≤ k ∧ d.length = k ∧ d.take b.data.length = b.data.take k ∧ live tl = live (n :: post) ∧
      pools (pre ++ b.claim k d :: tl) = pools (pre ++ b :: n :: post) ∧ t'.blockNull = t.blockNull := by
  have hblt := h.rep.phys.size_lt
  have hknown := h.rep.fits_at.known
  by_cases hroom : size + 32 ≤ b.size
  · obtain ⟨t', d, tl, hrun, hrest, hd, hfront, hlive, hpools, hz⟩ := h.trim_split hwords (.inr hleast) hroom
    exact ⟨t', size, d, tl, hrun, hrest, Nat.le_refl _, hd, hfront, hlive, hpools (by omega), hz⟩
  · have hcan := h.rep.blockCanSplit size (by omega)
    obtain ⟨d, hd, hfront, hrep⟩ := h.rep.claim h.used h.listed
    refine ⟨t, b.size, d, n :: post, ?_, ⟨hrep, ?_, ?_⟩, hle, hd, ?_, rfl, ?_, rfl⟩
    · rw [blockTrimUsed, h.assert_used, hcan, decide_eq_false hroom]
      rfl
    · refine (flags_append _ _ _).mpr ⟨h.before, h.prev, fun _ => rfl, h.next, ?_, h.behind⟩
      intro hfalse
      cases hfalse
    · intro c hc
      simp only [List.mem_append, List.mem_cons] at hc
      rcases hc with hc | rfl | hc
      · exact h.settled c (.inl hc)
      · exact ⟨rfl, rfl, fun _ => hd⟩
      · exact h.settled c (.inr hc)
    · rw [hfront, List.take_of_length_le hknown]
    · apply pools_congr
      apply pools_same <;> rfl

end

end Qnixx.Tlsf
