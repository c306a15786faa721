import Qnixx.Lib.Runs
import Qnixx.TlsfCheck
import Qnixx.TlsfPools

/- Runs of the heap with its clients. A client asks for blocks, resizes and frees
   them, and writes into the ones it has; `Legal` says what the allocator expects
   of it. Beside the control structure a state has the books: the blocks the
   clients have, with what they wrote there. `Good` ties the two together and is
   kept by every legal step; `Does` is what a step is for, in terms of the books
   alone. -/
namespace Qnixx.Tlsf
open ByteMem Tiling

/-! Gaps. -/

/-- A stretch of a pool that no block of the clients reaches into, with its
    header. -/
structure Gap (ps : List (Nat × Nat)) (vs : List Live) (lo hi : Nat) : Prop where
  inside : ∃ q ∈ ps, q.1 ≤ lo ∧ hi + 8 ≤ q.2
  apart : ∀ v ∈ vs, hi + 8 ≤ v.ptr ∨ v.ptr + v.size ≤ lo

/-- No gap has the size, rounded up to its class, and a header. -/
def NoRoom (ps : List (Nat × Nat)) (vs : List Live) (size : Nat) : Prop :=
  ∀ lo hi, Gap ps vs lo hi → hi < lo + (classMin (searchClass size) + 8)

section
variable {m₀ : Mem} {t : Control} {bs pre post : List Blk} {b c : Blk} {vs : List Live} {ps : List (Nat × Nat)}

/-- A free block is a gap. -/
theorem Rest.gap_of_free (h : Rest m₀ t bs) (hb : b ∈ bs) (hfree : b.free = true) :
    Gap (pools bs) (live bs) (b.addr + 8) (b.addr + 16 + b.size) := by
  have hfits := h.rep.phys.fits b hb
  have hsize : b.size ≠ 0 := by
    intro hzero
    rw [(hfits.last hzero).1] at hfree
    cases hfree
  refine ⟨?_, ?_⟩
  · obtain ⟨a, z, l, harea, hstart, hl, hlast, rfl, hopen, -⟩ := h.rep.phys.tiled.inside (List.mem_map_of_mem hb)
    have hstop := hopen (piece_last hsize)
    obtain ⟨e, he, rfl⟩ := List.mem_map.mp hl
    have hzero : e.size = 0 := beq_iff_eq.mp hlast
    refine ⟨_, harea, hstart, ?_⟩
    simp only [Blk.piece] at hstop ⊢
    omega
  · intro v hv
    obtain ⟨c, hc, hcused, -, rfl⟩ := mem_live.mp hv
    obtain ⟨pre, post, rfl⟩ := List.append_of_mem hb
    have hother : c ∈ pre ++ post := by
      simp only [List.mem_append, List.mem_cons] at hc ⊢
      rcases hc with hc | rfl | hc
      · exact .inl hc
      · rw [hfree] at hcused
        cases hcused
      · exact .inr hc
    have hapart := h.rep.phys.apart hother
    simp only [Piece.Apart, Blk.piece] at hapart
    simp only [Blk.live]
    omega

/-- A gap is inside of one free block: neighbours are merged. -/
theorem Rest.free_of_gap (h : Rest m₀ t bs) {lo hi : Nat} (hgap : Gap (pools bs) (live bs) lo hi) (hlt : lo < hi) :
    ∃ b ∈ bs, b.free = true ∧ b.addr + 8 ≤ lo ∧ hi ≤ b.addr + 16 + b.size := by
  obtain ⟨⟨q, hq, hqlo, hqhi⟩, hapart⟩ := hgap
  obtain ⟨pre, b, post, rfl, hhas, hlast, hnext⟩ := h.rep.phys.tiled.find (x := lo) hq hqlo (by omega)
  have hfits := h.rep.fits_at
  simp only [Piece.Has, Blk.piece] at hhas hlast hnext
  -- it is not the block at the end of the pool
  have hsize : b.size ≠ 0 := by
    intro hzero
    have := hlast (beq_iff_eq.mpr hzero)
    omega
  obtain ⟨n, rest, rfl, hnlast⟩ := hnext (beq_eq_false_iff_ne.mpr hsize)
  have haddr := h.rep.phys.next_addr hsize
  rw [Blk.stop] at haddr
  have hfree : b.free = true := by
    by_contra hused
    rw [Bool.not_eq_true] at hused
    have := hapart b.live (mem_live.mpr ⟨b, by simp, hused, hsize, rfl⟩)
    simp only [Blk.live] at this
    omega
  refine ⟨b, by simp, hfree, hhas.1, ?_⟩
  obtain ⟨-, -, -, hnused⟩ := h.flags.at_free hfree
  apply Nat.le_of_not_lt
  intro hover
  by_cases hnsize : n.size = 0
  · have := hnlast (beq_iff_eq.mpr hnsize)
    omega
  · have := hapart n.live (mem_live.mpr ⟨n, by simp, hnused, hnsize, rfl⟩)
    simp only [Blk.live] at this
    omega

theorem Rest.noFit_iff (h : Rest m₀ t bs) (size : Nat) : NoFit bs size ↔ NoRoom (pools bs) (live bs) size := by
  refine ⟨?_, ?_⟩
  · intro hno lo hi hgap
    by_cases hlt : lo < hi
    · obtain ⟨b, hb, hfree, hlo, hhi⟩ := h.free_of_gap hgap hlt
      have := hno b hb hfree
      omega
    · omega
  · intro hno b hb hfree
    have := hno _ _ (h.gap_of_free hb hfree)
    omega

/-! The blocks of the clients. -/

/-- What holds of the blocks that clients have. -/
structure Sound (ps : List (Nat × Nat)) (vs : List Live) : Prop where
  apart : vs.Pairwise (fun v w => v.ptr + v.size + 8 ≤ w.ptr ∨ w.ptr + w.size + 8 ≤ v.ptr)
  aligned : ∀ v ∈ vs, v.ptr % 8 = 0
  inside : ∀ v ∈ vs, ∃ q ∈ ps, q.1 + 8 ≤ v.ptr ∧ v.ptr + v.size + 8 ≤ q.2
  high : ∀ v ∈ vs, v.ptr + v.size + 8 ≤ 2^64
  data : ∀ v ∈ vs, v.data.length = v.size
  least : ∀ v ∈ vs, 24 ≤ v.size

theorem Sound.perm {ws : List Live} (h : Sound ps vs) (hperm : vs.Perm ws) : Sound ps ws := by
  have hmem : ∀ {w}, w ∈ ws → w ∈ vs := fun hw => hperm.mem_iff.mpr hw
  exact ⟨(hperm.pairwise_iff (fun h => Or.symm h)).mp h.apart, fun w hw => h.aligned w (hmem hw),
    fun w hw => h.inside w (hmem hw), fun w hw => h.high w (hmem hw), fun w hw => h.data w (hmem hw),
    fun w hw => h.least w (hmem hw)⟩

theorem Rest.sound (h : Rest m₀ t bs) : Sound (pools bs) (live bs) := by
  have hinside : ∀ v ∈ live bs, ∃ q ∈ pools bs, q.1 + 8 ≤ v.ptr ∧ v.ptr + v.size + 8 ≤ q.2 := by
    intro v hv
    obtain ⟨b, hb, -, hsize, rfl⟩ := mem_live.mp hv
    obtain ⟨a, z, l, harea, hstart, hl, hlast, rfl, hopen, -⟩ := h.rep.phys.tiled.inside (List.mem_map_of_mem hb)
    have hstop := hopen (piece_last hsize)
    obtain ⟨e, he, rfl⟩ := List.mem_map.mp hl
    have hzero : e.size = 0 := beq_iff_eq.mp hlast
    refine ⟨_, harea, ?_⟩
    simp only [Blk.piece] at hstart hstop
    simp only [Blk.live, Blk.piece]
    omega
  refine ⟨?_, ?_, hinside, ?_, ?_, ?_⟩
  · have hpair := List.pairwise_map.mp h.rep.phys.tiled.apart
    refine List.pairwise_map.mpr ((hpair.filter _).imp_of_mem ?_)
    intro b c hb hc hapart
    simp only [Piece.Apart, Blk.piece] at hapart
    simp only [Blk.live]
    omega
  · intro v hv
    obtain ⟨b, hb, -, -, rfl⟩ := mem_live.mp hv
    have := (h.rep.phys.fits b hb).aligned
    simp only [Blk.live]
    omega
  · intro v hv
    obtain ⟨b, hb, -, hsize, rfl⟩ := mem_live.mp hv
    obtain ⟨pre, post, rfl⟩ := List.append_of_mem hb
    obtain ⟨n, rest, rfl⟩ := h.rep.phys.exists_next hsize
    have hnhigh := (h.rep.phys.fits n (by simp)).high
    have haddr := h.rep.phys.next_addr hsize
    rw [Blk.stop] at haddr
    simp only [Blk.live]
    omega
  · intro v hv
    obtain ⟨b, hb, hused, -, rfl⟩ := mem_live.mp hv
    exact (h.settled b hb).data hused
  · intro v hv
    obtain ⟨b, hb, -, hsize, rfl⟩ := mem_live.mp hv
    exact (h.rep.phys.fits b hb).least_of_ne hsize

end

/-! The system. -/

inductive Op where
  | malloc (size : BitVec 64)
  | memalign (align size : BitVec 64)
  | realloc (ptr size : BitVec 64)
  | free (ptr : BitVec 64)
  | write (a : BitVec 64) (v : Byte)

/-- The code: what a client gets back, and the heap. -/
def act (t : Control) : Op → Option (BitVec 64 × Control)
  | .malloc size => tlsfMalloc t size
  | .memalign align size => tlsfMemalign t align size
  | .realloc ptr size => tlsfRealloc t ptr size
  | .free ptr => (tlsfFree t ptr).map (fun t => (0, t))
  | .write a v => some (0, { t with mem := store8 t.mem a v })

/-- The heap, and what the clients have. -/
structure Sys where
  heap : Control
  held : List Live

/-- A new block, as the client finds it. -/
def given (t : Control) (p : BitVec 64) : List Live :=
  if p = 0 then [] else
    [⟨p.toNat, (tlsfBlockSize t.mem p).toNat, loadBytes t.mem p (tlsfBlockSize t.mem p).toNat⟩]

def without (vs : List Live) (p : BitVec 64) : List Live := vs.filter (fun v => v.ptr != p.toNat)

def touch (a : BitVec 64) (x : Byte) (v : Live) : Live :=
  if v.ptr ≤ a.toNat ∧ a.toNat < v.ptr + v.size then { v with data := v.data.set (a.toNat - v.ptr) x } else v

def books (vs : List Live) (o : Op) (r : BitVec 64 × Control) : List Live :=
  match o with
  | .malloc _ => given r.2 r.1 ++ vs
  | .memalign _ _ => given r.2 r.1 ++ vs
  | .realloc ptr size => if r.1 = 0 ∧ size ≠ 0 then vs else given r.2 r.1 ++ without vs ptr
  | .free ptr => without vs ptr
  | .write a x => vs.map (touch a x)

def step (s : Sys) (o : Op) : Option Sys := (act s.heap o).map (fun r => ⟨r.2, books s.held o r⟩)

/-- `ptr` is a block that some client has. -/
def Has (vs : List Live) (ptr : BitVec 64) : Prop := ∃ v ∈ vs, v.ptr = ptr.toNat

/-- What the allocator expects: alignments are powers of two, only blocks that are
    held are freed or resized, and to a size there can be a block of; and clients
    write only into their blocks. -/
def Legal (s : Sys) : Op → Prop
  | .malloc _ => True
  | .memalign align _ => ∃ k < 63, align = BitVec.ofNat 64 (2^k)
  | .realloc ptr size => ptr = 0 ∨ Has s.held ptr ∧ (size = 0 ∨ request size.toNat ≠ 0)
  | .free ptr => ptr = 0 ∨ Has s.held ptr
  | .write a _ => ∃ v ∈ s.held, v.ptr ≤ a.toNat ∧ a.toNat < v.ptr + v.size

instance (vs : List Live) (ptr : BitVec 64) : Decidable (Has vs ptr) :=
  inferInstanceAs (Decidable (∃ v ∈ vs, v.ptr = ptr.toNat))

instance (s : Sys) : (o : Op) → Decidable (Legal s o)
  | .malloc _ => isTrue trivial
  | .memalign align _ => inferInstanceAs (Decidable (∃ k < 63, align = BitVec.ofNat 64 (2^k)))
  | .realloc _ _ => inferInstanceAs (Decidable (_ ∨ _ ∧ (_ ∨ _)))
  | .free _ => inferInstanceAs (Decidable (_ ∨ _))
  | .write a _ => inferInstanceAs (Decidable (∃ v ∈ s.held, v.ptr ≤ a.toNat ∧ a.toNat < v.ptr + v.size))

/-- The heap is at rest, and the books are right. -/
def Good (m₀ : Mem) (z : BitVec 64) (ps : List (Nat × Nat)) (s : Sys) : Prop :=
  ∃ bs, Rest m₀ s.heap bs ∧ pools bs = ps ∧ (live bs).Perm s.held ∧ s.heap.blockNull = z

/-! What a step is for. -/

/-- A new block of a size. -/
def Granted (vs vs' : List Live) (size : Nat) (p : BitVec 64) : Prop :=
  ∃ u : Live, p = BitVec.ofNat 64 u.ptr ∧ p ≠ 0 ∧ size ≤ u.size ∧ u.size < size + 32 ∧ vs' = u :: vs

/-- A request is met exactly if there is room for what is searched for. -/
structure Allocates (ps : List (Nat × Nat)) (vs vs' : List Live) (size searched : Nat) (p : BitVec 64) : Prop where
  refused : size = 0 ∨ 2^32 ≤ searched ∨ NoRoom ps vs searched → p = 0 ∧ vs' = vs
  met : size ≠ 0 → searched < 2^32 → ¬ NoRoom ps vs searched → Granted vs vs' size p

/-- A block becomes another one, with its data as far as both sizes go. -/
def Moves (vs vs' : List Live) (ptr : BitVec 64) (size : Nat) (p : BitVec 64) : Prop :=
  ∃ v w rest, v.ptr = ptr.toNat ∧ vs.Perm (v :: rest) ∧ vs'.Perm (w :: rest) ∧ p = BitVec.ofNat 64 w.ptr ∧ p ≠ 0 ∧
    size ≤ w.size ∧ w.data.take v.size = v.data.take w.size

def Does (ps : List (Nat × Nat)) (vs vs' : List Live) (p : BitVec 64) : Op → Prop
  | .malloc size => Allocates ps vs vs' (request size.toNat) (request size.toNat) p
  | .memalign align size => ∃ k < 63, align = BitVec.ofNat 64 (2^k) ∧ p.toNat % 2^k = 0 ∧
      Allocates ps vs vs' (request size.toNat) (alignedRequest k size.toNat) p
  | .realloc ptr size =>
    (ptr = 0 ∧ Allocates ps vs vs' (request size.toNat) (request size.toNat) p) ∨
    (ptr ≠ 0 ∧ size = 0 ∧ p = 0 ∧ ∃ v, v.ptr = ptr.toNat ∧ vs.Perm (v :: vs')) ∨
    (ptr ≠ 0 ∧ size ≠ 0 ∧ p = 0 ∧ vs' = vs ∧ NoRoom ps vs (request size.toNat) ∧
      ∃ v ∈ vs, v.ptr = ptr.toNat ∧ v.size < request size.toNat) ∨
    (ptr ≠ 0 ∧ size ≠ 0 ∧ Moves vs vs' ptr (request size.toNat) p)
  | .free ptr => (ptr = 0 ∧ vs' = vs) ∨ ∃ v, v.ptr = ptr.toNat ∧ vs.Perm (v :: vs')
  | .write a x => ∃ v rest, v.ptr ≤ a.toNat ∧ a.toNat < v.ptr + v.size ∧ vs.Perm (v :: rest) ∧
      vs'.Perm ({ v with data := v.data.set (a.toNat - v.ptr) x } :: rest)

section
variable {m₀ : Mem} {t : Control} {bs pre post : List Blk} {b u : Blk} {vs : List Live} {ps : List (Nat × Nat)}
  {z : BitVec 64} {s : Sys}

/-! The books. -/

theorem Rest.blockSize_live (h : Rest m₀ t bs) (hu : u ∈ bs) (hsize : u.size ≠ 0) :
    (tlsfBlockSize t.mem (BitVec.ofNat 64 (u.addr + 16))).toNat = u.size := by
  have hfits := h.rep.phys.fits u hu
  have hhigh := hfits.high
  have hblt := h.rep.phys.size_lt_of_mem hu
  rw [tlsfBlockSize, if_pos (ofNat_ne_zero (by omega) (by omega)), blockFromPtr_live,
    (h.rep.phys.holds u hu).blockSize hfits, BitVec.toNat_ofNat, Nat.mod_eq_of_lt (by omega)]

theorem Rest.given_eq (h : Rest m₀ t bs) (hu : u ∈ bs) (hused : u.free = false) (hsize : u.size ≠ 0) :
    given t (BitVec.ofNat 64 (u.addr + 16)) = [u.live] := by
  have hfits := h.rep.phys.fits u hu
  have hhigh := hfits.high
  have hlen := (h.settled u hu).data hused
  have hdata := (h.rep.phys.holds u hu).data.loadBytes (n := u.size) (by omega)
  rw [List.take_of_length_le (by omega)] at hdata
  rw [given, if_neg (ofNat_ne_zero (by omega) (by omega)), h.blockSize_live hu hsize, hdata, BitVec.toNat_ofNat,
    Nat.mod_eq_of_lt (by omega)]
  rfl

theorem Sound.without_perm (h : Sound ps vs) {v : Live} {rest : List Live} (hperm : vs.Perm (v :: rest)) {p : BitVec 64}
    (hp : v.ptr = p.toNat) : (without vs p).Perm rest := by
  have hsound := h.perm hperm
  have hfilter := hperm.filter (fun v => v.ptr != p.toNat)
  rw [List.filter_cons, hp, if_neg (by simp)] at hfilter
  have hall : rest.filter (fun v => v.ptr != p.toNat) = rest := by
    apply List.filter_eq_self.mpr
    intro w hw
    have hapart := (List.pairwise_cons.mp hsound.apart).1 w hw
    rw [bne_iff_ne]
    omega
  rw [hall] at hfilter
  exact hfilter

theorem Sound.ptr_pos (h : Sound ps vs) {v : Live} (hv : v ∈ vs) : 0 < v.ptr := by
  obtain ⟨q, -, hlo, -⟩ := h.inside v hv
  omega

theorem Sound.without_null (h : Sound ps vs) : without vs 0 = vs := by
  apply List.filter_eq_self.mpr
  intro v hv
  have := h.ptr_pos hv
  rw [bne_iff_ne]
  show v.ptr ≠ 0
  omega

/-- A byte is written into a live block. -/
theorem Rest.write_byte (h : Rest m₀ t (pre ++ b :: post)) (hused : b.free = false) {a : BitVec 64} (x : Byte)
    (hlo : b.addr + 16 ≤ a.toNat) (hhi : a.toNat < b.addr + 16 + b.size) :
    Rest m₀ { t with mem := store8 t.mem a x } (pre ++ { b with data := b.data.set (a.toNat - (b.addr + 16)) x } :: post) := by
  have hrest := h.write hused (m := store8 t.mem a x) (by
    intro y hy
    rw [store8, if_neg]
    rintro rfl
    exact hy ⟨hlo, hhi⟩)
  have hlen := h.settled_at.data hused
  have hhigh := h.rep.fits_at.high
  have hdata : loadBytes (store8 t.mem a x) (BitVec.ofNat 64 (b.addr + 16)) b.size =
      b.data.set (a.toNat - (b.addr + 16)) x := by
    have hold := h.rep.holds_at.data.loadBytes (n := b.size) (by omega)
    rw [List.take_of_length_le (by omega)] at hold
    rw [← hold, loadBytes, loadBytes]
    apply List.ext_getElem
    · simp
    · intro i hi _
      rw [List.length_map, List.length_range] at hi
      have haddr : (BitVec.ofNat 64 (b.addr + 16) + BitVec.ofNat 64 i).toNat = b.addr + 16 + i :=
        toNat_ofNat_add (by omega)
      rw [List.getElem_map, List.getElem_range, List.getElem_set, List.getElem_map, List.getElem_range, store8]
      by_cases hi' : a.toNat - (b.addr + 16) = i
      · rw [if_pos hi', if_pos]
        apply BitVec.eq_of_toNat_eq
        omega
      · rw [if_neg hi', if_neg]
        intro heq
        rw [heq] at haddr
        omega
  rw [hdata] at hrest
  exact hrest

/-- The other blocks are not touched. -/
theorem touch_other {a : BitVec 64} {x : Byte} {v w : Live} (hlo : v.ptr ≤ a.toNat) (hhi : a.toNat < v.ptr + v.size)
    (hapart : v.ptr + v.size + 8 ≤ w.ptr ∨ w.ptr + w.size + 8 ≤ v.ptr) : touch a x w = w := by
  rw [touch, if_neg]
  omega

theorem noRoom_congr {ws : List Live} (h : vs.Perm ws) (size : Nat) : NoRoom ps vs size ↔ NoRoom ps ws size := by
  have hgap : ∀ {vs ws : List Live}, vs.Perm ws → NoRoom ps vs size → NoRoom ps ws size := by
    intro vs ws hperm hno lo hi hgap
    exact hno lo hi ⟨hgap.inside, fun v hv => hgap.apart v (hperm.mem_iff.mp hv)⟩
  exact ⟨hgap h, hgap h.symm⟩

/-! The steps. -/

/-- A step that the code makes, from good to good, and that does what it is for. -/
def Steps (m₀ : Mem) (z : BitVec 64) (ps : List (Nat × Nat)) (s : Sys) (o : Op) : Prop :=
  ∃ r, act s.heap o = some r ∧ Good m₀ z ps ⟨r.2, books s.held o r⟩ ∧ Does ps s.held (books s.held o r) r.1 o

/-- What `tlsf_malloc` and `tlsf_memalign` return, and the books. -/
theorem Rest.allocates (h : Rest m₀ t bs) (hperm : (live bs).Perm vs) {run : Option (BitVec 64 × Control)} {size k : Nat}
    (hrun : (run = some (0, t) ∧ (size = 0 ∨ 2^32 ≤ k ∨ NoFit bs k)) ∨
      ∃ bs' t' u, size ≠ 0 ∧ k < 2^32 ∧ ¬ NoFit bs k ∧ Served bs size bs' u ∧
        run = some (BitVec.ofNat 64 (u.addr + 16), t') ∧ Rest m₀ t' bs' ∧ t'.blockNull = t.blockNull) :
    ∃ r, run = some r ∧ Good m₀ t.blockNull (pools bs) ⟨r.2, given r.2 r.1 ++ vs⟩ ∧
      Allocates (pools bs) vs (given r.2 r.1 ++ vs) size k r.1 := by
  have hroom : NoFit bs k ↔ NoRoom (pools bs) vs k := (h.noFit_iff k).trans (noRoom_congr hperm k)
  rcases hrun with ⟨hnull, hwhy⟩ | ⟨bs', t', u, hne, hk, hfit, hserved, hrun, hrest, hz⟩
  · refine ⟨(0, t), hnull, ⟨bs, h, rfl, hperm, rfl⟩, fun _ => ⟨rfl, rfl⟩, ?_⟩
    intro hne hk hroom'
    rcases hwhy with hzero | hbig | hfit
    · exact absurd hzero hne
    · omega
    · exact absurd (hroom.mp hfit) hroom'
  · have hlarge := hserved.large
    have hhigh := (hrest.rep.phys.fits u hserved.mem).high
    have hgiven := hrest.given_eq hserved.mem hserved.used (by omega)
    refine ⟨_, hrun, ⟨bs', hrest, hserved.pools, ?_, hz⟩, ?_, ?_⟩
    · dsimp only
      rw [hgiven]
      exact hserved.live.trans (List.Perm.cons _ hperm)
    · rintro (hzero | hbig | hroom')
      · exact absurd hzero hne
      · omega
      · exact absurd (hroom.mpr hroom') hfit
    · intro _ _ _
      dsimp only
      rw [hgiven]
      exact ⟨u.live, rfl, ofNat_ne_zero (by omega) (by omega), hserved.large, hserved.close, rfl⟩

theorem Good.sound (h : Good m₀ z ps s) : Sound ps s.held := by
  obtain ⟨bs, hrest, rfl, hperm, -⟩ := h
  exact hrest.sound.perm hperm

theorem Rest.malloc_cases (h : Rest m₀ t bs) (size : BitVec 64) :
    (Tlsf.tlsfMalloc t size = some (0, t) ∧
      (request size.toNat = 0 ∨ 2^32 ≤ request size.toNat ∨ NoFit bs (request size.toNat))) ∨
    ∃ bs' t' u, request size.toNat ≠ 0 ∧ request size.toNat < 2^32 ∧ ¬ NoFit bs (request size.toNat) ∧
      Served bs (request size.toNat) bs' u ∧
      Tlsf.tlsfMalloc t size = some (BitVec.ofNat 64 (u.addr + 16), t') ∧ Rest m₀ t' bs' ∧ t'.blockNull = t.blockNull := by
  have hcases := request_cases size.toNat
  rcases h.tlsfMalloc size with ⟨hnull, hwhy⟩ | ⟨bs', t', u, hne, hfit, hserved, -, hrun, hrest, hz⟩
  · exact .inl ⟨hnull, hwhy.imp_right .inr⟩
  · exact .inr ⟨bs', t', u, hne, by omega, hfit, hserved, hrun, hrest, hz⟩

theorem Good.malloc (h : Good m₀ z ps s) (size : BitVec 64) : Steps m₀ z ps s (.malloc size) := by
  obtain ⟨bs, hrest, rfl, hperm, rfl⟩ := h
  exact hrest.allocates hperm (hrest.malloc_cases size)

theorem Good.memalign (h : Good m₀ z ps s) {k : Nat} (hk : k < 63) (size : BitVec 64) :
    Steps m₀ z ps s (.memalign (BitVec.ofNat 64 (2^k)) size) := by
  obtain ⟨bs, hrest, rfl, hperm, rfl⟩ := h
  have hcases := hrest.tlsfMemalign hk size
  have haligned : ∀ r, tlsfMemalign s.heap (BitVec.ofNat 64 (2^k)) size = some r → r.1.toNat % 2^k = 0 := by
    intro r hr
    rcases hcases with ⟨hnull, -⟩ | ⟨bs', t', u, hne, -, -, hserved, halign, hrun, hrest', -⟩
    · rw [hnull] at hr
      cases hr
      exact Nat.zero_mod _
    · rw [hrun] at hr
      cases hr
      have hhigh := (hrest'.rep.phys.fits u hserved.mem).high
      have hlarge := hserved.large
      dsimp only
      rw [BitVec.toNat_ofNat, Nat.mod_eq_of_lt (show u.addr + 16 < 2^64 by omega)]
      exact halign
  obtain ⟨r, hrun, hgood, hdoes⟩ := hrest.allocates hperm (hcases.imp_right
    fun ⟨bs', t', u, hne, hk, hfit, hserved, _, hrun, hrest, hz⟩ => ⟨bs', t', u, hne, hk, hfit, hserved, hrun, hrest, hz⟩)
  exact ⟨r, hrun, hgood, k, hk, rfl, haligned r hrun, hdoes⟩

/-- The block a client names. -/
theorem exists_live_of_has (hperm : (live bs).Perm vs) {ptr : BitVec 64} (hptr : Has vs ptr) :
    ∃ v ∈ live bs, v.ptr = ptr.toNat ∧ BitVec.ofNat 64 v.ptr = ptr := by
  obtain ⟨v, hv, heq⟩ := hptr
  refine ⟨v, hperm.mem_iff.mpr hv, heq, ?_⟩
  rw [heq, BitVec.ofNat_toNat, BitVec.setWidth_eq]

theorem Rest.frees (h : Rest m₀ t bs) (hperm : (live bs).Perm vs) {ptr : BitVec 64} (hptr : Has vs ptr) :
    ∃ t', Tlsf.tlsfFree t ptr = some t' ∧ Good m₀ t.blockNull (pools bs) ⟨t', without vs ptr⟩ ∧
      ∃ v, v.ptr = ptr.toNat ∧ vs.Perm (v :: without vs ptr) := by
  have hsound := h.sound.perm hperm
  obtain ⟨v, hv, heq, hof⟩ := exists_live_of_has hperm hptr
  obtain ⟨bs', t', hrun, hrest, hlive, hpools, hz⟩ := h.free_live hv
  have hvs : vs.Perm (v :: live bs') := hperm.symm.trans hlive
  have hwithout := hsound.without_perm hvs heq
  rw [hof] at hrun
  exact ⟨t', hrun, ⟨bs', hrest, hpools, hwithout.symm, hz⟩, v, heq, hvs.trans (List.Perm.cons _ hwithout.symm)⟩

theorem Good.free (h : Good m₀ z ps s) {ptr : BitVec 64} (hptr : ptr = 0 ∨ Has s.held ptr) :
    Steps m₀ z ps s (.free ptr) := by
  have hsound := h.sound
  by_cases hzero : ptr = 0
  · subst hzero
    refine ⟨(0, s.heap), rfl, ?_, ?_⟩
    · rw [books, hsound.without_null]
      exact h
    · rw [books, hsound.without_null]
      exact .inl ⟨rfl, rfl⟩
  · obtain ⟨bs, hrest, rfl, hperm, rfl⟩ := h
    obtain ⟨t', hrun, hgood, hdoes⟩ := hrest.frees hperm (hptr.resolve_left hzero)
    refine ⟨(0, t'), ?_, hgood, .inr hdoes⟩
    rw [act, hrun]
    rfl

theorem Good.write (h : Good m₀ z ps s) {a : BitVec 64} (x : Byte)
    (ha : ∃ v ∈ s.held, v.ptr ≤ a.toNat ∧ a.toNat < v.ptr + v.size) : Steps m₀ z ps s (.write a x) := by
  have hsound := h.sound
  obtain ⟨bs, hrest, rfl, hperm, rfl⟩ := h
  obtain ⟨v, hv, hlo, hhi⟩ := ha
  obtain ⟨pre, b, n, post, rfl, hused, hsize, rfl, hsplit⟩ := hrest.split_live (hperm.mem_iff.mpr hv)
  have hvs := hperm.symm.trans hsplit
  have hwrite := hrest.write_byte hused x hlo hhi
  generalize hb' : ({ b with data := b.data.set (a.toNat - (b.addr + 16)) x } : Blk) = b' at hwrite
  have hb'live : b'.live = { b.live with data := b.live.data.set (a.toNat - b.live.ptr) x } := by
    rw [← hb']
    rfl
  have hlive : live (b' :: n :: post) = b'.live :: live (n :: post) := by
    apply live_cons_used
    · rw [← hb']
      exact hused
    · rw [← hb']
      exact hsize
  -- the books: only the entry of the block changes
  have htouch : (s.held.map (touch a x)).Perm (b'.live :: (live pre ++ live (n :: post))) := by
    refine (hvs.map _).trans ?_
    have hothers : (live pre ++ live (n :: post)).map (touch a x) = live pre ++ live (n :: post) := by
      refine (List.map_congr_left ?_).trans (List.map_id _)
      intro w hw
      exact touch_other hlo hhi ((List.pairwise_cons.mp (hsound.perm hvs).apart).1 w hw)
    rw [List.map_cons, hothers, touch, if_pos ⟨hlo, hhi⟩, hb'live]
  refine ⟨_, rfl, ⟨_, hwrite, ?_, ?_, rfl⟩, b.live, _, hlo, hhi, hvs, hb'live ▸ htouch⟩
  · apply pools_congr
    rw [← hb']
    apply pools_same <;> rfl
  · rw [live_append, hlive]
    exact List.perm_middle.trans htouch.symm

/-- A block that is in the books after a step. -/
theorem Rest.given_live (h : Rest m₀ t bs) {w : Live} (hw : w ∈ live bs) :
    given t (BitVec.ofNat 64 w.ptr) = [w] ∧ BitVec.ofNat 64 w.ptr ≠ 0 := by
  have hpos := h.sound.ptr_pos hw
  have hhigh := h.sound.high w hw
  obtain ⟨u, hu, hused, hsize, rfl⟩ := mem_live.mp hw
  exact ⟨h.given_eq hu hused hsize, ofNat_ne_zero hpos (by omega)⟩

theorem Good.realloc_null (h : Good m₀ z ps s) (size : BitVec 64) : Steps m₀ z ps s (.realloc 0 size) := by
  have hsound := h.sound
  obtain ⟨bs, hrest, rfl, hperm, rfl⟩ := h
  obtain ⟨r, hrun, hgood, hdoes⟩ := hrest.allocates hperm (hrest.malloc_cases size)
  have hbooks : books s.held (.realloc 0 size) r = given r.2 r.1 ++ s.held := by
    rw [books, hsound.without_null]
    split
    · next hnull =>
      rw [given, if_pos hnull.1]
      rfl
    · rfl
  refine ⟨r, ?_, ?_, ?_⟩
  · rw [act, Tlsf.tlsfRealloc, if_neg (fun hc => hc.1 rfl), if_pos rfl]
    exact hrun
  · rw [hbooks]
    exact hgood
  · rw [hbooks]
    exact .inl ⟨rfl, hdoes⟩

theorem Good.realloc_free (h : Good m₀ z ps s) {ptr : BitVec 64} (hne : ptr ≠ 0) (hptr : Has s.held ptr) :
    Steps m₀ z ps s (.realloc ptr 0) := by
  obtain ⟨bs, hrest, rfl, hperm, rfl⟩ := h
  obtain ⟨t', hrun, hgood, hdoes⟩ := hrest.frees hperm hptr
  have hbooks : books s.held (.realloc ptr 0) (0, t') = without s.held ptr := rfl
  refine ⟨(0, t'), ?_, ?_, ?_⟩
  · rw [act, Tlsf.tlsfRealloc, if_pos ⟨hne, rfl⟩, hrun]
    rfl
  · rw [hbooks]
    exact hgood
  · rw [hbooks]
    exact .inr (.inl ⟨hne, rfl, rfl, hdoes⟩)

theorem Good.realloc (h : Good m₀ z ps s) {ptr size : BitVec 64} (hne : ptr ≠ 0) (hptr : Has s.held ptr)
    (hreq : request size.toNat ≠ 0) : Steps m₀ z ps s (.realloc ptr size) := by
  have hsound := h.sound
  obtain ⟨bs, hrest, rfl, hperm, rfl⟩ := h
  have hsize : size ≠ 0 := by
    rintro rfl
    exact hreq rfl
  obtain ⟨v, hv, heq, hof⟩ := exists_live_of_has hperm hptr
  rcases hrest.tlsfRealloc hv hreq with ⟨hnull, hsmall, hfit⟩ | ⟨bs', t', w, hrun, hrest', hresized, hpools, hz⟩
  · rw [hof] at hnull
    have hbooks : books s.held (.realloc ptr size) (0, s.heap) = s.held := if_pos ⟨rfl, hsize⟩
    refine ⟨(0, s.heap), hnull, ?_, ?_⟩
    · rw [hbooks]
      exact ⟨bs, hrest, rfl, hperm, rfl⟩
    · rw [hbooks]
      exact .inr (.inr (.inl ⟨hne, hsize, rfl, rfl, (noRoom_congr hperm _).mp ((hrest.noFit_iff _).mp hfit), v,
        hperm.mem_iff.mp hv, heq, hsmall⟩))
  · rw [hof] at hrun
    obtain ⟨⟨rest, hold, hnew⟩, hlarge, hdata⟩ := hresized
    have hvs := hperm.symm.trans hold
    obtain ⟨hgiven, hpne⟩ := hrest'.given_live (hnew.mem_iff.mpr List.mem_cons_self)
    have hwithout := hsound.without_perm hvs heq
    have hbooks : books s.held (.realloc ptr size) (BitVec.ofNat 64 w.ptr, t') = w :: without s.held ptr := by
      rw [books, if_neg (fun hc => hpne hc.1), hgiven]
      rfl
    refine ⟨(BitVec.ofNat 64 w.ptr, t'), hrun, ?_, ?_⟩
    · rw [hbooks]
      exact ⟨bs', hrest', hpools, hnew.trans (List.Perm.cons _ hwithout.symm), hz⟩
    · rw [hbooks]
      exact .inr (.inr (.inr ⟨hne, hsize, v, w, rest, heq, hvs, List.Perm.cons _ hwithout, rfl, hpne, hlarge, hdata⟩))

/-- Every legal step. -/
theorem Good.steps (h : Good m₀ z ps s) {o : Op} (hlegal : Legal s o) : Steps m₀ z ps s o := by
  cases o with
  | malloc size => exact h.malloc size
  | memalign align size =>
    obtain ⟨k, hk, rfl⟩ := hlegal
    exact h.memalign hk size
  | realloc ptr size =>
    by_cases hzero : ptr = 0
    · subst hzero
      exact h.realloc_null size
    · obtain ⟨hptr, hsize⟩ := hlegal.resolve_left hzero
      rcases hsize with rfl | hreq
      · exact h.realloc_free hzero hptr
      · exact h.realloc hzero hptr hreq
  | free ptr => exact h.free hlegal
  | write a x => exact h.write x hlegal

theorem Good.step (h : Good m₀ z ps s) {o : Op} (hlegal : Legal s o) :
    ∃ s', Tlsf.step s o = some s' ∧ Good m₀ z ps s' := by
  obtain ⟨r, hrun, hgood, -⟩ := h.steps hlegal
  refine ⟨_, ?_, hgood⟩
  rw [Tlsf.step, hrun]
  rfl

/-- Legal runs do not stop: no assertion fails. -/
theorem Good.runs (h : Good m₀ z ps s) {os : List Op} (hlegal : Runs.Meets Tlsf.step Legal s os) :
    ∃ s', Runs.exec Tlsf.step s os = some s' ∧ Good m₀ z ps s' := by
  induction os generalizing s with
  | nil => exact ⟨s, rfl, h⟩
  | cons o os ih =>
    obtain ⟨u, hu, hgood⟩ := h.step hlegal.1
    obtain ⟨s', hrun, hgood'⟩ := ih hgood (hlegal.2 u hu)
    exact ⟨s', Runs.exec_cons.mpr ⟨u, hu, hrun⟩, hgood'⟩

end

end Qnixx.Tlsf
