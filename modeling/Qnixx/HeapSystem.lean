import Qnixx.TlsfRuns

/- The kernel's heap, from `tlsf_create_with_pool` on: what holds after every legal
   run of its clients. -/
namespace Qnixx.Tlsf
open ByteMem Tiling

/-- The control structure that `tlsf_create_with_pool` has made of `bytes` bytes of
    memory from `z` on. -/
structure Start (m : Mem) (z bytes : Nat) (t : Control) : Prop where
  pos : 0 < z
  aligned : z % 8 = 0
  least : 6576 ≤ bytes
  small : bytes < 2^32 + 6552
  high : z + bytes ≤ 2^64
  created : tlsfCreateWithPool m (BitVec.ofNat 64 z) (BitVec.ofNat 64 bytes) = some (some t)

/-- The bytes of the pool's blocks. -/
def poolSize (bytes : Nat) : Nat := (bytes - 6552) / 8 * 8

/-- Where the pool is. -/
def pool (z bytes : Nat) : Nat × Nat := (z + 6536, z + 6552 + poolSize bytes)

section
variable {m : Mem} {z bytes : Nat} {t : Control} {s : Sys} {os : List Op}

theorem Start.rest (h : Start m z bytes t) :
    Rest m t [poolBlock (z + 6536) (poolSize bytes), poolEnd (z + 6536) (poolSize bytes)] ∧
      t.blockNull = BitVec.ofNat 64 z := by
  obtain ⟨t', hcreate, hrest, hz⟩ := tlsfCreateWithPool_rest (m := m) h.pos h.aligned h.least h.small h.high
  rw [h.created, Option.some.injEq, Option.some.injEq] at hcreate
  subst hcreate
  exact ⟨hrest, hz⟩

theorem Start.good (h : Start m z bytes t) : Good m (BitVec.ofNat 64 z) [pool z bytes] ⟨t, []⟩ := by
  obtain ⟨hrest, hz⟩ := h.rest
  have hleast := h.least
  have hne : poolSize bytes ≠ 0 := by
    rw [poolSize]
    omega
  refine ⟨_, hrest, ?_, List.Perm.refl _, hz⟩
  have hfirst : Blk.piece (poolBlock (z + 6536) (poolSize bytes)) = ⟨z + 6536, z + 6544 + poolSize bytes, false⟩ := by
    simp only [Blk.piece, poolBlock, Piece.mk.injEq, beq_eq_false_iff_ne]
    omega
  have hlast : Blk.piece (poolEnd (z + 6536) (poolSize bytes)) =
      ⟨z + 6536 + poolSize bytes + 8, z + 6536 + poolSize bytes + 16, true⟩ := rfl
  rw [pools, List.map_cons, List.map_cons, hfirst, hlast]
  simp only [areas, pool, List.map_nil, Bool.false_eq_true, if_false, if_true, List.cons.injEq, Prod.mk.injEq, and_true,
    true_and]
  omega

theorem Start.good_of_run (h : Start m z bytes t) (hlegal : Runs.Meets step Legal ⟨t, []⟩ os)
    (hrun : Runs.exec step ⟨t, []⟩ os = some s) : Good m (BitVec.ofNat 64 z) [pool z bytes] s := by
  obtain ⟨s', hrun', hgood⟩ := h.good.runs hlegal
  rw [hrun, Option.some.injEq] at hrun'
  rw [hrun']
  exact hgood

/-- The heap of `heap_init`: 30 pages, over memory of zeros. -/
def firstHeap : Control :=
  ((tlsfCreateWithPool (fun _ => 0) (BitVec.ofNat 64 (2^20)) (BitVec.ofNat 64 (30 * 4096))).join).getD
    (controlConstruct (fun _ => 0) 0)

theorem start_firstHeap : Start (fun _ => 0) (2^20) (30 * 4096) firstHeap := by
  obtain ⟨t, hcreate, -⟩ := tlsfCreateWithPool_rest (m := fun _ => 0) (show 0 < 2^20 by decide)
    (by decide) (show 6576 ≤ 30 * 4096 by decide) (by decide) (by decide)
  have heq : firstHeap = t := by
    rw [firstHeap, hcreate]
    rfl
  rw [heq]
  exact ⟨by decide, by decide, by decide, by decide, by decide, hcreate⟩

/-- The blocks of the clients hold what was written there. -/
theorem Good.holds {m₀ : Mem} {a : BitVec 64} {ps : List (Nat × Nat)} (h : Good m₀ a ps s) :
    ∀ v ∈ s.held, Holds s.heap.mem (BitVec.ofNat 64 v.ptr) v.data := by
  obtain ⟨bs, hrest, -, hperm, -⟩ := h
  intro v hv
  obtain ⟨b, hb, -, -, rfl⟩ := mem_live.mp (hperm.mem_iff.mpr hv)
  exact (hrest.rep.phys.holds b hb).data

/-- No assertion fails in a legal run; the blocks that clients have are apart,
    inside of the pool and hold what was written there, and the memory outside of
    the pool and of the control structure is untouched. -/
theorem heap_run_safe (h : Start m z bytes t) (hlegal : Runs.Meets step Legal ⟨t, []⟩ os) :
    ∃ s, Runs.exec step ⟨t, []⟩ os = some s ∧ Sound [pool z bytes] s.held ∧
      (∀ v ∈ s.held, Holds s.heap.mem (BitVec.ofNat 64 v.ptr) v.data) ∧
      ∀ x : BitVec 64, x.toNat < z ∨ z + bytes ≤ x.toNat → s.heap.mem x = m x := by
  obtain ⟨s, hrun, hgood⟩ := h.good.runs hlegal
  have hsound := hgood.sound
  have hholds := hgood.holds
  obtain ⟨bs, hrest, hpools, hperm, hz⟩ := hgood
  refine ⟨s, hrun, hsound, hholds, ?_⟩
  · intro x hx
    have hleast := h.least
    have hhigh := h.high
    have hnull : s.heap.blockNull.toNat = z := by
      rw [hz, BitVec.toNat_ofNat, Nat.mod_eq_of_lt (by omega)]
    apply hrest.rep.phys.outside
    · intro b hb hhas
      obtain ⟨q, hq, hlo, hhi⟩ := hrest.rep.phys.tiled.covered (List.mem_map_of_mem hb)
      have hq : q ∈ pools bs := hq
      rw [hpools, List.mem_singleton] at hq
      rw [hq, pool, poolSize] at hlo hhi
      rw [Piece.Has] at hhas
      dsimp only at hlo hhi
      omega
    · omega

/-- Of three blocks the second is freed; the first is written to, and then
    does not fit where it is. -/
def movingOps : List Op :=
  [.malloc 100, .malloc 200, .malloc 300, .free 1055232, .write 1055120 7, .realloc 1055120 600]

/-- It is moved behind the third, with what was written. -/
theorem heap_run_safe_moved :
    ∃ s, Runs.exec step ⟨firstHeap, []⟩ movingOps = some s ∧ Sound [pool (2^20) (30 * 4096)] s.held ∧
      (∀ v ∈ s.held, Holds s.heap.mem (BitVec.ofNat 64 v.ptr) v.data) ∧
      s.held.map (fun v => (v.ptr, v.size, v.data.head?)) = [(1055752, 600, some 7), (1055440, 304, some 0)] := by
  have hlegal : Runs.Meets step Legal ⟨firstHeap, []⟩ movingOps := by decide +kernel
  have hheld : (Runs.exec step ⟨firstHeap, []⟩ movingOps).map (fun s =>
      s.held.map (fun v => (v.ptr, v.size, v.data.head?))) =
        some [(1055752, 600, some 7), (1055440, 304, some 0)] := by decide +kernel
  obtain ⟨s, hrun, hsound, hholds, -⟩ := heap_run_safe start_firstHeap hlegal
  rw [hrun, Option.map_some, Option.some.injEq] at hheld
  exact ⟨s, hrun, hsound, hholds, hheld⟩

/-- Every step of a legal run does what it is for. -/
theorem heap_step_does (h : Start m z bytes t) (hlegal : Runs.Meets step Legal ⟨t, []⟩ os)
    (hrun : Runs.exec step ⟨t, []⟩ os = some s) {o : Op} (ho : Legal s o) :
    ∃ r, act s.heap o = some r ∧ Does [pool z bytes] s.held (books s.held o r) r.1 o := by
  have hgood := h.good_of_run hlegal hrun
  obtain ⟨r, hact, -, hdoes⟩ := hgood.steps ho
  exact ⟨r, hact, hdoes⟩

/-- The first of two blocks is freed again. -/
theorem heap_step_does_free :
    ∃ s, Runs.exec step ⟨firstHeap, []⟩ [.malloc 100, .malloc 200] = some s ∧
      s.held.map Live.ptr = [1055232, 1055120] ∧ ∃ r, act s.heap (.free 1055120) = some r ∧
        Does [pool (2^20) (30 * 4096)] s.held (books s.held (.free 1055120) r) r.1 (.free 1055120) := by
  have hlegal : Runs.Meets step Legal ⟨firstHeap, []⟩ [.malloc 100, .malloc 200] := by decide +kernel
  have hrun : (Runs.exec step ⟨firstHeap, []⟩ [.malloc 100, .malloc 200]).any (fun s =>
      s.held.map Live.ptr == [1055232, 1055120] && decide (Legal s (.free 1055120))) = true := by
    decide +kernel
  obtain ⟨s, hs, hstate⟩ := (Option.any_eq_true _ _).mp hrun
  rw [Bool.and_eq_true, beq_iff_eq, decide_eq_true_eq] at hstate
  exact ⟨s, hs, hstate.1, heap_step_does start_firstHeap hlegal hs hstate.2⟩

/-- The allocator's own checks never find anything. -/
theorem heap_checks (h : Start m z bytes t) (hlegal : Runs.Meets step Legal ⟨t, []⟩ os)
    (hrun : Runs.exec step ⟨t, []⟩ os = some s) :
    ∃ n, ∀ fuel > n, tlsfCheck s.heap fuel = some 0 ∧ tlsfCheckPool s.heap.mem fuel (BitVec.ofNat 64 (z + 6536)) = some 0 := by
  obtain ⟨bs, hrest, hpools, -, -⟩ := h.good_of_run hlegal hrun
  refine ⟨bs.length, fun fuel hfuel => ⟨hrest.tlsfCheck hfuel, ?_⟩⟩
  refine hrest.tlsfCheckPool (q := pool z bytes) ?_ hfuel
  rw [hpools]
  exact List.mem_cons_self

theorem heap_checks_free :
    ∃ s, Runs.exec step ⟨firstHeap, []⟩ [.malloc 100, .malloc 200, .free 1055120] = some s ∧
      ∃ n, ∀ fuel > n, tlsfCheck s.heap fuel = some 0 ∧
        tlsfCheckPool s.heap.mem fuel (BitVec.ofNat 64 (2^20 + 6536)) = some 0 := by
  have hlegal : Runs.Meets step Legal ⟨firstHeap, []⟩ [.malloc 100, .malloc 200, .free 1055120] := by
    decide +kernel
  obtain ⟨s, hrun, -⟩ := start_firstHeap.good.runs hlegal
  exact ⟨s, hrun, heap_checks start_firstHeap hlegal hrun⟩

/-- A request is met as long as there is a gap of its size and a thirty-second more,
    with a header: what good fit gives away. -/
theorem heap_gap_served (h : Start m z bytes t) (hlegal : Runs.Meets step Legal ⟨t, []⟩ os)
    (hrun : Runs.exec step ⟨t, []⟩ os = some s) {size : BitVec 64} (hsize : request size.toNat ≠ 0) {lo hi : Nat}
    (hgap : Gap [pool z bytes] s.held lo hi)
    (hroom : lo + request size.toNat + request size.toNat / 32 + 8 ≤ hi) :
    ∃ p t', tlsfMalloc s.heap size = some (p, t') ∧ p ≠ 0 := by
  have hgood := h.good_of_run hlegal hrun
  obtain ⟨⟨p, t'⟩, hact, -, hdoes⟩ := hgood.malloc size
  have hlt := classMin_searchClass_lt (n := request size.toNat) (by omega)
  have hcases := request_cases size.toNat
  have hno : ¬ NoRoom [pool z bytes] s.held (request size.toNat) := by
    intro hno
    have := hno lo hi hgap
    omega
  obtain ⟨u, -, hne, -⟩ := hdoes.met hsize (by omega) hno
  exact ⟨p, t', hact, hne⟩

/-- Of three blocks the second is freed, and a request goes into the gap. -/
theorem heap_gap_served_between :
    ∃ s p t', Runs.exec step ⟨firstHeap, []⟩ [.malloc 100, .malloc 200, .malloc 300, .free 1055232] = some s ∧
      s.held.map Live.ptr = [1055440, 1055120] ∧ tlsfMalloc s.heap 180 = some (p, t') ∧ p ≠ 0 ∧ p = 1055232 := by
  have hlegal : Runs.Meets step Legal ⟨firstHeap, []⟩
      [.malloc 100, .malloc 200, .malloc 300, .free 1055232] := by decide +kernel
  have hheld : (Runs.exec step ⟨firstHeap, []⟩ [.malloc 100, .malloc 200, .malloc 300, .free 1055232]).any
      (fun s => s.held.map (fun v => (v.ptr, v.size)) == [(1055440, 304), (1055120, 104)] &&
        (tlsfMalloc s.heap 180).map Prod.fst == some 1055232) = true := by decide +kernel
  obtain ⟨s, hrun, hs⟩ := (Option.any_eq_true _ _).mp hheld
  rw [Bool.and_eq_true, beq_iff_eq, beq_iff_eq] at hs
  obtain ⟨hblocks, hplace⟩ := hs
  have hmem : ∀ v ∈ s.held, (v.ptr, v.size) = (1055440, 304) ∨ (v.ptr, v.size) = (1055120, 104) := by
    intro v hv
    have hin : (v.ptr, v.size) ∈ s.held.map (fun v => (v.ptr, v.size)) := List.mem_map_of_mem hv
    rw [hblocks] at hin
    simpa using hin
  have hgap : Gap [pool (2^20) (30 * 4096)] s.held 1055224 1055432 := by
    refine ⟨⟨_, List.mem_cons_self, by decide, by decide⟩, ?_⟩
    intro v hv
    rcases hmem v hv with hat | hat
    · rw [Prod.mk.injEq] at hat
      omega
    · rw [Prod.mk.injEq] at hat
      omega
  obtain ⟨p, t', hmalloc, hp⟩ :=
    heap_gap_served start_firstHeap hlegal hrun (show request (180 : BitVec 64).toNat ≠ 0 by decide) hgap (by decide)
  rw [hmalloc, Option.map_some, Option.some.injEq] at hplace
  refine ⟨s, p, t', hrun, ?_, hmalloc, hp, hplace⟩
  have hptrs := congrArg (List.map Prod.fst) hblocks
  rwa [List.map_map] at hptrs

/-- The sizes for which the block that is returned is large enough: the last seven
    wrap, and get a block of less than 56 bytes. -/
theorem heap_malloc_large_enough (h : Start m z bytes t) (hlegal : Runs.Meets step Legal ⟨t, []⟩ os)
    (hrun : Runs.exec step ⟨t, []⟩ os = some s) {size p : BitVec 64} {t' : Control}
    (hmalloc : tlsfMalloc s.heap size = some (p, t')) (hp : p ≠ 0) :
    (size ≤ tlsfBlockSize t'.mem p ↔ size.toNat < 2^64 - 7) ∧
      (2^64 - 7 ≤ size.toNat → (tlsfBlockSize t'.mem p).toNat < 56) := by
  obtain ⟨bs, hrest, -, -, -⟩ := h.good_of_run hlegal hrun
  rcases hrest.tlsfMalloc size with ⟨hnull, -⟩ | ⟨bs', t1, u, hne, -, hserved, -, hrun', hrest', -⟩
  · rw [hmalloc] at hnull
    cases hnull
    exact absurd rfl hp
  · rw [hmalloc] at hrun'
    cases hrun'
    have hlarge := hserved.large
    have hclose := hserved.close
    have hlt := size.isLt
    -- the sum wraps, and 24 bytes are searched for
    have hwrap : 2^64 - 7 ≤ size.toNat → request size.toNat = 24 := by
      intro hbig
      rw [request, if_neg (by omega), if_pos (by omega)]
      omega
    rw [BitVec.le_def, hrest'.blockSize_live hserved.mem (by omega)]
    refine ⟨⟨?_, ?_⟩, ?_⟩
    · intro hle
      by_contra hbig
      have := hwrap (by omega)
      omega
    · intro hsmall
      have := le_request hne (by omega)
      omega
    · intro hbig
      have := hwrap hbig
      omega

/-- All ones: a block is returned, and it is too small. -/
theorem heap_malloc_large_enough_wraps :
    ∃ p t', tlsfMalloc firstHeap (BitVec.allOnes 64) = some (p, t') ∧ p ≠ 0 ∧
      ¬ BitVec.allOnes 64 ≤ tlsfBlockSize t'.mem p ∧ (tlsfBlockSize t'.mem p).toNat < 56 := by
  have hnonzero : (tlsfMalloc firstHeap (BitVec.allOnes 64)).any (fun r => r.1 != 0) = true := by decide +kernel
  obtain ⟨⟨p, t'⟩, hmalloc, hp⟩ := (Option.any_eq_true _ _).mp hnonzero
  have hnone : Runs.Meets step Legal ⟨firstHeap, []⟩ [] := trivial
  obtain ⟨hlarge, hsmall⟩ := heap_malloc_large_enough start_firstHeap hnone rfl hmalloc (bne_iff_ne.mp hp)
  refine ⟨p, t', hmalloc, bne_iff_ne.mp hp, ?_, hsmall (by decide)⟩
  rw [hlarge]
  decide

/-! Everything freed. -/

/-- A pool without a block in use is one free block. -/
theorem Rest.all_free {bs : List Blk} {p size : Nat} (h : Rest m t bs) (hlive : live bs = [])
    (hpools : pools bs = [(p, p + size + 16)]) : bs = [poolBlock p size, poolEnd p size] := by
  have hused : ∀ b ∈ bs, b.free = false → b.size = 0 := by
    intro b hb hfree
    by_contra hne
    have hmem : b.live ∈ live bs := mem_live.mpr ⟨b, hb, hfree, hne, rfl⟩
    rw [hlive] at hmem
    cases hmem
  have hnil : ∀ bs : List Blk, pools bs = [] → bs = [] := by
    intro bs hnone
    cases bs with
    | nil => rfl
    | cons b bs =>
      obtain ⟨z, as, heq, -⟩ := areas_cons b.piece (bs.map Blk.piece)
      rw [pools, List.map_cons, heq] at hnone
      cases hnone
  cases bs with
  | nil => cases hpools
  | cons b bs =>
    have hfits : b.Fits := h.rep.phys.fits b List.mem_cons_self
    by_cases hzero : b.size = 0
    · -- the block at the end of a pool alone
      have hlast : b.piece.last = true := beq_iff_eq.mpr hzero
      rw [pools, List.map_cons, areas, if_pos hlast, List.cons.injEq, Prod.mk.injEq] at hpools
      obtain ⟨⟨hstart, hstop⟩, -⟩ := hpools
      simp only [Blk.piece] at hstart hstop
      omega
    · have hfree : b.free = true := by
        rw [← Bool.not_eq_false]
        exact fun hf => hzero (hused b List.mem_cons_self hf)
      have h : Rest m t ([] ++ b :: bs) := h
      obtain ⟨n, rest, rfl⟩ := h.rep.phys.exists_next hzero
      have hnfits : n.Fits := h.rep.phys.fits n (by simp)
      obtain ⟨-, hprev, hnprev, hnused⟩ := h.flags.at_free hfree
      have hnzero := hused n (by simp) hnused
      have haddr := h.rep.phys.next_addr hzero
      have hbsettled := h.settled b List.mem_cons_self
      have hblisted : b.listed = true := hbsettled.listed.trans hfree
      have hnlast := hnfits.last hnzero
      have hlast : n.piece.last = true := beq_iff_eq.mpr hnzero
      have hareas : areas (n.piece :: rest.map Blk.piece) = (n.piece.start, n.piece.stop) :: pools rest := by
        rw [areas, if_pos hlast]
        rfl
      rw [pools, List.map_cons, List.map_cons, areas_cons_open (piece_last hzero) hareas, List.cons.injEq,
        Prod.mk.injEq] at hpools
      obtain ⟨⟨hstart, hstop⟩, hrest⟩ := hpools
      simp only [Blk.piece] at hstart hstop
      rw [Blk.stop] at haddr
      rw [hnil rest hrest]
      have hndata : n.data = [] := List.eq_nil_of_length_eq_zero (by have := hnfits.known; omega)
      have hbaddr : b.addr = p - 8 := by omega
      have hbsize : b.size = size := by omega
      have hnaddr : n.addr = p + size := by omega
      have hb : b = poolBlock p size := by
        obtain ⟨baddr, bsize, bfree, bprev, blinked, blisted, bdata⟩ := b
        simp only [poolBlock, Blk.mk.injEq]
        exact ⟨hbaddr, hbsize, hfree, hprev, hbsettled.linked.trans hfree, hblisted, hfits.ofListed hblisted⟩
      have hn : n = poolEnd p size := by
        obtain ⟨naddr, nsize, nfree, nprev, nlinked, nlisted, ndata⟩ := n
        simp only [poolEnd, Blk.mk.injEq]
        exact ⟨hnaddr, hnzero, hnlast.1, hnprev, hnlast.2.1, hnlast.2.2, hndata⟩
      rw [hb, hn]

/-- On one free block, where a request goes depends on its size alone. -/
theorem Rest.malloc_one {t' : Control} {m' : Mem} {p size : Nat} (h : Rest m t [poolBlock p size, poolEnd p size])
    (h' : Rest m' t' [poolBlock p size, poolEnd p size]) (n : BitVec 64) :
    (Tlsf.tlsfMalloc t' n).map Prod.fst = (Tlsf.tlsfMalloc t n).map Prod.fst := by
  have hone : ∀ {b : Blk} {a : Nat}, b ∈ [poolBlock p size, poolEnd p size] → b.free = true → a = b.addr → a = p - 8 := by
    intro b a hb hfree ha
    simp only [List.mem_cons, List.not_mem_nil, or_false] at hb
    rcases hb with rfl | rfl
    · exact ha
    · cases hfree
  rcases h.tlsfMalloc n with ⟨hnull, hwhy⟩ | ⟨-, t1, u, hne, hfit, -, ⟨b, hb, hfree, haddr⟩, hrun, -, -⟩
  · rcases h'.tlsfMalloc n with ⟨hnull', -⟩ | ⟨-, t1', u', hne', hfit', -, -, -, -, -⟩
    · rw [hnull, hnull']
      rfl
    · rcases hwhy with hzero | hno
      · exact absurd hzero hne'
      · exact absurd hno hfit'
  · rcases h'.tlsfMalloc n with ⟨-, hwhy'⟩ | ⟨-, t1', u', -, -, -, ⟨b', hb', hfree', haddr'⟩, hrun', -, -⟩
    · rcases hwhy' with hzero | hno
      · exact absurd hzero hne
      · exact absurd hno hfit
    · rw [hrun, hrun', hone hb hfree haddr, hone hb' hfree' haddr']
      rfl

/-- Nothing is lost: once all blocks have been freed, in whatever order, every
    request gets what it would have got at the start. -/
theorem heap_all_freed (h : Start m z bytes t) (hlegal : Runs.Meets step Legal ⟨t, []⟩ os)
    (hrun : Runs.exec step ⟨t, []⟩ os = some s) (hfreed : s.held = []) (size : BitVec 64) :
    (tlsfMalloc s.heap size).map Prod.fst = (tlsfMalloc t size).map Prod.fst := by
  obtain ⟨bs, hrest, hpools, hperm, -⟩ := h.good_of_run hlegal hrun
  rw [hfreed] at hperm
  have hpool : pools bs = [(z + 6536, z + 6536 + poolSize bytes + 16)] := by
    rw [hpools, pool, show z + 6536 + poolSize bytes + 16 = z + 6552 + poolSize bytes by omega]
  have hbs := hrest.all_free hperm.eq_nil hpool
  subst hbs
  exact h.rest.1.malloc_one hrest size

theorem heap_all_freed_two :
    ∃ s, Runs.exec step ⟨firstHeap, []⟩ [.malloc 100, .malloc 200, .free 1055120, .free 1055232] = some s ∧
      s.held = [] ∧ (tlsfMalloc s.heap 5000).map Prod.fst = (tlsfMalloc firstHeap 5000).map Prod.fst := by
  have hlegal : Runs.Meets step Legal ⟨firstHeap, []⟩
      [.malloc 100, .malloc 200, .free 1055120, .free 1055232] := by decide +kernel
  have hrun : (Runs.exec step ⟨firstHeap, []⟩ [.malloc 100, .malloc 200, .free 1055120, .free 1055232]).any
      (fun s => s.held.isEmpty) = true := by decide +kernel
  obtain ⟨s, hs, hempty⟩ := (Option.any_eq_true _ _).mp hrun
  have hfreed : s.held = [] := List.isEmpty_iff.mp hempty
  exact ⟨s, hs, hfreed, heap_all_freed start_firstHeap hlegal hs hfreed 5000⟩

/-! A size that is too large. -/

/-- `tlsf_malloc` refuses the size, and `tlsf_realloc` does not: it returns the
    pointer, to a block that has no data left and cannot be freed. -/
theorem heap_realloc_too_large (h : Start m z bytes t) (hlegal : Runs.Meets step Legal ⟨t, []⟩ os)
    (hrun : Runs.exec step ⟨t, []⟩ os = some s) {v : Live} (hv : v ∈ s.held) (hlarge : 32 ≤ v.size) {size : BitVec 64}
    (hlo : 2^32 - 7 ≤ size.toNat) (hhi : size.toNat < 2^64 - 7) :
    tlsfMalloc s.heap size = some (0, s.heap) ∧
      ∃ t', tlsfRealloc s.heap (BitVec.ofNat 64 v.ptr) size = some (BitVec.ofNat 64 v.ptr, t') ∧
        tlsfBlockSize t'.mem (BitVec.ofNat 64 v.ptr) = 0 ∧ tlsfFree t' (BitVec.ofNat 64 v.ptr) = none := by
  obtain ⟨bs, hrest, -, hperm, -⟩ := h.good_of_run hlegal hrun
  have hreq : request size.toNat = 0 := (request_eq_zero_iff size.isLt).mpr (.inr ⟨hlo, by omega⟩)
  have hsize : size ≠ 0 := by
    rintro rfl
    exact absurd hlo (by decide)
  refine ⟨?_, ?_⟩
  · rcases hrest.tlsfMalloc size with ⟨hnull, -⟩ | ⟨-, -, -, hne, -⟩
    · exact hnull
    · exact absurd hreq hne
  · obtain ⟨-, t', hrealloc, -, -, hzero, hfree⟩ := hrest.tlsfRealloc_too_large (hperm.mem_iff.mpr hv) hsize hreq hlarge
    exact ⟨t', hrealloc, hzero, hfree⟩

/-- Four gigabytes for a block of 104 bytes. -/
theorem heap_realloc_too_large_one :
    ∃ s t', Runs.exec step ⟨firstHeap, []⟩ [.malloc 100] = some s ∧
      tlsfRealloc s.heap 1055120 (BitVec.ofNat 64 (2^32)) = some (1055120, t') ∧
      tlsfBlockSize t'.mem 1055120 = 0 ∧ tlsfFree t' 1055120 = none := by
  have hlegal : Runs.Meets step Legal ⟨firstHeap, []⟩ [.malloc 100] := by decide +kernel
  have hrun : (Runs.exec step ⟨firstHeap, []⟩ [.malloc 100]).any (fun s =>
      s.held.any (fun v => v.ptr == 1055120 && decide (32 ≤ v.size))) = true := by decide +kernel
  obtain ⟨s, hs, hheld⟩ := (Option.any_eq_true _ _).mp hrun
  obtain ⟨v, hv, hblock⟩ := List.any_eq_true.mp hheld
  rw [Bool.and_eq_true, beq_iff_eq, decide_eq_true_eq] at hblock
  obtain ⟨hptr, hsize⟩ := hblock
  obtain ⟨-, t', hrealloc, hzero, hfree⟩ := heap_realloc_too_large start_firstHeap hlegal hs hv hsize
    (show 2^32 - 7 ≤ (BitVec.ofNat 64 (2^32)).toNat by decide) (by decide)
  rw [hptr] at hrealloc hzero hfree
  exact ⟨s, t', hs, hrealloc, hzero, hfree⟩

/-- A second pool of `more` bytes from `p` on. -/
def secondPool (p more : Nat) : Nat × Nat := (p, p + 16 + (more - 16) / 8 * 8)

/-- The state after `tlsf_add_pool`, when the memory is apart from the heap's. -/
theorem Start.add_pool (h : Start m z bytes t) (hgood : Good m (BitVec.ofNat 64 z) [pool z bytes] s) {p more : Nat}
    (haligned : p % 8 = 0) (hlow : 16 ≤ p) (hleast : 40 ≤ more) (hsmall : more < 2^32 + 16) (hhigh : p + more ≤ 2^64)
    (hapart : p + more ≤ z ∨ z + bytes ≤ p) :
    ∃ t', tlsfAddPool s.heap (BitVec.ofNat 64 p) (BitVec.ofNat 64 more) = some (BitVec.ofNat 64 p, t') ∧
      Good m (BitVec.ofNat 64 z) [secondPool p more, pool z bytes] ⟨t', s.held⟩ := by
  obtain ⟨bs, hrest, hpools, hperm, hz⟩ := hgood
  have hbytes := h.least
  have htop := h.high
  have hnull : s.heap.blockNull.toNat = z := by
    rw [hz, BitVec.toNat_ofNat, Nat.mod_eq_of_lt (by omega)]
  have hwords : (BitVec.ofNat 64 more - 16).toNat / 8 * 8 = (more - 16) / 8 * 8 := by
    rw [show (BitVec.ofNat 64 more - 16).toNat = more - 16 by bv_omega]
  have hroom : Room s.heap bs p ((more - 16) / 8 * 8) := by
    refine ⟨hlow, haligned, Nat.mul_mod_left _ 8, by omega, by omega, by omega, ?_, by omega⟩
    intro b hb
    obtain ⟨q, hq, hlo, hhi⟩ := hrest.rep.phys.tiled.covered (List.mem_map_of_mem hb)
    have hq : q ∈ pools bs := hq
    rw [hpools, List.mem_singleton] at hq
    rw [hq, pool, poolSize] at hlo hhi
    simp only [Blk.piece] at hlo hhi
    omega
  obtain ⟨t', hadd, hrest', hz'⟩ := hrest.tlsfAddPool hwords hroom
  refine ⟨t', hadd, _, hrest', ?_, hperm, hz'.trans hz⟩
  have hfirst : Blk.piece (poolBlock p ((more - 16) / 8 * 8)) = ⟨p, p + 8 + (more - 16) / 8 * 8, false⟩ := by
    simp only [Blk.piece, poolBlock, Piece.mk.injEq, beq_eq_false_iff_ne]
    omega
  have hlast : Blk.piece (poolEnd p ((more - 16) / 8 * 8)) =
      ⟨p + (more - 16) / 8 * 8 + 8, p + (more - 16) / 8 * 8 + 16, true⟩ := rfl
  have hrestPools : areas (bs.map Blk.piece) = [pool z bytes] := hpools
  rw [pools, List.map_cons, List.map_cons, hfirst, hlast]
  simp only [areas, hrestPools, secondPool, Bool.false_eq_true, if_false, if_true, List.cons.injEq, Prod.mk.injEq,
    and_true, true_and]
  omega

/-- A second pool, given to the heap at any moment, is taken; whatever its clients
    have is theirs as before, and every legal run that follows is safe on both. -/
theorem heap_add_pool (h : Start m z bytes t) (hlegal : Runs.Meets step Legal ⟨t, []⟩ os)
    (hrun : Runs.exec step ⟨t, []⟩ os = some s) {p more : Nat} (haligned : p % 8 = 0) (hlow : 16 ≤ p)
    (hleast : 40 ≤ more) (hsmall : more < 2^32 + 16) (hhigh : p + more ≤ 2^64)
    (hapart : p + more ≤ z ∨ z + bytes ≤ p) :
    ∃ t', tlsfAddPool s.heap (BitVec.ofNat 64 p) (BitVec.ofNat 64 more) = some (BitVec.ofNat 64 p, t') ∧
      ∀ os', Runs.Meets step Legal ⟨t', s.held⟩ os' → ∃ s', Runs.exec step ⟨t', s.held⟩ os' = some s' ∧
        Sound [secondPool p more, pool z bytes] s'.held ∧
        ∀ v ∈ s'.held, Holds s'.heap.mem (BitVec.ofNat 64 v.ptr) v.data := by
  obtain ⟨t', hadd, hgood⟩ :=
    h.add_pool (h.good_of_run hlegal hrun) haligned hlow hleast hsmall hhigh hapart
  refine ⟨t', hadd, ?_⟩
  intro os' hlegal'
  obtain ⟨s', hrun', hgood'⟩ := hgood.runs hlegal'
  exact ⟨s', hrun', hgood'.sound, hgood'.holds⟩

/-- The first pool is all but full; a request it cannot meet is met from a page
    more. -/
theorem heap_add_pool_page :
    ∃ s t' s', Runs.exec step ⟨firstHeap, []⟩ [.malloc 112640] = some s ∧
      (tlsfMalloc s.heap 4000).map Prod.fst = some 0 ∧
      tlsfAddPool s.heap (BitVec.ofNat 64 (2^21)) (BitVec.ofNat 64 4096) = some (BitVec.ofNat 64 (2^21), t') ∧
      Runs.exec step ⟨t', s.held⟩ [.malloc 4000] = some s' ∧
      Sound [secondPool (2^21) 4096, pool (2^20) (30 * 4096)] s'.held ∧
      s'.held.map (fun v => (v.ptr, v.size)) = [(2^21 + 8, 4000), (1055120, 112640)] := by
  have hlegal : Runs.Meets step Legal ⟨firstHeap, []⟩ [.malloc 112640] := by decide +kernel
  have hlater : (Runs.exec step ⟨firstHeap, []⟩ [.malloc 112640]).any (fun s =>
      (tlsfMalloc s.heap 4000).map Prod.fst == some 0 &&
        ((tlsfAddPool s.heap (BitVec.ofNat 64 (2^21)) (BitVec.ofNat 64 4096)).bind (fun r =>
          Runs.exec step ⟨r.2, s.held⟩ [.malloc 4000])).any (fun s' =>
            s'.held.map (fun v => (v.ptr, v.size)) == [(2^21 + 8, 4000), (1055120, 112640)])) = true := by
    decide +kernel
  obtain ⟨s, hrun, hs⟩ := (Option.any_eq_true _ _).mp hlater
  rw [Bool.and_eq_true, beq_iff_eq] at hs
  obtain ⟨hrefused, hheld⟩ := hs
  obtain ⟨t', hadd, hmore⟩ := heap_add_pool start_firstHeap hlegal hrun (show 2^21 % 8 = 0 by decide) (by decide)
    (show 40 ≤ 4096 by decide) (by decide) (by decide) (.inr (by decide))
  obtain ⟨s', hrun', hsound, -⟩ := hmore [.malloc 4000] ⟨trivial, fun _ _ => trivial⟩
  rw [hadd, Option.bind_some, hrun', Option.any_some, beq_iff_eq] at hheld
  exact ⟨s, t', s', hrun, hrefused, hadd, hrun', hsound, hheld⟩

end

end Qnixx.Tlsf
