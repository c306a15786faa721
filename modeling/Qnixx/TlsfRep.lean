import Qnixx.TlsfBlocks
import Qnixx.TlsfLists

/- The whole allocator: blocks in memory and the free lists over them. `Rep`
   ties the control structure and the memory to a list of blocks; it holds
   between the operations and at every stage inside of them, when a block is
   free but in no list, or when the flag of its neighbour is not yet right.
   Here are the functions that operations are made of, each as an edit of that
   list; none of their assertions fails. -/
namespace Qnixx.Tlsf
open ByteMem Tiling

/-- What the free lists hold. -/
def entries (bs : List Blk) : List Entry := (bs.filter (·.listed)).map (fun b => (b.addr, b.size))

structure Rep (m₀ : Mem) (t : Control) (bs : List Blk) : Prop where
  phys : Phys m₀ t.blockNull.toNat t.mem bs
  lists : Listed t (entries bs)

theorem entries_append (bs cs : List Blk) : entries (bs ++ cs) = entries bs ++ entries cs := by
  rw [entries, List.filter_append, List.map_append]
  rfl

theorem entries_cons (b : Blk) (bs : List Blk) :
    entries (b :: bs) = if b.listed then (b.addr, b.size) :: entries bs else entries bs := by
  rw [entries, List.filter_cons]
  split
  · rfl
  · rfl

theorem mem_entries {bs : List Blk} {e : Entry} : e ∈ entries bs ↔ ∃ b ∈ bs, b.listed = true ∧ (b.addr, b.size) = e := by
  rw [entries, List.mem_map]
  refine ⟨?_, ?_⟩
  · rintro ⟨b, hb, rfl⟩
    obtain ⟨hb, hlisted⟩ := List.mem_filter.mp hb
    exact ⟨b, hb, hlisted, rfl⟩
  · rintro ⟨b, hb, hlisted, rfl⟩
    exact ⟨b, List.mem_filter.mpr ⟨hb, hlisted⟩, rfl⟩

section
variable {m₀ m m' : Mem} {z : Nat} {bs pre post : List Blk} {b c n : Blk}

/-- Only blocks with data are listed. -/
theorem Blk.Fits.listed_least (h : b.Fits) (hlisted : b.listed = true) : 24 ≤ b.size := by
  apply h.least_of_ne
  intro hzero
  rw [(h.last hzero).2.2] at hlisted
  cases hlisted

theorem Phys.size_lt_of_mem (h : Phys m₀ z m bs) (hb : b ∈ bs) : b.size < 2^32 := by
  obtain ⟨pre, post, rfl⟩ := List.append_of_mem hb
  exact h.size_lt

/-- The blocks in a list have their links apart. -/
theorem Phys.nodes_of (h : Phys m₀ z m bs) {cs : List Blk} (hsub : cs.Sublist bs) (hleast : ∀ b ∈ cs, 24 ≤ b.size) :
    Nodes z (cs.map (fun b => (b.addr, b.size))) := by
  have hmem : ∀ b ∈ cs, b ∈ bs := fun b hb => hsub.mem hb
  refine ⟨h.nullPos, h.nullHigh, ?_, ?_, ?_, ?_, ?_⟩
  · intro e he
    obtain ⟨b, hb, rfl⟩ := List.mem_map.mp he
    exact (h.fits b (hmem b hb)).pos
  · intro e he
    obtain ⟨b, hb, rfl⟩ := List.mem_map.mp he
    have hhigh := (h.fits b (hmem b hb)).high
    have hb24 := hleast b hb
    show b.addr + 32 ≤ 2^64
    omega
  · intro e he
    obtain ⟨b, hb, rfl⟩ := List.mem_map.mp he
    have hnull := h.nullApart b (hmem b hb)
    have hb24 := hleast b hb
    show z + 16 ≤ b.addr ∨ b.addr + 16 ≤ z
    omega
  · intro e he
    obtain ⟨b, hb, rfl⟩ := List.mem_map.mp he
    exact h.size_lt_of_mem (hmem b hb)
  · have hpair := (List.pairwise_map.mp h.tiled.apart).sublist hsub
    refine List.pairwise_map.mpr (hpair.imp_of_mem ?_)
    intro b c hb hc hapart
    have hb24 := hleast b hb
    have hc24 := hleast c hc
    simp only [Piece.Apart, Blk.piece] at hapart
    omega

theorem Phys.nodes (h : Phys m₀ z m bs) : Nodes z (entries bs) := by
  apply h.nodes_of List.filter_sublist
  intro b hb
  obtain ⟨hb, hlisted⟩ := List.mem_filter.mp hb
  exact (h.fits b hb).listed_least hlisted

/-- Links may be written into blocks of which no data is known. -/
theorem Phys.relink (h : Phys m₀ z m bs) {es : List Entry}
    (hes : ∀ e ∈ es, ∃ b ∈ bs, b.addr = e.1 ∧ 24 ≤ b.size ∧ b.data = [])
    (hm : ∀ a : BitVec 64, (∀ x, IsNode z es x → ¬ LinkByte x a.toNat) → m' a = m a) : Phys m₀ z m' bs := by
  -- a block keeps its size word, its last word and its data
  have hkeep : ∀ b ∈ bs, ∀ lo hi, b.addr + 8 ≤ lo → hi ≤ b.addr + 16 + b.size →
      (∀ e ∈ es, b.addr = e.1 → 24 ≤ b.size → b.data = [] → hi ≤ b.addr + 16 ∨ b.addr + 32 ≤ lo) → Agree m m' lo hi := by
    intro b hb lo hi hlo hhi hown a halo hahi
    apply hm
    rintro x (rfl | ⟨k, hk⟩) hlink
    · have hnull := h.nullApart b hb
      rw [LinkByte] at hlink
      omega
    · obtain ⟨c, hc, hcx, hc24, hcdata⟩ := hes _ hk
      rw [LinkByte, ← show c.addr = x from hcx] at hlink
      by_cases hsame : b.addr = c.addr
      · obtain ⟨pre, post, rfl⟩ := List.append_of_mem hb
        by_cases hbc : c ∈ pre ++ post
        · have hapart := h.apart hbc
          simp only [Piece.Apart, Blk.piece] at hapart
          omega
        · have heq : c = b := by
            simp only [List.mem_append, List.mem_cons] at hc hbc
            tauto
          subst heq
          have := hown _ hk hcx hc24 hcdata
          omega
      · obtain ⟨pre, post, rfl⟩ := List.append_of_mem hb
        have hbc : c ∈ pre ++ post := by
          simp only [List.mem_append, List.mem_cons] at hc ⊢
          rcases hc with hc | rfl | hc
          · exact .inl hc
          · exact absurd rfl hsame
          · exact .inr hc
        have hapart := h.apart hbc
        simp only [Piece.Apart, Blk.piece] at hapart
        omega
  refine ⟨h.tiled, h.fits, ?_, h.nullPos, h.nullHigh, h.nullApart, ?_⟩
  · intro b hb
    have hfits := h.fits b hb
    have hin := h.holds b hb
    have hhigh := hfits.high
    have hknown := hfits.known
    refine ⟨?_, ?_, ?_⟩
    · rw [← hin.size, Blk.ptr, sizeField_ofNat, sizeField_ofNat]
      exact load64_agree (by omega) (hkeep b hb _ _ (Nat.le_refl _) (by omega) (fun _ _ _ _ _ => .inl (by omega)))
    · intro hlinked
      have hlen := hfits.ofLinked hlinked
      have hleast := hfits.least_of_ne (by omega)
      rw [← hin.back hlinked]
      exact load64_agree (by rw [Blk.stop]; omega) (hkeep b hb _ _ (by rw [Blk.stop]; omega) (by rw [Blk.stop]; omega)
        (fun _ _ _ _ _ => .inr (by rw [Blk.stop]; omega)))
    · refine hin.data.agree (by omega) (hkeep b hb _ _ (by omega) (by omega) ?_)
      intro _ _ _ _ hdata
      rw [hdata]
      exact .inl (Nat.le_refl _)
  · intro a ha hz
    rw [hm a, h.outside a ha hz]
    rintro x (rfl | ⟨k, hk⟩) hlink
    · rw [LinkByte] at hlink
      omega
    · obtain ⟨c, hc, hcx, hc24, -⟩ := hes _ hk
      rw [LinkByte, ← show c.addr = x from hcx] at hlink
      exact ha c hc ⟨by simp only [Blk.piece]; omega, by simp only [Blk.piece]; omega⟩

/-- A store into a block, off the links, leaves the links of all listed blocks
    alone. -/
theorem Phys.store_off_links (h : Phys m₀ z m (pre ++ b :: post)) {a : Nat} (v : BitVec 64) (hlow : b.addr + 8 ≤ a)
    (hhigh : a ≤ b.stop) (hoff : b.listed = true → a + 8 ≤ b.addr + 16 ∨ b.addr + 32 ≤ a) {e : Entry}
    (he : e ∈ entries (pre ++ b :: post)) : Agree m (store64 m (BitVec.ofNat 64 a) v) (e.1 + 16) (e.1 + 32) := by
  have hbhigh := h.fits_at.high
  rw [Blk.stop] at hhigh
  obtain ⟨c, hc, hlisted, rfl⟩ := mem_entries.mp he
  have hleast := (h.fits c hc).listed_least hlisted
  apply agree_store64 m v (by omega)
  show c.addr + 32 ≤ a ∨ a + 8 ≤ c.addr + 16
  simp only [List.mem_append, List.mem_cons] at hc
  rcases hc with hc | rfl | hc
  · have hapart := h.apart (List.mem_append_left post hc)
    simp only [Piece.Apart, Blk.piece] at hapart
    omega
  · have := hoff hlisted
    omega
  · have hapart := h.apart (List.mem_append_right pre hc)
    simp only [Piece.Apart, Blk.piece] at hapart
    omega

end

section
variable {m₀ : Mem} {t : Control} {bs bs' pre post : List Blk} {b c n p : Blk}

/-- The memory changes, and not the links of the listed blocks. -/
theorem Rep.of_phys (h : Rep m₀ t bs) {m : Mem} (hphys : Phys m₀ t.blockNull.toNat m bs')
    (hentries : entries bs' = entries bs) (hm : ∀ e ∈ entries bs, Agree t.mem m (e.1 + 16) (e.1 + 32)) :
    Rep m₀ { t with mem := m } bs' := by
  refine ⟨hphys, ?_⟩
  rw [hentries]
  exact h.lists.agree h.phys.nodes.high hm

theorem Rep.fits_at (h : Rep m₀ t (pre ++ b :: post)) : b.Fits := h.phys.fits_at

theorem Rep.holds_at (h : Rep m₀ t (pre ++ b :: post)) : b.In t.mem := h.phys.holds_at

/-- One store at the size word. -/
theorem Rep.setFlags (h : Rep m₀ t (pre ++ b :: post)) (free prev : Bool) (hlast : b.size = 0 → free = false) :
    Rep m₀ { t with mem := setSizeField t.mem b.ptr (headerWord b.size free prev) }
      (pre ++ { b with free := free, prevFree := prev } :: post) := by
  refine h.of_phys (h.phys.setFlags free prev hlast) ?_ ?_
  · rw [entries_append, entries_append, entries_cons, entries_cons]
  · intro e he
    rw [Blk.ptr, setSizeField_ofNat]
    exact h.phys.store_off_links _ (Nat.le_refl _) (by rw [Blk.stop]; omega) (fun _ => .inl (by omega)) he

theorem Rep.link (h : Rep m₀ t (pre ++ b :: post)) (hsize : b.size ≠ 0) :
    Rep m₀ { t with mem := setPrevPhysBlock t.mem (BitVec.ofNat 64 b.stop) b.ptr }
      (pre ++ { b with linked := true, data := b.data.take (b.size - 8) } :: post) := by
  have hleast := h.fits_at.least_of_ne hsize
  refine h.of_phys (h.phys.link hsize) ?_ ?_
  · rw [entries_append, entries_append, entries_cons, entries_cons]
  · intro e he
    exact h.phys.store_off_links _ (by rw [Blk.stop]; omega) (Nat.le_refl _) (fun _ => .inr (by rw [Blk.stop]; omega)) he

theorem Rep.forget (h : Rep m₀ t (pre ++ b :: post)) (linked : Bool) (hlinked : linked = true → b.linked = true)
    (k : Nat) : Rep m₀ t (pre ++ { b with linked := linked, data := b.data.take k } :: post) := by
  refine ⟨h.phys.forget linked hlinked k, ?_⟩
  have hentries : entries (pre ++ { b with linked := linked, data := b.data.take k } :: post) =
      entries (pre ++ b :: post) := by
    rw [entries_append, entries_append, entries_cons, entries_cons]
  rw [hentries]
  exact h.lists

theorem Rep.observe (h : Rep m₀ t (pre ++ b :: post)) (hlinked : b.linked = false) (hlisted : b.listed = false) :
    Rep m₀ t (pre ++ { b with data := loadBytes t.mem (BitVec.ofNat 64 (b.addr + 16)) b.size } :: post) := by
  refine ⟨h.phys.observe hlinked hlisted, ?_⟩
  have hentries : entries (pre ++ { b with data := loadBytes t.mem (BitVec.ofNat 64 (b.addr + 16)) b.size } :: post) =
      entries (pre ++ b :: post) := by
    rw [entries_append, entries_append, entries_cons, entries_cons]
  rw [hentries]
  exact h.lists

theorem Rep.join (h : Rep m₀ t (pre ++ b :: c :: post)) (hb : b.size ≠ 0) (hc : c.size ≠ 0)
    (hblisted : b.listed = false) (hclisted : c.listed = false) :
    Rep m₀ { t with mem := setSizeField t.mem b.ptr (headerWord (b.size + (c.size + 8)) b.free b.prevFree) }
      (pre ++ { b with size := b.size + (c.size + 8), linked := false } :: post) := by
  refine h.of_phys (h.phys.join hb hc hblisted) ?_ ?_
  · rw [entries_append, entries_append, entries_cons, entries_cons, entries_cons, hclisted]
    simp only [hblisted]
    rfl
  · intro e he
    rw [Blk.ptr, setSizeField_ofNat]
    exact h.phys.store_off_links _ (Nat.le_refl _) (by rw [Blk.stop]; omega) (fun _ => .inl (by omega)) he

theorem Rep.cut (h : Rep m₀ t (pre ++ b :: post)) {size : Nat} (hwords : size % 8 = 0)
    (hleast : size = 0 ∧ b.free = false ∨ 24 ≤ size) (hroom : size + 32 ≤ b.size) (hlisted : b.listed = false) (free prev : Bool) :
    Rep m₀ { t with mem := setSizeField (setSizeField t.mem (b.rest size free prev).ptr
        (headerWord (b.size - (size + 8)) free prev)) b.ptr (headerWord size b.free b.prevFree) }
      (pre ++ { b with size := size, linked := false, data := b.data.take size } :: b.rest size free prev :: post) := by
  have hhigh := h.fits_at.high
  refine h.of_phys (h.phys.cut hwords hleast hroom hlisted free prev) ?_ ?_
  · rw [entries_append, entries_append, entries_cons, entries_cons, entries_cons]
    simp only [hlisted]
    rfl
  · intro e he
    have hoff : ∀ {a}, b.listed = true → a + 8 ≤ b.addr + 16 ∨ b.addr + 32 ≤ a :=
      fun hl => absurd (hlisted.symm.trans hl) (by decide)
    rw [show (b.rest size free prev).ptr = BitVec.ofNat 64 (b.addr + 8 + size) from rfl, Blk.ptr, setSizeField_ofNat,
      setSizeField_ofNat]
    have hfirst := h.phys.store_off_links (a := b.addr + 8 + size + 8) (headerWord (b.size - (size + 8)) free prev)
      (by omega) (by rw [Blk.stop]; omega) hoff he
    refine hfirst.trans ?_
    -- the second store, into the block as it was
    obtain ⟨d, hd, hdlisted, rfl⟩ := mem_entries.mp he
    have hd24 := (h.phys.fits d hd).listed_least hdlisted
    apply agree_store64 _ _ (by omega)
    show d.addr + 32 ≤ b.addr + 8 ∨ b.addr + 8 + 8 ≤ d.addr + 16
    simp only [List.mem_append, List.mem_cons] at hd
    rcases hd with hd | rfl | hd
    · have hapart := h.phys.apart (List.mem_append_left post hd)
      simp only [Piece.Apart, Blk.piece] at hapart
      omega
    · exact absurd (hlisted.symm.trans hdlisted) (by decide)
    · have hapart := h.phys.apart (List.mem_append_right pre hd)
      simp only [Piece.Apart, Blk.piece] at hapart
      omega

/-! In and out of the lists. -/

theorem Rep.unlist (h : Rep m₀ t (pre ++ b :: post)) (hlisted : b.listed = true) {fl sl : Nat}
    (hclass : sizeClass b.size = (fl, sl)) :
    ∃ t', removeFreeBlock t b.ptr fl sl = some t' ∧ Rep m₀ t' (pre ++ { b with listed := false } :: post) ∧
      t'.blockNull = t.blockNull := by
  have hfits := h.fits_at
  have hnodes := h.phys.nodes
  have hentries : entries (pre ++ b :: post) = entries pre ++ (b.addr, b.size) :: entries post := by
    rw [entries_append, entries_cons, if_pos hlisted]
  have hmem : (b.addr, b.size) ∈ entries (pre ++ b :: post) := by
    rw [hentries]
    simp
  have hwithout : ∀ e, e ∈ entries (pre ++ { b with listed := false } :: post) ↔
      e ∈ entries (pre ++ b :: post) ∧ e.1 ≠ b.addr := by
    have hapart := hnodes.apart
    rw [hentries] at hapart
    obtain ⟨-, hpost, hcross⟩ := List.pairwise_append.mp hapart
    have hne : ∀ e, e ∈ entries pre ∨ e ∈ entries post → e.1 ≠ b.addr := by
      rintro e (he | he) heq
      · have := hcross e he (b.addr, b.size) List.mem_cons_self
        omega
      · have := (List.pairwise_cons.mp hpost).1 e he
        omega
    intro e
    rw [hentries, entries_append, entries_cons, if_neg (by simp), List.mem_append, List.mem_append, List.mem_cons]
    refine ⟨?_, ?_⟩
    · intro he
      exact ⟨by tauto, hne e he⟩
    · rintro ⟨he | rfl | he, hne⟩
      · exact .inl he
      · exact absurd rfl hne
      · exact .inr he
  obtain ⟨t', hremove, hlists, hlinks⟩ := removeFreeBlock_listed h.lists hnodes hmem hclass hwithout
  refine ⟨t', hremove, ⟨?_, hlists⟩, hlinks.null⟩
  rw [hlinks.null]
  have hphys : Phys m₀ t.blockNull.toNat t'.mem (pre ++ b :: post) := by
    apply h.phys.relink _ hlinks.mem
    intro e he
    obtain ⟨c, hc, hcl, rfl⟩ := mem_entries.mp he
    have hcfits := h.phys.fits c hc
    exact ⟨c, hc, rfl, hcfits.listed_least hcl, hcfits.ofListed hcl⟩
  refine hphys.edit rfl rfl ?_ ?_ (fun _ _ => rfl)
  · exact { hfits with
      last := fun hzero => ⟨(hfits.last hzero).1, (hfits.last hzero).2.1, rfl⟩
      ofListed := fun hl => absurd hl Bool.false_ne_true }
  · have hin := hphys.holds_at
    exact ⟨hin.size, hin.back, hin.data⟩

/-- The class `mapping_insert` gives to a block. -/
theorem Rep.class_at (h : Rep m₀ t (pre ++ b :: post)) : mappingInsert (blockSize t.mem b.ptr) = sizeClass b.size := by
  have hlt := h.phys.size_lt
  rw [h.holds_at.blockSize h.fits_at, mappingInsert_eq, BitVec.toNat_ofNat, Nat.mod_eq_of_lt (by omega)]

theorem Rep.blockRemove (h : Rep m₀ t (pre ++ b :: post)) (hlisted : b.listed = true) :
    ∃ t', Tlsf.blockRemove t b.ptr = some t' ∧ Rep m₀ t' (pre ++ { b with listed := false } :: post) ∧
      t'.blockNull = t.blockNull := by
  rw [Tlsf.blockRemove, h.class_at]
  exact h.unlist hlisted rfl

theorem Rep.blockInsert (h : Rep m₀ t (pre ++ b :: post)) (hlisted : b.listed = false) (hsize : b.size ≠ 0)
    (hdata : b.data = []) :
    ∃ t', Tlsf.blockInsert t b.ptr = some t' ∧ Rep m₀ t' (pre ++ { b with listed := true } :: post) ∧
      t'.blockNull = t.blockNull := by
  have hfits := h.fits_at
  have hleast := hfits.least_of_ne hsize
  have hentries : entries (pre ++ { b with listed := true } :: post) = entries pre ++ (b.addr, b.size) :: entries post := by
    rw [entries_append, entries_cons, if_pos rfl]
  have hold : entries (pre ++ b :: post) = entries pre ++ entries post := by
    rw [entries_append, entries_cons, hlisted]
    rfl
  -- the block is listed first: all the blocks have their links apart
  have hphys : Phys m₀ t.blockNull.toNat t.mem (pre ++ { b with listed := true } :: post) := by
    have hin := h.holds_at
    refine h.phys.edit rfl rfl ?_ ⟨hin.size, hin.back, hin.data⟩ (fun _ _ => rfl)
    exact { hfits with
      last := fun hzero => absurd hzero hsize
      ofListed := fun _ => hdata }
  have hnodes : Nodes t.blockNull.toNat ((b.addr, b.size) :: entries (pre ++ b :: post)) := by
    have hall := hphys.nodes
    rw [hentries] at hall
    have hperm : (entries pre ++ (b.addr, b.size) :: entries post).Perm
        ((b.addr, b.size) :: entries (pre ++ b :: post)) := by
      rw [hold]
      exact List.perm_middle
    exact ⟨hall.nullPos, hall.nullHigh, fun e he => hall.pos e (hperm.mem_iff.mpr he),
      fun e he => hall.high e (hperm.mem_iff.mpr he), fun e he => hall.nullApart e (hperm.mem_iff.mpr he),
      fun e he => hall.small e (hperm.mem_iff.mpr he), (hperm.pairwise_iff (fun h => Or.symm h)).mp hall.apart⟩
  obtain ⟨t', hinsert, hlists, hlinks⟩ := insertFreeBlock_listed h.lists hnodes
    (show sizeClass b.size = ((sizeClass b.size).1, (sizeClass b.size).2) from rfl) hfits.aligned
  rw [Tlsf.blockInsert, h.class_at]
  refine ⟨t', hinsert, ⟨?_, ?_⟩, hlinks.null⟩
  · rw [hlinks.null]
    apply hphys.relink _ hlinks.mem
    intro e he
    have he' : e ∈ entries (pre ++ { b with listed := true } :: post) := by
      rw [hentries]
      rw [hold] at he
      simp only [List.mem_cons, List.mem_append] at he ⊢
      tauto
    obtain ⟨c, hc, hcl, rfl⟩ := mem_entries.mp he'
    have hcfits := hphys.fits c hc
    exact ⟨c, hc, rfl, hcfits.listed_least hcl, hcfits.ofListed hcl⟩
  · apply hlists.congr_mem
    intro e
    rw [hentries, hold]
    simp only [List.mem_cons, List.mem_append]
    tauto

/-! The flags of a block, as the functions on headers write them. -/

theorem Blk.In.blockSetFree {m : Mem} (h : b.In m) (hfits : b.Fits) :
    Tlsf.blockSetFree m b.ptr = setSizeField m b.ptr (headerWord b.size true b.prevFree) := by
  rw [Tlsf.blockSetFree, h.size, headerWord_setFree hfits.words]

theorem Blk.In.blockSetUsed {m : Mem} (h : b.In m) (hfits : b.Fits) :
    Tlsf.blockSetUsed m b.ptr = setSizeField m b.ptr (headerWord b.size false b.prevFree) := by
  rw [Tlsf.blockSetUsed, h.size, headerWord_setUsed hfits.words]

theorem Blk.In.blockSetPrevFree {m : Mem} (h : b.In m) (hfits : b.Fits) :
    Tlsf.blockSetPrevFree m b.ptr = setSizeField m b.ptr (headerWord b.size b.free true) := by
  rw [Tlsf.blockSetPrevFree, h.size, headerWord_setPrevFree hfits.words]

theorem Blk.In.blockSetPrevUsed {m : Mem} (h : b.In m) (hfits : b.Fits) :
    Tlsf.blockSetPrevUsed m b.ptr = setSizeField m b.ptr (headerWord b.size b.free false) := by
  rw [Tlsf.blockSetPrevUsed, h.size, headerWord_setPrevUsed hfits.words]

theorem Rep.blockSetPrevFree (h : Rep m₀ t (pre ++ b :: post)) :
    Rep m₀ { t with mem := Tlsf.blockSetPrevFree t.mem b.ptr } (pre ++ { b with prevFree := true } :: post) := by
  rw [h.holds_at.blockSetPrevFree h.fits_at]
  exact h.setFlags b.free true (fun hzero => (h.fits_at.last hzero).1)

theorem Rep.blockSetPrevUsed (h : Rep m₀ t (pre ++ b :: post)) :
    Rep m₀ { t with mem := Tlsf.blockSetPrevUsed t.mem b.ptr } (pre ++ { b with prevFree := false } :: post) := by
  rw [h.holds_at.blockSetPrevUsed h.fits_at]
  exact h.setFlags b.free false (fun hzero => (h.fits_at.last hzero).1)

theorem Rep.next_ptr (h : Rep m₀ t (pre ++ b :: n :: post)) (hsize : b.size ≠ 0) : BitVec.ofNat 64 b.stop = n.ptr := by
  rw [Blk.ptr, h.phys.next_addr hsize]

theorem Rep.blockNext (h : Rep m₀ t (pre ++ b :: n :: post)) (hsize : b.size ≠ 0) :
    Tlsf.blockNext t.mem b.ptr = some n.ptr := by
  rw [h.holds_at.blockNext h.fits_at hsize, h.next_ptr hsize]

theorem Rep.blockLinkNext (h : Rep m₀ t (pre ++ b :: n :: post)) (hsize : b.size ≠ 0) :
    ∃ m, Tlsf.blockLinkNext t.mem b.ptr = some (n.ptr, m) ∧ Rep m₀ { t with mem := m }
      (pre ++ { b with linked := true, data := b.data.take (b.size - 8) } :: n :: post) := by
  refine ⟨setPrevPhysBlock t.mem n.ptr b.ptr, ?_, ?_⟩
  · rw [Tlsf.blockLinkNext, h.blockNext hsize]
    rfl
  · rw [← h.next_ptr hsize]
    exact h.link hsize

theorem Rep.blockMarkAsFree (h : Rep m₀ t (pre ++ b :: n :: post)) (hsize : b.size ≠ 0) :
    ∃ m, Tlsf.blockMarkAsFree t.mem b.ptr = some m ∧ Rep m₀ { t with mem := m }
      (pre ++ { b with free := true, linked := true, data := b.data.take (b.size - 8) } ::
        { n with prevFree := true } :: post) := by
  obtain ⟨m, hlink, hrep⟩ := h.blockLinkNext hsize
  rw [List.append_cons] at hrep
  have hrep' := hrep.blockSetPrevFree
  rw [← List.append_cons] at hrep'
  have hset := hrep'.holds_at.blockSetFree hrep'.fits_at
  refine ⟨Tlsf.blockSetFree (Tlsf.blockSetPrevFree m n.ptr) b.ptr, ?_, ?_⟩
  · rw [Tlsf.blockMarkAsFree, hlink]
    rfl
  · have hdone := hrep'.setFlags true b.prevFree (fun hzero => absurd hzero hsize)
    rw [← hset] at hdone
    exact hdone

theorem Rep.blockMarkAsUsed (h : Rep m₀ t (pre ++ b :: n :: post)) (hsize : b.size ≠ 0) :
    ∃ m, Tlsf.blockMarkAsUsed t.mem b.ptr = some m ∧ Rep m₀ { t with mem := m }
      (pre ++ { b with free := false } :: { n with prevFree := false } :: post) := by
  have hnext := h.blockNext hsize
  rw [List.append_cons] at h
  have hrep := h.blockSetPrevUsed
  rw [← List.append_cons] at hrep
  have hset := hrep.holds_at.blockSetUsed hrep.fits_at
  refine ⟨Tlsf.blockSetUsed (Tlsf.blockSetPrevUsed t.mem n.ptr) b.ptr, ?_, ?_⟩
  · rw [Tlsf.blockMarkAsUsed, hnext]
    rfl
  · have hdone := hrep.setFlags false b.prevFree (fun _ => rfl)
    rw [← hset] at hdone
    exact hdone

/-- The assertions about pointers and about the end of a pool. -/
theorem Blk.Fits.ptr_ne (h : b.Fits) : b.ptr ≠ 0 := by
  have := h.high
  exact ofNat_ne_zero h.pos (by omega)

theorem Blk.Fits.assert_ptr (h : b.Fits) : tlsfAssert (b.ptr != 0) = some () :=
  tlsfAssert_true (bne_iff_ne.mpr h.ptr_ne)

theorem Blk.In.assert_not_last {m : Mem} (h : b.In m) (hfits : b.Fits) (hsize : b.size ≠ 0) :
    tlsfAssert (!Tlsf.blockIsLast m b.ptr) = some () := by
  apply tlsfAssert_true
  rw [h.blockIsLast hfits, beq_eq_false_iff_ne.mpr hsize]
  rfl

/-! Splitting and merging. -/

theorem Rep.blockCanSplit (h : Rep m₀ t (pre ++ b :: post)) (size : Nat) (hlt : size + 32 < 2^64) :
    Tlsf.blockCanSplit t.mem b.ptr (BitVec.ofNat 64 size) = decide (size + 32 ≤ b.size) := by
  have hsize := h.phys.size_lt
  rw [Tlsf.blockCanSplit, h.holds_at.blockSize h.fits_at]
  have hsum : (blockHeaderSize + BitVec.ofNat 64 size).toNat = size + 32 := by
    rw [BitVec.toNat_add, BitVec.toNat_ofNat, show blockHeaderSize.toNat = 32 from rfl]
    omega
  rw [decide_eq_decide, BitVec.le_def, hsum, BitVec.toNat_ofNat, Nat.mod_eq_of_lt (by omega)]

/-- The block is cut. What the flags of the second part were before does not
    matter for the first; the second keeps one of them, until it is set. -/
theorem Rep.blockSplit (h : Rep m₀ t (pre ++ b :: n :: post)) {size : Nat} (hwords : size % 8 = 0)
    (hleast : size = 0 ∧ b.free = false ∨ 24 ≤ size) (hroom : size + 32 ≤ b.size) (hlisted : b.listed = false) :
    ∃ m g, Tlsf.blockSplit t.mem b.ptr (BitVec.ofNat 64 size) = some (BitVec.ofNat 64 (b.addr + 8 + size), m) ∧
      Rep m₀ { t with mem := m } (pre ++ { b with size := size, linked := false, data := b.data.take size } ::
        { b.rest size true g with linked := true } :: { n with prevFree := true } :: post) := by
  have hfits := h.fits_at
  have hin := h.holds_at
  have hhigh := hfits.high
  have hblt := h.phys.size_lt
  have hbwords := hfits.words
  have haligned := hfits.aligned
  have hremaining : offsetToBlock (blockToPtr b.ptr) (BitVec.ofNat 64 size - blockHeaderOverhead) =
      BitVec.ofNat 64 (b.addr + 8 + size) := by
    rw [offsetToBlock, blockToPtr, Blk.ptr, blockStartOffset, blockHeaderOverhead]
    bv_omega
  have hremain : BitVec.ofNat 64 b.size - (BitVec.ofNat 64 size + blockHeaderOverhead) =
      BitVec.ofNat 64 (b.size - (size + 8)) := by
    rw [blockHeaderOverhead]
    bv_omega
  have hptr : blockToPtr (BitVec.ofNat 64 (b.addr + 8 + size)) = BitVec.ofNat 64 (b.addr + 8 + size + 16) := by
    rw [BitVec.ofNat_add _ 16]
    rfl
  have hsum : BitVec.ofNat 64 b.size =
      BitVec.ofNat 64 (b.size - (size + 8)) + BitVec.ofNat 64 size + blockHeaderOverhead := by
    rw [blockHeaderOverhead]
    bv_omega
  -- the flags that the memory happens to hold
  generalize hw : sizeField t.mem (BitVec.ofNat 64 (b.addr + 8 + size)) = w
  have hset : blockSetSize t.mem (BitVec.ofNat 64 (b.addr + 8 + size)) (BitVec.ofNat 64 (b.size - (size + 8))) =
      setSizeField t.mem (BitVec.ofNat 64 (b.addr + 8 + size))
        (headerWord (b.size - (size + 8)) (w.getLsbD 0) (w.getLsbD 1)) := by
    rw [blockSetSize, hw, size_or_flags (by omega)]
  generalize hm1 : setSizeField t.mem (BitVec.ofNat 64 (b.addr + 8 + size))
        (headerWord (b.size - (size + 8)) (w.getLsbD 0) (w.getLsbD 1)) = m1 at hset
  have hsize1 : blockSize m1 (BitVec.ofNat 64 (b.addr + 8 + size)) = BitVec.ofNat 64 (b.size - (size + 8)) := by
    rw [blockSize, sizeField_ofNat, ← hm1, setSizeField_ofNat, load64_store64, headerWord_size (by omega)]
  have hkept : sizeField m1 b.ptr = headerWord b.size b.free b.prevFree := by
    rw [← hin.size, Blk.ptr, sizeField_ofNat, sizeField_ofNat, ← hm1, setSizeField_ofNat]
    exact load64_agree (by omega) (agree_store64 _ _ (by omega) (by omega))
  have hset2 : blockSetSize m1 b.ptr (BitVec.ofNat 64 size) = setSizeField m1 b.ptr (headerWord size b.free b.prevFree) := by
    obtain ⟨hf, hp⟩ := headerWord_flags hbwords b.free b.prevFree
    rw [blockSetSize, hkept, size_or_flags hwords, hf, hp]
  have hcut := h.cut hwords hleast hroom hlisted (w.getLsbD 0) (w.getLsbD 1)
  rw [show (b.rest size (w.getLsbD 0) (w.getLsbD 1)).ptr = BitVec.ofNat 64 (b.addr + 8 + size) from rfl, hm1, ← hset2,
    List.append_cons] at hcut
  have hrest : (b.rest size (w.getLsbD 0) (w.getLsbD 1)).size ≠ 0 := by
    show b.size - (size + 8) ≠ 0
    omega
  obtain ⟨m, hmark, hrep⟩ := hcut.blockMarkAsFree hrest
  rw [← List.append_cons] at hrep
  have hnil : (b.rest size (w.getLsbD 0) (w.getLsbD 1)).data.take
      ((b.rest size (w.getLsbD 0) (w.getLsbD 1)).size - 8) = [] := List.take_nil
  simp only [hnil] at hrep
  have hmin : (blockSizeMin ≤ BitVec.ofNat 64 (b.size - (size + 8)) : Bool) = true := by
    rw [decide_eq_true_eq, BitVec.le_def, BitVec.toNat_ofNat, Nat.mod_eq_of_lt (by omega)]
    show 24 ≤ _
    omega
  refine ⟨m, w.getLsbD 1, ?_, hrep⟩
  rw [Tlsf.blockSplit, hin.blockSize hfits]
  simp only [Option.bind_eq_bind, hremaining, hremain]
  rw [hptr, alignPtr_aligned (by omega) (by omega), Option.bind_some, tlsfAssert_true (beq_self_eq_true _),
    Option.bind_some, ← hsum, tlsfAssert_true (beq_self_eq_true _), Option.bind_some, hset, hsize1,
    tlsfAssert_true hmin, Option.bind_some,
    show Tlsf.blockMarkAsFree (blockSetSize m1 b.ptr (BitVec.ofNat 64 size)) (BitVec.ofNat 64 (b.addr + 8 + size)) = some m
      from hmark]
  rfl

/-- A block absorbs the next one. -/
theorem Rep.blockAbsorb (h : Rep m₀ t (pre ++ b :: c :: n :: post)) (hb : b.size ≠ 0) (hc : c.size ≠ 0)
    (hblisted : b.listed = false) (hclisted : c.listed = false) :
    ∃ m, Tlsf.blockAbsorb t.mem b.ptr c.ptr = some m ∧ Rep m₀ { t with mem := m }
      (pre ++ { b with size := b.size + (c.size + 8), linked := true } :: n :: post) := by
  have hfits := h.fits_at
  have hin := h.holds_at
  have hknown := hfits.known
  have hcfits : c.Fits := h.phys.fits c (by simp)
  have hcin : c.In t.mem := h.phys.holds c (by simp)
  have hjoin := h.join hb hc hblisted hclisted
  have hsum : sizeField t.mem b.ptr + (blockSize t.mem c.ptr + blockHeaderOverhead) =
      headerWord (b.size + (c.size + 8)) b.free b.prevFree := by
    rw [hin.size, hcin.blockSize hcfits, ← headerWord_add, BitVec.ofNat_add]
    rfl
  rw [← hsum] at hjoin
  obtain ⟨m, hlink, hrep⟩ := hjoin.blockLinkNext (by show b.size + (c.size + 8) ≠ 0; omega)
  refine ⟨m, ?_, ?_⟩
  · rw [Tlsf.blockAbsorb, hin.assert_not_last hfits hb]
    simp only [Option.bind_eq_bind, Option.bind_some]
    rw [show Tlsf.blockLinkNext (setSizeField t.mem b.ptr _) b.ptr = some (n.ptr, m) from hlink]
    rfl
  · -- the data that is known ends before the word that was written
    have htake : b.data.take (b.size + (c.size + 8) - 8) = b.data := List.take_of_length_le (by omega)
    have hrep' := hrep
    simp only [htake] at hrep'
    exact hrep'

theorem Rep.blockMergeNext_used (h : Rep m₀ t (pre ++ b :: n :: post)) (hb : b.size ≠ 0) (hn : n.free = false) :
    Tlsf.blockMergeNext t b.ptr = some (b.ptr, t) := by
  have hnfits : n.Fits := h.phys.fits n (by simp)
  have hnin : n.In t.mem := h.phys.holds n (by simp)
  rw [Tlsf.blockMergeNext, h.blockNext hb]
  simp only [Option.bind_eq_bind, Option.bind_some]
  rw [hnfits.assert_ptr, Option.bind_some, hnin.blockIsFree hnfits, hn]
  rfl

theorem Rep.blockMergeNext_free (h : Rep m₀ t (pre ++ b :: c :: n :: post)) (hb : b.size ≠ 0)
    (hblisted : b.listed = false) (hc : c.free = true) (hclisted : c.listed = true) :
    ∃ t', Tlsf.blockMergeNext t b.ptr = some (b.ptr, t') ∧ Rep m₀ t'
      (pre ++ { b with size := b.size + (c.size + 8), linked := true } :: n :: post) ∧ t'.blockNull = t.blockNull := by
  have hcfits : c.Fits := h.phys.fits c (by simp)
  have hcin : c.In t.mem := h.phys.holds c (by simp)
  have hcleast := hcfits.listed_least hclisted
  have hnext := h.blockNext hb
  have hlast := h.holds_at.assert_not_last h.fits_at hb
  rw [List.append_cons] at h
  obtain ⟨t1, hremove, hrep, hz⟩ := h.blockRemove hclisted
  rw [← List.append_cons] at hrep
  obtain ⟨m, habsorb, hrep'⟩ := hrep.blockAbsorb hb (by show c.size ≠ 0; omega) hblisted rfl
  refine ⟨{ t1 with mem := m }, ?_, hrep', hz⟩
  rw [Tlsf.blockMergeNext, hnext]
  simp only [Option.bind_eq_bind, Option.bind_some]
  rw [hcfits.assert_ptr, Option.bind_some, hcin.blockIsFree hcfits, hc, if_pos rfl, hlast, Option.bind_some, hremove, Option.bind_some,
    show Tlsf.blockAbsorb t1.mem b.ptr c.ptr = some m from habsorb]
  rfl

theorem Rep.blockMergePrev_used (h : Rep m₀ t (pre ++ b :: post)) (hb : b.prevFree = false) :
    Tlsf.blockMergePrev t b.ptr = some (b.ptr, t) := by
  rw [Tlsf.blockMergePrev, h.holds_at.blockIsPrevFree h.fits_at, hb]
  rfl

theorem Rep.blockMergePrev_free (h : Rep m₀ t (pre ++ p :: b :: n :: post)) (hb : b.size ≠ 0) (hprev : b.prevFree = true)
    (hblisted : b.listed = false) (hp : p.free = true) (hlinked : p.linked = true) (hplisted : p.listed = true) :
    ∃ t', Tlsf.blockMergePrev t b.ptr = some (p.ptr, t') ∧ Rep m₀ t'
      (pre ++ { p with size := p.size + (b.size + 8), linked := true, listed := false } :: n :: post) ∧
      t'.blockNull = t.blockNull := by
  have hpfits := h.fits_at
  have hpin := h.holds_at
  have hpleast := hpfits.listed_least hplisted
  have hbfits : b.Fits := h.phys.fits b (by simp)
  have hbin : b.In t.mem := h.phys.holds b (by simp)
  have hback : prevPhysBlock t.mem b.ptr = p.ptr := by
    rw [← h.next_ptr (by omega)]
    exact hpin.back hlinked
  obtain ⟨t1, hremove, hrep, hz⟩ := h.blockRemove hplisted
  obtain ⟨m, habsorb, hrep'⟩ := hrep.blockAbsorb (by show p.size ≠ 0; omega) hb rfl hblisted
  refine ⟨{ t1 with mem := m }, ?_, hrep', hz⟩
  rw [Tlsf.blockMergePrev, hbin.blockIsPrevFree hbfits, if_pos hprev, blockPrev, hbin.blockIsPrevFree hbfits,
    tlsfAssert_true hprev, hback]
  simp only [Option.bind_eq_bind, Option.bind_some, Option.pure_def]
  rw [hpfits.assert_ptr, Option.bind_some, hpin.blockIsFree hpfits,
    tlsfAssert_true hp, Option.bind_some, hremove, Option.bind_some,
    show Tlsf.blockAbsorb t1.mem p.ptr b.ptr = some m from habsorb]
  rfl

end

end Qnixx.Tlsf
