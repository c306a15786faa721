import Qnixx.Lib.RecordWalk
import Qnixx.Acpi

/- The walks of `parse_madt` and `acpi_remap_irq` over a MADT with any contents.
   Both test only the first byte of a record against the end of the table and
   then trust its length byte: when they end, and when they read nothing behind
   the table, is up to the firmware. -/
namespace Qnixx
open ByteMem

/-- The boot loader maps physical memory where there is room for it: addresses
    of 34 bits do not reach the end of the address space. -/
def DirectMap (higherHalf : BitVec 64) : Prop := higherHalf.toNat + 2^34 ≤ 2^64

section
variable (m : Mem) (madt : BitVec 64)

def madtByte (off : Nat) : BitVec 8 := m (madt + BitVec.ofNat 64 off)

/-- The loop of `parse_madt`, by offsets into the table and with what it reads:
    the type, `io_apic_addr` in an entry of type 1, and the length. -/
def parseWalk : RecordWalk.Walk (BitVec 64) :=
  { stop := (madtLength m madt).toNat
    size := fun off => (madtByte m madt (off + 1)).toNat
    visit := fun ioapic off =>
      if madtByte m madt off = apicTypeIoApic then
        (load32 m (madt + BitVec.ofNat 64 (off + 4))).setWidth 64
      else ioapic
    done := fun _ => false
    reads := fun off =>
      off :: (if madtByte m madt off = apicTypeIoApic then List.range' (off + 4) 4 else []) ++ [off + 1] }

/-- The loop of `acpi_remap_irq`: in an entry of type 2 it reads `source`, and
    then `interrupt` and not the length where it returns. -/
def remapWalk (irq : BitVec 8) : RecordWalk.Walk (BitVec 16) :=
  { stop := (madtLength m madt).toNat
    size := fun off => (madtByte m madt (off + 1)).toNat
    visit := fun st off =>
      if madtByte m madt off = apicTypeInterruptOverride ∧ madtByte m madt (off + 3) = irq then
        (load32 m (madt + BitVec.ofNat 64 (off + 4))).setWidth 16
      else st
    done := fun off =>
      madtByte m madt off = apicTypeInterruptOverride ∧ madtByte m madt (off + 3) = irq
    reads := fun off =>
      if madtByte m madt off = apicTypeInterruptOverride then
        if madtByte m madt (off + 3) = irq then [off, off + 3] ++ List.range' (off + 4) 4
        else [off, off + 3, off + 1]
      else [off, off + 1] }

/-- The offsets `parse_madt` reads: `lapic_addr` and `header.length`, then the
    records. -/
def parseMadtReads (fuel : Nat) (ioapic : BitVec 64) : List Nat :=
  List.range' 36 4 ++ List.range' 4 4 ++ (RecordWalk.run (parseWalk m madt) fuel 44 ioapic).2

def acpiRemapIrqReads (fuel : Nat) (irq : BitVec 8) : List Nat :=
  List.range' 4 4 ++ (RecordWalk.run (remapWalk m madt irq) fuel 44 (irq.setWidth 16)).2

/-- A record is at `off`: it starts before the end of the table, and the
    lengths of the records before it lead there. -/
def RecordAt (off : Nat) : Prop :=
  RecordWalk.Reached (madtLength m madt).toNat (fun off => (madtByte m madt (off + 1)).toNat)
    (fun _ => false) 44 off

end

section
variable {m : Mem} {higherHalf madt : BitVec 64}

theorem acpiQuery_placed {rsdp : BitVec 64} {query : List Byte} (hmap : DirectMap higherHalf)
    (h : (acpiQuery m higherHalf (acpiTables m higherHalf rsdp) query).1 = some (some madt)) :
    madt.toNat + 2^33 ≤ 2^64 := by
  obtain ⟨k, rfl⟩ := acpiQueryLoop_some h
  rw [DirectMap] at hmap
  have hlt := (load32 m ((acpiTables m higherHalf rsdp).rsdt + BitVec.ofNat 64 (36 + 4 * k))).isLt
  rw [rsdtTable, BitVec.toNat_add, BitVec.toNat_setWidth]
  omega

theorem madt_offset (madt : BitVec 64) (off k : Nat) :
    madt + BitVec.ofNat 64 off + BitVec.ofNat 64 k = madt + BitVec.ofNat 64 (off + k) := by
  rw [BitVec.add_assoc, ← BitVec.ofNat_add]

/-- The cursor is before the end where its offset is. -/
theorem madt_lt_end (hplace : madt.toNat + 2^33 ≤ 2^64) {off : Nat} (hoff : off < 2^32 + 256) :
    madt + BitVec.ofNat 64 off < madt + (madtLength m madt).setWidth 64 ↔ off < (madtLength m madt).toNat := by
  have hlt := (madtLength m madt).isLt
  rw [BitVec.lt_def, BitVec.toNat_add, BitVec.toNat_add, BitVec.toNat_setWidth, BitVec.toNat_ofNat]
  omega

theorem madt_advance (madt : BitVec 64) (off : Nat) :
    madt + BitVec.ofNat 64 off + (m (madt + BitVec.ofNat 64 off + 1)).setWidth 64 =
      madt + BitVec.ofNat 64 (off + (madtByte m madt (off + 1)).toNat) := by
  rw [← madt_offset, madtByte, ← madt_offset, BitVec.ofNat_toNat]
  rfl

theorem parseMadtLoop_eq_walk (hplace : madt.toNat + 2^33 ≤ 2^64) (fuel : Nat) {off : Nat}
    (hoff : off < 2^32 + 256) (ioapic : BitVec 64) :
    parseMadtLoop m (madt + (madtLength m madt).setWidth 64) fuel (madt + BitVec.ofNat 64 off) ioapic =
      (RecordWalk.run (parseWalk m madt) fuel off ioapic).1 := by
  induction fuel generalizing off ioapic with
  | zero => rfl
  | succ fuel ih =>
    rw [parseMadtLoop]
    simp only [madt_lt_end hplace hoff]
    by_cases hlt : off < (madtLength m madt).toNat
    · have hlen := (madtLength m madt).isLt
      have hsize := (madtByte m madt (off + 1)).isLt
      rw [if_pos hlt, RecordWalk.run_next (parseWalk m madt) hlt rfl, madt_advance, ih (by omega)]
      rw [show (4 : BitVec 64) = BitVec.ofNat 64 4 from rfl, madt_offset]
      rfl
    · rw [if_neg hlt, RecordWalk.run_end (parseWalk m madt) hlt]

theorem remapIrqLoop_eq_walk (hplace : madt.toNat + 2^33 ≤ 2^64) (irq : BitVec 8) (fuel : Nat) {off : Nat}
    (hoff : off < 2^32 + 256) :
    remapIrqLoop m (madt + (madtLength m madt).setWidth 64) irq fuel (madt + BitVec.ofNat 64 off) =
      (RecordWalk.run (remapWalk m madt irq) fuel off (irq.setWidth 16)).1 := by
  induction fuel generalizing off with
  | zero => rfl
  | succ fuel ih =>
    rw [remapIrqLoop]
    simp only [madt_lt_end hplace hoff]
    by_cases hlt : off < (madtLength m madt).toNat
    · have hlen := (madtLength m madt).isLt
      have hsize := (madtByte m madt (off + 1)).isLt
      rw [if_pos hlt, madt_advance, show (3 : BitVec 64) = BitVec.ofNat 64 3 from rfl,
        show (4 : BitVec 64) = BitVec.ofNat 64 4 from rfl, madt_offset, madt_offset]
      by_cases hirq : madtByte m madt off = apicTypeInterruptOverride ∧ madtByte m madt (off + 3) = irq
      · rw [RecordWalk.run_done (remapWalk m madt irq) hlt (decide_eq_true hirq)]
        exact (if_pos hirq).trans (congrArg some (if_pos hirq).symm)
      · rw [RecordWalk.run_next (remapWalk m madt irq) hlt (decide_eq_false hirq)]
        have hstay : (remapWalk m madt irq).visit (irq.setWidth 16) off = irq.setWidth 16 := if_neg hirq
        rw [hstay]
        exact (if_neg hirq).trans (ih (by omega))
    · rw [if_neg hlt, RecordWalk.run_end (remapWalk m madt irq) hlt]

/-- The walks are the two functions, for a table with room behind it. -/
theorem parseMadt_eq_walk (hplace : madt.toNat + 2^33 ≤ 2^64) (fuel : Nat) (bases : ApicBases) :
    parseMadt fuel m madt bases = (RecordWalk.run (parseWalk m madt) fuel 44 bases.ioapic).1.map (fun ioapic =>
      { ioapic := ioapic, lapic := (madtLapicAddr m madt).setWidth 64 }) := by
  rw [← parseMadtLoop_eq_walk hplace fuel (by decide)]
  rfl

theorem acpiRemapIrq_eq_walk (hplace : madt.toNat + 2^33 ≤ 2^64) (fuel : Nat) (irq : BitVec 8) :
    acpiRemapIrq fuel m madt irq = (RecordWalk.run (remapWalk m madt irq) fuel 44 (irq.setWidth 16)).1 :=
  remapIrqLoop_eq_walk hplace irq fuel (by decide)

/-- Records of length 0 are what the loops can hang on. -/
theorem walk_size_ne_zero (off : Nat) :
    (madtByte m madt (off + 1)).toNat ≠ 0 ↔ madtByte m madt (off + 1) ≠ 0 := by
  rw [ne_eq, ne_eq, ← BitVec.toNat_inj]
  rfl

theorem parseMadt_returns_iff (hplace : madt.toNat + 2^33 ≤ 2^64) (bases : ApicBases) :
    (∃ fuel, parseMadt fuel m madt bases ≠ none) ↔
      ∀ off, RecordAt m madt off → madtByte m madt (off + 1) ≠ 0 := by
  have hloop : ∀ fuel, parseMadt fuel m madt bases ≠ none ↔
      (RecordWalk.run (parseWalk m madt) fuel 44 bases.ioapic).1 ≠ none := by
    intro fuel
    rw [parseMadt_eq_walk hplace, ne_eq, Option.map_eq_none_iff]
  rw [exists_congr hloop, RecordWalk.returns_iff]
  refine forall_congr' (fun off => imp_congr_right (fun _ => ?_))
  rw [← walk_size_ne_zero]
  exact ⟨fun h => h rfl, fun h _ => h⟩

theorem acpiRemapIrq_returns (hplace : madt.toNat + 2^33 ≤ 2^64) (irq : BitVec 8)
    (h : ∀ off, RecordAt m madt off → madtByte m madt (off + 1) ≠ 0) :
    ∃ fuel, acpiRemapIrq fuel m madt irq ≠ none := by
  obtain ⟨fuel, hfuel⟩ := (RecordWalk.returns_iff (remapWalk m madt irq) 44 (irq.setWidth 16)).mpr (by
    intro off hreach _
    exact (walk_size_ne_zero off).mpr (h off (RecordWalk.reached_iff.mp hreach).1))
  refine ⟨fuel, ?_⟩
  rw [acpiRemapIrq_eq_walk hplace]
  exact hfuel

end

/-- **When the walks over the MADT end.** For every table that `acpi_query`
    returns: `parse_madt` and, for every irq, `acpi_remap_irq` end if and only
    if no record they get to gives itself the length 0. -/
theorem madt_walks_end_iff (m : Mem) (higherHalf rsdp madt : BitVec 64) (hmap : DirectMap higherHalf)
    (hquery : (acpiQuery m higherHalf (acpiTables m higherHalf rsdp) apicQuery).1 = some (some madt))
    (bases : ApicBases) :
    ((∃ fuel, parseMadt fuel m madt bases ≠ none) ∧
        ∀ irq, ∃ fuel, acpiRemapIrq fuel m madt irq ≠ none) ↔
      ∀ off, RecordAt m madt off → madtByte m madt (off + 1) ≠ 0 := by
  have hplace := acpiQuery_placed hmap hquery
  refine ⟨?_, ?_⟩
  · intro h
    exact (parseMadt_returns_iff hplace bases).mp h.1
  · intro h
    exact ⟨(parseMadt_returns_iff hplace bases).mpr h, fun irq => acpiRemapIrq_returns hplace irq h⟩

/-- Once `acpi_init` is through, `acpi_remap_irq` ends too. -/
theorem acpiRemapIrq_returns_of_init {m : Mem} {higherHalf rsdp madt : BitVec 64} {fuel : Nat}
    {bases bases' : ApicBases} {t : AcpiTables} (hmap : DirectMap higherHalf)
    (hinit : acpiInit fuel m higherHalf rsdp bases = some (t, madt, bases')) (irq : BitVec 8) :
    ∃ fuel, acpiRemapIrq fuel m madt irq ≠ none := by
  obtain ⟨found, hfound, hinit⟩ := Option.bind_eq_some_iff.mp hinit
  obtain ⟨table, htable, hinit⟩ := Option.bind_eq_some_iff.mp hinit
  obtain ⟨parsed, hparse, hinit⟩ := Option.bind_eq_some_iff.mp hinit
  cases hinit
  have hplace := acpiQuery_placed hmap (hfound.trans (congrArg some htable))
  apply acpiRemapIrq_returns hplace irq
  apply (parseMadt_returns_iff hplace bases).mp
  exact ⟨fuel, by rw [hparse]; exact Option.some_ne_none _⟩

theorem directMap_hhdm : DirectMap hhdm := by
  unfold DirectMap
  decide

/-- One record of type 0 and length 0. -/
theorem madt_walks_end_iff_zero_length :
    (acpiQuery (firmware (shortMadt 0xB4 [0, 0])) hhdm
      (acpiTables (firmware (shortMadt 0xB4 [0, 0])) hhdm 0x500) apicQuery).1 = some (some shortMadtAddr) ∧
    ¬ ∃ fuel, parseMadt fuel (firmware (shortMadt 0xB4 [0, 0])) shortMadtAddr ⟨0, 0⟩ ≠ none := by
  refine ⟨by decide +kernel, ?_⟩
  intro hend
  have hrecord : RecordAt (firmware (shortMadt 0xB4 [0, 0])) shortMadtAddr 44 := .here (by decide +kernel)
  exact (parseMadt_returns_iff (by decide) ⟨0, 0⟩).mp hend 44 hrecord (by decide +kernel)

/-- With the length 2 it is the last record, and the walks end. -/
theorem madt_walks_end_iff_length_two :
    ∃ fuel, parseMadt fuel (firmware (shortMadt 0xB2 [0, 2])) shortMadtAddr ⟨0, 0⟩ ≠ none := by
  have hends := madt_walks_end_iff (firmware (shortMadt 0xB2 [0, 2])) hhdm 0x500 shortMadtAddr directMap_hhdm
    (by decide +kernel) ⟨0, 0⟩
  refine (hends.mpr ?_).1
  intro off hrecord
  rw [hrecord.eq_start (by decide +kernel)]
  decide +kernel

/-! What is read of the tables. -/

/-- Every entry `acpi_query` reads is inside the RSDT, for every query. -/
def RsdtReadsInside (m : Mem) (higherHalf : BitVec 64) (t : AcpiTables) : Prop :=
  ∀ query, ∀ i ∈ (acpiQuery m higherHalf t query).2, 36 + 4 * i + 4 ≤ (headerLength m t.rsdt).toNat

/-- Every byte the walks read is inside the MADT. -/
def MadtReadsInside (m : Mem) (madt : BitVec 64) : Prop :=
  (∀ ioapic fuel, ∀ r ∈ parseMadtReads m madt fuel ioapic, r < (madtLength m madt).toNat) ∧
    ∀ irq fuel, ∀ r ∈ acpiRemapIrqReads m madt fuel irq, r < (madtLength m madt).toNat

/-- An override of `irq` comes before `off`: `acpi_remap_irq` returns there. -/
def Overridden (m : Mem) (madt : BitVec 64) (irq : BitVec 8) (off : Nat) : Prop :=
  ∃ before, before < off ∧ RecordAt m madt before ∧
    madtByte m madt before = apicTypeInterruptOverride ∧ madtByte m madt (before + 3) = irq

/-- The table has its `lapic_addr`, and every record as much of itself as is
    looked at: type and length, the address of an I/O APIC, the source of an
    override when some irq was not overridden before, and the interrupt of the
    first override of its source. -/
structure RecordsFit (m : Mem) (madt : BitVec 64) : Prop where
  lapicAddr : 40 ≤ (madtLength m madt).toNat
  header : ∀ off, RecordAt m madt off → off + 2 ≤ (madtLength m madt).toNat
  ioApic : ∀ off, RecordAt m madt off → madtByte m madt off = apicTypeIoApic →
    off + 8 ≤ (madtLength m madt).toNat
  source : ∀ off, RecordAt m madt off → madtByte m madt off = apicTypeInterruptOverride →
    (∃ irq, ¬ Overridden m madt irq off) → off + 4 ≤ (madtLength m madt).toNat
  interrupt : ∀ off, RecordAt m madt off → madtByte m madt off = apicTypeInterruptOverride →
    ¬ Overridden m madt (madtByte m madt (off + 3)) off → off + 8 ≤ (madtLength m madt).toNat

section
variable {m : Mem} {higherHalf madt : BitVec 64}

theorem range'_lt_iff {a n b : Nat} (hn : 0 < n) : (∀ r ∈ List.range' a n, r < b) ↔ a + n ≤ b := by
  refine ⟨?_, ?_⟩
  · intro h
    have := h (a + n - 1) (List.mem_range'_1.mpr (by omega))
    omega
  · intro h r hr
    have := List.mem_range'_1.mp hr
    omega

/-- The reads are inside only for an RSDT of at least its header's length: the
    count of a shorter one wraps around. -/
theorem rsdtReadsInside_iff (rsdp : BitVec 64) :
    RsdtReadsInside m higherHalf (acpiTables m higherHalf rsdp) ↔
      36 ≤ (headerLength m (acpiTables m higherHalf rsdp).rsdt).toNat := by
  refine ⟨?_, ?_⟩
  · intro h
    by_contra hshort
    have hcount : 0 < (acpiTables m higherHalf rsdp).rsdtEntryCount.toNat := by
      have hlt := (headerLength m (acpiTables m higherHalf rsdp).rsdt).isLt
      rw [rsdtEntryCount_toNat]
      omega
    have hfirst := h apicQuery 0 ((acpiQueryLoop_reads _ _ 0 _).2 hcount)
    omega
  · intro h query i hi
    have hlt := (acpiQueryLoop_reads _ _ 0 _).1 i hi
    rw [rsdtEntryCount_of_le h] at hlt
    omega

theorem parseReads_lt_iff (off b : Nat) : (∀ r ∈ (parseWalk m madt).reads off, r < b) ↔
    off + 2 ≤ b ∧ (madtByte m madt off = apicTypeIoApic → off + 8 ≤ b) := by
  have hreads : (parseWalk m madt).reads off =
      off :: (if madtByte m madt off = apicTypeIoApic then List.range' (off + 4) 4 else []) ++ [off + 1] := rfl
  rw [hreads]
  by_cases htype : madtByte m madt off = apicTypeIoApic
  · simp only [htype, if_true, true_imp_iff]
    rw [List.cons_append, List.forall_mem_cons, List.forall_mem_append, range'_lt_iff (by decide)]
    simp only [List.mem_singleton, forall_eq]
    omega
  · simp only [htype, if_false, false_imp_iff, and_true]
    rw [List.cons_append, List.nil_append]
    simp only [List.mem_cons, List.not_mem_nil, or_false, forall_eq_or_imp, forall_eq]
    omega

theorem remapReads_lt_iff (irq : BitVec 8) (off b : Nat) :
    (∀ r ∈ (remapWalk m madt irq).reads off, r < b) ↔
      if madtByte m madt off = apicTypeInterruptOverride then
        off + (if madtByte m madt (off + 3) = irq then 8 else 4) ≤ b
      else off + 2 ≤ b := by
  have hreads : (remapWalk m madt irq).reads off =
      if madtByte m madt off = apicTypeInterruptOverride then
        if madtByte m madt (off + 3) = irq then [off, off + 3] ++ List.range' (off + 4) 4
        else [off, off + 3, off + 1]
      else [off, off + 1] := rfl
  rw [hreads]
  by_cases htype : madtByte m madt off = apicTypeInterruptOverride
  · rw [if_pos htype, if_pos htype]
    by_cases hirq : madtByte m madt (off + 3) = irq
    · rw [if_pos hirq, if_pos hirq, List.forall_mem_append, range'_lt_iff (by decide)]
      simp only [List.mem_cons, List.not_mem_nil, or_false, forall_eq_or_imp, forall_eq]
      omega
    · rw [if_neg hirq, if_neg hirq]
      simp only [List.mem_cons, List.not_mem_nil, or_false, forall_eq_or_imp, forall_eq]
      omega
  · rw [if_neg htype, if_neg htype]
    simp only [List.mem_cons, List.not_mem_nil, or_false, forall_eq_or_imp, forall_eq]
    omega

/-- The records `acpi_remap_irq` gets to: those before which the irq was not
    overridden. -/
theorem remap_reached_iff (irq : BitVec 8) (off : Nat) :
    RecordWalk.Reached (remapWalk m madt irq).stop (remapWalk m madt irq).size (remapWalk m madt irq).done
      44 off ↔ RecordAt m madt off ∧ ¬ Overridden m madt irq off := by
  rw [RecordWalk.reached_iff]
  refine and_congr_right (fun _ => ?_)
  refine ⟨?_, ?_⟩
  · intro h hover
    obtain ⟨before, hlt, hrecord, htype, hsource⟩ := hover
    exact of_decide_eq_false (h before hlt hrecord) ⟨htype, hsource⟩
  · intro h before hlt hrecord
    apply decide_eq_false
    intro hmatch
    exact h ⟨before, hlt, hrecord, hmatch.1, hmatch.2⟩

theorem parseMadtReads_lt_iff (ioapic : BitVec 64) :
    (∀ fuel, ∀ r ∈ parseMadtReads m madt fuel ioapic, r < (madtLength m madt).toNat) ↔
      40 ≤ (madtLength m madt).toNat ∧ ∀ off, RecordAt m madt off → off + 2 ≤ (madtLength m madt).toNat ∧
        (madtByte m madt off = apicTypeIoApic → off + 8 ≤ (madtLength m madt).toNat) := by
  simp only [parseMadtReads, List.forall_mem_append, forall_and, forall_const,
    range'_lt_iff (show 0 < 4 by decide), RecordWalk.reads_iff, parseReads_lt_iff]
  refine ⟨?_, ?_⟩
  · intro h
    exact ⟨h.1.1, h.2⟩
  · intro h
    exact ⟨⟨h.1, Nat.le_trans (by decide) h.1⟩, h.2⟩

theorem acpiRemapIrqReads_lt_iff (irq : BitVec 8) :
    (∀ fuel, ∀ r ∈ acpiRemapIrqReads m madt fuel irq, r < (madtLength m madt).toNat) ↔
      8 ≤ (madtLength m madt).toNat ∧ ∀ off, RecordAt m madt off → ¬ Overridden m madt irq off →
        if madtByte m madt off = apicTypeInterruptOverride then
          off + (if madtByte m madt (off + 3) = irq then 8 else 4) ≤ (madtLength m madt).toNat
        else off + 2 ≤ (madtLength m madt).toNat := by
  simp only [acpiRemapIrqReads, List.forall_mem_append, forall_and, forall_const,
    range'_lt_iff (show 0 < 4 by decide), RecordWalk.reads_iff, remapReads_lt_iff, remap_reached_iff,
    and_imp]

theorem madtReadsInside_iff : MadtReadsInside m madt ↔ RecordsFit m madt := by
  rw [MadtReadsInside]
  simp only [parseMadtReads_lt_iff, acpiRemapIrqReads_lt_iff]
  refine ⟨?_, ?_⟩
  · intro h
    obtain ⟨hp, hr⟩ := h
    obtain ⟨hlapic, hrecords⟩ := hp 0
    refine ⟨hlapic, fun off ho => (hrecords off ho).1, fun off ho => (hrecords off ho).2, ?_, ?_⟩
    · intro off ho htype hnot
      obtain ⟨irq, hnot⟩ := hnot
      have hfits := (hr irq).2 off ho hnot
      rw [if_pos htype] at hfits
      split at hfits
      · omega
      · exact hfits
    · intro off ho htype hnot
      have hfits := (hr _).2 off ho hnot
      rwa [if_pos htype, if_pos rfl] at hfits
  · intro h
    refine ⟨fun _ => ⟨h.lapicAddr, fun off ho => ⟨h.header off ho, h.ioApic off ho⟩⟩, ?_⟩
    intro irq
    refine ⟨Nat.le_trans (by decide) h.lapicAddr, ?_⟩
    intro off ho hnot
    by_cases htype : madtByte m madt off = apicTypeInterruptOverride
    · rw [if_pos htype]
      by_cases hirq : madtByte m madt (off + 3) = irq
      · rw [if_pos hirq]
        exact h.interrupt off ho htype (hirq ▸ hnot)
      · rw [if_neg hirq]
        exact h.source off ho htype ⟨irq, hnot⟩
    · rw [if_neg htype]
      exact h.header off ho

end

/-- **When ACPI parsing stays inside the tables.** For every firmware image:
    `acpi_query` reads only entries inside the RSDT, and `parse_madt` and
    `acpi_remap_irq` only bytes inside the MADT, if and only if the RSDT is not
    shorter than its header and the MADT has its `lapic_addr` and, of every
    record, what is looked at. -/
theorem acpi_reads_inside_iff (m : Mem) (higherHalf rsdp madt : BitVec 64) :
    (RsdtReadsInside m higherHalf (acpiTables m higherHalf rsdp) ∧ MadtReadsInside m madt) ↔
      36 ≤ (headerLength m (acpiTables m higherHalf rsdp).rsdt).toNat ∧ RecordsFit m madt := by
  rw [rsdtReadsInside_iff, madtReadsInside_iff]

/-- One record of type 1 with a length of 2: its address is behind the table. -/
theorem acpi_reads_inside_iff_cut_record :
    (acpiQuery (firmware (shortMadt 0xB1 [1, 2])) hhdm
      (acpiTables (firmware (shortMadt 0xB1 [1, 2])) hhdm 0x500) apicQuery).1 = some (some shortMadtAddr) ∧
    (∀ off, RecordAt (firmware (shortMadt 0xB1 [1, 2])) shortMadtAddr off →
      2 ≤ (madtByte (firmware (shortMadt 0xB1 [1, 2])) shortMadtAddr (off + 1)).toNat) ∧
    ¬ MadtReadsInside (firmware (shortMadt 0xB1 [1, 2])) shortMadtAddr := by
  refine ⟨by decide +kernel, ?_, ?_⟩
  · intro off hrecord
    rw [hrecord.eq_start (by decide +kernel)]
    decide +kernel
  · intro hinside
    have hrecord : RecordAt (firmware (shortMadt 0xB1 [1, 2])) shortMadtAddr 44 := .here (by decide +kernel)
    have hfits := (madtReadsInside_iff.mp hinside).ioApic 44 hrecord (by decide +kernel)
    exact absurd hfits (by decide +kernel)

end Qnixx
