import Mathlib.Algebra.Group.Nat.Defs
import Qnixx.Lib.ByteMem

/- The MADT (`acpi/acpi.c`, `acpi/def.h`): `parse_madt` and `acpi_remap_irq`
   each walk the entries behind the 44-byte header with a byte cursor that
   every entry's own length byte moves on. The loops take fuel; `none` means it
   ran out. The second half of the module is the table as the firmware lays it
   out, and what the two loops read from it. -/
namespace Qnixx
open ByteMem

def apicTypeIoApic : BitVec 8 := 1
def apicTypeInterruptOverride : BitVec 8 := 2

/-- `g_ioapic_mmio_base` and `g_lapic_mmio_base`. -/
structure ApicBases where
  ioapic : BitVec 64
  lapic : BitVec 64
  deriving DecidableEq

/-- `madt->header.length`, `madt->lapic_addr` and `madt + 1`. -/
def madtLength (m : Mem) (madt : BitVec 64) : BitVec 32 := load32 m (madt + 4)
def madtLapicAddr (m : Mem) (madt : BitVec 64) : BitVec 32 := load32 m (madt + 36)
def madtEntries (madt : BitVec 64) : BitVec 64 := madt + 44

/-- The loop of `parse_madt`; `fin` is its `end`. -/
def parseMadtLoop (m : Mem) (fin : BitVec 64) : Nat → BitVec 64 → BitVec 64 → Option (BitVec 64)
  | 0, _, _ => none
  | fuel + 1, cur, ioapic =>
    if cur < fin then
      let ioapic := if m cur = apicTypeIoApic then (load32 m (cur + 4)).setWidth 64 else ioapic
      parseMadtLoop m fin fuel (cur + (m (cur + 1)).setWidth 64) ioapic
    else some ioapic

def parseMadt (fuel : Nat) (m : Mem) (madt : BitVec 64) (bases : ApicBases) : Option ApicBases :=
  let lapic := (madtLapicAddr m madt).setWidth 64
  let fin := madt + (madtLength m madt).setWidth 64
  (parseMadtLoop m fin fuel (madtEntries madt) bases.ioapic).map (fun ioapic =>
    { ioapic := ioapic, lapic := lapic })

/-- The loop of `acpi_remap_irq`: `source` is at offset 3, `interrupt` at 4. -/
def remapIrqLoop (m : Mem) (fin : BitVec 64) (irq : BitVec 8) : Nat → BitVec 64 → Option (BitVec 16)
  | 0, _ => none
  | fuel + 1, cur =>
    if cur < fin then
      if m cur = apicTypeInterruptOverride ∧ m (cur + 3) = irq then
        some ((load32 m (cur + 4)).setWidth 16)
      else remapIrqLoop m fin irq fuel (cur + (m (cur + 1)).setWidth 64)
    else some (irq.setWidth 16)

def acpiRemapIrq (fuel : Nat) (m : Mem) (madt : BitVec 64) (irq : BitVec 8) : Option (BitVec 16) :=
  remapIrqLoop m (madt + (madtLength m madt).setWidth 64) irq fuel (madtEntries madt)

/-! The table the firmware lays out. -/

/-- An entry; `extra` is what a longer entry has behind the fields of
    `io_apic_t` and `apic_interrupt_override_t`. -/
inductive MadtEntry where
  | ioApic (id reserved : BitVec 8) (addr gsiBase : BitVec 32) (extra : List (BitVec 8))
  | interruptOverride (bus source : BitVec 8) (interrupt : BitVec 32) (flags : BitVec 16)
      (extra : List (BitVec 8))
  | other (type : BitVec 8) (body : List (BitVec 8))

namespace MadtEntry

def type : MadtEntry → BitVec 8
  | ioApic .. => apicTypeIoApic
  | interruptOverride .. => apicTypeInterruptOverride
  | other type _ => type

/-- The entry behind its type and length bytes. -/
def body : MadtEntry → List (BitVec 8)
  | ioApic id reserved addr gsiBase extra => id :: reserved :: (bytes32 addr ++ bytes32 gsiBase ++ extra)
  | interruptOverride bus source interrupt flags extra =>
    bus :: source :: (bytes32 interrupt ++ bytes16 flags ++ extra)
  | other _ body => body

def size (e : MadtEntry) : Nat := e.body.length + 2

def bytes (e : MadtEntry) : List (BitVec 8) := e.type :: BitVec.ofNat 8 e.size :: e.body

/-- The length fits its byte, a GSI 16 bits, and an entry of type 1 or 2 has
    that type's fields. -/
def Wf (e : MadtEntry) : Prop :=
  e.size < 256 ∧
    match e with
    | ioApic .. => True
    | interruptOverride _ _ interrupt _ _ => interrupt.toNat < 65536
    | other type _ => type ≠ apicTypeIoApic ∧ type ≠ apicTypeInterruptOverride

instance : (e : MadtEntry) → Decidable e.Wf
  | ioApic .. => inferInstanceAs (Decidable (_ ∧ True))
  | interruptOverride _ _ interrupt _ _ => inferInstanceAs (Decidable (_ ∧ interrupt.toNat < 65536))
  | other type _ =>
    inferInstanceAs (Decidable (_ ∧ (type ≠ apicTypeIoApic ∧ type ≠ apicTypeInterruptOverride)))

/-- The address of an I/O APIC. -/
def ioApicAddr : MadtEntry → Option (BitVec 32)
  | ioApic _ _ addr _ _ => some addr
  | _ => none

/-- The interrupt an override gives to `irq`. -/
def overrides (irq : BitVec 8) : MadtEntry → Option (BitVec 32)
  | interruptOverride _ source interrupt _ _ => if source = irq then some interrupt else none
  | _ => none

end MadtEntry

/-- The entries one behind the other. -/
def entryBytes : List MadtEntry → List (BitVec 8)
  | [] => []
  | e :: es => e.bytes ++ entryBytes es

/-- A MADT: `oem` is the part of the header between its length and
    `lapic_addr`. -/
structure Madt where
  signature : List (BitVec 8)
  oem : List (BitVec 8)
  lapicAddr : BitVec 32
  flags : BitVec 32
  entries : List MadtEntry
  signatureSize : signature.length = 4
  oemSize : oem.length = 28
  wf : ∀ e ∈ entries, e.Wf
  fits : 44 + (entryBytes entries).length < 2^32

namespace Madt

def size (t : Madt) : Nat := 44 + (entryBytes t.entries).length

/-- The table in memory; `header.length` is its size. -/
def bytes (t : Madt) : List (BitVec 8) :=
  t.signature ++ (bytes32 (BitVec.ofNat 32 t.size) ++ (t.oem ++
    (bytes32 t.lapicAddr ++ (bytes32 t.flags ++ entryBytes t.entries))))

end Madt

/-! One entry in memory. -/

theorem apicType_ne : apicTypeIoApic ≠ apicTypeInterruptOverride := by decide

section
variable {m : Mem} {cur : BitVec 64} {e : MadtEntry}

theorem MadtEntry.bytes_length (e : MadtEntry) : e.bytes.length = e.size := rfl

theorem MadtEntry.read_type (h : Holds m cur e.bytes) : m cur = e.type := by
  simpa using h 0 e.type rfl

theorem MadtEntry.read_length (h : Holds m cur e.bytes) : m (cur + 1) = BitVec.ofNat 8 e.size :=
  h 1 _ rfl

/-- The word at offset 4 of an I/O APIC entry. -/
theorem MadtEntry.read_addr {addr : BitVec 32} (h : Holds m cur e.bytes)
    (he : e.ioApicAddr = some addr) : load32 m (cur + 4) = addr := by
  cases e with
  | ioApic id reserved addr' gsiBase extra =>
    cases he
    have hb : bytes (.ioApic id reserved addr gsiBase extra) =
        [apicTypeIoApic, BitVec.ofNat 8 (size (.ioApic id reserved addr gsiBase extra)), id, reserved] ++
          (bytes32 addr ++ (bytes32 gsiBase ++ extra)) := by
      simp only [bytes, type, body, List.cons_append, List.nil_append, List.append_assoc]
    rw [hb] at h
    exact h.load32_after
  | interruptOverride => cases he
  | other => cases he

/-- The source of an override, and the word at offset 4. -/
theorem MadtEntry.read_override {bus source : BitVec 8} {interrupt : BitVec 32} {flags : BitVec 16}
    {extra : List (BitVec 8)}
    (h : Holds m cur (bytes (.interruptOverride bus source interrupt flags extra))) :
    m (cur + 3) = source ∧ load32 m (cur + 4) = interrupt := by
  have hb : bytes (.interruptOverride bus source interrupt flags extra) =
      [apicTypeInterruptOverride, BitVec.ofNat 8 (size (.interruptOverride bus source interrupt flags extra)),
        bus, source] ++ (bytes32 interrupt ++ (bytes16 flags ++ extra)) := by
    simp only [bytes, type, body, List.cons_append, List.nil_append, List.append_assoc]
  rw [hb] at h
  exact ⟨h 3 _ rfl, h.load32_after⟩

/-- The cursor moves to the next entry. -/
theorem MadtEntry.advance (h : Holds m cur e.bytes) (hw : e.Wf) :
    cur + (m (cur + 1)).setWidth 64 = cur + BitVec.ofNat 64 e.bytes.length := by
  have hsize := hw.1
  rw [read_length h, bytes_length]
  bv_omega

/-- What the body of `parse_madt`'s loop does with an entry. -/
theorem MadtEntry.parse (h : Holds m cur e.bytes) (hw : e.Wf) (ioapic : BitVec 64) :
    (if m cur = apicTypeIoApic then (load32 m (cur + 4)).setWidth 64 else ioapic) =
      (e.ioApicAddr.map (BitVec.setWidth 64)).getD ioapic := by
  rw [read_type h]
  cases e with
  | ioApic id reserved addr gsiBase extra =>
    rw [read_addr h rfl]
    exact if_pos rfl
  | interruptOverride bus source interrupt flags extra => exact if_neg apicType_ne.symm
  | other type body => exact if_neg hw.2.1

/-- What the body of `acpi_remap_irq`'s loop does with an entry. -/
theorem MadtEntry.remap (h : Holds m cur e.bytes) (hw : e.Wf) (irq : BitVec 8) (next : Option (BitVec 16)) :
    (if m cur = apicTypeInterruptOverride ∧ m (cur + 3) = irq then
      some ((load32 m (cur + 4)).setWidth 16) else next) =
      ((e.overrides irq).map (BitVec.setWidth 16)).or next := by
  rw [read_type h]
  cases e with
  | ioApic id reserved addr gsiBase extra => exact if_neg (fun hc => apicType_ne hc.1)
  | interruptOverride bus source interrupt flags extra =>
    obtain ⟨hsource, hword⟩ := read_override h
    rw [hsource, hword]
    by_cases hirq : source = irq
    · simp [type, overrides, hirq]
    · simp [type, overrides, hirq]
  | other type body => exact if_neg (fun hc => hw.2.2 hc.1)

end

/-! The loops over a table. -/

section
variable {m : Mem} {cur fin : BitVec 64} {es : List MadtEntry} {fuel : Nat}

/-- Behind the last entry the cursor is at the end. -/
theorem entries_nil (hfin : cur.toNat + (entryBytes []).length = fin.toNat) : ¬ cur < fin := by
  rw [BitVec.lt_def]
  simp only [entryBytes, List.length_nil] at hfin
  omega

/-- Before an entry the cursor is not at the end, and behind it the rest of
    the table starts. -/
theorem entries_cons {e : MadtEntry} (hw : e.Wf) (h : Holds m cur (entryBytes (e :: es)))
    (hfin : cur.toNat + (entryBytes (e :: es)).length = fin.toNat) :
    cur < fin ∧ Holds m cur e.bytes ∧
      Holds m (cur + (m (cur + 1)).setWidth 64) (entryBytes es) ∧
      (cur + (m (cur + 1)).setWidth 64).toNat + (entryBytes es).length = fin.toNat := by
  obtain ⟨he, hes⟩ := holds_append.mp h
  have hsize : e.bytes.length = e.body.length + 2 := rfl
  have hfinlt := fin.isLt
  rw [entryBytes, List.length_append] at hfin
  rw [MadtEntry.advance he hw]
  refine ⟨?_, he, hes, ?_⟩
  · rw [BitVec.lt_def]
    omega
  · rw [BitVec.toNat_add, BitVec.toNat_ofNat]
    omega

theorem parseMadtLoop_entries (hw : ∀ e ∈ es, e.Wf) (h : Holds m cur (entryBytes es))
    (hfin : cur.toNat + (entryBytes es).length = fin.toNat) (hfuel : es.length < fuel)
    (ioapic : BitVec 64) :
    parseMadtLoop m fin fuel cur ioapic =
      some (((es.filterMap MadtEntry.ioApicAddr).getLast?.map (BitVec.setWidth 64)).getD ioapic) := by
  induction es generalizing cur fuel ioapic with
  | nil =>
    obtain ⟨fuel, rfl⟩ := Nat.exists_eq_add_of_lt hfuel
    rw [List.length_nil, Nat.zero_add, parseMadtLoop, if_neg (entries_nil hfin)]
    rfl
  | cons e es ih =>
    obtain ⟨fuel, rfl⟩ : ∃ k, fuel = k + 1 := ⟨fuel - 1, by omega⟩
    obtain ⟨hlt, he, hes, hend⟩ := entries_cons (hw e (by simp)) h hfin
    rw [parseMadtLoop, if_pos hlt, MadtEntry.parse he (hw e (by simp)),
      ih (fun e' he' => hw e' (List.mem_cons_of_mem _ he')) hes hend (by simpa using hfuel)]
    -- the address of this entry counts only if no later entry has one
    cases ha : e.ioApicAddr with
    | none => rw [List.filterMap_cons_none ha]; rfl
    | some addr =>
      rw [List.filterMap_cons_some ha, List.getLast?_cons]
      cases (es.filterMap MadtEntry.ioApicAddr).getLast? <;> rfl

theorem remapIrqLoop_entries (irq : BitVec 8) (hw : ∀ e ∈ es, e.Wf) (h : Holds m cur (entryBytes es))
    (hfin : cur.toNat + (entryBytes es).length = fin.toNat) (hfuel : es.length < fuel) :
    remapIrqLoop m fin irq fuel cur =
      some (((es.findSome? (MadtEntry.overrides irq)).map (BitVec.setWidth 16)).getD (irq.setWidth 16)) := by
  induction es generalizing cur fuel with
  | nil =>
    obtain ⟨fuel, rfl⟩ := Nat.exists_eq_add_of_lt hfuel
    rw [List.length_nil, Nat.zero_add, remapIrqLoop, if_neg (entries_nil hfin)]
    rfl
  | cons e es ih =>
    obtain ⟨fuel, rfl⟩ : ∃ k, fuel = k + 1 := ⟨fuel - 1, by omega⟩
    obtain ⟨hlt, he, hes, hend⟩ := entries_cons (hw e (by simp)) h hfin
    -- unlike `parse_madt`, this loop stops at its first match
    rw [remapIrqLoop, if_pos hlt, MadtEntry.remap he (hw e (by simp)),
      ih (fun e' he' => hw e' (List.mem_cons_of_mem _ he')) hes hend (by simpa using hfuel),
      List.findSome?_cons]
    cases e.overrides irq with
    | none => rfl
    | some interrupt => rfl

end

/-- What the header of a table says. -/
theorem Madt.read {m : Mem} {madt : BitVec 64} {t : Madt} (h : Holds m madt t.bytes) :
    (madtLength m madt).toNat = t.size ∧ madtLapicAddr m madt = t.lapicAddr ∧
      Holds m (madtEntries madt) (entryBytes t.entries) := by
  obtain ⟨-, h4⟩ := holds_append.mp h
  obtain ⟨hlength, h8⟩ := holds_append.mp h4
  obtain ⟨-, h36⟩ := holds_append.mp h8
  obtain ⟨hlapic, h40⟩ := holds_append.mp h36
  obtain ⟨-, h44⟩ := holds_append.mp h40
  have hword : ∀ v : BitVec 32, (bytes32 v).length = 4 := fun _ => rfl
  simp only [t.signatureSize, t.oemSize, hword, BitVec.add_assoc] at hlength hlapic h44
  refine ⟨?_, hlapic.load32, h44⟩
  have hval : madtLength m madt = BitVec.ofNat 32 t.size := hlength.load32
  rw [hval, BitVec.toNat_ofNat]
  exact Nat.mod_eq_of_lt t.fits

/-- A GSI below 65536 is what `acpi_remap_irq` can return of it. -/
theorem MadtEntry.overrides_small {es : List MadtEntry} (hw : ∀ e ∈ es, e.Wf) {irq : BitVec 8}
    {interrupt : BitVec 32} (h : es.findSome? (overrides irq) = some interrupt) :
    interrupt.toNat < 65536 := by
  obtain ⟨e, he, hover⟩ := List.exists_of_findSome?_eq_some h
  have hwf := hw e he
  cases e with
  | ioApic => cases hover
  | interruptOverride bus source interrupt' flags extra =>
    simp only [overrides, Option.ite_none_right_eq_some, Option.some.injEq] at hover
    exact hover.2 ▸ hwf.2
  | other => cases hover

/-- **MADT decoding.** For every table in memory, with fuel for its entries:
    `parse_madt` leaves the address of the last I/O APIC entry (or what was
    there) and the header's `lapic_addr`, and `acpi_remap_irq` returns the
    interrupt of the first override for the irq, or the irq. -/
theorem madt_decoded (t : Madt) (m : Mem) (madt : BitVec 64) (hm : Holds m madt t.bytes)
    (hplace : madt.toNat + t.size < 2^64) (bases : ApicBases) (fuel : Nat)
    (hfuel : t.entries.length < fuel) :
    parseMadt fuel m madt bases = some
      { ioapic := ((t.entries.filterMap MadtEntry.ioApicAddr).getLast?.map (BitVec.setWidth 64)).getD
          bases.ioapic
        lapic := t.lapicAddr.setWidth 64 } ∧
    ∀ irq, (acpiRemapIrq fuel m madt irq).map BitVec.toNat =
      some (((t.entries.findSome? (MadtEntry.overrides irq)).map BitVec.toNat).getD irq.toNat) := by
  obtain ⟨hlength, hlapic, hentries⟩ := Madt.read hm
  have hfin : (madtEntries madt).toNat + (entryBytes t.entries).length =
      (madt + (madtLength m madt).setWidth 64).toNat := by
    have hsize : t.size = 44 + (entryBytes t.entries).length := rfl
    have hwide : ((madtLength m madt).setWidth 64).toNat = t.size := by
      rw [BitVec.toNat_setWidth, hlength]
      omega
    have hstart : (madtEntries madt).toNat = madt.toNat + 44 := by
      rw [madtEntries]
      bv_omega
    rw [BitVec.toNat_add, hwide, hstart]
    omega
  refine ⟨?_, ?_⟩
  · rw [parseMadt, parseMadtLoop_entries t.wf hentries hfin hfuel, hlapic]
    rfl
  · intro irq
    rw [acpiRemapIrq, remapIrqLoop_entries irq t.wf hentries hfin hfuel, Option.map_some]
    congr 1
    -- the return type has 16 bits: wide enough for an irq, and for a GSI by `Wf`
    cases hfind : t.entries.findSome? (MadtEntry.overrides irq) with
    | none =>
      have hirq := irq.isLt
      simp only [Option.map_none, Option.getD_none, BitVec.toNat_setWidth]
      omega
    | some interrupt =>
      have hsmall := MadtEntry.overrides_small t.wf hfind
      simp only [Option.map_some, Option.getD_some, BitVec.toNat_setWidth]
      omega

/-- A local APIC, an I/O APIC and the override of the timer's IRQ. -/
def pcMadt : Madt :=
  { signature := [0x41, 0x50, 0x49, 0x43]
    oem := List.replicate 28 0
    lapicAddr := 0xfee00000
    flags := 1
    entries := [.other 0 [0, 0, 1, 0, 0, 0], .ioApic 1 0 0xfec00000 0 [], .interruptOverride 0 0 2 0 []]
    signatureSize := rfl
    oemSize := rfl
    wf := by decide
    fits := by decide }

theorem pcMadt_decoded :
    parseMadt 4 (storeBytes (fun _ => 0) 0x1000 pcMadt.bytes) 0x1000 ⟨0, 0⟩ =
        some ⟨0xfec00000, 0xfee00000⟩ ∧
      (acpiRemapIrq 4 (storeBytes (fun _ => 0) 0x1000 pcMadt.bytes) 0x1000 0).map BitVec.toNat = some 2 := by
  obtain ⟨hparse, hremap⟩ := madt_decoded pcMadt (storeBytes (fun _ => 0) 0x1000 pcMadt.bytes) 0x1000
    (holds_storeBytes _ _ (by decide)) (by decide) ⟨0, 0⟩ 4 (by decide)
  exact ⟨hparse.trans (by decide), (hremap 0).trans (by decide)⟩

end Qnixx
