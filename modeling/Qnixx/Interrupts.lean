import Mathlib.Data.List.Induction
import Mathlib.Tactic.Common
import Qnixx.Lib.Runs
import Qnixx.Madt

/- Interrupt routing (`amd64/interrupts.c`, `amd64/ioapic.c`, `amd64/idt.c`).
   `register_irq` puts an ISR into the IDT and the vector into a redirection
   entry of the I/O APIC. It computes the vector twice: for the IDT in eight
   bits, where it wraps into the exception gates, and for the entry in an `int`,
   where the carry ends up in the delivery mode. -/
namespace Qnixx
open ByteMem

/-! The IDT. -/

/-- `idt_gate_descriptor_t`. -/
structure IdtGate where
  isrLow16 : BitVec 16
  cs : BitVec 16
  ist : BitVec 2
  zero : BitVec 4
  attr : BitVec 4
  zero1 : BitVec 1
  dpl : BitVec 2
  p : BitVec 1
  isrMid16 : BitVec 16
  isrHigh32 : BitVec 32
  reserved : BitVec 32
  deriving DecidableEq

abbrev Idt := BitVec 8 → IdtGate

def idtIntGateFlags : BitVec 8 := 0x8E

/-- The descriptor `idt_set_desc` writes. -/
def idtDesc (isr : BitVec 64) (flags : BitVec 8) : IdtGate :=
  { isrLow16 := isr.setWidth 16
    cs := 0x28
    ist := 0
    zero := 0
    attr := flags.setWidth 4
    zero1 := 0
    dpl := 3
    p := 1
    isrMid16 := (isr >>> 16).setWidth 16
    isrHigh32 := (isr >>> 32).setWidth 32
    reserved := 0 }

def idtSetDesc (idt : Idt) (vector : BitVec 8) (isr : BitVec 64) (flags : BitVec 8) : Idt :=
  fun v => if v = vector then idtDesc isr flags else idt v

def registerInterrupt (idt : Idt) (vector : BitVec 8) (isr : BitVec 64) : Idt :=
  idtSetDesc idt vector isr idtIntGateFlags

/-! The I/O APIC. -/

/-- The device: IOREGSEL, and the registers it selects for IOWIN. The status
    bits 12 and 14 of a redirection entry, which software cannot write, are not
    told apart. -/
structure IoApic where
  ioregsel : BitVec 8
  regs : BitVec 8 → BitVec 32

def IoApic.writeSel (apic : IoApic) (reg : BitVec 8) : IoApic := { apic with ioregsel := reg }

def IoApic.readWin (apic : IoApic) : BitVec 32 := apic.regs apic.ioregsel

def IoApic.writeWin (apic : IoApic) (value : BitVec 32) : IoApic :=
  { apic with regs := fun reg => if reg = apic.ioregsel then value else apic.regs reg }

def ioapicver : BitVec 8 := 0x01
def ioredtbl : BitVec 8 := 0x10

def readMmio (apic : IoApic) (reg : BitVec 8) : IoApic × BitVec 32 :=
  (apic.writeSel reg, (apic.writeSel reg).readWin)

def writeMmio (apic : IoApic) (reg : BitVec 8) (value : BitVec 32) : IoApic :=
  (apic.writeSel reg).writeWin value

def ioapicSetEntry (apic : IoApic) (index : BitVec 8) (data : BitVec 64) : IoApic :=
  let apic := writeMmio apic (ioredtbl + index * 2) (data.setWidth 32)
  writeMmio apic (ioredtbl + index * 2 + 1) ((data >>> 32).setWidth 32)

/-- `max_redirection_entries`, from the version register. -/
def entryCount (version : BitVec 32) : Nat := ((version >>> 16) &&& 0xFF).toNat + 1

def ioapicInit (apic : IoApic) : IoApic :=
  let (apic, version) := readMmio apic ioapicver
  (List.range (entryCount version)).foldl
    (fun apic i => ioapicSetEntry apic (BitVec.ofNat 8 i) (1#64 <<< 16)) apic

/-- A redirection entry: its two registers. -/
def IoApic.entry (apic : IoApic) (i : Nat) : BitVec 64 :=
  apic.regs (ioredtbl + BitVec.ofNat 8 i * 2 + 1) ++ apic.regs (ioredtbl + BitVec.ofNat 8 i * 2)

/-- The fields of an entry: vector, delivery mode and mask. -/
def entryVector (entry : BitVec 64) : BitVec 8 := entry.setWidth 8
def entryDelivery (entry : BitVec 64) : BitVec 3 := (entry >>> 8).setWidth 3
def entryMasked (entry : BitVec 64) : Bool := entry.getLsbD 16

/-! Registering interrupts. -/

structure IntrState where
  idt : Idt
  apic : IoApic

/-- A call of `register_irq`. -/
structure IrqCall where
  irq : BitVec 8
  isr : BitVec 64

/-- `register_irq`, with the MADT at `madt` in the memory `m`; `none` when
    `acpi_remap_irq` does not return. -/
def registerIrq (fuel : Nat) (m : Mem) (madt : BitVec 64) (s : IntrState) (c : IrqCall) :
    Option IntrState := do
  let idt := registerInterrupt s.idt (0x20 + c.irq) c.isr
  let index ← acpiRemapIrq fuel m madt c.irq
  some { idt, apic := ioapicSetEntry s.apic (index.setWidth 8) (0x20 + c.irq.setWidth 64) }

/-- `alloc_int_vector`: what it returns, and the static `vector` after it. -/
def allocIntVector (vector : BitVec 8) : BitVec 8 × BitVec 8 :=
  if vector ≥ 255 then (0, vector) else (vector, vector + 1)

/-- The static `vector` after `n` calls. -/
def allocatedUpTo : Nat → BitVec 8
  | 0 => 0x81
  | n + 1 => (allocIntVector (allocatedUpTo n)).2

/-- Some call of `alloc_int_vector` gives the vector out; 0 is its failure. -/
def GivenOut (v : BitVec 8) : Prop := v ≠ 0 ∧ ∃ n, (allocIntVector (allocatedUpTo n)).1 = v

/-! What the registers hold. -/

theorem halves (data : BitVec 64) : (data >>> 32).setWidth 32 ++ data.setWidth 32 = data := by
  apply BitVec.eq_of_getLsbD_eq
  intro k hk
  rw [BitVec.getLsbD_append]
  by_cases hlow : k < 32
  · simp [hlow]
  · have hsum : 32 + (k - 32) = k := by omega
    simp [hlow, hsum]
    omega

theorem entry_setEntry (apic : IoApic) {index : BitVec 8} (hindex : index.toNat < 120) (data : BitVec 64)
    {i : Nat} (hi : i < 120) :
    (ioapicSetEntry apic index data).entry i = if i = index.toNat then data else apic.entry i := by
  have hlow : ioredtbl + BitVec.ofNat 8 i * 2 = ioredtbl + index * 2 ↔ i = index.toNat := by
    rw [ioredtbl]
    constructor <;> intro h <;> bv_omega
  have hhigh : ioredtbl + BitVec.ofNat 8 i * 2 + 1 = ioredtbl + index * 2 + 1 ↔ i = index.toNat := by
    rw [ioredtbl]
    constructor <;> intro h <;> bv_omega
  have hcross : ioredtbl + BitVec.ofNat 8 i * 2 ≠ ioredtbl + index * 2 + 1 := by
    rw [ioredtbl]
    bv_omega
  have hcross' : ioredtbl + BitVec.ofNat 8 i * 2 + 1 ≠ ioredtbl + index * 2 := by
    rw [ioredtbl]
    bv_omega
  simp only [IoApic.entry, ioapicSetEntry, writeMmio, IoApic.writeSel, IoApic.writeWin, hlow, hhigh, hcross,
    hcross', if_false]
  by_cases h : i = index.toNat
  · simp only [h, if_true]
    exact halves data
  · simp only [h, if_false]

/-- Redirection entries `ioapic_init` has masked. -/
theorem entry_init (apic : IoApic) {n : Nat} (hn : n ≤ 120) {i : Nat} (hi : i < n) :
    ((List.range n).foldl
      (fun apic i => ioapicSetEntry apic (BitVec.ofNat 8 i) (1#64 <<< 16)) apic).entry i = 1#64 <<< 16 := by
  induction n with
  | zero => omega
  | succ n ih =>
    have hn' : (BitVec.ofNat 8 n).toNat = n := by
      rw [BitVec.toNat_ofNat]
      omega
    rw [List.range_succ, List.foldl_append, List.foldl_cons, List.foldl_nil,
      entry_setEntry _ (by omega) _ (by omega), hn']
    by_cases hlast : i = n
    · rw [if_pos hlast]
    · rw [if_neg hlast]
      exact ih (by omega) (by omega)

theorem ioapicInit_masked {apic : IoApic} (hcount : entryCount (apic.regs ioapicver) ≤ 120) {i : Nat}
    (hi : i < entryCount (apic.regs ioapicver)) : entryMasked ((ioapicInit apic).entry i) = true := by
  have hentry : (ioapicInit apic).entry i = 1#64 <<< 16 := entry_init (apic.writeSel ioapicver) hcount hi
  rw [hentry]
  decide

/-! The state after a run. -/

/-- After the calls `done`: their gates and entries are set, and nothing else
    has changed. -/
structure Registered (fuel : Nat) (m : Mem) (madt : BitVec 64) (count : Nat) (s₀ s : IntrState)
    (done : List IrqCall) : Prop where
  gate : ∀ c ∈ done, s.idt (0x20 + c.irq) = idtDesc c.isr idtIntGateFlags
  otherGates : ∀ v, (∀ c ∈ done, 0x20 + c.irq ≠ v) → s.idt v = s₀.idt v
  entry : ∀ c ∈ done, ∀ r, acpiRemapIrq fuel m madt c.irq = some r →
    s.apic.entry r.toNat = 0x20 + c.irq.setWidth 64
  otherEntries : ∀ i < count, (∀ c ∈ done, ∀ r, acpiRemapIrq fuel m madt c.irq = some r → r.toNat ≠ i) →
    s.apic.entry i = s₀.apic.entry i

/-- Calls with different IRQs, which `acpi_remap_irq` takes to different
    redirection entries. -/
structure CallsOk (fuel : Nat) (m : Mem) (madt : BitVec 64) (count : Nat) (calls : List IrqCall) : Prop where
  remapped : ∀ c ∈ calls, ∃ r, acpiRemapIrq fuel m madt c.irq = some r ∧ r.toNat < count
  distinct : calls.Pairwise (fun a b => a.irq ≠ b.irq ∧
    acpiRemapIrq fuel m madt a.irq ≠ acpiRemapIrq fuel m madt b.irq)

section
variable {fuel : Nat} {m : Mem} {madt : BitVec 64} {count : Nat} {s₀ : IntrState}

theorem registered_step {s s' : IntrState} {done : List IrqCall} {c : IrqCall} (hcount : count ≤ 120)
    (h : Registered fuel m madt count s₀ s done) (hok : CallsOk fuel m madt count (done ++ [c]))
    (hstep : registerIrq fuel m madt s c = some s') :
    Registered fuel m madt count s₀ s' (done ++ [c]) := by
  obtain ⟨r, hr, hlt⟩ := hok.remapped c (by simp)
  have hnew : ∀ a ∈ done, a.irq ≠ c.irq ∧
      acpiRemapIrq fuel m madt a.irq ≠ acpiRemapIrq fuel m madt c.irq :=
    fun a ha => (List.pairwise_append.mp hok.distinct).2.2 a ha c (List.mem_singleton.mpr rfl)
  have hindex : (r.setWidth 8).toNat = r.toNat := by
    rw [BitVec.toNat_setWidth]
    omega
  simp only [registerIrq, hr, Option.bind_eq_bind, Option.bind_some, Option.some.injEq] at hstep
  subst hstep
  have hentry : ∀ i < count, (ioapicSetEntry s.apic (r.setWidth 8) (0x20 + c.irq.setWidth 64)).entry i =
      if i = r.toNat then 0x20 + c.irq.setWidth 64 else s.apic.entry i := by
    intro i hi
    rw [entry_setEntry _ (by omega) _ (by omega), hindex]
  refine ⟨?_, ?_, ?_, ?_⟩
  · intro a ha
    show (if 0x20 + a.irq = 0x20 + c.irq then idtDesc c.isr idtIntGateFlags else s.idt (0x20 + a.irq)) = _
    rcases List.mem_append.mp ha with ha | ha
    · rw [if_neg, h.gate a ha]
      intro heq
      exact (hnew a ha).1 (BitVec.add_right_inj _ |>.mp heq)
    · rw [List.mem_singleton.mp ha, if_pos rfl]
  · intro v hv
    show (if v = 0x20 + c.irq then idtDesc c.isr idtIntGateFlags else s.idt v) = _
    rw [if_neg (fun heq => hv c (by simp) heq.symm)]
    exact h.otherGates v (fun a ha => hv a (List.mem_append_left _ ha))
  · intro a ha r' hr'
    obtain ⟨r'', hr'', hlt''⟩ := hok.remapped a ha
    rw [hr''] at hr'
    cases hr'
    rw [hentry _ hlt'']
    rcases List.mem_append.mp ha with ha | ha
    · rw [if_neg, h.entry a ha r' hr'']
      intro heq
      apply (hnew a ha).2
      rw [hr'', hr, BitVec.eq_of_toNat_eq heq]
    · rw [List.mem_singleton.mp ha] at hr'' ⊢
      rw [hr] at hr''
      cases hr''
      rw [if_pos rfl]
  · intro i hi hothers
    rw [hentry i hi, if_neg (fun heq => hothers c (by simp) r hr heq.symm)]
    exact h.otherEntries i hi (fun a ha => hothers a (List.mem_append_left _ ha))

theorem registered_run (hcount : count ≤ 120) (s₀ : IntrState) : ∀ {calls : List IrqCall},
    CallsOk fuel m madt count calls →
    ∃ s, Runs.exec (registerIrq fuel m madt) s₀ calls = some s ∧ Registered fuel m madt count s₀ s calls := by
  intro calls
  induction calls using List.reverseRecOn with
  | nil =>
    intro _
    exact ⟨s₀, rfl, nofun, fun _ _ => rfl, nofun, fun _ _ _ => rfl⟩
  | append_singleton calls c ih =>
    intro hok
    obtain ⟨s, hs, h⟩ := ih ⟨fun a ha => hok.remapped a (List.mem_append_left _ ha),
      (List.pairwise_append.mp hok.distinct).1⟩
    obtain ⟨r, hr, -⟩ := hok.remapped c (by simp)
    obtain ⟨s', hs'⟩ : ∃ s', registerIrq fuel m madt s c = some s' := by
      simp only [registerIrq, hr, Option.bind_eq_bind, Option.bind_some]
      exact ⟨_, rfl⟩
    refine ⟨s', Runs.exec_append.mpr ⟨s, hs, Runs.exec_cons.mpr ⟨s', hs', rfl⟩⟩, ?_⟩
    exact registered_step hcount h hok hs'

end

/-! What routing is to be. -/

/-- Each call's redirection entry is unmasked, with fixed delivery and the
    vector of a gate that holds the call's ISR; all other entries are masked;
    and no exception gate and no gate in `given` has changed. -/
structure Routed (fuel : Nat) (m : Mem) (madt : BitVec 64) (count : Nat) (given : BitVec 8 → Prop)
    (s₀ s : IntrState) (calls : List IrqCall) : Prop where
  routed : ∀ c ∈ calls, ∀ r, acpiRemapIrq fuel m madt c.irq = some r →
    entryMasked (s.apic.entry r.toNat) = false ∧ entryDelivery (s.apic.entry r.toNat) = 0 ∧
      s.idt (entryVector (s.apic.entry r.toNat)) = idtDesc c.isr idtIntGateFlags
  masked : ∀ i < count, (∀ c ∈ calls, ∀ r, acpiRemapIrq fuel m madt c.irq = some r → r.toNat ≠ i) →
    entryMasked (s.apic.entry i) = true
  gates : ∀ v, v.toNat < 32 ∨ given v → s.idt v = s₀.idt v

/-- The carry of `0x20 + irq` is in the delivery mode. -/
theorem entry_fields (irq : BitVec 8) :
    entryMasked (0x20 + irq.setWidth 64) = false ∧ entryVector (0x20 + irq.setWidth 64) = 0x20 + irq ∧
      (entryDelivery (0x20 + irq.setWidth 64) = 0 ↔ irq.toNat < 0xE0) := by
  revert irq
  decide

section
variable {fuel : Nat} {m : Mem} {madt : BitVec 64} {s₀ : IntrState}

/-- Whatever gates are to be left alone. -/
theorem routed_iff {apic : IoApic} {idt : Idt} (hcount : entryCount (apic.regs ioapicver) ≤ 120)
    {s : IntrState} {calls : List IrqCall}
    (hok : CallsOk fuel m madt (entryCount (apic.regs ioapicver)) calls)
    (h : Registered fuel m madt (entryCount (apic.regs ioapicver)) ⟨idt, ioapicInit apic⟩ s calls)
    (given : BitVec 8 → Prop) :
    Routed fuel m madt (entryCount (apic.regs ioapicver)) given ⟨idt, ioapicInit apic⟩ s calls ↔
      ∀ c ∈ calls, c.irq.toNat < 0xE0 ∧
        (given (0x20 + c.irq) → idt (0x20 + c.irq) = idtDesc c.isr idtIntGateFlags) := by
  refine ⟨?_, ?_⟩
  · intro hrouted c hc
    obtain ⟨r, hr, -⟩ := hok.remapped c hc
    obtain ⟨-, hdelivery, -⟩ := hrouted.routed c hc r hr
    rw [h.entry c hc r hr] at hdelivery
    refine ⟨(entry_fields c.irq).2.2.mp hdelivery, ?_⟩
    intro hgiven
    rw [← h.gate c hc]
    exact (hrouted.gates _ (.inr hgiven)).symm
  · intro hcond
    refine ⟨?_, ?_, ?_⟩
    · intro c hc r hr
      obtain ⟨hmask, hvector, hdelivery⟩ := entry_fields c.irq
      rw [h.entry c hc r hr]
      refine ⟨hmask, hdelivery.mpr (hcond c hc).1, ?_⟩
      rw [hvector]
      exact h.gate c hc
    · intro i hi hothers
      rw [h.otherEntries i hi hothers]
      exact ioapicInit_masked hcount hi
    · -- a gate that was set has the same ISR as before
      intro v hv
      by_cases hset : ∃ c ∈ calls, 0x20 + c.irq = v
      · obtain ⟨c, hc, rfl⟩ := hset
        obtain ⟨hlow, hgiven⟩ := hcond c hc
        rcases hv with hexc | hgiven'
        · bv_omega
        · rw [h.gate c hc, ← hgiven hgiven']
      · apply h.otherGates
        intro c hc heq
        exact hset ⟨c, hc, heq⟩

end

/-- Below 0xE0 the vector does not wrap. -/
theorem vector_toNat {irq : BitVec 8} (h : irq.toNat < 0xE0) : (0x20 + irq).toNat = 0x20 + irq.toNat := by
  bv_omega

theorem allocatedUpTo_eq (n : Nat) : (allocatedUpTo n).toNat = min (0x81 + n) 255 := by
  induction n with
  | zero => rfl
  | succ n ih =>
    rw [allocatedUpTo, allocIntVector]
    split
    · next hfull =>
      bv_omega
    · next hfull =>
      bv_omega

theorem givenOut_iff (v : BitVec 8) : GivenOut v ↔ 0x81 ≤ v.toNat ∧ v.toNat < 255 := by
  refine ⟨?_, ?_⟩
  · intro h
    obtain ⟨hne, n, hn⟩ := h
    have hv := allocatedUpTo_eq n
    rw [allocIntVector] at hn
    split at hn
    · exact absurd hn.symm hne
    · next hfree =>
      subst hn
      dsimp only at hfree ⊢
      bv_omega
  · intro h
    obtain ⟨hlow, hhigh⟩ := h
    have hv := allocatedUpTo_eq (v.toNat - 0x81)
    have heq : allocatedUpTo (v.toNat - 0x81) = v := BitVec.eq_of_toNat_eq (by omega)
    refine ⟨?_, v.toNat - 0x81, ?_⟩
    · bv_omega
    · rw [heq, allocIntVector, if_neg]
      bv_omega

/-- **When interrupt routing stays consistent.** After `ioapic_init` on at most
    120 redirection entries, for every MADT, every IDT and every sequence of
    `register_irq` calls with different IRQs and entries: the entries and gates
    are what they are to be iff every IRQ is below 0xE0 and, where its vector is
    one that `alloc_int_vector` gives out, the gate held the same ISR before.
    The second equivalence counts vector 0xFF as well, which it never gives
    out. -/
theorem routing_iff (fuel : Nat) (m : Mem) (madt : BitVec 64) (apic : IoApic) (idt : Idt)
    (calls : List IrqCall) (hcount : entryCount (apic.regs ioapicver) ≤ 120)
    (hok : CallsOk fuel m madt (entryCount (apic.regs ioapicver)) calls) :
    ∃ s, Runs.exec (registerIrq fuel m madt) ⟨idt, ioapicInit apic⟩ calls = some s ∧
      (Routed fuel m madt (entryCount (apic.regs ioapicver)) GivenOut ⟨idt, ioapicInit apic⟩ s calls ↔
        ∀ c ∈ calls, c.irq.toNat < 0xE0 ∧ (0x61 ≤ c.irq.toNat → c.irq.toNat ≠ 0xDF →
          idt (0x20 + c.irq) = idtDesc c.isr idtIntGateFlags)) ∧
      (Routed fuel m madt (entryCount (apic.regs ioapicver)) (fun v => 0x81 ≤ v.toNat)
          ⟨idt, ioapicInit apic⟩ s calls ↔
        ∀ c ∈ calls, c.irq.toNat < 0xE0 ∧ (0x61 ≤ c.irq.toNat →
          idt (0x20 + c.irq) = idtDesc c.isr idtIntGateFlags)) := by
  obtain ⟨s, hs, h⟩ := registered_run hcount ⟨idt, ioapicInit apic⟩ hok
  refine ⟨s, hs, ?_, ?_⟩
  · rw [routed_iff hcount hok h]
    apply forall₂_congr
    intro c _
    apply and_congr_right
    intro hlow
    rw [givenOut_iff, vector_toNat hlow]
    refine ⟨?_, ?_⟩
    · intro hgate hge hne
      exact hgate ⟨by omega, by omega⟩
    · rintro hgate ⟨hge, hlt⟩
      exact hgate (by omega) (by omega)
  · rw [routed_iff hcount hok h]
    apply forall₂_congr
    intro c _
    apply and_congr_right
    intro hlow
    rw [vector_toNat hlow]
    refine ⟨?_, ?_⟩
    · intro hgate hge
      exact hgate (by omega)
    · intro hgate hge
      exact hgate (by omega)

/-- An I/O APIC with `maxEntry + 1` redirection entries. -/
def ioApicOf (maxEntry : BitVec 8) : IoApic :=
  ⟨0, fun reg => if reg = ioapicver then maxEntry.setWidth 32 <<< 16 else 0⟩

/-- The memory with the MADT of `pcMadt`, which moves IRQ 0 to entry 2. -/
def pcMem : Mem := storeBytes (fun _ => 0) 0x1000 pcMadt.bytes

/-- A PC with 24 redirection entries: the timer, and a network card at IRQ 11. -/
theorem routing_pc : ∃ s,
    Runs.exec (registerIrq 4 pcMem 0x1000) ⟨fun _ => idtDesc 0 0, ioapicInit (ioApicOf 23)⟩
      [⟨0, 0x4000⟩, ⟨11, 0x5000⟩] = some s ∧
    Routed 4 pcMem 0x1000 24 GivenOut ⟨fun _ => idtDesc 0 0, ioapicInit (ioApicOf 23)⟩ s
      [⟨0, 0x4000⟩, ⟨11, 0x5000⟩] := by
  have htimer : acpiRemapIrq 4 pcMem 0x1000 0 = some 2 := by decide +kernel
  have hcard : acpiRemapIrq 4 pcMem 0x1000 11 = some 11 := by decide +kernel
  have hok : CallsOk 4 pcMem 0x1000 24 [⟨0, 0x4000⟩, ⟨11, 0x5000⟩] := by
    refine ⟨?_, ?_⟩
    · rw [List.forall_mem_cons, List.forall_mem_singleton]
      exact ⟨⟨2, htimer, by decide⟩, ⟨11, hcard, by decide⟩⟩
    · rw [List.pairwise_pair, htimer, hcard]
      decide
  obtain ⟨s, hs, hrouted, -⟩ := routing_iff 4 pcMem 0x1000 (ioApicOf 23) (fun _ => idtDesc 0 0)
    [⟨0, 0x4000⟩, ⟨11, 0x5000⟩] (by decide) hok
  refine ⟨s, hs, hrouted.mpr ?_⟩
  simp

/-- IRQ 0x61 of an I/O APIC with 120 entries, without overrides: its vector
    0x81 is the first that `alloc_int_vector` gives out. -/
theorem given_gate_overwritten : ∃ s,
    Runs.exec (registerIrq 1 (fun _ => 0) 0x1000) ⟨fun _ => idtDesc 0 0, ioapicInit (ioApicOf 119)⟩
      [⟨0x61, 0x4000⟩] = some s ∧
    (allocIntVector (allocatedUpTo 0)).1 = 0x81 ∧ s.idt 0x81 ≠ idtDesc 0 0 ∧
    ¬ Routed 1 (fun _ => 0) 0x1000 120 GivenOut ⟨fun _ => idtDesc 0 0, ioapicInit (ioApicOf 119)⟩ s
      [⟨0x61, 0x4000⟩] := by
  have hok : CallsOk 1 (fun _ => 0) 0x1000 120 [⟨0x61, 0x4000⟩] := by
    refine ⟨?_, List.pairwise_singleton _ _⟩
    rw [List.forall_mem_singleton]
    exact ⟨0x61, by decide, by decide⟩
  obtain ⟨s, hs, h⟩ := registered_run (by decide) ⟨fun _ => idtDesc 0 0, ioapicInit (ioApicOf 119)⟩ hok
  have hgate : s.idt 0x81 = idtDesc 0x4000 idtIntGateFlags := h.gate ⟨0x61, 0x4000⟩ (by simp)
  have hne : idtDesc 0x4000 idtIntGateFlags ≠ idtDesc 0 0 := by decide
  refine ⟨s, hs, rfl, hgate ▸ hne, ?_⟩
  intro hrouted
  apply hne
  rw [← hgate]
  exact hrouted.gates 0x81 (.inr ⟨by decide, 0, rfl⟩)

end Qnixx
