import Qnixx.Interrupts

/- The gates of the IDT (`amd64/idt.c`) as the processor reads them: sixteen
   bytes of memory. `idt_set_desc` gets a whole type and attribute byte, of which
   the four bits of `attr` keep the type; present bit and privilege level are set
   apart from it, and the level is always 3. -/
namespace Qnixx
open ByteMem

def idtTrapGateFlags : BitVec 8 := 0x8F
def idtIntGateUser : BitVec 8 := 0xEE

def registerException (idt : Idt) (vector : BitVec 8) (isr : BitVec 64) : Idt :=
  idtSetDesc idt vector isr idtTrapGateFlags

/-- The bytes of `idt_gate_descriptor_t`. Bit fields are filled from the low bit
    on; `attr` does not fit into what `ist` and `zero` leave of their byte. -/
def IdtGate.bytes (g : IdtGate) : List (BitVec 8) :=
  bytes16 g.isrLow16 ++ (bytes16 g.cs ++ ([0#2 ++ g.zero ++ g.ist, g.p ++ g.dpl ++ g.zero1 ++ g.attr] ++
    (bytes16 g.isrMid16 ++ (bytes32 g.isrHigh32 ++ bytes32 g.reserved))))

/-- The memory with the array `idt` at `base`. -/
def idtMem (base : BitVec 64) (idt : Idt) : Mem := fun x =>
  ((idt (BitVec.ofNat 8 ((x - base).toNat / 16))).bytes[(x - base).toNat % 16]?).getD 0

/-- What the processor finds in a gate. -/
structure HwGate where
  offset : BitVec 64
  selector : BitVec 16
  ist : BitVec 3
  typeAttr : BitVec 8
  deriving DecidableEq

/-- The gate format of x86-64, for a gate at `a`. -/
def decodeGate (m : Mem) (a : BitVec 64) : HwGate where
  offset := load32 m (a + 8) ++ (load16 m (a + 6) ++ load16 m a)
  selector := load16 m (a + 2)
  ist := (m (a + 4)).setWidth 3
  typeAttr := m (a + 5)

/-- The gate of a vector in the table at `base`. -/
def hwGate (base : BitVec 64) (idt : Idt) (vector : BitVec 8) : HwGate :=
  decodeGate (idtMem base idt) (base + 16 * vector.setWidth 64)

/-! Decoding. -/

theorem gate_bytes_length (g : IdtGate) : g.bytes.length = 16 := rfl

theorem idtMem_holds (base : BitVec 64) (idt : Idt) (vector : BitVec 8) :
    Holds (idtMem base idt) (base + 16 * vector.setWidth 64) (idt vector).bytes := by
  intro i b hb
  obtain ⟨hi, -⟩ := List.getElem?_eq_some_iff.mp hb
  rw [gate_bytes_length] at hi
  have hplace : (base + 16 * vector.setWidth 64 + BitVec.ofNat 64 i - base).toNat = 16 * vector.toNat + i := by
    bv_omega
  have hvector : (16 * vector.toNat + i) / 16 = vector.toNat := by omega
  have hbyte : (16 * vector.toNat + i) % 16 = i := by omega
  rw [idtMem, hplace, hvector, hbyte, BitVec.ofNat_toNat, BitVec.setWidth_eq, hb, Option.getD_some]

theorem low_halves (isr : BitVec 64) : (isr >>> 16).setWidth 16 ++ isr.setWidth 16 = isr.setWidth 32 := by
  apply BitVec.eq_of_toNat_eq
  rw [BitVec.toNat_append, ← Nat.shiftLeft_add_eq_or_of_lt (BitVec.isLt _), Nat.shiftLeft_eq, BitVec.toNat_setWidth,
    BitVec.toNat_setWidth, BitVec.toNat_setWidth, BitVec.toNat_ushiftRight, Nat.shiftRight_eq_div_pow]
  omega

/-- A gate in memory is decoded field by field. -/
theorem decodeGate_eq {m : Mem} {a : BitVec 64} {g : IdtGate} (h : Holds m a g.bytes) :
    decodeGate m a =
      ⟨g.isrHigh32 ++ (g.isrMid16 ++ g.isrLow16), g.cs, (0#2 ++ g.zero ++ g.ist).setWidth 3,
        g.p ++ g.dpl ++ g.zero1 ++ g.attr⟩ := by
  obtain ⟨hlow, h⟩ := holds_append.mp h
  obtain ⟨hcs, h⟩ := holds_append.mp h
  obtain ⟨hbits, h⟩ := holds_append.mp h
  obtain ⟨hmid, h⟩ := holds_append.mp h
  obtain ⟨hhigh, -⟩ := holds_append.mp h
  have h4 : a + 2 + 2 = a + 4 := by bv_omega
  have h5 : a + 2 + 2 + 1 = a + 5 := by bv_omega
  have h6 : a + 2 + 2 + 2 = a + 6 := by bv_omega
  have h8 : a + 2 + 2 + 2 + 2 = a + 8 := by bv_omega
  have hist : m (a + 4) = 0#2 ++ g.zero ++ g.ist := by
    rw [← h4, ← BitVec.add_zero (a + 2 + 2)]
    exact hbits 0 _ rfl
  have hattr : m (a + 5) = g.p ++ g.dpl ++ g.zero1 ++ g.attr := by
    rw [← h5]
    exact hbits 1 _ rfl
  rw [decodeGate, hist, hattr, hlow.load16, ← h6, ← h8]
  have hsel : load16 m (a + 2) = g.cs := hcs.load16
  have hmiddle : load16 m (a + 2 + 2 + 2) = g.isrMid16 := hmid.load16
  have htop : load32 m (a + 2 + 2 + 2 + 2) = g.isrHigh32 := hhigh.load32
  rw [hsel, hmiddle, htop]

/-- What is found in the gate of a handler: its level is 3, whatever the flags. -/
theorem hwGate_desc (base : BitVec 64) {idt : Idt} {vector : BitVec 8} {isr : BitVec 64} {flags : BitVec 8}
    (h : idt vector = idtDesc isr flags) :
    hwGate base idt vector = ⟨isr, 0x28, 0, 0xE0#8 ||| (flags &&& 0x0F)⟩ := by
  have hattr : ∀ flags : BitVec 8,
      (1 : BitVec 1) ++ (3 : BitVec 2) ++ (0 : BitVec 1) ++ flags.setWidth 4 = 0xE0#8 ||| (flags &&& 0x0F) := by
    decide +kernel
  have hist : (0#2 ++ (0 : BitVec 4) ++ (0 : BitVec 2)).setWidth 3 = 0 := by decide
  have hholds := idtMem_holds base idt vector
  rw [h] at hholds
  rw [hwGate, decodeGate_eq hholds]
  simp only [idtDesc]
  rw [low_halves, halves, hist, hattr]

/-! Sequences of calls. -/

inductive GateCall where
  | interrupt (vector : BitVec 8) (isr : BitVec 64)
  | exception (vector : BitVec 8) (isr : BitVec 64)
  | irq (call : IrqCall)

/-- The gate a call is about; an IRQ has its vector in eight bits. -/
def GateCall.vector : GateCall → BitVec 8
  | interrupt vector _ | exception vector _ => vector
  | irq call => 0x20 + call.irq

/-- The descriptor it registers. -/
def GateCall.desc : GateCall → IdtGate
  | interrupt _ isr => idtDesc isr idtIntGateFlags
  | exception _ isr => idtDesc isr idtTrapGateFlags
  | irq call => idtDesc call.isr idtIntGateFlags

def registerGate (fuel : Nat) (m : Mem) (madt : BitVec 64) (s : IntrState) : GateCall → Option IntrState
  | .interrupt vector isr => some { s with idt := registerInterrupt s.idt vector isr }
  | .exception vector isr => some { s with idt := registerException s.idt vector isr }
  | .irq call => registerIrq fuel m madt s call

/-- The last descriptor registered for a vector, or the one before the calls. -/
def lastDesc (calls : List GateCall) (idt : Idt) (vector : BitVec 8) : IdtGate :=
  ((calls.reverse.find? (fun call => call.vector == vector)).map GateCall.desc).getD (idt vector)

section
variable {fuel : Nat} {m : Mem} {madt : BitVec 64}

/-- A call changes its own gate and no other. -/
theorem registerGate_idt {s t : IntrState} {call : GateCall} (h : registerGate fuel m madt s call = some t)
    (vector : BitVec 8) : t.idt vector = if call.vector = vector then call.desc else s.idt vector := by
  cases call with
  | interrupt v isr =>
    cases h
    exact if_congr eq_comm rfl rfl
  | exception v isr =>
    cases h
    exact if_congr eq_comm rfl rfl
  | irq call =>
    obtain ⟨index, -, h⟩ := Option.bind_eq_some_iff.mp h
    cases h
    exact if_congr eq_comm rfl rfl

theorem lastDesc_cons (call : GateCall) (calls : List GateCall) {idt idt' : Idt} {vector : BitVec 8}
    (h : idt' vector = if call.vector = vector then call.desc else idt vector) :
    lastDesc calls idt' vector = lastDesc (call :: calls) idt vector := by
  rw [lastDesc, lastDesc, List.reverse_cons, List.find?_append]
  cases calls.reverse.find? (fun call => call.vector == vector) with
  | some last => rfl
  | none =>
    rw [h, List.find?_singleton, Option.none_or]
    by_cases hv : call.vector = vector
    · rw [if_pos hv, if_pos (beq_iff_eq.mpr hv)]
      rfl
    · rw [if_neg hv, if_neg (mt beq_iff_eq.mp hv)]

/-- Every gate keeps what was registered for it last. -/
theorem gates_run (calls : List GateCall) : ∀ {s t : IntrState},
    Runs.exec (registerGate fuel m madt) s calls = some t → ∀ vector, t.idt vector = lastDesc calls s.idt vector := by
  induction calls with
  | nil =>
    intro s t h vector
    cases h
    rfl
  | cons call calls ih =>
    intro s t h vector
    obtain ⟨u, hcall, hrest⟩ := Runs.exec_cons.mp h
    rw [ih hrest vector]
    exact lastDesc_cons call calls (registerGate_idt hcall vector)

end

/-- The gate that is set decodes to what was handed over, and all gates keep
    their last contents, just when the flags ask for level 3. -/
theorem gate_decodes_iff (idt : Idt) (apic : IoApic) (base : BitVec 64) (vector : BitVec 8) (isr : BitVec 64)
    (flags : BitVec 8) (hflags : flags ∈ [idtTrapGateFlags, idtIntGateFlags, idtIntGateUser]) :
    (hwGate base (idtSetDesc idt vector isr flags) vector = ⟨isr, 0x28, 0, flags⟩ ∧
      ∀ (fuel : Nat) (m : Mem) (madt : BitVec 64) (calls : List GateCall) (t : IntrState),
        Runs.exec (registerGate fuel m madt) ⟨idtSetDesc idt vector isr flags, apic⟩ calls = some t →
        ∀ v, t.idt v = lastDesc calls (idtSetDesc idt vector isr flags) v) ↔
    flags = idtIntGateUser := by
  have hset : idtSetDesc idt vector isr flags vector = idtDesc isr flags := if_pos rfl
  rw [hwGate_desc base hset]
  refine ⟨?_, ?_⟩
  · rintro ⟨hdecode, _⟩
    have htype : 0xE0#8 ||| (flags &&& 0x0F) = flags := congrArg HwGate.typeAttr hdecode
    simp only [List.mem_cons, List.not_mem_nil, or_false] at hflags
    rcases hflags with rfl | rfl | rfl
    · exact absurd htype (by decide)
    · exact absurd htype (by decide)
    · rfl
  · rintro rfl
    exact ⟨rfl, fun _ _ _ calls _ h => gates_run calls h⟩

theorem gate_decodes_user :
    hwGate 0x1000 (idtSetDesc (fun _ => idtDesc 0 0) 0x80 0xFFFFFFFF80001234 idtIntGateUser) 0x80 =
      ⟨0xFFFFFFFF80001234, 0x28, 0, 0xEE⟩ :=
  ((gate_decodes_iff (fun _ => idtDesc 0 0) ⟨0, fun _ => 0⟩ 0x1000 0x80 0xFFFFFFFF80001234 idtIntGateUser
    (by decide)).mpr rfl).1

/-- A kernel gate is open to user mode. -/
theorem int_gate_level :
    ¬ (hwGate 0x1000 (idtSetDesc (fun _ => idtDesc 0 0) 0x20 0xFFFFFFFF80001234 idtIntGateFlags) 0x20 =
        ⟨0xFFFFFFFF80001234, 0x28, 0, idtIntGateFlags⟩ ∧
      ∀ (fuel : Nat) (m : Mem) (madt : BitVec 64) (calls : List GateCall) (t : IntrState),
        Runs.exec (registerGate fuel m madt)
          ⟨idtSetDesc (fun _ => idtDesc 0 0) 0x20 0xFFFFFFFF80001234 idtIntGateFlags, ⟨0, fun _ => 0⟩⟩ calls = some t →
        ∀ v, t.idt v =
          lastDesc calls (idtSetDesc (fun _ => idtDesc 0 0) 0x20 0xFFFFFFFF80001234 idtIntGateFlags) v) := by
  rintro ⟨hdecode, _⟩
  rw [hwGate_desc 0x1000 (if_pos rfl)] at hdecode
  exact absurd hdecode (by decide)

end Qnixx
