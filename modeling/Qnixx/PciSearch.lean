import Qnixx.Lib.Search
import Qnixx.Pci

/- `pci_find` and `pci_find_any` (`dev/pci/pci.c`): three loops over bus, slot
   and function that stop at the first function with the ids, or the class,
   asked for, and decode its registers. All they do with the host bridge is to
   read it, so what they return is a function of the registers. -/
namespace Qnixx
open Search

/-- `COMBINE_WORD`. -/
def combineWord (wordLow wordHigh : BitVec 16) : BitVec 64 :=
  (wordHigh.setWidth 64 <<< 16) ||| wordLow.setWidth 64

section
variable (bus slot func : BitVec 8)

/-- `config_readw` with the 8-bit arguments of its callers. -/
def readWord (offset : BitVec 8) : StateM PciHost (BitVec 16) :=
  configReadw (bus.setWidth 32) (slot.setWidth 32) (func.setWidth 32) offset

def readIrqLine : StateM PciHost (BitVec 8) := do
  let word ← readWord bus slot func 0x3C
  pure ((word &&& 0xFF).setWidth 8)

def readVendor : StateM PciHost (BitVec 16) := readWord bus slot func 0x0

def readDeviceId : StateM PciHost (BitVec 16) := readWord bus slot func 0x2

def readClass : StateM PciHost (BitVec 8) := do
  let word ← readWord bus slot func 0xA
  pure ((word >>> 8).setWidth 8)

def readSubclass : StateM PciHost (BitVec 8) := do
  let word ← readWord bus slot func 0xA
  pure ((word &&& 0xFF).setWidth 8)

def readProgIf : StateM PciHost (BitVec 8) := do
  let word ← readWord bus slot func 0x8
  pure ((word >>> 8).setWidth 8)

/-- The body of `get_bar0` to `get_bar5`. -/
def getBar (lo hi : BitVec 8) : StateM PciHost (BitVec 32) := do
  let lo ← readWord bus slot func lo
  let hi ← readWord bus slot func hi
  pure ((combineWord lo hi).setWidth 32)

def getBar0 : StateM PciHost (BitVec 32) := getBar bus slot func 0x10 0x12
def getBar1 : StateM PciHost (BitVec 32) := getBar bus slot func 0x14 0x16
def getBar2 : StateM PciHost (BitVec 32) := getBar bus slot func 0x18 0x1A
def getBar3 : StateM PciHost (BitVec 32) := getBar bus slot func 0x1C 0x1E
def getBar4 : StateM PciHost (BitVec 32) := getBar bus slot func 0x20 0x22
def getBar5 : StateM PciHost (BitVec 32) := getBar bus slot func 0x24 0x26

/-- `init_dev`; an element of `bars` is a `uintptr_t`. -/
def initDev : StateM PciHost PciDevice := do
  let irqLine ← readIrqLine bus slot func
  let bar0 ← getBar0 bus slot func
  let bar1 ← getBar1 bus slot func
  let bar2 ← getBar2 bus slot func
  let bar3 ← getBar3 bus slot func
  let bar4 ← getBar4 bus slot func
  let bar5 ← getBar5 bus slot func
  pure
    { irqLine := irqLine
      msiCap := 0
      bars := [bar0, bar1, bar2, bar3, bar4, bar5].map (BitVec.setWidth 64)
      bus := bus
      slot := slot
      func := func }

end

/-- What a search returns, NULL being `none`, and whether it gave the descriptor
    from `kmalloc` back. -/
structure PciResult where
  found : Option PciDevice
  freed : Bool

/-- The three loops of `pci_find` and `pci_find_any`. -/
def findFunction (test : BitVec 8 → BitVec 8 → BitVec 8 → StateM PciHost Bool) : StateM PciHost PciResult := do
  let found ←
    search (fun bus => search (fun slot => search (fun func => do
      if ← test bus slot func then
        let dev ← initDev bus slot func
        pure (some dev)
      else pure none) 0 8) 0 32) 0 5
  match found with
  | some dev => pure { found := some dev, freed := false }
  | none => pure { found := none, freed := true }

def pciFind (vendorId deviceId : BitVec 32) : StateM PciHost PciResult :=
  findFunction (fun bus slot func => do
    if (← readDeviceId bus slot func).setWidth 32 = deviceId then
      pure ((← readVendor bus slot func).setWidth 32 = vendorId)
    else pure false)

/-- `pci_find_any`; `interface` is an `int8_t`, and compared as an `int`. -/
def pciFindAny (classId subclassId interface : BitVec 8) : StateM PciHost PciResult :=
  findFunction (fun bus slot func => do
    if (← readClass bus slot func) = classId then
      if (← readSubclass bus slot func) = subclassId then
        pure ((← readProgIf bus slot func).toNat = interface.toInt ∧ interface.toInt > -1)
      else pure false
    else pure false)

/-! What is to be found. -/

/-- The register of a function at an offset. -/
def functionReg (regs : ConfigReg → BitVec 32) (bus slot func offset : BitVec 8) : BitVec 32 :=
  regs { bus := bus, slot := slot.setWidth 5, func := func.setWidth 3, reg := offset.extractLsb' 2 6 }

def HasIds (regs : ConfigReg → BitVec 32) (vendorId deviceId : BitVec 32) (bus slot func : BitVec 8) : Prop :=
  ((functionReg regs bus slot func 0).extractLsb' 0 16).setWidth 32 = vendorId ∧
    ((functionReg regs bus slot func 0).extractLsb' 16 16).setWidth 32 = deviceId

def HasClass (regs : ConfigReg → BitVec 32) (classId subclassId interface : BitVec 8)
    (bus slot func : BitVec 8) : Prop :=
  (functionReg regs bus slot func 8).extractLsb' 24 8 = classId ∧
    (functionReg regs bus slot func 8).extractLsb' 16 8 = subclassId ∧
    (functionReg regs bus slot func 8).extractLsb' 8 8 = interface

instance (regs : ConfigReg → BitVec 32) (vendorId deviceId : BitVec 32) (bus slot func : BitVec 8) :
    Decidable (HasIds regs vendorId deviceId bus slot func) :=
  inferInstanceAs (Decidable (_ ∧ _))

instance (regs : ConfigReg → BitVec 32) (classId subclassId interface bus slot func : BitVec 8) :
    Decidable (HasClass regs classId subclassId interface bus slot func) :=
  inferInstanceAs (Decidable (_ ∧ _ ∧ _))

/-- The descriptor of a function. -/
def descriptor (regs : ConfigReg → BitVec 32) (bus slot func : BitVec 8) : PciDevice :=
  { irqLine := (functionReg regs bus slot func 0x3C).extractLsb' 0 8
    msiCap := 0
    bars := (List.range 6).map (fun i => (functionReg regs bus slot func (BitVec.ofNat 8 (0x10 + 4 * i))).setWidth 64)
    bus := bus
    slot := slot
    func := func }

/-- The functions that are looked at. -/
structure Scanned (bus slot func : BitVec 8) : Prop where
  bus_lt : bus.toNat < 5
  slot_lt : slot.toNat < 32
  func_lt : func.toNat < 8

/-- The first function with `p` in lexicographic order. -/
structure FirstMatch (p : BitVec 8 → BitVec 8 → BitVec 8 → Prop) (bus slot func : BitVec 8) : Prop where
  scanned : Scanned bus slot func
  found : p bus slot func
  first : ∀ b s f, Scanned b s f → b < bus ∨ (b = bus ∧ (s < slot ∨ (s = slot ∧ f < func))) → ¬ p b s f

/-- A search for `p`: NULL, and the descriptor given back, when no function has
    it, otherwise the descriptor of the first that has. -/
structure FindsFirst (regs : ConfigReg → BitVec 32) (p : BitVec 8 → BitVec 8 → BitVec 8 → Prop)
    (r : PciResult) : Prop where
  null : r.found = none ↔ ∀ bus slot func, Scanned bus slot func → ¬ p bus slot func
  freed : r.freed = true ↔ r.found = none
  first : ∀ dev, r.found = some dev ↔
    ∃ bus slot func, FirstMatch p bus slot func ∧ dev = descriptor regs bus slot func

/-! Parts of a register. -/

theorem half_low_byte (high : Bool) (r : BitVec 32) :
    (half high r &&& 0xFF).setWidth 8 = r.extractLsb' (if high then 16 else 0) 8 := by
  have hmask : ∀ k, k < 8 → (0xFF : BitVec 16).getLsbD k = true := by decide
  apply BitVec.eq_of_getLsbD_eq
  intro k hk
  rw [BitVec.getLsbD_setWidth, BitVec.getLsbD_and, hmask k hk, half]
  cases high with
  | true => simp [hk, show k < 16 by omega]
  | false => simp [hk, show k < 16 by omega]

theorem half_high_byte (high : Bool) (r : BitVec 32) :
    (half high r >>> 8).setWidth 8 = r.extractLsb' (if high then 24 else 8) 8 := by
  apply BitVec.eq_of_getLsbD_eq
  intro k hk
  rw [BitVec.getLsbD_setWidth, BitVec.getLsbD_ushiftRight, half]
  cases high with
  | true => simp [hk, show 8 + k < 16 by omega, show 16 + (8 + k) = 24 + k by omega]
  | false => simp [hk, show 8 + k < 16 by omega]

theorem combineWord_halves (r : BitVec 32) : (combineWord (half false r) (half true r)).setWidth 32 = r := by
  apply BitVec.eq_of_getLsbD_eq
  intro k hk
  rw [combineWord, BitVec.getLsbD_setWidth, BitVec.getLsbD_or, BitVec.getLsbD_shiftLeft, half, half]
  by_cases hlow : k < 16
  · simp [hk, hlow, show k < 64 by omega]
  · simp [hk, hlow, show k < 64 by omega, show k - 16 < 16 by omega, show k - 16 < 64 by omega,
      show 16 + (k - 16) = k by omega]

/-! What each reader yields. -/

section
variable {regs : ConfigReg → BitVec 32} {bus slot func : BitVec 8}

/-- The registers of the host bridge are `regs`. -/
def HasRegs (regs : ConfigReg → BitVec 32) (s : PciHost) : Prop := s.regs = regs

theorem readWord_yields (h : Scanned bus slot func) (offset : BitVec 8) :
    Yields (HasRegs regs) (readWord bus slot func offset)
      (half (offset.getLsbD 1) (functionReg regs bus slot func offset)) := by
  intro s hs
  obtain ⟨hval, hkeep⟩ := configReadw_run (bus.setWidth 32) (setWidth_toNat_lt h.slot_lt)
    (setWidth_toNat_lt h.func_lt) offset s
  refine ⟨?_, hkeep.trans hs⟩
  rw [readWord, hval, hs, functionReg, BitVec.setWidth_setWidth_of_le _ (by decide),
    BitVec.setWidth_setWidth_of_le _ (by decide), BitVec.setWidth_setWidth_of_le _ (by decide), BitVec.setWidth_eq]

theorem readIrqLine_yields (h : Scanned bus slot func) :
    Yields (HasRegs regs) (readIrqLine bus slot func) ((functionReg regs bus slot func 0x3C).extractLsb' 0 8) :=
  (readWord_yields h 0x3C).bind ((Yields.pure _).congr (half_low_byte false _))

theorem readVendor_yields (h : Scanned bus slot func) :
    Yields (HasRegs regs) (readVendor bus slot func) ((functionReg regs bus slot func 0).extractLsb' 0 16) :=
  readWord_yields h 0x0

theorem readDeviceId_yields (h : Scanned bus slot func) :
    Yields (HasRegs regs) (readDeviceId bus slot func) ((functionReg regs bus slot func 0).extractLsb' 16 16) :=
  readWord_yields h 0x2

theorem readClass_yields (h : Scanned bus slot func) :
    Yields (HasRegs regs) (readClass bus slot func) ((functionReg regs bus slot func 8).extractLsb' 24 8) :=
  (readWord_yields h 0xA).bind ((Yields.pure _).congr (half_high_byte true _))

theorem readSubclass_yields (h : Scanned bus slot func) :
    Yields (HasRegs regs) (readSubclass bus slot func) ((functionReg regs bus slot func 8).extractLsb' 16 8) :=
  (readWord_yields h 0xA).bind ((Yields.pure _).congr (half_low_byte true _))

theorem readProgIf_yields (h : Scanned bus slot func) :
    Yields (HasRegs regs) (readProgIf bus slot func) ((functionReg regs bus slot func 8).extractLsb' 8 8) :=
  (readWord_yields h 0x8).bind ((Yields.pure _).congr (half_high_byte false _))

/-- A BAR is put together from the two halves of its register. -/
theorem getBar_yields (h : Scanned bus slot func) {lo hi : BitVec 8} (hlo : lo.getLsbD 1 = false)
    (hhi : hi.getLsbD 1 = true) (hreg : hi.extractLsb' 2 6 = lo.extractLsb' 2 6) :
    Yields (HasRegs regs) (getBar bus slot func lo hi) (functionReg regs bus slot func lo) := by
  refine (readWord_yields h lo).bind ((readWord_yields h hi).bind ((Yields.pure _).congr ?_))
  have hsame : functionReg regs bus slot func hi = functionReg regs bus slot func lo := by
    rw [functionReg, hreg, functionReg]
  rw [hlo, hhi, hsame, combineWord_halves]

theorem initDev_yields (h : Scanned bus slot func) :
    Yields (HasRegs regs) (initDev bus slot func) (descriptor regs bus slot func) := by
  refine (readIrqLine_yields h).bind ?_
  refine (getBar_yields h (by decide) (by decide) (by decide)).bind ?_
  refine (getBar_yields h (by decide) (by decide) (by decide)).bind ?_
  refine (getBar_yields h (by decide) (by decide) (by decide)).bind ?_
  refine (getBar_yields h (by decide) (by decide) (by decide)).bind ?_
  refine (getBar_yields h (by decide) (by decide) (by decide)).bind ?_
  refine (getBar_yields h (by decide) (by decide) (by decide)).bind ?_
  exact Yields.pure _

/-! What the loops find. -/

section
variable (regs) (p : BitVec 8 → BitVec 8 → BitVec 8 → Prop) [∀ bus slot func, Decidable (p bus slot func)]

/-- The descriptor of one function, and the first one in three loops. -/
def scanFunc (bus slot func : BitVec 8) : Option PciDevice :=
  if p bus slot func then some (descriptor regs bus slot func) else none

def scanSlot (bus slot : BitVec 8) : Option PciDevice := first (scanFunc regs p bus slot) 0 8

def scanBus (bus : BitVec 8) : Option PciDevice := first (scanSlot regs p bus) 0 32

def scanAll : Option PciDevice := first (scanBus regs p) 0 5

end

section
variable {p : BitVec 8 → BitVec 8 → BitVec 8 → Prop} [∀ bus slot func, Decidable (p bus slot func)]

theorem findFunction_yields {test : BitVec 8 → BitVec 8 → BitVec 8 → StateM PciHost Bool}
    (htest : ∀ bus slot func, Scanned bus slot func →
      Yields (HasRegs regs) (test bus slot func) (decide (p bus slot func))) :
    Yields (HasRegs regs) (findFunction test)
      { found := scanAll regs p, freed := (scanAll regs p).isNone } := by
  have hfunc : ∀ bus slot func, Scanned bus slot func → Yields (HasRegs regs) (do
      if ← test bus slot func then
        let dev ← initDev bus slot func
        pure (some dev)
      else pure none) (scanFunc regs p bus slot func) := by
    intro bus slot func h
    refine (htest bus slot func h).bind ?_
    rw [scanFunc]
    by_cases hp : p bus slot func
    · rw [if_pos hp, if_pos (decide_eq_true hp)]
      exact (initDev_yields h).bind (Yields.pure _)
    · rw [if_neg hp, if_neg (by rw [decide_eq_false hp]; exact Bool.false_ne_true)]
      exact Yields.pure _
  refine Yields.bind (a := scanAll regs p) ?_ ?_
  · refine Yields.search_zero (by decide) (fun bus hbus => ?_)
    refine Yields.search_zero (by decide) (fun slot hslot => ?_)
    refine Yields.search_zero (by decide) (fun func hfn => ?_)
    exact hfunc bus slot func ⟨hbus, hslot, hfn⟩
  · cases scanAll regs p with
    | none => exact Yields.pure _
    | some dev => exact Yields.pure _

theorem scanFunc_eq_none : scanFunc regs p bus slot func = none ↔ ¬ p bus slot func := by
  rw [scanFunc]
  by_cases hp : p bus slot func
  · simp [hp]
  · simp [hp]

theorem scanFunc_eq_some {dev : PciDevice} : scanFunc regs p bus slot func = some dev ↔
    p bus slot func ∧ dev = descriptor regs bus slot func := by
  rw [scanFunc]
  by_cases hp : p bus slot func
  · simp [hp, eq_comm]
  · simp [hp]

theorem scanSlot_eq_none : scanSlot regs p bus slot = none ↔ ∀ func, func.toNat < 8 → ¬ p bus slot func := by
  rw [scanSlot, first_zero_eq_none_iff (by decide)]
  simp only [scanFunc_eq_none]

theorem scanBus_eq_none : scanBus regs p bus = none ↔
    ∀ slot, slot.toNat < 32 → ∀ func, func.toNat < 8 → ¬ p bus slot func := by
  rw [scanBus, first_zero_eq_none_iff (by decide)]
  simp only [scanSlot_eq_none]

theorem scanAll_eq_none : scanAll regs p = none ↔
    ∀ bus slot func, Scanned bus slot func → ¬ p bus slot func := by
  rw [scanAll, first_zero_eq_none_iff (by decide)]
  simp only [scanBus_eq_none]
  refine ⟨?_, ?_⟩
  · intro h bus slot func hin
    exact h bus hin.bus_lt slot hin.slot_lt func hin.func_lt
  · intro h bus hbus slot hslot func hfunc
    exact h bus slot func ⟨hbus, hslot, hfunc⟩

/-- The first find of the three loops is the first function in lexicographic
    order: behind it in the outer loop nothing was looked at, before it nothing
    was found. -/
theorem scanAll_eq_some {dev : PciDevice} : scanAll regs p = some dev ↔
    ∃ bus slot func, FirstMatch p bus slot func ∧ dev = descriptor regs bus slot func := by
  rw [scanAll, first_zero_eq_some_iff (by decide)]
  refine ⟨?_, ?_⟩
  · intro h
    obtain ⟨bus, hbus, hfound, hbefore⟩ := h
    obtain ⟨slot, hslot, hfound, hslots⟩ := (first_zero_eq_some_iff (by decide)).mp hfound
    obtain ⟨func, hfunc, hfound, hfuncs⟩ := (first_zero_eq_some_iff (by decide)).mp hfound
    obtain ⟨hp, hdev⟩ := scanFunc_eq_some.mp hfound
    refine ⟨bus, slot, func, ⟨⟨hbus, hslot, hfunc⟩, hp, ?_⟩, hdev⟩
    intro b s f hin hlex
    rcases hlex with hb | ⟨rfl, hs | ⟨rfl, hf⟩⟩
    · exact scanBus_eq_none.mp (hbefore b hb) s hin.slot_lt f hin.func_lt
    · exact scanSlot_eq_none.mp (hslots s hs) f hin.func_lt
    · exact scanFunc_eq_none.mp (hfuncs f hf)
  · intro h
    obtain ⟨bus, slot, func, hfirst, hdev⟩ := h
    obtain ⟨hbus, hslot, hfunc⟩ := hfirst.scanned
    refine ⟨bus, hbus, (first_zero_eq_some_iff (by decide)).mpr ⟨slot, hslot,
      (first_zero_eq_some_iff (by decide)).mpr ⟨func, hfunc, scanFunc_eq_some.mpr ⟨hfirst.found, hdev⟩, ?_⟩, ?_⟩, ?_⟩
    · intro f hf
      have hlt : f.toNat < 8 := Nat.lt_trans hf hfunc
      exact scanFunc_eq_none.mpr (hfirst.first bus slot f ⟨hbus, hslot, hlt⟩ (.inr ⟨rfl, .inr ⟨rfl, hf⟩⟩))
    · intro s hs
      have hlt : s.toNat < 32 := Nat.lt_trans hs hslot
      exact scanSlot_eq_none.mpr (fun f hf =>
        hfirst.first bus s f ⟨hbus, hlt, hf⟩ (.inr ⟨rfl, .inl hs⟩))
    · intro b hb
      have hlt : b.toNat < 5 := Nat.lt_trans hb hbus
      exact scanBus_eq_none.mpr (fun s hs f hf => hfirst.first b s f ⟨hlt, hs, hf⟩ (.inl hb))

/-- A search for `p` finds the first function with `p`. -/
theorem findFunction_first {test : BitVec 8 → BitVec 8 → BitVec 8 → StateM PciHost Bool}
    (htest : ∀ bus slot func, Scanned bus slot func →
      Yields (HasRegs regs) (test bus slot func) (decide (p bus slot func))) {s : PciHost} (hs : s.regs = regs) :
    FindsFirst regs p (findFunction test s).1 := by
  rw [(findFunction_yields htest s hs).1]
  refine ⟨scanAll_eq_none, ?_, fun dev => scanAll_eq_some⟩
  exact Option.isNone_iff_eq_none

end
end

theorem pciFind_first (s : PciHost) (vendorId deviceId : BitVec 32) :
    FindsFirst s.regs (HasIds s.regs vendorId deviceId) (pciFind vendorId deviceId s).1 := by
  refine findFunction_first ?_ rfl
  intro bus slot func h
  refine (readDeviceId_yields h).bind ?_
  by_cases hdevice : ((functionReg s.regs bus slot func 0).extractLsb' 16 16).setWidth 32 = deviceId
  · rw [if_pos hdevice]
    refine (readVendor_yields h).bind ((Yields.pure _).congr (decide_eq_decide.mpr ?_))
    exact ⟨fun hvendor => ⟨hvendor, hdevice⟩, fun hids => hids.1⟩
  · rw [if_neg hdevice]
    exact (Yields.pure _).congr (decide_eq_false (fun hids => hdevice hids.2)).symm

theorem pciFindAny_first (s : PciHost) (classId subclassId interface : BitVec 8)
    (hinterface : interface.toNat < 128) :
    FindsFirst s.regs (HasClass s.regs classId subclassId interface)
      (pciFindAny classId subclassId interface s).1 := by
  have hint : interface.toInt = interface.toNat := by
    rw [BitVec.toInt_eq_toNat_of_lt]
    omega
  refine findFunction_first ?_ rfl
  intro bus slot func h
  refine (readClass_yields h).bind ?_
  by_cases hclass : (functionReg s.regs bus slot func 8).extractLsb' 24 8 = classId
  · rw [if_pos hclass]
    refine (readSubclass_yields h).bind ?_
    by_cases hsub : (functionReg s.regs bus slot func 8).extractLsb' 16 8 = subclassId
    · rw [if_pos hsub]
      refine (readProgIf_yields h).bind ((Yields.pure _).congr (decide_eq_decide.mpr ?_))
      -- the test on the sign is no test here: the interface is not negative
      rw [hint]
      refine ⟨?_, ?_⟩
      · intro hif
        exact ⟨hclass, hsub, BitVec.eq_of_toNat_eq (Int.ofNat.inj hif.1)⟩
      · intro hall
        rw [hall.2.2]
        omega
    · rw [if_neg hsub]
      exact (Yields.pure _).congr (decide_eq_false (fun hall => hsub hall.2.1)).symm
  · rw [if_neg hclass]
    exact (Yields.pure _).congr (decide_eq_false (fun hall => hclass hall.1)).symm

/-- **PCI search returns the first match, decoded.** For every content of
    configuration space: `pci_find`, and `pci_find_any` for an interface from 0
    to 127, return NULL and give the descriptor back if and only if no function
    of buses 0 to 4 has the ids, or the class, asked for; otherwise they return
    the descriptor of the first such function in lexicographic order, with the
    low byte of register 0x3C and the six registers from 0x10 on. -/
theorem pci_search_first (s : PciHost) (vendorId deviceId : BitVec 32) (classId subclassId interface : BitVec 8)
    (hinterface : interface.toNat < 128) :
    FindsFirst s.regs (HasIds s.regs vendorId deviceId) (pciFind vendorId deviceId s).1 ∧
      FindsFirst s.regs (HasClass s.regs classId subclassId interface)
        (pciFindAny classId subclassId interface s).1 := by
  refine ⟨?_, ?_⟩
  · exact pciFind_first s vendorId deviceId
  · exact pciFindAny_first s classId subclassId interface hinterface

/-- A network card: its ids, its class and revision, its first base address
    register and its interrupt line. -/
def nicRegs (bar0 irqLine : BitVec 32) (reg : BitVec 6) : BitVec 32 :=
  if reg = 0 then 0x813910EC else if reg = 2 then 0x02000010 else if reg = 4 then bar0
  else if reg = 15 then irqLine else 0

/-- A host bridge and two equal cards, in the slots 0, 3 and 5. Where there is
    no function the registers read as ones. -/
def twoCards : PciHost :=
  { address := 0
    regs := fun r =>
      if (r.bus, r.slot, r.func) = (0, 0, 0) then (if r.reg = 0 then 0x12378086 else 0x06000000)
      else if (r.bus, r.slot, r.func) = (0, 3, 0) then nicRegs 0xC001 0x10B r.reg
      else if (r.bus, r.slot, r.func) = (0, 5, 0) then nicRegs 0xC101 0x10A r.reg
      else 0xFFFFFFFF }

theorem twoCards_ids (bus slot func : BitVec 8) : functionReg twoCards.regs bus slot func 0 = 0x12378086 ∨
    functionReg twoCards.regs bus slot func 0 = 0x813910EC ∨
    functionReg twoCards.regs bus slot func 0 = 0xFFFFFFFF := by
  have hreg : (0 : BitVec 8).extractLsb' 2 6 = 0 := by decide
  simp only [functionReg, twoCards, nicRegs, hreg, if_true]
  repeat' split
  · exact .inl rfl
  · exact .inr (.inl rfl)
  · exact .inr (.inl rfl)
  · exact .inr (.inr rfl)

theorem firstMatch_slot_three {p : BitVec 8 → BitVec 8 → BitVec 8 → Prop} (hp : p 0 3 0)
    (hfirst : ∀ s < 3, ∀ f < 8, ¬ p 0 (BitVec.ofNat 8 s) (BitVec.ofNat 8 f)) : FirstMatch p 0 3 0 := by
  refine ⟨⟨by decide, by decide, by decide⟩, hp, ?_⟩
  intro b s f hin hlex
  rcases hlex with hb | ⟨rfl, hs | ⟨-, hf⟩⟩
  · exact absurd hb (Nat.not_lt_zero _)
  · have hnone := hfirst s.toNat hs f.toNat hin.func_lt
    rwa [BitVec.ofNat_toNat, BitVec.ofNat_toNat, BitVec.setWidth_eq, BitVec.setWidth_eq] at hnone
  · exact absurd hf (Nat.not_lt_zero _)

/-- Both searches pass the bridge and stop at the first card. -/
theorem pci_search_first_two_cards :
    (pciFind 0x10EC 0x8139 twoCards).1.found = some (descriptor twoCards.regs 0 3 0) ∧
      (pciFindAny 2 0 0 twoCards).1.found = some (descriptor twoCards.regs 0 3 0) ∧
      descriptor twoCards.regs 0 3 0 =
        { irqLine := 0x0B, bars := [0xC001, 0, 0, 0, 0, 0], bus := 0, slot := 3, func := 0, msiCap := 0 } ∧
      (pciFind 0x10EC 0x8168 twoCards).1.found = none ∧ (pciFind 0x10EC 0x8168 twoCards).1.freed = true := by
  obtain ⟨hids, hclass⟩ := pci_search_first twoCards 0x10EC 0x8139 2 0 0 (by decide)
  obtain ⟨habsent, -⟩ := pci_search_first twoCards 0x10EC 0x8168 2 0 0 (by decide)
  have hnone : (pciFind 0x10EC 0x8168 twoCards).1.found = none := by
    refine habsent.null.mpr ?_
    intro bus slot func _ hhas
    have hdevice := hhas.2
    rcases twoCards_ids bus slot func with hreg | hreg | hreg
    all_goals
      rw [hreg] at hdevice
      exact absurd hdevice (by decide)
  refine ⟨(hids.first _).mpr ⟨0, 3, 0, ?_, rfl⟩, (hclass.first _).mpr ⟨0, 3, 0, ?_, rfl⟩, by decide, hnone,
    habsent.freed.mpr hnone⟩
  · exact firstMatch_slot_three (by decide) (by decide)
  · exact firstMatch_slot_three (by decide) (by decide)

end Qnixx
