import Mathlib.Algebra.Group.Nat.Defs
import Mathlib.Logic.Function.Basic
import Mathlib.Tactic.Common

/- Configuration space (`dev/pci/pci.c`). The host bridge has two ports: what is
   written to CF8 selects a 32-bit register, and CFC is that register. The words
   of the driver are halves of these registers: `config_readw` shifts the half
   it wants down, `config_writew` writes its word as the whole register. -/
namespace Qnixx

/-- `CONFIG_ADDRESS` and `CONFIG_DATA`. -/
def configAddress : BitVec 16 := 0xCF8
def configData : BitVec 16 := 0xCFC

/-- A register of configuration space. -/
structure ConfigReg where
  bus : BitVec 8
  slot : BitVec 5
  func : BitVec 3
  reg : BitVec 6
  deriving DecidableEq

/-- The host bridge: what was written to CF8, and the registers. -/
structure PciHost where
  address : BitVec 32
  regs : ConfigReg → BitVec 32

/-- The register an address selects. -/
def selected (address : BitVec 32) : ConfigReg :=
  { bus := address.extractLsb' 16 8
    slot := address.extractLsb' 11 5
    func := address.extractLsb' 8 3
    reg := address.extractLsb' 2 6 }

/-- `__amd64_outl` and `__amd64_inl`; CFC is there while bit 31 of CF8 is set. -/
def amd64Outl (port : BitVec 16) (value : BitVec 32) : StateM PciHost Unit := fun s =>
  if port = configAddress then ((), { s with address := value })
  else if port = configData ∧ s.address.getLsbD 31 then
    ((), { s with regs := Function.update s.regs (selected s.address) value })
  else ((), s)

def amd64Inl (port : BitVec 16) : StateM PciHost (BitVec 32) := fun s =>
  if port = configData ∧ s.address.getLsbD 31 then (s.regs (selected s.address), s)
  else (0xFFFFFFFF, s)

/-- `config_addr` of both functions. -/
def configAddr (bus slot func offset : BitVec 32) : BitVec 32 :=
  (1#32 <<< 31) ||| (bus <<< 16) ||| (slot <<< 11) ||| (func <<< 8) ||| (offset &&& 0xFC#32)

def configReadw (bus slot func : BitVec 32) (offset : BitVec 8) : StateM PciHost (BitVec 16) := do
  amd64Outl configAddress (configAddr bus slot func (offset.setWidth 32))
  let data ← amd64Inl configData
  pure (((data >>> ((offset.setWidth 32 &&& 2#32) * 8#32)) &&& 0xFFFF#32).setWidth 16)

def configWritew (bus slot func offset : BitVec 32) (value : BitVec 16) : StateM PciHost Unit := do
  amd64Outl configAddress (configAddr bus slot func offset)
  amd64Outl configData (value.setWidth 32)

structure PciDevice where
  irqLine : BitVec 8
  bars : List (BitVec 64)
  bus : BitVec 8
  slot : BitVec 8
  func : BitVec 8
  msiCap : BitVec 8
  deriving DecidableEq

def pciEnableBusMastering (dev : PciDevice) : StateM PciHost Unit := do
  let val ← configReadw (dev.bus.setWidth 32) (dev.slot.setWidth 32) (dev.func.setWidth 32) 0x4
  configWritew (dev.bus.setWidth 32) (dev.slot.setWidth 32) (dev.func.setWidth 32) 0x4
    (val ||| (1#16 <<< 2) ||| (1#16 <<< 0))

/-! Words of configuration space. -/

/-- A word by its place: the arguments of the two functions, in range and with
    an even offset. -/
structure ConfigWord where
  bus : BitVec 32
  slot : BitVec 32
  func : BitVec 32
  offset : BitVec 8
  bus_lt : bus.toNat < 256
  slot_lt : slot.toNat < 32
  func_lt : func.toNat < 8
  even : offset.getLsbD 0 = false

namespace ConfigWord

/-- The register the word is in, and whether it is the upper half. -/
def register (w : ConfigWord) : ConfigReg :=
  { bus := w.bus.setWidth 8
    slot := w.slot.setWidth 5
    func := w.func.setWidth 3
    reg := w.offset.extractLsb' 2 6 }

def high (w : ConfigWord) : Bool := w.offset.getLsbD 1

/-- The other half of the same register. -/
def other (w : ConfigWord) : ConfigWord :=
  { w with
    offset := w.offset ^^^ 2
    even := by rw [BitVec.getLsbD_xor, w.even]; rfl }

def read (w : ConfigWord) : StateM PciHost (BitVec 16) := configReadw w.bus w.slot w.func w.offset

def write (w : ConfigWord) (value : BitVec 16) : StateM PciHost Unit :=
  configWritew w.bus w.slot w.func (w.offset.setWidth 32) value

end ConfigWord

/-- One half of a register. -/
def half (high : Bool) (value : BitVec 32) : BitVec 16 :=
  if high then value.extractLsb' 16 16 else value.extractLsb' 0 16

theorem setWidth_toNat_lt {x : BitVec 8} {n : Nat} (h : x.toNat < n) : (x.setWidth 32).toNat < n := by
  rw [BitVec.toNat_setWidth]
  exact Nat.lt_of_le_of_lt (Nat.mod_le _ _) h

theorem getLsbD_of_toNat_lt {w n k : Nat} {x : BitVec w} (h : x.toNat < 2^n) (hk : n ≤ k) :
    x.getLsbD k = false := by
  rw [BitVec.getLsbD, Nat.testBit_lt_two_pow]
  exact Nat.lt_of_lt_of_le h (Nat.pow_le_pow_right (by decide) hk)

section
variable {bus slot func : BitVec 32} {offset : BitVec 8}

theorem configAddr_bit {k : Nat} (hk : k < 32) : (configAddr bus slot func (offset.setWidth 32)).getLsbD k =
    (decide (k = 31) || (!decide (k < 16) && bus.getLsbD (k - 16)) ||
      (!decide (k < 11) && slot.getLsbD (k - 11)) || (!decide (k < 8) && func.getLsbD (k - 8)) ||
      (offset.getLsbD k && decide (2 ≤ k ∧ k < 8))) := by
  have hone : (1#32 <<< 31).getLsbD k = decide (k = 31) := by
    revert k
    decide
  have hmask : (0xFC#32).getLsbD k = decide (2 ≤ k ∧ k < 8) := by
    revert k
    decide
  simp only [configAddr, BitVec.getLsbD_or, BitVec.getLsbD_shiftLeft, BitVec.getLsbD_and, hone, hmask, hk,
    BitVec.getLsbD_setWidth, decide_true, Bool.true_and]

/-- The address selects the register of its arguments. -/
theorem selected_configAddr (hslot : slot.toNat < 32) (hfunc : func.toNat < 8) :
    selected (configAddr bus slot func (offset.setWidth 32)) =
      { bus := bus.setWidth 8, slot := slot.setWidth 5, func := func.setWidth 3, reg := offset.extractLsb' 2 6 } := by
  have hslot' : ∀ k, 5 ≤ k → slot.getLsbD k = false := fun k => getLsbD_of_toNat_lt hslot
  have hfunc' : ∀ k, 3 ≤ k → func.getLsbD k = false := fun k => getLsbD_of_toNat_lt hfunc
  rw [selected, ConfigReg.mk.injEq]
  refine ⟨?_, ?_, ?_, ?_⟩
  · apply BitVec.eq_of_getLsbD_eq
    intro i hi
    rw [BitVec.getLsbD_extractLsb', configAddr_bit (by omega), hslot' _ (by omega), hfunc' _ (by omega),
      BitVec.getLsbD_setWidth, show 16 + i - 16 = i by omega]
    simp [hi, show ¬ 16 + i = 31 by omega, show ¬ 16 + i < 16 by omega, show ¬ 16 + i < 8 by omega]
  · apply BitVec.eq_of_getLsbD_eq
    intro i hi
    rw [BitVec.getLsbD_extractLsb', configAddr_bit (by omega), hfunc' _ (by omega), BitVec.getLsbD_setWidth,
      show 11 + i - 11 = i by omega]
    simp [hi, show ¬ 11 + i = 31 by omega, show 11 + i < 16 by omega, show ¬ 11 + i < 8 by omega]
  · apply BitVec.eq_of_getLsbD_eq
    intro i hi
    rw [BitVec.getLsbD_extractLsb', configAddr_bit (by omega), BitVec.getLsbD_setWidth,
      show 8 + i - 8 = i by omega]
    simp [hi, show ¬ 8 + i = 31 by omega, show 8 + i < 16 by omega, show 8 + i < 11 by omega]
  · apply BitVec.eq_of_getLsbD_eq
    intro i hi
    rw [BitVec.getLsbD_extractLsb', BitVec.getLsbD_extractLsb', configAddr_bit (by omega)]
    simp [hi, show ¬ 2 + i = 31 by omega, show 2 + i < 16 by omega, show 2 + i < 11 by omega,
      show 2 + i < 8 by omega]

theorem configAddr_enabled : (configAddr bus slot func (offset.setWidth 32)).getLsbD 31 = true := by
  rw [configAddr_bit (by decide)]
  rfl

/-- The shift of `config_readw` gives one half of the register. -/
theorem shifted_half (offset : BitVec 8) (data : BitVec 32) :
    ((data >>> ((offset.setWidth 32 &&& 2#32) * 8#32)) &&& 0xFFFF#32).setWidth 16 =
      half (offset.getLsbD 1) data := by
  have hshift : ∀ offset : BitVec 8, ((offset.setWidth 32 &&& 2#32) * 8#32).toNat =
      if offset.getLsbD 1 then 16 else 0 := by
    decide
  have hmask : ∀ k, k < 16 → (0xFFFF#32).getLsbD k = true := by decide
  apply BitVec.eq_of_getLsbD_eq
  intro k hk
  rw [BitVec.getLsbD_setWidth, BitVec.getLsbD_and, hmask k hk, BitVec.ushiftRight_eq', hshift,
    BitVec.getLsbD_ushiftRight, half]
  cases offset.getLsbD 1 with
  | true => simp [hk]
  | false => simp [hk]

theorem configReadw_run (bus : BitVec 32) (hslot : slot.toNat < 32) (hfunc : func.toNat < 8) (offset : BitVec 8)
    (s : PciHost) :
    (configReadw bus slot func offset s).1 = half (offset.getLsbD 1) (s.regs
        { bus := bus.setWidth 8, slot := slot.setWidth 5, func := func.setWidth 3, reg := offset.extractLsb' 2 6 }) ∧
      (configReadw bus slot func offset s).2.regs = s.regs := by
  have hdata : amd64Inl configData { s with address := configAddr bus slot func (offset.setWidth 32) } =
      (s.regs (selected (configAddr bus slot func (offset.setWidth 32))),
        { s with address := configAddr bus slot func (offset.setWidth 32) }) := by
    rw [amd64Inl, if_pos ⟨rfl, configAddr_enabled⟩]
  have hread : configReadw bus slot func offset s = (((amd64Inl configData { s with
      address := configAddr bus slot func (offset.setWidth 32) }).1 >>>
        ((offset.setWidth 32 &&& 2#32) * 8#32) &&& 0xFFFF#32).setWidth 16,
      (amd64Inl configData { s with address := configAddr bus slot func (offset.setWidth 32) }).2) := rfl
  rw [hread, hdata, shifted_half, selected_configAddr hslot hfunc]
  exact ⟨rfl, rfl⟩

end

namespace ConfigWord

theorem register_eq (w : ConfigWord) :
    selected (configAddr w.bus w.slot w.func (w.offset.setWidth 32)) = w.register :=
  selected_configAddr w.slot_lt w.func_lt

/-- A read returns the half of the register and leaves the registers alone. -/
theorem read_run (w : ConfigWord) (s : PciHost) :
    (w.read s).1 = half w.high (s.regs w.register) ∧ (w.read s).2.regs = s.regs :=
  configReadw_run w.bus w.slot_lt w.func_lt w.offset s

/-- A write replaces the whole register. -/
theorem write_regs (w : ConfigWord) (value : BitVec 16) (s : PciHost) :
    (w.write value s).2.regs = Function.update s.regs w.register (value.setWidth 32) := by
  have hwrite : w.write value s = amd64Outl configData (value.setWidth 32)
      { s with address := configAddr w.bus w.slot w.func (w.offset.setWidth 32) } := rfl
  rw [hwrite, amd64Outl, if_neg (by decide), if_pos ⟨rfl, configAddr_enabled⟩, register_eq]

theorem setWidth_injective {x y : BitVec 32} {n : Nat} (hx : x.toNat < 2^n) (hy : y.toNat < 2^n)
    (h : x.setWidth n = y.setWidth n) : x = y := by
  have hnat := congrArg BitVec.toNat h
  rw [BitVec.toNat_setWidth, BitVec.toNat_setWidth, Nat.mod_eq_of_lt hx, Nat.mod_eq_of_lt hy] at hnat
  exact BitVec.eq_of_toNat_eq hnat

/-- A word is given by its register and its half. -/
theorem eq_of_register {v w : ConfigWord} (hreg : v.register = w.register) (hhigh : v.high = w.high) : v = w := by
  obtain ⟨hbus, hslot, hfunc, hreg⟩ := ConfigReg.mk.injEq .. ▸ hreg
  have hoffset : v.offset = w.offset := by
    apply BitVec.eq_of_getLsbD_eq
    intro k hk
    match k with
    | 0 => rw [v.even, w.even]
    | 1 => exact hhigh
    | k + 2 =>
      have hbit := congrArg (fun x => x.getLsbD k) hreg
      simp only [BitVec.getLsbD_extractLsb', show k < 6 by omega, decide_true, Bool.true_and] at hbit
      rwa [Nat.add_comm 2 k] at hbit
  cases v with
  | mk bus slot func offset bus_lt slot_lt func_lt even =>
    cases w with
    | mk bus' slot' func' offset' bus_lt' slot_lt' func_lt' even' =>
      obtain rfl := setWidth_injective bus_lt bus_lt' hbus
      obtain rfl := setWidth_injective slot_lt slot_lt' hslot
      obtain rfl := setWidth_injective func_lt func_lt' hfunc
      obtain rfl := hoffset
      rfl

theorem other_register (w : ConfigWord) : w.other.register = w.register := by
  have hreg : ∀ offset : BitVec 8, (offset ^^^ 2).extractLsb' 2 6 = offset.extractLsb' 2 6 := by decide
  simp only [register, other, hreg]

theorem other_high (w : ConfigWord) : w.other.high = !w.high := by
  have hhigh : ∀ offset : BitVec 8, (offset ^^^ 2).getLsbD 1 = !offset.getLsbD 1 := by decide
  exact hhigh w.offset

theorem other_ne (w : ConfigWord) : w.other ≠ w := by
  intro h
  have hhigh := other_high w
  rw [h] at hhigh
  exact (Bool.eq_not_self _).mp hhigh

/-- Two words of one register are the same word or its two halves. -/
theorem eq_other_of_register {v w : ConfigWord} (hreg : v.register = w.register) (hne : v ≠ w) : v = w.other := by
  apply eq_of_register
  · rw [hreg, other_register]
  · rw [other_high]
    exact Bool.eq_not_of_ne (fun hhigh => hne (eq_of_register hreg hhigh))

end ConfigWord

/-- After a write the word reads back, and every other word reads as before. -/
def WordsConsistent (s : PciHost) (w : ConfigWord) (value : BitVec 16) : Prop :=
  (w.read (w.write value s).2).1 = value ∧
    ∀ v : ConfigWord, v ≠ w → (v.read (w.write value s).2).1 = (v.read s).1

/-- The two halves of a register that was written with a word. -/
theorem half_written (high : Bool) (value : BitVec 16) :
    half high (value.setWidth 32) = if high then 0 else value := by
  apply BitVec.eq_of_getLsbD_eq
  intro k hk
  cases high with
  | true =>
    rw [half, if_pos rfl, if_pos rfl, BitVec.getLsbD_extractLsb', BitVec.getLsbD_setWidth,
      BitVec.getLsbD_of_ge _ _ (by omega)]
    simp
  | false =>
    rw [half, if_neg Bool.false_ne_true, if_neg Bool.false_ne_true, BitVec.getLsbD_extractLsb',
      BitVec.getLsbD_setWidth, Nat.zero_add]
    simp [hk, show k < 32 by omega]

theorem wordsConsistent_iff (s : PciHost) (w : ConfigWord) (value : BitVec 16) :
    WordsConsistent s w value ↔ (w.other.read s).1 = 0 ∧ (w.high = true → value = 0) := by
  have hsame : (w.read (w.write value s).2).1 = if w.high then 0 else value := by
    rw [(w.read_run _).1, w.write_regs, Function.update_self, half_written]
  have hother : (w.other.read (w.write value s).2).1 = if w.high then value else 0 := by
    rw [(w.other.read_run _).1, w.write_regs, w.other_register, Function.update_self, half_written, w.other_high]
    cases w.high with
    | true => rfl
    | false => rfl
  have hrest : ∀ v : ConfigWord, v.register ≠ w.register → (v.read (w.write value s).2).1 = (v.read s).1 := by
    intro v hne
    rw [(v.read_run _).1, (v.read_run s).1, w.write_regs, Function.update_of_ne hne]
  refine ⟨?_, ?_⟩
  · intro h
    obtain ⟨hback, hall⟩ := h
    have hkept := hall w.other w.other_ne
    rw [hsame] at hback
    rw [hother] at hkept
    cases hhigh : w.high with
    | true =>
      rw [hhigh, if_pos rfl] at hback hkept
      exact ⟨by rw [← hkept, ← hback], fun _ => hback.symm⟩
    | false =>
      rw [hhigh, if_neg Bool.false_ne_true] at hkept
      exact ⟨hkept.symm, nofun⟩
  · intro h
    obtain ⟨hzero, hvalue⟩ := h
    refine ⟨?_, ?_⟩
    · rw [hsame]
      cases hhigh : w.high with
      | true => exact (hvalue hhigh).symm
      | false => rfl
    · intro v hne
      by_cases hreg : v.register = w.register
      · rw [ConfigWord.eq_other_of_register hreg hne, hother, hzero]
        cases hhigh : w.high with
        | true => exact hvalue hhigh
        | false => rfl
      · exact hrest v hreg

/-! Bus mastering. -/

/-- A device where `pci_find` can have found it. -/
structure PciDevice.InRange (dev : PciDevice) : Prop where
  slot_lt : dev.slot.toNat < 32
  func_lt : dev.func.toNat < 8

/-- The command word of a device, at offset 4. -/
def PciDevice.command (dev : PciDevice) (h : dev.InRange) : ConfigWord :=
  { bus := dev.bus.setWidth 32
    slot := dev.slot.setWidth 32
    func := dev.func.setWidth 32
    offset := 4
    bus_lt := setWidth_toNat_lt dev.bus.isLt
    slot_lt := setWidth_toNat_lt h.slot_lt
    func_lt := setWidth_toNat_lt h.func_lt
    even := by decide }

/-- `pci_enable_bus_mastering` sets bits 0 and 2 of the command word, and every
    other word reads as before. -/
def MasteringOnly (s : PciHost) (dev : PciDevice) (h : dev.InRange) : Prop :=
  ((dev.command h).read (pciEnableBusMastering dev s).2).1 = ((dev.command h).read s).1 ||| 5 ∧
    ∀ v : ConfigWord, v ≠ dev.command h → (v.read (pciEnableBusMastering dev s).2).1 = (v.read s).1

theorem masteringOnly_iff (s : PciHost) (dev : PciDevice) (h : dev.InRange) :
    MasteringOnly s dev h ↔ ((dev.command h).other.read s).1 = 0 := by
  -- the write goes to the state the read of the command word leaves, with the same registers
  have hregs := ((dev.command h).read_run s).2
  have hread : ∀ v : ConfigWord, (v.read ((dev.command h).read s).2).1 = (v.read s).1 := by
    intro v
    rw [(v.read_run _).1, (v.read_run s).1, hregs]
  have hwords := wordsConsistent_iff ((dev.command h).read s).2 (dev.command h)
    (((dev.command h).read s).1 ||| (1#16 <<< 2) ||| (1#16 <<< 0))
  have hhigh : (dev.command h).high = false := by
    show (4 : BitVec 8).getLsbD 1 = false
    decide
  have hvalue : ((dev.command h).read s).1 ||| (1#16 <<< 2) ||| (1#16 <<< 0) = ((dev.command h).read s).1 ||| 5 := by
    rw [BitVec.or_assoc]
    rfl
  have hmaster : (pciEnableBusMastering dev s).2 = ((dev.command h).write
      (((dev.command h).read s).1 ||| (1#16 <<< 2) ||| (1#16 <<< 0)) ((dev.command h).read s).2).2 := rfl
  calc MasteringOnly s dev h
      ↔ WordsConsistent ((dev.command h).read s).2 (dev.command h)
          (((dev.command h).read s).1 ||| (1#16 <<< 2) ||| (1#16 <<< 0)) := by
        rw [MasteringOnly, WordsConsistent, hmaster]
        simp only [hread, hvalue]
    _ ↔ ((dev.command h).other.read s).1 = 0 := by
        rw [hwords, hread, hhigh]
        exact ⟨fun hc => hc.1, fun hzero => ⟨hzero, nofun⟩⟩

/-- **When configuration words are kept apart.** For every content of
    configuration space, every word and every value: after `config_writew` the
    word reads back and every other word reads as before, if and only if the
    other half of its register is 0 and, where the word is the upper half, the
    value is 0. So `pci_enable_bus_mastering` sets two bits and nothing else if
    and only if the device's status word is 0. -/
theorem config_words_iff (s : PciHost) (w : ConfigWord) (value : BitVec 16) (dev : PciDevice)
    (h : dev.InRange) :
    (WordsConsistent s w value ↔ (w.other.read s).1 = 0 ∧ (w.high = true → value = 0)) ∧
      (MasteringOnly s dev h ↔ ((dev.command h).other.read s).1 = 0) :=
  ⟨wordsConsistent_iff s w value, masteringOnly_iff s dev h⟩

/-- A network card at slot 3 of bus 0 with this status word; I/O is enabled in
    its command word. -/
def nicHost (status : BitVec 16) : PciHost :=
  { address := 0
    regs := fun r => if r = ⟨0, 3, 0, 1⟩ then status ++ 0x0001#16 else 0 }

def nicDevice : PciDevice :=
  { irqLine := 11, bars := [], bus := 0, slot := 3, func := 0, msiCap := 0 }

theorem nicDevice_inRange : nicDevice.InRange := ⟨by decide, by decide⟩

/-- With a status word of 0 two bits are set and nothing else, -/
theorem config_words_iff_no_status : MasteringOnly (nicHost 0) nicDevice nicDevice_inRange := by
  have hiff := config_words_iff (nicHost 0) (nicDevice.command nicDevice_inRange) 0x5 nicDevice nicDevice_inRange
  exact hiff.2.mpr (by decide)

/-- and a status word that is not 0 is lost. -/
theorem mastering_clears_status :
    ((nicDevice.command nicDevice_inRange).other.read (nicHost 0x290)).1 = 0x290 ∧
      ((nicDevice.command nicDevice_inRange).other.read (pciEnableBusMastering nicDevice (nicHost 0x290)).2).1 = 0 ∧
      ¬ WordsConsistent (nicHost 0x290) (nicDevice.command nicDevice_inRange) 0x5 := by
  refine ⟨by decide, by decide, ?_⟩
  intro hwords
  have hkept := hwords.2 (nicDevice.command nicDevice_inRange).other (ConfigWord.other_ne _)
  exact absurd hkept (by decide)

end Qnixx
