import Qnixx.Lib.X86
import Qnixx.Sched

/- The timer path: `__lapic_timer_isr` (`amd64/intr.s`), `trap_entry` and
   `trap_end` (`amd64/trapasm.s`) and `trap` (`amd64/trap.c`). The assembly is
   transcribed instruction by instruction; `jmp trap_entry` is concatenation.
   A `trapframe_t` in memory is the 22 words from its address on. `cs` and
   `ss` have 16 bits and padding after them, which nothing reads. -/
namespace Qnixx

open X86 ByteMem

/-- The C functions that the assembly calls. -/
inductive CFun where
  | irqEnter | irqExit | lapicGetTimerVector | trap

/-! The assembly. -/

def trapEntrySaves : List Operand :=
  [.seg .gs, .seg .fs, .reg .r15, .reg .r14, .reg .r13, .reg .r12, .reg .r11, .reg .r10, .reg .r9,
    .reg .r8, .reg .rax, .reg .rcx, .reg .rdx, .reg .rbx, .reg .rsi, .reg .rdi]

/-- `trap_entry` up to the call of `trap`. -/
def trapEntry : List (Instr CFun) := trapEntrySaves.map .push ++ [.mov .rsp .rdi]

def trapEndRestores : List Operand :=
  [.reg .rdi, .reg .rsi, .reg .rbx, .reg .rdx, .reg .rcx, .reg .rax, .reg .r8, .reg .r9, .reg .r10,
    .reg .r11, .reg .r12, .reg .r13, .reg .r14, .reg .r15, .seg .fs, .seg .gs]

def trapEnd : List (Instr CFun) := trapEndRestores.map .pop ++ [.addRsp 8, .iretq]

def isrSaves : List Operand :=
  [.reg .rbp, .reg .rax, .reg .rdi, .reg .rsi, .reg .rdx, .reg .rcx, .reg .rbx, .reg .r8]

def isrRestores : List Operand :=
  [.reg .r8, .reg .rbx, .reg .rcx, .reg .rdx, .reg .rsi, .reg .rdi, .reg .rax, .reg .rbp]

/-- `__lapic_timer_isr`, `timerVector` being the address of its byte variable. -/
def lapicTimerIsr (timerVector : BitVec 64) : List (Instr CFun) :=
  [.call .irqEnter] ++ isrSaves.map .push ++ [.call .lapicGetTimerVector, .storeAl timerVector] ++
    isrRestores.map .pop ++ [.push (.word timerVector), .call .irqExit]

/-! Frames in memory. -/

/-- The frame as it lies in memory. -/
def Trapframe.words (tf : Trapframe) : List (BitVec 64) :=
  [tf.rdi, tf.rsi, tf.rbx, tf.rdx, tf.rcx, tf.rax, tf.r8, tf.r9, tf.r10, tf.r11, tf.r12, tf.r13,
    tf.r14, tf.r15, tf.fs, tf.gs, tf.trapno, tf.rip, tf.cs.setWidth 64, tf.rflags, tf.rsp,
    tf.ss.setWidth 64]

/-- The frame that has these words in memory. -/
def Trapframe.ofWords (w : Nat → BitVec 64) : Trapframe :=
  { rdi := w 0, rsi := w 1, rbx := w 2, rdx := w 3, rcx := w 4, rax := w 5, r8 := w 6, r9 := w 7,
    r10 := w 8, r11 := w 9, r12 := w 10, r13 := w 11, r14 := w 12, r15 := w 13, fs := w 14,
    gs := w 15, trapno := w 16, rip := w 17, cs := (w 18).setWidth 16, rflags := w 19, rsp := w 20,
    ss := (w 21).setWidth 16 }

def readFrame (m : Mem) (a : BitVec 64) : Trapframe :=
  Trapframe.ofWords (fun k => load64 m (a + BitVec.ofNat 64 (8 * k)))

/-- `memcpy(tf, ..., sizeof(trapframe_t))`. -/
def writeFrame (m : Mem) (a : BitVec 64) (tf : Trapframe) : Mem :=
  storeDown m (a + 176) tf.words.reverse

theorem Trapframe.ofWords_congr {w w' : Nat → BitVec 64} (h : ∀ k < 22, w k = w' k) :
    Trapframe.ofWords w = Trapframe.ofWords w' := by
  simp (disch := decide) only [Trapframe.ofWords, h]

theorem Trapframe.ofWords_words (tf : Trapframe) :
    Trapframe.ofWords (fun k => tf.words[k]?.getD 0) = tf := by
  simp [Trapframe.ofWords, Trapframe.words]

/-- The frame read back, word by word. -/
theorem load64_writeFrame (m : Mem) (a : BitVec 64) (tf : Trapframe) {k : Nat} (hk : k < 22) :
    load64 (writeFrame m a tf) (a + BitVec.ofNat 64 (8 * k)) = tf.words[k]?.getD 0 := by
  have hlen : tf.words.reverse.length = 22 := rfl
  have hget : tf.words.reverse.reverse[k]? = some (tf.words[k]?.getD 0) := by
    rw [List.reverse_reverse, List.getElem?_eq_getElem (show k < tf.words.length from hk)]
    rfl
  have := load64_storeDown tf.words.reverse m (a + 176) (by rw [hlen]; decide) hget
  rw [hlen] at this
  rw [writeFrame, ← this]
  congr 1
  bv_omega

theorem readFrame_writeFrame (m : Mem) (a : BitVec 64) (tf : Trapframe) :
    readFrame (writeFrame m a tf) a = tf := by
  refine (Trapframe.ofWords_congr ?_).trans tf.ofWords_words
  intro k hk
  exact load64_writeFrame m a tf hk

/-- What the frame has for a register; `rbp` is not in it. -/
def Trapframe.reg (tf : Trapframe) : Reg → Option (BitVec 64)
  | .rax => some tf.rax | .rbx => some tf.rbx | .rcx => some tf.rcx | .rdx => some tf.rdx
  | .rsi => some tf.rsi | .rdi => some tf.rdi | .rbp => none | .rsp => some tf.rsp
  | .r8 => some tf.r8 | .r9 => some tf.r9 | .r10 => some tf.r10 | .r11 => some tf.r11
  | .r12 => some tf.r12 | .r13 => some tf.r13 | .r14 => some tf.r14 | .r15 => some tf.r15

/-- The frame of a timer interrupt in the context `c`. -/
def frameOf (vector : BitVec 8) (c : Cpu) : Trapframe :=
  { rdi := c.regs .rdi, rsi := c.regs .rsi, rbx := c.regs .rbx, rdx := c.regs .rdx,
    rcx := c.regs .rcx, rax := c.regs .rax, r8 := c.regs .r8, r9 := c.regs .r9, r10 := c.regs .r10,
    r11 := c.regs .r11, r12 := c.regs .r12, r13 := c.regs .r13, r14 := c.regs .r14,
    r15 := c.regs .r15, fs := (c.seg .fs).setWidth 64, gs := (c.seg .gs).setWidth 64,
    trapno := vector.setWidth 64, rip := c.rip, cs := c.cs, rflags := c.rflags, rsp := c.regs .rsp,
    ss := c.ss }

theorem frameOf_reg (vector : BitVec 8) (c : Cpu) {r : Reg} (h : r ≠ .rbp) :
    (frameOf vector c).reg r = some (c.regs r) := by
  cases r <;> first | rfl | exact absurd rfl h

/-- `trap` decides by the frame's `trapno` and the vector it asks for again. -/
def takesYield (vector : BitVec 8) (tf : Trapframe) : Bool := tf.trapno == vector.setWidth 64

@[simp] theorem takesYield_frameOf (vector : BitVec 8) (c : Cpu) : takesYield vector (frameOf vector c) = true :=
  beq_self_eq_true _

/-- What `trap_entry` builds from the registers and the six words that are on
    the stack when it is reached. -/
def entryFrame (c : Cpu) : Trapframe :=
  { rdi := c.regs .rdi, rsi := c.regs .rsi, rbx := c.regs .rbx, rdx := c.regs .rdx,
    rcx := c.regs .rcx, rax := c.regs .rax, r8 := c.regs .r8, r9 := c.regs .r9, r10 := c.regs .r10,
    r11 := c.regs .r11, r12 := c.regs .r12, r13 := c.regs .r13, r14 := c.regs .r14,
    r15 := c.regs .r15, fs := (c.seg .fs).setWidth 64, gs := (c.seg .gs).setWidth 64,
    trapno := c.top 0, rip := c.top 1, cs := (c.top 2).setWidth 16, rflags := c.top 3,
    rsp := c.top 4, ss := (c.top 5).setWidth 16 }

theorem entryFrame_reg (d : Cpu) {r : Reg} (hrbp : r ≠ .rbp) (hrsp : r ≠ .rsp) :
    (entryFrame d).reg r = some (d.regs r) := by
  cases r <;> first | rfl | exact absurd rfl hrbp | exact absurd rfl hrsp

/-- With the registers of `c`, its return frame and the vector on the stack,
    the frame is that of `c`. -/
theorem entryFrame_of_context {vector : BitVec 8} {c d : Cpu}
    (hreg : ∀ r, r ≠ .rsp → r ≠ .rbp → d.regs r = c.regs r) (hseg : d.seg = c.seg)
    (hno : d.top 0 = vector.setWidth 64) (hframe : ∀ k < 5, d.top (k + 1) = c.returnFrame.top k) :
    entryFrame d = frameOf vector c := by
  obtain ⟨hrip, hcs, hflags, hrsp, hss⟩ := returnFrame_top c
  have h₁ := (hframe 0 (by decide)).trans hrip
  have h₂ := (hframe 1 (by decide)).trans hcs
  have h₃ := (hframe 2 (by decide)).trans hflags
  have h₄ := (hframe 3 (by decide)).trans hrsp
  have h₅ := (hframe 4 (by decide)).trans hss
  simp only [Nat.zero_add, Nat.reduceAdd] at h₁ h₂ h₃ h₄ h₅
  simp (disch := decide) only [entryFrame, frameOf, hreg, hseg, hno, h₁, h₂, h₃, h₄, h₅]
  simp

/-- The words of the frame, from its lowest address on. -/
def entryWords (c : Cpu) (k : Nat) : BitVec 64 :=
  if k < 16 then ((trapEntrySaves.map c.read).reverse[k]?).getD 0 else c.top (k - 16)

theorem entryFrame_eq (c : Cpu) : entryFrame c = Trapframe.ofWords (entryWords c) := rfl

theorem entryWords_stored (c : Cpu) {k : Nat} (hk : k < 22) :
    load64 (storeDown c.mem (c.regs .rsp) (trapEntrySaves.map c.read))
      (c.regs .rsp - 128 + BitVec.ofNat 64 (8 * k)) = entryWords c k := by
  have hlen : (trapEntrySaves.map c.read).length = 16 := rfl
  unfold entryWords
  split
  · next hlow =>
    have hget : (trapEntrySaves.map c.read).reverse[k]? =
        some (((trapEntrySaves.map c.read).reverse[k]?).getD 0) := by
      rw [List.getElem?_eq_getElem (by simpa [hlen] using hlow)]
      rfl
    have := load64_storeDown (trapEntrySaves.map c.read) c.mem (c.regs .rsp) (by rw [hlen]; decide) hget
    rwa [hlen] at this
  · next hhigh =>
    -- the words above were on the stack before
    have haddr : c.regs .rsp - 128 + BitVec.ofNat 64 (8 * k) =
        c.regs .rsp + BitVec.ofNat 64 (8 * (k - 16)) := by bv_omega
    rw [haddr, load64_storeDown_above _ _ _ (by rw [hlen]; omega)]
    rfl

section
variable {W : Type} (call : CFun → W × Cpu → Option (W × Cpu))

/-- The state at the call of `trap`: its argument points to the frame. -/
structure Entered (c c' : Cpu) : Prop where
  rdi : c'.regs .rdi = c.regs .rsp - 128
  rsp : c'.regs .rsp = c.regs .rsp - 128
  rbp : c'.regs .rbp = c.regs .rbp
  frame : readFrame c'.mem (c'.regs .rdi) = entryFrame c

theorem exec_trapEntry (w : W) (c : Cpu) :
    ∃ c', Runs.exec (step call) (w, c) trapEntry = some (w, c') ∧ Entered c c' := by
  have hplain : ∀ o ∈ trapEntrySaves, o.Plain := by decide
  have hpush := exec_pushes call w c hplain
  have hrsp : (c.pushBlock (trapEntrySaves.map c.read)).regs .rsp = c.regs .rsp - 128 :=
    c.pushBlock_rsp _
  refine ⟨(c.pushBlock (trapEntrySaves.map c.read)).set .rdi (c.regs .rsp - 128), ?_, ?_, ?_, ?_, ?_⟩
  · refine Runs.exec_append.mpr ⟨_, hpush, ?_⟩
    rw [← hrsp]
    rfl
  · exact Cpu.set_self ..
  · exact (Cpu.set_ne _ _ (by decide)).trans hrsp
  · exact (Cpu.set_ne _ _ (by decide)).trans (c.pushBlock_ne _ (by decide))
  · rw [entryFrame_eq, Cpu.set_self]
    refine Trapframe.ofWords_congr ?_
    intro k hk
    exact entryWords_stored c hk

/-- What `trap_end` returns to, `tf` being the frame at the stack pointer. A
    register the frame does not have keeps its value. -/
structure Resumed (tf : Trapframe) (c c' : Cpu) : Prop where
  regs : ∀ r, c'.regs r = (tf.reg r).getD (c.regs r)
  fs : c'.seg .fs = tf.fs.setWidth 16
  gs : c'.seg .gs = tf.gs.setWidth 16
  rip : c'.rip = tf.rip
  cs : c'.cs = tf.cs
  rflags : c'.rflags = tf.rflags
  ss : c'.ss = tf.ss

/-- The registers of a frame, popped in the order of the restores. -/
theorem popped_frame {c d : Cpu} (hpop : Popped c trapEndRestores d) {r : Reg} (hr : r ≠ .rsp) :
    d.regs r = ((readFrame c.mem (c.regs .rsp)).reg r).getD (c.regs r) := by
  cases r with
  | rsp => exact absurd rfl hr
  | rbp => exact hpop.regOther .rbp hr (by decide)
  | rdi => exact hpop.reg 0 _ rfl
  | rsi => exact hpop.reg 1 _ rfl
  | rbx => exact hpop.reg 2 _ rfl
  | rdx => exact hpop.reg 3 _ rfl
  | rcx => exact hpop.reg 4 _ rfl
  | rax => exact hpop.reg 5 _ rfl
  | r8 => exact hpop.reg 6 _ rfl
  | r9 => exact hpop.reg 7 _ rfl
  | r10 => exact hpop.reg 8 _ rfl
  | r11 => exact hpop.reg 9 _ rfl
  | r12 => exact hpop.reg 10 _ rfl
  | r13 => exact hpop.reg 11 _ rfl
  | r14 => exact hpop.reg 12 _ rfl
  | r15 => exact hpop.reg 13 _ rfl

theorem exec_trapEnd (w : W) (c : Cpu) :
    ∃ c', Runs.exec (step call) (w, c) trapEnd = some (w, c') ∧
      Resumed (readFrame c.mem (c.regs .rsp)) c c' := by
  have hplain : ∀ o ∈ trapEndRestores, o.Plain := by decide
  have hnodup : trapEndRestores.Nodup := by decide
  obtain ⟨d, hd, hpop⟩ := exec_pops call w c hplain hnodup
  -- the words `iretq` pops are the last five of the frame
  have htop : ∀ k, (d.set .rsp (d.regs .rsp + 8)).top k = c.top (k + 17) := by
    intro k
    have hrsp : (d.set .rsp (d.regs .rsp + 8)).regs .rsp + BitVec.ofNat 64 (8 * k) =
        c.regs .rsp + BitVec.ofNat 64 (8 * (k + 17)) := by
      rw [Cpu.set_self, hpop.rsp]
      show c.regs .rsp + 128 + 8 + _ = _
      bv_omega
    show load64 d.mem _ = _
    rw [hrsp, hpop.mem]
    rfl
  refine ⟨(d.set .rsp (d.regs .rsp + 8)).iretq, Runs.exec_append.mpr ⟨_, hd, rfl⟩, ?_, ?_, ?_, ?_, ?_,
    ?_, ?_⟩
  · intro r
    by_cases hr : r = .rsp
    · subst hr
      show ((d.set .rsp (d.regs .rsp + 8)).set .rsp _).regs .rsp = _
      rw [Cpu.set_self, htop]
      rfl
    · have hkeep : (d.set .rsp (d.regs .rsp + 8)).iretq.regs r = d.regs r := by
        show ((d.set .rsp (d.regs .rsp + 8)).set .rsp _).regs r = _
        rw [Cpu.set_ne _ _ hr, Cpu.set_ne _ _ hr]
      rw [hkeep]
      exact popped_frame hpop hr
  · exact hpop.seg 14 _ rfl
  · exact hpop.seg 15 _ rfl
  · exact htop 0
  · exact congrArg (BitVec.setWidth 16) (htop 1)
  · exact htop 2
  · exact congrArg (BitVec.setWidth 16) (htop 4)

end

end Qnixx
