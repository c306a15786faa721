import Mathlib.Logic.Function.Basic
import Qnixx.Lib.ByteMem
import Qnixx.Lib.Runs

/- A fragment of the x86-64 instruction set: what interrupt stubs are made of.
   A program is a list of instructions; a call of a C function is an
   instruction too, whose meaning `call` is a parameter, so that the same
   program can be run with whatever the calling convention allows. The
   instruction pointer is tracked only across delivery and `iretq`.

   Blocks of pushes and pops are described as wholes: a block of pushes stores
   its operands downwards (`storeDown`), and a block of pops with distinct
   destinations reads the words above the stack pointer. -/
namespace X86

open ByteMem

inductive Reg where
  | rax | rbx | rcx | rdx | rsi | rdi | rbp | rsp
  | r8 | r9 | r10 | r11 | r12 | r13 | r14 | r15
  deriving DecidableEq

inductive Seg where
  | fs | gs
  deriving DecidableEq

structure Cpu where
  regs : Reg → BitVec 64
  seg : Seg → BitVec 16
  rip : BitVec 64
  rflags : BitVec 64
  cs : BitVec 16
  ss : BitVec 16
  mem : Mem

/-- What `push` and `pop` take; `word a` is the word at the address `a`. -/
inductive Operand where
  | reg (r : Reg)
  | seg (s : Seg)
  | word (a : BitVec 64)
  deriving DecidableEq

/-- The instructions; `κ` names the functions that can be called. -/
inductive Instr (κ : Type) where
  | push (o : Operand)
  | pop (o : Operand)
  | mov (src dst : Reg)
  /-- `mov %al, a`: one byte. -/
  | storeAl (a : BitVec 64)
  | addRsp (n : BitVec 64)
  | call (f : κ)
  | iretq

namespace Cpu

def set (c : Cpu) (r : Reg) (v : BitVec 64) : Cpu := { c with regs := Function.update c.regs r v }

def read (c : Cpu) : Operand → BitVec 64
  | .reg r => c.regs r
  | .seg s => (c.seg s).setWidth 64
  | .word a => load64 c.mem a

def write (c : Cpu) : Operand → BitVec 64 → Cpu
  | .reg r, v => c.set r v
  | .seg s, v => { c with seg := Function.update c.seg s (v.setWidth 16) }
  | .word a, v => { c with mem := store64 c.mem a v }

def push (c : Cpu) (v : BitVec 64) : Cpu :=
  { c.set .rsp (c.regs .rsp - 8) with mem := store64 c.mem (c.regs .rsp - 8) v }

/-- The word `k` places above the stack pointer. -/
def top (c : Cpu) (k : Nat) : BitVec 64 := load64 c.mem (c.regs .rsp + BitVec.ofNat 64 (8 * k))

/-- The stack is aligned and the return frame pushed, with no change of stack. -/
def returnFrame (c : Cpu) : Cpu :=
  c.set .rsp (c.regs .rsp &&& ~~~15) |>.push (c.ss.setWidth 64) |>.push (c.regs .rsp)
    |>.push c.rflags |>.push (c.cs.setWidth 64) |>.push c.rip

/-- Delivery of an interrupt through a gate to `entry` in segment `sel`:
    interrupts are off in the handler. -/
def deliver (c : Cpu) (entry : BitVec 64) (sel : BitVec 16) : Cpu :=
  { c.returnFrame with rip := entry, cs := sel, rflags := c.rflags &&& ~~~0x200 }

def iretq (c : Cpu) : Cpu :=
  { c.set .rsp (c.top 3) with
    rip := c.top 0, cs := (c.top 1).setWidth 16, rflags := c.top 2, ss := (c.top 4).setWidth 16 }

@[simp] theorem set_self (c : Cpu) (r : Reg) (v : BitVec 64) : (c.set r v).regs r = v := by
  simp [set]

theorem set_ne (c : Cpu) {r r' : Reg} (v : BitVec 64) (h : r' ≠ r) :
    (c.set r v).regs r' = c.regs r' := by
  simp [set, Function.update_of_ne h]

@[simp] theorem push_rsp (c : Cpu) (v : BitVec 64) : (c.push v).regs .rsp = c.regs .rsp - 8 := by
  simp [push]

theorem push_ne (c : Cpu) {r : Reg} (v : BitVec 64) (h : r ≠ .rsp) : (c.push v).regs r = c.regs r := by
  simp [push, c.set_ne _ h]

end Cpu

/-- One instruction; `W` is the rest of the world that called functions see. -/
def step {κ W : Type} (call : κ → W × Cpu → Option (W × Cpu)) (st : W × Cpu) :
    Instr κ → Option (W × Cpu)
  | .push o => some (st.1, st.2.push (st.2.read o))
  | .pop o => some (st.1, (st.2.set .rsp (st.2.regs .rsp + 8)).write o (st.2.top 0))
  | .mov src dst => some (st.1, st.2.set dst (st.2.regs src))
  | .storeAl a => some (st.1, { st.2 with mem := store8 st.2.mem a ((st.2.regs .rax).setWidth 8) })
  | .addRsp n => some (st.1, st.2.set .rsp (st.2.regs .rsp + n))
  | .call f => call f st
  | .iretq => some (st.1, st.2.iretq)

/-! The calling convention. -/

/-- The registers a function may overwrite. -/
def callerSaved : Reg → Bool
  | .rax | .rcx | .rdx | .rsi | .rdi | .r8 | .r9 | .r10 | .r11 => true
  | _ => false

theorem callerSaved_ne {r r' : Reg} (h : callerSaved r = true) (h' : callerSaved r' = false) : r ≠ r' := by
  intro he
  rw [he, h'] at h
  cases h

/-- What one call of a function that obeys the calling convention leaves
    behind: in each caller-saved register a value (`none` leaves the register
    alone), its flags, and any memory. -/
structure CallEffect where
  scratch : Reg → Option (BitVec 64)
  rflags : BitVec 64
  mem : Mem

/-- The state after the call, `keep` being the addresses the function has no
    business with. The other registers are callee-saved. -/
def CallEffect.apply (e : CallEffect) (keep : BitVec 64 → Bool) (c : Cpu) : Cpu :=
  { c with
    regs := fun r => if callerSaved r then (e.scratch r).getD (c.regs r) else c.regs r
    rflags := e.rflags
    mem := fun x => if keep x then c.mem x else e.mem x }

/-! Blocks of words. -/

/-- The words pushed one after the other from `a` down. -/
def storeDown (m : Mem) (a : BitVec 64) : List (BitVec 64) → Mem
  | [] => m
  | w :: ws => storeDown (store64 m (a - 8) w) (a - 8) ws

/-- The state after the words were pushed. -/
def Cpu.pushBlock (c : Cpu) (ws : List (BitVec 64)) : Cpu :=
  { c with
    regs := Function.update c.regs .rsp (c.regs .rsp - BitVec.ofNat 64 (8 * ws.length))
    mem := storeDown c.mem (c.regs .rsp) ws }

@[simp] theorem Cpu.pushBlock_rsp (c : Cpu) (ws : List (BitVec 64)) :
    (c.pushBlock ws).regs .rsp = c.regs .rsp - BitVec.ofNat 64 (8 * ws.length) := by
  simp [pushBlock]

theorem Cpu.pushBlock_ne (c : Cpu) (ws : List (BitVec 64)) {r : Reg} (h : r ≠ .rsp) :
    (c.pushBlock ws).regs r = c.regs r := by
  simp [pushBlock, Function.update_of_ne h]

@[simp] theorem Cpu.pushBlock_mem (c : Cpu) (ws : List (BitVec 64)) :
    (c.pushBlock ws).mem = storeDown c.mem (c.regs .rsp) ws := rfl

theorem pushBlock_push (c : Cpu) (v : BitVec 64) (ws : List (BitVec 64)) :
    (c.push v).pushBlock ws = c.pushBlock (v :: ws) := by
  have haddr : c.regs .rsp - 8#64 - BitVec.ofNat 64 (8 * ws.length) =
      c.regs .rsp - BitVec.ofNat 64 (8 * (ws.length + 1)) := by bv_omega
  simp [Cpu.pushBlock, Cpu.push, Cpu.set, storeDown, haddr]

/-- Bytes outside the block keep their value. -/
theorem storeDown_outside : ∀ (ws : List (BitVec 64)) (m : Mem) (a : BitVec 64) {x : BitVec 64},
    8 * ws.length ≤ 2^64 → ¬ Inside (a - BitVec.ofNat 64 (8 * ws.length)) (8 * ws.length) x →
    storeDown m a ws x = m x
  | [], _, _, _, _, _ => rfl
  | w :: ws, m, a, x, hlen, h => by
    rw [List.length_cons] at hlen h
    have hlow : ¬ Inside (a - 8 - BitVec.ofNat 64 (8 * ws.length)) (8 * ws.length) x := by
      simp only [Inside] at h ⊢
      bv_omega
    have hword : ¬ Inside (a - 8) 8 x := by
      simp only [Inside] at h ⊢
      bv_omega
    rw [storeDown, storeDown_outside ws _ _ (by omega) hlow, store64_outside _ _ hword]

theorem load64_storeDown_above (m : Mem) (a : BitVec 64) (ws : List (BitVec 64)) {j : Nat}
    (h : 8 * ws.length + j + 8 ≤ 2^64) :
    load64 (storeDown m a ws) (a + BitVec.ofNat 64 j) = load64 m (a + BitVec.ofNat 64 j) := by
  apply load64_congr
  intro k hk
  refine storeDown_outside ws m a (by omega) ?_
  simp only [Inside]
  bv_omega

/-- The words of a block, counted from its lowest address: the last pushed
    first. -/
theorem load64_storeDown : ∀ (ws : List (BitVec 64)) (m : Mem) (a : BitVec 64) {k : Nat}
    {w : BitVec 64}, 8 * ws.length ≤ 2^64 → ws.reverse[k]? = some w →
    load64 (storeDown m a ws) (a - BitVec.ofNat 64 (8 * ws.length) + BitVec.ofNat 64 (8 * k)) = w
  | [], m, a, k, w, _, h => by simp at h
  | v :: ws, m, a, k, w, hlen, h => by
    rw [List.length_cons] at hlen
    rw [List.reverse_cons] at h
    by_cases hk : k < ws.length
    · rw [List.getElem?_append_left (by simpa using hk)] at h
      have ih := load64_storeDown ws (store64 m (a - 8) v) (a - 8) (by omega) h
      rw [storeDown, ← ih]
      congr 1
      rw [List.length_cons]
      bv_omega
    · have hk' : k = ws.length := by
        have := (List.getElem?_eq_some_iff.mp h).1
        simp only [List.length_append, List.length_reverse, List.length_singleton] at this
        omega
      subst hk'
      rw [List.getElem?_append_right (by simp)] at h
      simp only [List.length_reverse, Nat.sub_self, List.getElem?_cons_zero, Option.some.injEq] at h
      subst h
      have haddr : a - BitVec.ofNat 64 (8 * (v :: ws).length) + BitVec.ofNat 64 (8 * ws.length) =
          a - 8 + BitVec.ofNat 64 0 := by
        rw [List.length_cons]
        bv_omega
      rw [haddr, storeDown, load64_storeDown_above _ _ _ (by omega)]
      simp

/-! The top of the stack. -/

theorem top_push_zero (c : Cpu) (v : BitVec 64) : (c.push v).top 0 = v := by
  simp [Cpu.top, Cpu.push]

theorem top_push_succ (c : Cpu) (v : BitVec 64) {k : Nat} (hk : 8 * k + 16 ≤ 2^64) :
    (c.push v).top (k + 1) = c.top k := by
  have haddr : (c.push v).regs .rsp + BitVec.ofNat 64 (8 * (k + 1)) =
      c.regs .rsp + BitVec.ofNat 64 (8 * k) := by
    rw [Cpu.push_rsp]
    bv_omega
  rw [Cpu.top, haddr]
  refine load64_store64_apart c.mem v ?_
  simp only [Apart]
  bv_omega

theorem deliver_top (c : Cpu) (entry : BitVec 64) (sel : BitVec 16) (k : Nat) :
    (c.deliver entry sel).top k = c.returnFrame.top k := rfl

theorem returnFrame_mem (c : Cpu) : c.returnFrame.mem = storeDown c.mem (c.regs .rsp &&& ~~~15)
    [c.ss.setWidth 64, c.regs .rsp, c.rflags, c.cs.setWidth 64, c.rip] := by
  simp [Cpu.returnFrame, Cpu.push, Cpu.set, storeDown]

/-- The return frame of an interrupt. -/
theorem returnFrame_top (c : Cpu) :
    c.returnFrame.top 0 = c.rip ∧ c.returnFrame.top 1 = c.cs.setWidth 64 ∧
      c.returnFrame.top 2 = c.rflags ∧ c.returnFrame.top 3 = c.regs .rsp ∧
      c.returnFrame.top 4 = c.ss.setWidth 64 := by
  unfold Cpu.returnFrame
  refine ⟨?_, ?_, ?_, ?_, ?_⟩
  · rw [top_push_zero]
  · rw [top_push_succ _ _ (by omega), top_push_zero]
  · rw [top_push_succ _ _ (by omega), top_push_succ _ _ (by omega), top_push_zero]
  · rw [top_push_succ _ _ (by omega), top_push_succ _ _ (by omega), top_push_succ _ _ (by omega),
      top_push_zero]
  · rw [top_push_succ _ _ (by omega), top_push_succ _ _ (by omega), top_push_succ _ _ (by omega),
      top_push_succ _ _ (by omega), top_push_zero]

theorem deliver_regs (c : Cpu) (entry : BitVec 64) (sel : BitVec 16) {r : Reg} (h : r ≠ .rsp) :
    (c.deliver entry sel).regs r = c.regs r := by
  show c.returnFrame.regs r = c.regs r
  unfold Cpu.returnFrame
  rw [Cpu.push_ne _ _ h, Cpu.push_ne _ _ h, Cpu.push_ne _ _ h, Cpu.push_ne _ _ h, Cpu.push_ne _ _ h,
    Cpu.set_ne _ _ h]

theorem deliver_rsp (c : Cpu) (entry : BitVec 64) (sel : BitVec 16) :
    (c.deliver entry sel).regs .rsp = (c.regs .rsp &&& ~~~15) - 40 := by
  show c.returnFrame.regs .rsp = _
  unfold Cpu.returnFrame
  simp only [Cpu.push_rsp, Cpu.set_self]
  bv_omega

/-! Blocks of instructions. -/

/-- An operand that a block of pushes or pops does not move. -/
def Operand.Plain : Operand → Prop
  | .reg r => r ≠ .rsp
  | .seg _ => True
  | .word _ => False

instance : DecidablePred Operand.Plain
  | .reg r => inferInstanceAs (Decidable (r ≠ .rsp))
  | .seg _ => inferInstanceAs (Decidable True)
  | .word _ => inferInstanceAs (Decidable False)

section
variable {κ W : Type}

theorem exec_pushes (call : κ → W × Cpu → Option (W × Cpu)) : ∀ {ops : List Operand} (w : W) (c : Cpu),
    (∀ o ∈ ops, o.Plain) →
    Runs.exec (step call) (w, c) (ops.map .push) = some (w, c.pushBlock (ops.map c.read))
  | [], w, c, _ => by
    simp [Runs.exec, storeDown, Cpu.pushBlock]
  | o :: ops, w, c, h => by
    have hread : ∀ p ∈ ops, (c.push (c.read o)).read p = c.read p := by
      intro p hp
      have hplain := h p (List.mem_cons_of_mem _ hp)
      cases p with
      | reg r => exact c.push_ne _ hplain
      | seg s => rfl
      | word a => exact absurd hplain (by simp [Operand.Plain])
    have hmap : ops.map (c.push (c.read o)).read = ops.map c.read := List.map_congr_left hread
    have ih := exec_pushes call w (c.push (c.read o)) (fun p hp => h p (List.mem_cons_of_mem _ hp))
    rw [List.map_cons]
    simp only [Runs.exec, step, Option.bind_some]
    rw [ih, hmap, pushBlock_push, List.map_cons]

/-- What a block of pops leaves: each destination has its word of the stack
    and everything else is as before. -/
structure Popped (c : Cpu) (ops : List Operand) (c' : Cpu) : Prop where
  rsp : c'.regs .rsp = c.regs .rsp + BitVec.ofNat 64 (8 * ops.length)
  reg : ∀ k r, ops[k]? = some (.reg r) → c'.regs r = c.top k
  seg : ∀ k s, ops[k]? = some (.seg s) → c'.seg s = (c.top k).setWidth 16
  regOther : ∀ r, r ≠ .rsp → .reg r ∉ ops → c'.regs r = c.regs r
  segOther : ∀ s, .seg s ∉ ops → c'.seg s = c.seg s
  rip : c'.rip = c.rip
  rflags : c'.rflags = c.rflags
  cs : c'.cs = c.cs
  ss : c'.ss = c.ss
  mem : c'.mem = c.mem

/-- The state after one `pop`. -/
def Cpu.popped (c : Cpu) (o : Operand) : Cpu := (c.set .rsp (c.regs .rsp + 8)).write o (c.top 0)

theorem popped_rsp (c : Cpu) {o : Operand} (ho : o.Plain) : (c.popped o).regs .rsp = c.regs .rsp + 8 := by
  cases o with
  | reg r => exact (Cpu.set_ne _ _ (Ne.symm ho)).trans (c.set_self ..)
  | seg s => simp [Cpu.popped, Cpu.write]
  | word a => exact absurd ho (by simp [Operand.Plain])

theorem popped_mem (c : Cpu) {o : Operand} (ho : o.Plain) : (c.popped o).mem = c.mem := by
  cases o with
  | reg r => rfl
  | seg s => rfl
  | word a => exact absurd ho (by simp [Operand.Plain])

theorem popped_top (c : Cpu) {o : Operand} (ho : o.Plain) (k : Nat) :
    (c.popped o).top k = c.top (k + 1) := by
  have hrsp := popped_rsp c ho
  unfold Cpu.top
  rw [hrsp, popped_mem c ho]
  congr 1
  bv_omega

theorem popped_regOther (c : Cpu) {o : Operand} (ho : o.Plain) {r : Reg} (hr : r ≠ .rsp)
    (hro : Operand.reg r ≠ o) : (c.popped o).regs r = c.regs r := by
  cases o with
  | reg r' =>
    have hne : r ≠ r' := fun e => hro (by rw [e])
    exact (Cpu.set_ne _ _ hne).trans (c.set_ne _ hr)
  | seg s => exact c.set_ne _ hr
  | word a => exact absurd ho (by simp [Operand.Plain])

theorem popped_segOther (c : Cpu) (o : Operand) {s : Seg} (hs : Operand.seg s ≠ o) :
    (c.popped o).seg s = c.seg s := by
  cases o with
  | reg r => rfl
  | seg s' =>
    have hne : s ≠ s' := fun e => hs (by rw [e])
    exact Function.update_of_ne hne ..
  | word a => rfl

/-- A first pop, then a block that does not pop to the same place. -/
theorem Popped.cons {c c' : Cpu} {o : Operand} {ops : List Operand} (ho : o.Plain)
    (hnd : o ∉ ops) (h : Popped (c.popped o) ops c') : Popped c (o :: ops) c' := by
  refine ⟨?_, ?_, ?_, ?_, ?_, ?_, ?_, ?_, ?_, h.mem.trans (popped_mem c ho)⟩
  · rw [h.rsp, popped_rsp c ho, List.length_cons]
    bv_omega
  · intro k r hk
    cases k with
    | zero =>
      simp only [List.getElem?_cons_zero, Option.some.injEq] at hk
      subst hk
      rw [h.regOther r ho hnd]
      exact Cpu.set_self ..
    | succ k => rw [h.reg k r (by simpa using hk), popped_top c ho]
  · intro k s hk
    cases k with
    | zero =>
      simp only [List.getElem?_cons_zero, Option.some.injEq] at hk
      subst hk
      rw [h.segOther s hnd]
      exact Function.update_self ..
    | succ k => rw [h.seg k s (by simpa using hk), popped_top c ho]
  · intro r hr hro
    rw [List.mem_cons, not_or] at hro
    rw [h.regOther r hr hro.2, popped_regOther c ho hr hro.1]
  · intro s hs
    rw [List.mem_cons, not_or] at hs
    rw [h.segOther s hs.2, popped_segOther c o hs.1]
  · rw [h.rip]; cases o <;> rfl
  · rw [h.rflags]; cases o <;> rfl
  · rw [h.cs]; cases o <;> rfl
  · rw [h.ss]; cases o <;> rfl

theorem exec_pops (call : κ → W × Cpu → Option (W × Cpu)) : ∀ {ops : List Operand} (w : W) (c : Cpu),
    (∀ o ∈ ops, o.Plain) → ops.Nodup →
    ∃ c', Runs.exec (step call) (w, c) (ops.map .pop) = some (w, c') ∧ Popped c ops c'
  | [], w, c, _, _ => by
    refine ⟨c, rfl, ?_, ?_, ?_, ?_, ?_, rfl, rfl, rfl, rfl, rfl⟩
    · simp
    · intro k r h; simp at h
    · intro k s h; simp at h
    · intro r _ _; rfl
    · intro s _; rfl
  | o :: ops, w, c, h, hd => by
    obtain ⟨hno, hd'⟩ := List.nodup_cons.mp hd
    have hops : ∀ p ∈ ops, p.Plain := fun p hp => h p (List.mem_cons_of_mem _ hp)
    obtain ⟨c', hc', hpop⟩ := exec_pops call w (c.popped o) hops hd'
    exact ⟨c', hc', hpop.cons (h o (List.mem_cons_self ..)) hno⟩

end

end X86
