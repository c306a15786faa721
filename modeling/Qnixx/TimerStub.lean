import Qnixx.ContextSwitch

/- What `__lapic_timer_isr` hands to `trap`. The stub calls three C functions
   around its own saves: `irq_enter` before anything is saved,
   `lapic_get_timer_vector` while eight registers are saved, `irq_exit` after
   they are restored. Each may leave anything in the caller-saved registers.
   The vector is stored as a byte and pushed as a word, with the seven bytes
   that follow the variable. -/
namespace Qnixx

open X86 ByteMem

/-- What the three calls of one interrupt do, and the vector that
    `lapic_get_timer_vector` returns. -/
structure StubCalls where
  enter : CallEffect
  lapic : CallEffect
  exit : CallEffect
  vector : BitVec 8

/-- The stack at the interrupt, aligned by the processor. -/
def stackBase (c : Cpu) : BitVec 64 := c.regs .rsp &&& ~~~15

/-- The functions write neither to the stack that is in use nor to the word at
    `timer_vector`: they set flags in the core's descriptor. -/
def stubKeeps (base timerVector : BitVec 64) (d : Cpu) (x : BitVec 64) : Bool :=
  decide (Inside (d.regs .rsp) (base - d.regs .rsp).toNat x) || decide (Inside timerVector 8 x)

/-- `al` set to `v`. -/
def setAl (c : Cpu) (v : BitVec 8) : Cpu := c.set .rax ((c.regs .rax).extractLsb' 8 56 ++ v)

def stubCall (base timerVector : BitVec 64) (fx : StubCalls) : CFun → Unit × Cpu → Option (Unit × Cpu)
  | .irqEnter, (w, d) => some (w, fx.enter.apply (stubKeeps base timerVector d) d)
  | .irqExit, (w, d) => some (w, fx.exit.apply (stubKeeps base timerVector d) d)
  | .lapicGetTimerVector, (w, d) =>
    some (w, setAl (fx.lapic.apply (stubKeeps base timerVector d) d) fx.vector)
  | .trap, _ => none

/-- The interrupt of `c`, up to the call of `trap`. -/
def timerStub (g : TimerGate) (timerVector : BitVec 64) (fx : StubCalls) (c : Cpu) :
    Option (Unit × Cpu) :=
  Runs.exec (step (stubCall (stackBase c) timerVector fx)) ((), c.deliver g.entry g.sel)
    (lapicTimerIsr timerVector ++ trapEntry)

/-- The stack the stub uses is not where its variable is. -/
def StackApart (timerVector : BitVec 64) (c : Cpu) : Prop :=
  ∀ k < 8, ¬ Inside (stackBase c - 176) 176 (timerVector + BitVec.ofNat 64 k)

/-- The state in the middle of the stub, `n` bytes of stack in use: what is
    callee-saved is as at the interrupt, the return frame is on the stack and
    the bytes after the variable are as they were. -/
structure InStub (c : Cpu) (tv : BitVec 64) (n : Nat) (d : Cpu) : Prop where
  rsp : d.regs .rsp = stackBase c - BitVec.ofNat 64 n
  saved : ∀ r, callerSaved r = false → r ≠ .rsp → d.regs r = c.regs r
  seg : d.seg = c.seg
  frame : ∀ x, Inside (stackBase c - 40) 40 x → d.mem x = c.returnFrame.mem x
  next : ∀ k, 1 ≤ k → k < 8 → d.mem (tv + BitVec.ofNat 64 k) = c.mem (tv + BitVec.ofNat 64 k)

/-- Distances on the stack, which may wrap. -/
theorem offset_toNat (a : BitVec 64) {n m i : Nat} (hn : n ≤ m) (hm : m ≤ 176) (hi : i < 176) :
    (a - BitVec.ofNat 64 n + BitVec.ofNat 64 i - (a - BitVec.ofNat 64 m)).toNat = m - n + i := by
  bv_omega

section
variable {c d : Cpu} {tv : BitVec 64} {n : Nat}

theorem inStub_deliver (g : TimerGate) (h : StackApart tv c) :
    InStub c tv 40 (c.deliver g.entry g.sel) := by
  refine ⟨deliver_rsp c _ _, ?_, ?_, fun x _ => rfl, ?_⟩
  · intro r _ hr
    exact deliver_regs c _ _ hr
  · rfl
  · intro k _ hk
    show c.returnFrame.mem _ = _
    rw [returnFrame_mem]
    refine storeDown_outside _ _ _ (by simp) ?_
    have hout := h k hk
    simp only [Inside, stackBase] at hout ⊢
    show ¬ (_ - (_ - BitVec.ofNat 64 40)).toNat < 40
    bv_omega

theorem inStub_call (e : CallEffect) (h : InStub c tv n d) (hn : 40 ≤ n) (hn' : n ≤ 176) :
    InStub c tv n (e.apply (stubKeeps (stackBase c) tv d) d) := by
  refine ⟨?_, ?_, h.seg, ?_, ?_⟩
  · exact h.rsp
  · intro r hr hne
    simp only [CallEffect.apply, hr]
    exact h.saved r hr hne
  · intro x hx
    have hkeep : stubKeeps (stackBase c) tv d x = true := by
      simp only [stubKeeps, h.rsp, Bool.or_eq_true, decide_eq_true_eq]
      refine .inl ?_
      simp only [Inside] at hx ⊢
      bv_omega
    simp only [CallEffect.apply, hkeep, if_true]
    exact h.frame x hx
  · intro k hk hk'
    have hkeep : stubKeeps (stackBase c) tv d (tv + BitVec.ofNat 64 k) = true := by
      simp only [stubKeeps, Bool.or_eq_true, decide_eq_true_eq]
      refine .inr ?_
      simp only [Inside]
      bv_omega
    simp only [CallEffect.apply, hkeep, if_true]
    exact h.next k hk hk'

/-- The words on the stack are still there after the call. -/
theorem inStub_call_top (e : CallEffect) (h : InStub c tv n d) {k : Nat} (hk : 8 * k + 8 ≤ n)
    (hn : n ≤ 176) : (e.apply (stubKeeps (stackBase c) tv d) d).top k = d.top k := by
  have hrsp : (e.apply (stubKeeps (stackBase c) tv d) d).regs .rsp = d.regs .rsp := rfl
  unfold Cpu.top
  rw [hrsp, h.rsp]
  apply load64_congr
  intro j hj
  rw [BitVec.add_assoc, ← BitVec.ofNat_add]
  have hkeep : stubKeeps (stackBase c) tv d
      (stackBase c - BitVec.ofNat 64 n + BitVec.ofNat 64 (8 * k + j)) = true := by
    simp only [stubKeeps, h.rsp, Bool.or_eq_true, decide_eq_true_eq]
    refine .inl ?_
    have hoff := offset_toNat (stackBase c) (Nat.le_refl n) hn (show 8 * k + j < 176 by omega)
    have hsize : (stackBase c - (stackBase c - BitVec.ofNat 64 n)).toNat = n := by bv_omega
    simp only [Inside, hoff, hsize]
    omega
  simp only [CallEffect.apply, hkeep, if_true]

/-- A block of eight pushes. -/
theorem inStub_pushes (h : InStub c tv 40 d) (hs : StackApart tv c) {ws : List (BitVec 64)}
    (hlen : ws.length = 8) :
    InStub c tv 104 (d.pushBlock ws) := by
  refine ⟨?_, ?_, h.seg, ?_, ?_⟩
  · rw [d.pushBlock_rsp, h.rsp, hlen]
    bv_omega
  · intro r hr hne
    rw [d.pushBlock_ne _ hne]
    exact h.saved r hr hne
  · intro x hx
    refine (storeDown_outside ws _ _ (by omega) ?_).trans (h.frame x hx)
    rw [hlen, h.rsp]
    simp only [Inside] at hx ⊢
    bv_omega
  · intro k hk hk'
    refine (storeDown_outside ws _ _ (by omega) ?_).trans (h.next k hk hk')
    have hout := hs k hk'
    rw [hlen, h.rsp]
    simp only [Inside] at hout ⊢
    bv_omega

/-- Storing the vector. -/
theorem inStub_store (h : InStub c tv n d) (hs : StackApart tv c) (v : BitVec 8) :
    InStub c tv n { d with mem := store8 d.mem tv v } := by
  refine ⟨h.rsp, h.saved, h.seg, ?_, ?_⟩
  · intro x hx
    have hne : x ≠ tv := by
      intro he
      subst he
      have hout := hs 0 (by decide)
      simp only [Inside] at hx hout
      bv_omega
    simp only [store8, hne, if_false]
    exact h.frame x hx
  · intro k hk hk'
    have hne : tv + BitVec.ofNat 64 k ≠ tv := by bv_omega
    simp only [store8, hne, if_false]
    exact h.next k hk hk'

theorem inStub_setAl (h : InStub c tv n d) (v : BitVec 8) : InStub c tv n (setAl d v) := by
  refine ⟨?_, ?_, h.seg, h.frame, h.next⟩
  · exact (d.set_ne _ (by decide)).trans h.rsp
  · intro r hr hne
    have hrax : r ≠ .rax := (callerSaved_ne rfl hr).symm
    exact (d.set_ne _ hrax).trans (h.saved r hr hne)

theorem setAl_al (d : Cpu) (v : BitVec 8) : ((setAl d v).regs .rax).setWidth 8 = v := by
  rw [setAl, Cpu.set_self]
  exact BitVec.setWidth_append_eq_right

/-- The state after `lapic_get_timer_vector` and the store of what it
    returned. -/
def vectorStored (c : Cpu) (tv : BitVec 64) (fx : StubCalls) (d : Cpu) : Cpu :=
  { setAl (fx.lapic.apply (stubKeeps (stackBase c) tv d) d) fx.vector with
    mem := store8 (fx.lapic.apply (stubKeeps (stackBase c) tv d) d).mem tv fx.vector }

theorem exec_vectorStored (c : Cpu) (tv : BitVec 64) (fx : StubCalls) (d : Cpu) :
    Runs.exec (step (stubCall (stackBase c) tv fx)) ((), d)
      [.call .lapicGetTimerVector, .storeAl tv] = some ((), vectorStored c tv fx d) := by
  have hal := setAl_al (fx.lapic.apply (stubKeeps (stackBase c) tv d) d) fx.vector
  simp only [Runs.exec, step, stubCall, Option.bind_some, hal]
  rfl

theorem inStub_vectorStored (fx : StubCalls) (h : InStub c tv n d) (hs : StackApart tv c)
    (hn : 40 ≤ n) (hn' : n ≤ 176) : InStub c tv n (vectorStored c tv fx d) :=
  inStub_store (inStub_setAl (inStub_call fx.lapic h hn hn') fx.vector) hs fx.vector

/-- What was pushed is still there. -/
theorem vectorStored_top (fx : StubCalls) (h : InStub c tv 104 d) (hs : StackApart tv c) {k : Nat}
    (hk : k < 8) : (vectorStored c tv fx d).top k = d.top k := by
  rw [← inStub_call_top fx.lapic h (show 8 * k + 8 ≤ 104 by omega) (by decide)]
  have hrsp : (vectorStored c tv fx d).regs .rsp = d.regs .rsp := by
    simp [vectorStored, setAl, Cpu.set, CallEffect.apply, callerSaved]
  show load64 (store8 _ tv fx.vector) ((vectorStored c tv fx d).regs .rsp + _) = load64 _ (d.regs .rsp + _)
  rw [hrsp, h.rsp]
  apply load64_congr
  intro j hj
  rw [BitVec.add_assoc, ← BitVec.ofNat_add]
  have hne : stackBase c - BitVec.ofNat 64 104 + BitVec.ofNat 64 (8 * k + j) ≠ tv := by
    intro he
    have hout := hs 0 (by decide)
    rw [BitVec.add_zero, ← he] at hout
    have hoff := offset_toNat (stackBase c) (show 104 ≤ 176 by decide) (by decide)
      (show 8 * k + j < 176 by omega)
    exact hout (Nat.lt_of_le_of_lt (Nat.le_of_eq hoff) (by omega))
  simp only [store8, hne, if_false]

/-- The registers the stub saves around `lapic_get_timer_vector`. -/
def isrSaved : Reg → Bool
  | .rbp | .rax | .rdi | .rsi | .rdx | .rcx | .rbx | .r8 => true
  | _ => false

/-- The restores pop what the saves pushed. -/
theorem popped_saved {d₅ : Cpu} (fx : StubCalls) (h : InStub c tv 40 d) (hs : StackApart tv c)
    (hpopped : Popped (vectorStored c tv fx (d.pushBlock (isrSaves.map d.read))) isrRestores d₅)
    {r : Reg} (hr : isrSaved r = true) : d₅.regs r = d.regs r := by
  have h₂ := inStub_pushes h hs (show (isrSaves.map d.read).length = 8 from rfl)
  have hword : ∀ (k : Nat) (r : Reg), isrSaves.reverse[k]? = some (Operand.reg r) → d₅.regs r = d.regs r := by
    intro k r hk
    have hk8 : k < 8 := (List.getElem?_eq_some_iff.mp hk).1
    rw [hpopped.reg k r hk, vectorStored_top fx h₂ hs hk8]
    have hval : (isrSaves.map d.read).reverse[k]? = some (d.regs r) := by
      rw [← List.map_reverse, List.getElem?_map, hk]
      rfl
    have hload := load64_storeDown (isrSaves.map d.read) d.mem (d.regs .rsp) (by simp [isrSaves]) hval
    rw [← hload, Cpu.top, d.pushBlock_rsp, d.pushBlock_mem]
  cases r with
  | r8 => exact hword 0 _ rfl
  | rbx => exact hword 1 _ rfl
  | rcx => exact hword 2 _ rfl
  | rdx => exact hword 3 _ rfl
  | rsi => exact hword 4 _ rfl
  | rdi => exact hword 5 _ rfl
  | rax => exact hword 6 _ rfl
  | rbp => exact hword 7 _ rfl
  | _ => simp [isrSaved] at hr

/-- The middle of the stub, from the first save to the last restore. -/
def isrMiddle (timerVector : BitVec 64) : List (Instr CFun) :=
  isrSaves.map Instr.push ++
    ([Instr.call CFun.lapicGetTimerVector, Instr.storeAl timerVector] ++ isrRestores.map Instr.pop)

/-- Only `r9`, `r10` and `r11` are exposed to the call. -/
theorem exec_isrMiddle (fx : StubCalls) (h : InStub c tv 40 d) (hs : StackApart tv c) :
    ∃ d', Runs.exec (step (stubCall (stackBase c) tv fx)) ((), d) (isrMiddle tv) = some ((), d') ∧
      InStub c tv 40 d' ∧ d'.mem tv = fx.vector ∧
      (∀ r, isrSaved r = true → d'.regs r = d.regs r) ∧
      ∀ r, callerSaved r = true → isrSaved r = false →
        d'.regs r = (fx.lapic.scratch r).getD (d.regs r) := by
  have hpush := exec_pushes (stubCall (stackBase c) tv fx) () d (show ∀ o ∈ isrSaves, o.Plain by decide)
  have h₂ := inStub_pushes h hs (show (isrSaves.map d.read).length = 8 from rfl)
  have h₄ := inStub_vectorStored fx h₂ hs (by decide) (by decide)
  obtain ⟨d₅, hpop, hpopped⟩ := exec_pops (stubCall (stackBase c) tv fx) ()
    (vectorStored c tv fx (d.pushBlock (isrSaves.map d.read)))
    (show ∀ o ∈ isrRestores, o.Plain by decide) (by decide)
  have hsaved : ∀ r, isrSaved r = true → d₅.regs r = d.regs r :=
    fun _ hr => popped_saved fx h hs hpopped hr
  refine ⟨d₅, ?_, ⟨?_, ?_, ?_, ?_, ?_⟩, ?_, hsaved, ?_⟩
  · exact Runs.exec_append.mpr ⟨_, hpush, Runs.exec_append.mpr ⟨_, exec_vectorStored .., hpop⟩⟩
  · rw [hpopped.rsp, h₄.rsp]
    show _ + 64 = _
    bv_omega
  · -- `rbx` and `rbp` are callee-saved, and the stub saves them all the same
    intro r hr hne
    by_cases hs' : isrSaved r = true
    · rw [hsaved r hs', h.saved r hr hne]
    · rw [hpopped.regOther r hne, h₄.saved r hr hne]
      cases r <;> first | decide | exact absurd rfl hs'
  · funext r
    rw [hpopped.segOther r (by cases r <;> decide), h₄.seg]
  · intro x hx
    rw [hpopped.mem]
    exact h₄.frame x hx
  · intro k hk hk'
    rw [hpopped.mem]
    exact h₄.next k hk hk'
  · rw [hpopped.mem]
    simp [vectorStored, store8]
  · intro r hr hs'
    have hne : r ≠ .rsp := callerSaved_ne hr rfl
    have hrax : r ≠ .rax := by
      intro he
      subst he
      simp [isrSaved] at hs'
    have hmem : Operand.reg r ∉ isrRestores := by
      cases r <;> first | decide | simp [isrSaved] at hs'
    rw [hpopped.regOther r hne hmem]
    refine (Cpu.set_ne _ _ hrax).trans ?_
    simp only [CallEffect.apply, hr, if_true, d.pushBlock_ne _ hne]

/-- Pushing the vector. -/
theorem inStub_push (h : InStub c tv 40 d) (hs : StackApart tv c) (v : BitVec 64) :
    InStub c tv 48 (d.push v) := by
  refine ⟨?_, ?_, h.seg, ?_, ?_⟩
  · rw [d.push_rsp, h.rsp]
    bv_omega
  · intro r hr hne
    rw [d.push_ne _ hne]
    exact h.saved r hr hne
  · intro x hx
    refine (store64_outside _ _ ?_).trans (h.frame x hx)
    rw [h.rsp]
    simp only [Inside] at hx ⊢
    bv_omega
  · intro k hk hk'
    refine (store64_outside _ _ ?_).trans (h.next k hk hk')
    have hout := hs k hk'
    rw [h.rsp]
    simp only [Inside] at hout ⊢
    bv_omega

/-- The return frame, read from a state in which only it is on the stack. -/
theorem inStub_returnFrame (h : InStub c tv 40 d) {k : Nat} (hk : k < 5) :
    d.top k = c.returnFrame.top k := by
  have hrsp : c.returnFrame.regs .rsp = stackBase c - BitVec.ofNat 64 40 := deliver_rsp c 0 0
  unfold Cpu.top
  rw [h.rsp, hrsp]
  apply load64_congr
  intro j hj
  rw [BitVec.add_assoc, ← BitVec.ofNat_add]
  refine h.frame _ ?_
  have hoff := offset_toNat (stackBase c) (Nat.le_refl 40) (by decide) (show 8 * k + j < 176 by omega)
  exact Nat.lt_of_le_of_lt (Nat.le_of_eq hoff) (by omega)

end

/-- What is in a caller-saved register when `trap_entry` is reached. Around
    `lapic_get_timer_vector` the stub keeps some of them safe. -/
def leftIn (fx : StubCalls) (c : Cpu) (r : Reg) : BitVec 64 :=
  let entered := (fx.enter.scratch r).getD (c.regs r)
  (fx.exit.scratch r).getD (if isrSaved r then entered else (fx.lapic.scratch r).getD entered)

/-- The state at `trap_entry`. -/
structure AtTrapEntry (tv : BitVec 64) (fx : StubCalls) (c d : Cpu) : Prop where
  saved : ∀ r, callerSaved r = false → r ≠ .rsp → d.regs r = c.regs r
  scratch : ∀ r, callerSaved r = true → d.regs r = leftIn fx c r
  seg : d.seg = c.seg
  trapno : d.top 0 = fx.vector.setWidth 64 ↔
    ∀ k, 1 ≤ k → k < 8 → c.mem (tv + BitVec.ofNat 64 k) = 0
  frame : ∀ k < 5, d.top (k + 1) = c.returnFrame.top k

theorem exec_lapicTimerIsr (g : TimerGate) {tv : BitVec 64} (fx : StubCalls) {c : Cpu}
    (hs : StackApart tv c) :
    ∃ d, Runs.exec (step (stubCall (stackBase c) tv fx)) ((), c.deliver g.entry g.sel)
        (lapicTimerIsr tv) = some ((), d) ∧ AtTrapEntry tv fx c d := by
  have h₁ := inStub_call fx.enter (inStub_deliver g hs) (by decide) (by decide)
  obtain ⟨d, hd, hin, hvec, hsaved, hscratch⟩ := exec_isrMiddle fx h₁ hs
  have hpushed := inStub_push hin hs (load64 d.mem tv)
  have hexit := inStub_call fx.exit hpushed (by decide) (by decide)
  refine ⟨fx.exit.apply (stubKeeps (stackBase c) tv (d.push (load64 d.mem tv)))
    (d.push (load64 d.mem tv)), ?_, hexit.saved, ?_, hexit.seg, ?_, ?_⟩
  · have hsplit : lapicTimerIsr tv =
        [Instr.call .irqEnter] ++ (isrMiddle tv ++ [Instr.push (.word tv), Instr.call .irqExit]) := rfl
    rw [hsplit]
    exact Runs.exec_append.mpr ⟨_, rfl, Runs.exec_append.mpr ⟨_, hd, rfl⟩⟩
  · intro r hr
    have hne : r ≠ .rsp := callerSaved_ne hr rfl
    have henter : (fx.enter.apply (stubKeeps (stackBase c) tv (c.deliver g.entry g.sel))
        (c.deliver g.entry g.sel)).regs r = (fx.enter.scratch r).getD (c.regs r) := by
      simp only [CallEffect.apply, hr, if_true, deliver_regs c _ _ hne]
    simp only [CallEffect.apply, hr, if_true, leftIn, d.push_ne _ hne]
    cases hsv : isrSaved r with
    | true => rw [hsaved r hsv, henter]; rfl
    | false => rw [hscratch r hr hsv, henter]; rfl
  · -- the push takes eight bytes from a variable of one
    rw [inStub_call_top fx.exit hpushed (by decide) (by decide), top_push_zero, load64_eq_byte hvec]
    refine ⟨?_, ?_⟩
    · intro hz k hk hk'
      rw [← hin.next k hk hk']
      exact hz k hk hk'
    · intro hz k hk hk'
      rw [hin.next k hk hk']
      exact hz k hk hk'
  · intro k hk
    rw [inStub_call_top fx.exit hpushed (by omega) (by decide), top_push_succ _ _ (by omega),
      inStub_returnFrame hin hk]

/-- `trap` gets the frame of the interrupted context, and yields. -/
def Captured (g : TimerGate) (timerVector : BitVec 64) (fx : StubCalls) (c : Cpu) : Prop :=
  ∃ d, timerStub g timerVector fx c = some ((), d) ∧
    readFrame d.mem (d.regs .rdi) = frameOf fx.vector c ∧
    takesYield fx.vector (readFrame d.mem (d.regs .rdi)) = true

/-- What `irq_enter` and `irq_exit` leave in the registers the stub saves, and
    all three calls in those it does not, is what was there at the interrupt,
    and nothing but zeros follows `timer_vector`. -/
structure Harmless (timerVector : BitVec 64) (fx : StubCalls) (c : Cpu) : Prop where
  saved : ∀ r, callerSaved r = true → isrSaved r = true →
    (fx.exit.scratch r).getD ((fx.enter.scratch r).getD (c.regs r)) = c.regs r
  unsaved : ∀ r, callerSaved r = true → isrSaved r = false →
    (fx.exit.scratch r).getD ((fx.lapic.scratch r).getD ((fx.enter.scratch r).getD (c.regs r))) =
      c.regs r
  next : ∀ k, 1 ≤ k → k < 8 → c.mem (timerVector + BitVec.ofNat 64 k) = 0

theorem leftIn_iff (fx : StubCalls) (c : Cpu) (tv : BitVec 64) :
    Harmless tv fx c ↔ (∀ r, callerSaved r = true → leftIn fx c r = c.regs r) ∧
      ∀ k, 1 ≤ k → k < 8 → c.mem (tv + BitVec.ofNat 64 k) = 0 := by
  refine ⟨?_, ?_⟩
  · intro h
    refine ⟨?_, h.next⟩
    intro r hr
    unfold leftIn
    cases hsv : isrSaved r with
    | true => exact h.saved r hr hsv
    | false => exact h.unsaved r hr hsv
  · intro h
    obtain ⟨hregs, hnext⟩ := h
    refine ⟨?_, ?_, hnext⟩
    · intro r hr hsv
      have := hregs r hr
      simpa only [leftIn, hsv, if_true] using this
    · intro r hr hsv
      have := hregs r hr
      simpa only [leftIn, hsv, Bool.false_eq_true, if_false] using this

/-- The frame that `trap_entry` builds is that of the interrupted context iff
    the scratch registers and the vector are right. -/
theorem entryFrame_iff {tv : BitVec 64} {fx : StubCalls} {c d : Cpu} (h : AtTrapEntry tv fx c d) :
    entryFrame d = frameOf fx.vector c ↔
      (∀ r, callerSaved r = true → leftIn fx c r = c.regs r) ∧
        ∀ k, 1 ≤ k → k < 8 → c.mem (tv + BitVec.ofNat 64 k) = 0 := by
  refine ⟨?_, ?_⟩
  · intro heq
    refine ⟨?_, ?_⟩
    · intro r hr
      have hrbp : r ≠ .rbp := callerSaved_ne hr rfl
      have hrsp : r ≠ .rsp := callerSaved_ne hr rfl
      have hreg := congrArg (fun tf => tf.reg r) heq
      simp only [entryFrame_reg d hrbp hrsp, frameOf_reg fx.vector c hrbp, Option.some.injEq] at hreg
      rw [← h.scratch r hr, hreg]
    · exact h.trapno.mp (congrArg Trapframe.trapno heq)
  · intro h
    obtain ⟨hregs, hnext⟩ := h
    refine entryFrame_of_context ?_ h.seg (h.trapno.mpr hnext) h.frame
    intro r hrsp _
    cases hr : callerSaved r with
    | true => rw [h.scratch r hr, hregs r hr]
    | false => exact h.saved r hr hrsp

/-- **What the stub hands to `trap`.** Wherever the stack and the variable are,
    the frame that `trap` gets is that of the interrupted context, so that it
    yields, iff the calls were harmless. -/
theorem timer_stub_captures_iff (g : TimerGate) (timerVector : BitVec 64) (fx : StubCalls) (c : Cpu)
    (hs : StackApart timerVector c) : Captured g timerVector fx c ↔ Harmless timerVector fx c := by
  obtain ⟨d, hd, hat⟩ := exec_lapicTimerIsr g fx hs
  obtain ⟨d', hd', hin⟩ := exec_trapEntry (stubCall (stackBase c) timerVector fx) () d
  have hrun : timerStub g timerVector fx c = some ((), d') := Runs.exec_append.mpr ⟨_, hd, hd'⟩
  rw [leftIn_iff, ← entryFrame_iff hat]
  refine ⟨?_, ?_⟩
  · intro h
    obtain ⟨d'', hd'', hframe, -⟩ := h
    rw [hrun, Option.some.injEq, Prod.mk.injEq] at hd''
    rw [← hd''.2, hin.frame] at hframe
    exact hframe
  · intro hframe
    refine ⟨d', hrun, hin.frame.trans hframe, ?_⟩
    rw [hin.frame, hframe]
    exact takesYield_frameOf ..

/-- `irq_enter` and `lapic_get_timer_vector` leave values in `rcx` and
    `irq_exit` puts the old one back. -/
def tidyCalls : StubCalls :=
  { enter := { quietCall with scratch := fun r => if r = .rcx then some 1 else none }
    lapic := { quietCall with scratch := fun r => if r = .rcx then some 2 else none }
    exit := { quietCall with scratch := fun r => if r = .rcx then some 0 else none }
    vector := 0x20 }

theorem tidyCalls_harmless : Harmless 0x1000 tidyCalls (contextWith 7) := by
  refine ⟨?_, ?_, fun _ _ _ => rfl⟩
  · intro r hr hsv
    cases r <;> rfl
  · intro r hr hsv
    cases r <;> rfl

/-- The variable at `0x1000`, the stack far above it, and zeros after it. -/
theorem timer_stub_captures_iff_quiet : Captured timerGate 0x1000 tidyCalls (contextWith 7) := by
  have hs : StackApart 0x1000 (contextWith 7) := by
    unfold StackApart
    decide
  exact (timer_stub_captures_iff timerGate _ _ _ hs).mpr tidyCalls_harmless

/-- The three calls leave everything alone, but `irq_enter` leaves 1 in `rcx`. -/
def leakyCalls : StubCalls :=
  { enter := { quietCall with scratch := fun r => if r = .rcx then some 1 else none }
    lapic := quietCall, exit := quietCall, vector := 0x20 }

/-- `trap` gets a frame with 1 in `rcx`, where the interrupted context had 0. -/
theorem irq_enter_leaks_rcx : ¬ Captured timerGate 0x1000 leakyCalls (contextWith 7) := by
  have hleak : (timerStub timerGate 0x1000 leakyCalls (contextWith 7)).all (fun st =>
      (readFrame st.2.mem (st.2.regs .rdi)).rcx != (frameOf 0x20 (contextWith 7)).rcx) = true := by
    decide +kernel
  intro h
  obtain ⟨d, hd, hframe, -⟩ := h
  rw [hd, Option.all_some, hframe] at hleak
  simp [leakyCalls] at hleak

end Qnixx
