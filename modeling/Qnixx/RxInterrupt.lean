import Qnixx.Lib.Runs
import Qnixx.RxDelivery

/- The RTL8139's interrupt handler against the device (`isr` in
   `dev/net/rtl8139.c`). REG_ISR is write-one-to-clear. The device stores
   packets and raises status bits at any moment; the handler is a program
   counter that stands before its next port access or its call of `recieve`,
   so a list of operations is an interleaving of the two. The fields `raised`,
   `handled` and `seen` are there for the statements. -/
namespace Qnixx
open ByteMem

def intRxok : BitVec 16 := 0x01
def intRxerr : BitVec 16 := 0x02
def intTxok : BitVec 16 := 0x04
def intTxerr : BitVec 16 := 0x08
def intRxBufferOverflow : BitVec 16 := 0x10
def intLinkChange : BitVec 16 := 0x20
def intRxFifoOverflow : BitVec 16 := 0x40
def intLengthChange : BitVec 16 := 0x2000
def intSystemError : BitVec 16 := 0x8000

/-- `stat`: the mask has 16 bits, the variable 8. -/
def isrStat (status : BitVec 16) : BitVec 8 :=
  (status &&& (intRxok ||| intRxerr ||| intTxok ||| intTxerr ||| intRxBufferOverflow |||
    intLinkChange ||| intRxFifoOverflow ||| intLengthChange ||| intSystemError)).setWidth 8

/-- `status & INT_RXOK`. -/
def hasRxok (status : BitVec 16) : Bool := status &&& intRxok != 0

/-- What `isr` does next. -/
inductive IsrPc where
  /-- It is not running. -/
  | idle
  /-- `__amd64_inw(PORT(REG_ISR))` -/
  | read
  /-- `__amd64_outw(PORT(REG_ISR), status)` -/
  | ack (status : BitVec 16)
  | recieve
  /-- `__amd64_outw(PORT(REG_ISR), 0x5)`, after the loop. -/
  | finalAck

/-- Where the handler goes after writing the status back. -/
def afterAck (status : BitVec 16) : IsrPc :=
  if isrStat status = 0 then .finalAck
  else if hasRxok status then .recieve
  else .read

structure Nic where
  ring : RxRing
  regIsr : BitVec 16
  pc : IsrPc
  /-- How often RXOK went from 0 to 1. -/
  raised : Nat
  /-- How often `recieve` was called. -/
  handled : Nat
  /-- The packets that had arrived at the last read of REG_ISR. -/
  seen : List Packet

def nicInit (mem : Mem) (packetBuf : Nat → BitVec 8) : Nic :=
  { ring := rxInit mem packetBuf, regIsr := 0, pc := .idle, raised := 0, handled := 0, seen := [] }

inductive NicOp where
  /-- The device stores a packet and raises RXOK. -/
  | arrive (p : Packet)
  /-- The device raises other status bits. -/
  | event (bits : BitVec 16)
  /-- The interrupt is taken. -/
  | irq
  /-- The handler's next port access or call. -/
  | cpu

namespace Nic

def rxok (s : Nic) : Bool := hasRxok s.regIsr

def arrive (rxbuf : BitVec 64) (s : Nic) (p : Packet) : Nic :=
  { s with
    ring := s.ring.store rxbuf p
    regIsr := s.regIsr ||| intRxok
    raised := s.raised + (!s.rxok).toNat }

def event (s : Nic) (bits : BitVec 16) : Nic :=
  { s with regIsr := s.regIsr ||| (bits &&& ~~~intRxok) }

def readIsr (s : Nic) : Nic :=
  { s with pc := .ack s.regIsr, seen := s.ring.received ++ s.ring.unread }

/-- Writing `v` to REG_ISR clears the bits of `v`. -/
def writeIsr (s : Nic) (v : BitVec 16) (pc : IsrPc) : Nic :=
  { s with regIsr := s.regIsr &&& ~~~v, pc := pc }

def callRecieve (rxbuf : BitVec 64) (s : Nic) : Nic :=
  { s with ring := s.ring.call rxbuf, handled := s.handled + 1, pc := .read }

end Nic

def nicStep (rxbuf : BitVec 64) (s : Nic) : NicOp → Option Nic
  | .arrive p => if s.ring.Fits p then some (s.arrive rxbuf p) else none
  | .event bits => some (s.event bits)
  | .irq =>
    match s.pc with
    | .idle => some { s with pc := .read }
    | _ => none
  | .cpu =>
    match s.pc with
    | .idle => none
    | .read => some s.readIsr
    | .ack status => some (s.writeIsr status (afterAck status))
    | .recieve => some (s.callRecieve rxbuf)
    -- 0x5 is RXOK and TXOK; `lapic_send_eoi` and the return follow
    | .finalAck => some (s.writeIsr 0x5 .idle)

/-- Everything a step can do. -/
theorem nicStep_cases {rxbuf : BitVec 64} {s t : Nic} {op : NicOp} (h : nicStep rxbuf s op = some t) :
    (∃ p, op = .arrive p ∧ s.ring.Fits p ∧ t = s.arrive rxbuf p) ∨
    (∃ bits, op = .event bits ∧ t = s.event bits) ∨
    (op = .irq ∧ s.pc = .idle ∧ t = { s with pc := .read }) ∨
    (op = .cpu ∧ s.pc = .read ∧ t = s.readIsr) ∨
    (∃ status, op = .cpu ∧ s.pc = .ack status ∧ t = s.writeIsr status (afterAck status)) ∨
    (op = .cpu ∧ s.pc = .recieve ∧ t = s.callRecieve rxbuf) ∨
    (op = .cpu ∧ s.pc = .finalAck ∧ t = s.writeIsr 0x5 .idle) := by
  cases op with
  | arrive p =>
    simp only [nicStep, Option.ite_none_right_eq_some, Option.some.injEq] at h
    exact .inl ⟨p, rfl, h.1, h.2.symm⟩
  | event bits => exact .inr (.inl ⟨bits, rfl, (Option.some.inj h).symm⟩)
  | irq =>
    cases hpc : s.pc with
    | idle =>
      simp only [nicStep, hpc, Option.some.injEq] at h
      exact .inr (.inr (.inl ⟨rfl, rfl, h.symm⟩))
    | read => simp [nicStep, hpc] at h
    | ack status => simp [nicStep, hpc] at h
    | recieve => simp [nicStep, hpc] at h
    | finalAck => simp [nicStep, hpc] at h
  | cpu =>
    refine .inr (.inr (.inr ?_))
    cases hpc : s.pc with
    | idle => simp [nicStep, hpc] at h
    | read =>
      simp only [nicStep, hpc, Option.some.injEq] at h
      exact .inl ⟨rfl, rfl, h.symm⟩
    | ack status =>
      simp only [nicStep, hpc, Option.some.injEq] at h
      exact .inr (.inl ⟨status, rfl, rfl, h.symm⟩)
    | recieve =>
      simp only [nicStep, hpc, Option.some.injEq] at h
      exact .inr (.inr (.inl ⟨rfl, rfl, h.symm⟩))
    | finalAck =>
      simp only [nicStep, hpc, Option.some.injEq] at h
      exact .inr (.inr (.inr ⟨rfl, rfl, h.symm⟩))

/-! The RXOK bit. -/

theorem hasRxok_eq (status : BitVec 16) : hasRxok status = status.getLsbD 0 := by
  rw [hasRxok, intRxok, BitVec.ofNat_eq_ofNat, BitVec.and_one_eq_setWidth_ofBool_getLsbD]
  cases status.getLsbD 0 with
  | false => rfl
  | true => rfl

theorem hasRxok_raise (r : BitVec 16) : hasRxok (r ||| intRxok) = true := by
  rw [hasRxok_eq, BitVec.getLsbD_or, ← hasRxok_eq intRxok]
  exact Bool.or_true _

/-- The device's other bits are not RXOK. -/
theorem hasRxok_event (r bits : BitVec 16) : hasRxok (r ||| (bits &&& ~~~intRxok)) = hasRxok r := by
  rw [hasRxok_eq, hasRxok_eq, BitVec.getLsbD_or, BitVec.getLsbD_and, show
    (~~~intRxok).getLsbD 0 = false from rfl, Bool.and_false, Bool.or_false]

theorem hasRxok_clear (r v : BitVec 16) : hasRxok (r &&& ~~~v) = (hasRxok r && !hasRxok v) := by
  rw [hasRxok_eq, hasRxok_eq, hasRxok_eq, BitVec.getLsbD_and, BitVec.getLsbD_not]
  rfl

/-- The loop ends only on a status word without RXOK. -/
theorem hasRxok_of_stat {status : BitVec 16} (h : isrStat status = 0) : hasRxok status = false := by
  have hbit := congrArg (fun b : BitVec 8 => b.getLsbD 0) h
  simp only [isrStat, BitVec.getLsbD_setWidth, BitVec.getLsbD_and] at hbit
  rw [hasRxok_eq]
  revert hbit
  cases status.getLsbD 0 with
  | false => exact fun _ => rfl
  | true => exact fun hbit => absurd hbit (by decide)

namespace Nic

@[simp] theorem arrive_rxok (rxbuf : BitVec 64) (s : Nic) (p : Packet) :
    (s.arrive rxbuf p).rxok = true := hasRxok_raise s.regIsr

@[simp] theorem event_rxok (s : Nic) (bits : BitVec 16) : (s.event bits).rxok = s.rxok :=
  hasRxok_event s.regIsr bits

@[simp] theorem writeIsr_rxok (s : Nic) (v : BitVec 16) (pc : IsrPc) :
    (s.writeIsr v pc).rxok = (s.rxok && !hasRxok v) := hasRxok_clear s.regIsr v

end Nic

namespace IsrPc

def isIdle : IsrPc → Bool
  | idle => true
  | _ => false

theorem isIdle_iff {pc : IsrPc} : pc.isIdle = true ↔ pc = idle := by
  cases pc <;> simp [isIdle]

/-- Between the read that ends the loop and the last write. -/
def leaving : IsrPc → Bool
  | ack status => isrStat status == 0
  | finalAck => true
  | _ => false

/-- A call of `recieve` is due. -/
def calling : IsrPc → Bool
  | recieve => true
  | _ => false

end IsrPc

/-- Out of the loop, to the call, or back to the read. -/
theorem afterAck_cases (status : BitVec 16) :
    (isrStat status = 0 ∧ hasRxok status = false ∧ afterAck status = .finalAck) ∨
    (isrStat status ≠ 0 ∧ hasRxok status = true ∧ afterAck status = .recieve) ∨
    (isrStat status ≠ 0 ∧ hasRxok status = false ∧ afterAck status = .read) := by
  by_cases hstat : isrStat status = 0
  · exact .inl ⟨hstat, hasRxok_of_stat hstat, if_pos hstat⟩
  · cases hrx : hasRxok status with
    | true => exact .inr (.inl ⟨hstat, rfl, by rw [afterAck, if_neg hstat, hrx]; rfl⟩)
    | false => exact .inr (.inr ⟨hstat, rfl, by rw [afterAck, if_neg hstat, hrx]; rfl⟩)

theorem afterAck_leaving (status : BitVec 16) :
    (afterAck status).leaving = (IsrPc.ack status).leaving := by
  rcases afterAck_cases status with ⟨hstat, -, hpc⟩ | ⟨hstat, -, hpc⟩ | ⟨hstat, -, hpc⟩
  · rw [hpc]
    exact (beq_iff_eq.mpr hstat).symm
  · rw [hpc]
    exact (beq_false_of_ne hstat).symm
  · rw [hpc]
    exact (beq_false_of_ne hstat).symm

/-- A status word with RXOK is followed by a call, one without is not. -/
theorem afterAck_calling (status : BitVec 16) : (afterAck status).calling = hasRxok status := by
  rcases afterAck_cases status with ⟨-, hrx, hpc⟩ | ⟨-, hrx, hpc⟩ | ⟨-, hrx, hpc⟩
  · rw [hpc, hrx]; rfl
  · rw [hpc, hrx]; rfl
  · rw [hpc, hrx]; rfl

theorem leaving_rxok {status : BitVec 16} (h : (IsrPc.ack status).leaving = true) :
    hasRxok status = false := hasRxok_of_stat (by simpa [IsrPc.leaving] using h)

/-! Acknowledged and handled. -/

/-- No packet arrives between the read that ends the loop and the last write. -/
def QuietExit (s : Nic) (op : NicOp) : Prop := ∀ p, op = .arrive p → s.pc.leaving = false

/-- A condition on arrivals alone. -/
instance decidableArrive {C : Packet → Prop} [DecidablePred C] :
    (op : NicOp) → Decidable (∀ p, op = .arrive p → C p)
  | .arrive p => decidable_of_iff (C p) ⟨fun h _ hp => NicOp.arrive.inj hp ▸ h, fun h => h p rfl⟩
  | .event _ => isTrue (fun p hp => by cases hp)
  | .irq => isTrue (fun p hp => by cases hp)
  | .cpu => isTrue (fun p hp => by cases hp)

instance (s : Nic) (op : NicOp) : Decidable (QuietExit s op) :=
  inferInstanceAs (Decidable (∀ p, op = .arrive p → s.pc.leaving = false))

/-- A step that clears RXOK writes back a status word that was read with
    RXOK set. -/
def ClearsRead (rxbuf : BitVec 64) (s : Nic) (op : NicOp) : Prop :=
  ∀ t, nicStep rxbuf s op = some t → s.rxok = true → t.rxok = false →
    ∃ status, s.pc = .ack status ∧ hasRxok status = true ∧ t.pc = .recieve

/-- The events that were handled, are in the register, or are about to be
    handled. -/
def Nic.due (s : Nic) : Nat := s.handled + s.rxok.toNat + s.pc.calling.toNat

/-- The events the write after the loop clears. -/
def Nic.wiped (s : Nic) : NicOp → Nat
  | .cpu =>
    match s.pc with
    | .finalAck => s.rxok.toNat
    | _ => 0
  | _ => 0

/-- What holds in every run: a status word being handled was read from the
    register, and no call is made twice for one event. -/
structure IsrInv (s : Nic) : Prop where
  read : ∀ status, s.pc = .ack status → hasRxok status = true → s.rxok = true
  count : s.due ≤ s.raised

/-- No event is lost, and the write after the loop will not clear one. -/
structure NothingLost (s : Nic) : Prop where
  count : s.raised = s.due
  exit : s.pc.leaving = true → s.rxok = false

section
variable {rxbuf : BitVec 64} {s t : Nic} {op : NicOp}

/-- Every step but the write after the loop keeps the events it has. -/
theorem due_step (h : IsrInv s) (hs : nicStep rxbuf s op = some t) :
    s.raised + t.due + s.wiped op = t.raised + s.due := by
  obtain ⟨p, rfl, -, rfl⟩ | ⟨bits, rfl, rfl⟩ | ⟨rfl, hpc, rfl⟩ | ⟨rfl, hpc, rfl⟩ | ⟨status, rfl, hpc, rfl⟩ |
    ⟨rfl, hpc, rfl⟩ | ⟨rfl, hpc, rfl⟩ := nicStep_cases hs
  · rw [Nic.due, Nic.arrive_rxok]
    show s.raised + (s.handled + 1 + s.pc.calling.toNat) + 0 =
      s.raised + (!s.rxok).toNat + (s.handled + s.rxok.toNat + s.pc.calling.toNat)
    cases s.rxok with
    | false => simp only [Bool.not_false, Bool.toNat_true, Bool.toNat_false]; omega
    | true => simp only [Bool.not_true, Bool.toNat_true, Bool.toNat_false]; omega
  · rw [Nic.due, Nic.event_rxok]
    rfl
  · rw [Nic.due, Nic.due, hpc]
    rfl
  · rw [Nic.due, Nic.due, hpc, Nic.wiped, hpc]
    rfl
  · rw [Nic.due, Nic.due, hpc, Nic.wiped, hpc, Nic.writeIsr_rxok]
    show s.raised + (s.handled + (s.rxok && !hasRxok status).toNat + (afterAck status).calling.toNat) =
      s.raised + (s.handled + s.rxok.toNat + 0)
    -- a bit that is cleared is a call that becomes due
    rw [afterAck_calling]
    cases hx : hasRxok status with
    | false => rw [Bool.not_false, Bool.and_true, Bool.toNat_false]
    | true =>
      rw [h.read status hpc hx]
      rfl
  · rw [Nic.due, Nic.due, hpc, Nic.wiped, hpc]
    show s.raised + (s.handled + 1 + s.rxok.toNat + 0) = s.raised + (s.handled + s.rxok.toNat + 1)
    omega
  · rw [Nic.due, Nic.due, hpc, Nic.wiped, hpc, Nic.writeIsr_rxok, show hasRxok 0x5 = true from rfl,
      Bool.not_true, Bool.and_false]
    show s.raised + (s.handled + 0 + 0) + s.rxok.toNat = s.raised + (s.handled + s.rxok.toNat + 0)
    omega

theorem read_step (h : IsrInv s) (hs : nicStep rxbuf s op = some t) {status : BitVec 16}
    (hpc' : t.pc = .ack status) (hrx : hasRxok status = true) : t.rxok = true := by
  obtain ⟨p, -, -, rfl⟩ | ⟨bits, -, rfl⟩ | ⟨-, hpc, rfl⟩ | ⟨-, hpc, rfl⟩ | ⟨status', -, hpc, rfl⟩ |
    ⟨-, hpc, rfl⟩ | ⟨-, hpc, rfl⟩ := nicStep_cases hs
  · exact Nic.arrive_rxok ..
  · rw [Nic.event_rxok]
    exact h.read status hpc' hrx
  · cases hpc'
  · cases hpc'
    exact hrx
  · have hafter : afterAck status' = .ack status := hpc'
    rcases afterAck_cases status' with ⟨-, -, h'⟩ | ⟨-, -, h'⟩ | ⟨-, -, h'⟩
    all_goals
      rw [h'] at hafter
      cases hafter
  · cases hpc'
  · cases hpc'

theorem isrInv_step (h : IsrInv s) (hs : nicStep rxbuf s op = some t) : IsrInv t := by
  have hdue := due_step h hs
  have hcount := h.count
  exact ⟨fun _ => read_step h hs, by omega⟩

/-- The exit is as safe after a step as before it, unless a packet arrives in
    it; a safe exit wipes nothing. -/
theorem exit_step (hs : nicStep rxbuf s op = some t) :
    ((t.pc.leaving = true → t.rxok = false) ∧ s.wiped op = 0) ↔
      (s.pc.leaving = true → s.rxok = false) ∧ QuietExit s op := by
  obtain ⟨p, rfl, -, rfl⟩ | ⟨bits, rfl, rfl⟩ | ⟨rfl, hpc, rfl⟩ | ⟨rfl, hpc, rfl⟩ | ⟨status, rfl, hpc, rfl⟩ |
    ⟨rfl, hpc, rfl⟩ | ⟨rfl, hpc, rfl⟩ := nicStep_cases hs
  · -- the packet is safe exactly when the handler is not leaving
    rw [Nic.arrive_rxok]
    show (s.pc.leaving = true → true = false) ∧ (0 : Nat) = 0 ↔ _
    simp only [QuietExit, NicOp.arrive.injEq, forall_eq']
    cases s.pc.leaving <;> simp
  · rw [Nic.event_rxok]
    simp [QuietExit, Nic.wiped, Nic.event]
  · simp [QuietExit, Nic.wiped, hpc, IsrPc.leaving]
  · -- a read that starts the exit has found RXOK clear
    have hread : (IsrPc.ack s.regIsr).leaving = true → s.rxok = false := leaving_rxok
    refine iff_of_true ⟨hread, by rw [Nic.wiped, hpc]⟩ ⟨?_, fun p hp => by cases hp⟩
    rw [hpc]
    exact fun hl => by cases hl
  · have hbit : (IsrPc.ack status).leaving = true → hasRxok status = false := leaving_rxok
    simp only [QuietExit, Nic.wiped, hpc, Nic.writeIsr_rxok, reduceCtorEq]
    show (((afterAck status).leaving = true → _) ∧ _) ↔ _
    rw [afterAck_leaving]
    cases hl : (IsrPc.ack status).leaving with
    | false => simp
    | true => simp [hbit hl]
  · simp [QuietExit, Nic.wiped, hpc, IsrPc.leaving, Nic.callRecieve]
  · simp [QuietExit, Nic.wiped, hpc, IsrPc.leaving, Nic.writeIsr]

theorem nothingLost_step (h : IsrInv s) (hs : nicStep rxbuf s op = some t) :
    NothingLost t ↔ NothingLost s ∧ QuietExit s op := by
  have hdue := due_step h hs
  have hcount := h.count
  have hexit := exit_step hs
  refine ⟨?_, ?_⟩
  · intro h
    obtain ⟨hc, he⟩ := h
    obtain ⟨he', hq⟩ := hexit.mp ⟨he, by omega⟩
    exact ⟨⟨by omega, he'⟩, hq⟩
  · intro h
    obtain ⟨⟨hc, he⟩, hq⟩ := h
    obtain ⟨he', hw⟩ := hexit.mpr ⟨he, hq⟩
    exact ⟨by omega, he'⟩

/-- Where nothing is lost, a step that clears RXOK has read it. -/
theorem clearsRead_of_nothingLost (h : NothingLost s) : ClearsRead rxbuf s op := by
  intro t hs hset hclear
  obtain ⟨p, -, -, rfl⟩ | ⟨bits, -, rfl⟩ | ⟨-, hpc, rfl⟩ | ⟨-, hpc, rfl⟩ | ⟨status, -, hpc, rfl⟩ |
    ⟨-, hpc, rfl⟩ | ⟨-, hpc, rfl⟩ := nicStep_cases hs
  · rw [Nic.arrive_rxok] at hclear
    cases hclear
  · rw [Nic.event_rxok, hset] at hclear
    cases hclear
  · cases hset.symm.trans hclear
  · cases hset.symm.trans hclear
  · rw [Nic.writeIsr_rxok, hset, Bool.true_and, Bool.not_eq_false'] at hclear
    refine ⟨status, hpc, hclear, ?_⟩
    rcases afterAck_cases status with ⟨-, hrx, -⟩ | ⟨-, -, hafter⟩ | ⟨-, hrx, -⟩
    · rw [hclear] at hrx
      cases hrx
    · exact hafter
    · rw [hclear] at hrx
      cases hrx
  · cases hset.symm.trans hclear
  · have := h.exit (by rw [hpc]; rfl)
    rw [hset] at this
    cases this

theorem nicInit_rxok (mem : Mem) (packetBuf : Nat → BitVec 8) :
    (nicInit mem packetBuf).rxok = false := by
  show hasRxok 0 = false
  decide

theorem isrInv_init (mem : Mem) (packetBuf : Nat → BitVec 8) : IsrInv (nicInit mem packetBuf) := by
  refine ⟨fun _ h => by simp [nicInit] at h, ?_⟩
  rw [Nic.due, nicInit_rxok]
  exact Nat.zero_le _

theorem nothingLost_init (mem : Mem) (packetBuf : Nat → BitVec 8) :
    NothingLost (nicInit mem packetBuf) := by
  refine ⟨?_, fun _ => nicInit_rxok ..⟩
  rw [Nic.due, nicInit_rxok]
  rfl

end

/-- **No event is acknowledged unread.** In every interleaving of arrivals with
    the accesses of any number of activations: if no packet arrives between a
    read that ends the loop and the write after it, then every step that clears
    RXOK writes back a word read with RXOK set, just before the call for it,
    and every rise of RXOK was handled, is being handled or is still in the
    register. Conversely a run after which this holds, with the handler not
    about to leave, has no such arrival. -/
theorem rxok_handled_iff_quiet (rxbuf : BitVec 64) (mem : Mem) (packetBuf : Nat → BitVec 8)
    (ops : List NicOp) (s : Nic)
    (hs : Runs.exec (nicStep rxbuf) (nicInit mem packetBuf) ops = some s) :
    (Runs.Meets (nicStep rxbuf) QuietExit (nicInit mem packetBuf) ops →
      Runs.Meets (nicStep rxbuf) (ClearsRead rxbuf) (nicInit mem packetBuf) ops ∧
        s.raised = s.handled + s.rxok.toNat + s.pc.calling.toNat) ∧
    (s.pc.leaving = false → s.raised = s.handled + s.rxok.toNat + s.pc.calling.toNat →
      Runs.Meets (nicStep rxbuf) QuietExit (nicInit mem packetBuf) ops) := by
  have hinit := isrInv_init mem packetBuf
  have hlost := nothingLost_init mem packetBuf
  have hiff : NothingLost s ↔ NothingLost (nicInit mem packetBuf) ∧
      Runs.Meets (nicStep rxbuf) QuietExit (nicInit mem packetBuf) ops :=
    @Runs.exec_iff_meets _ _ _ IsrInv NothingLost (fun _ => True) QuietExit
      (fun _ _ _ hp _ hst => isrInv_step hp hst) (fun _ _ _ hp _ hst => nothingLost_step hp hst)
      _ _ _ hinit (fun _ _ => trivial) hs
  refine ⟨?_, ?_⟩
  · intro hquiet
    refine ⟨?_, (hiff.mpr ⟨hlost, hquiet⟩).count⟩
    refine Runs.meets_of_inv (P := fun s => IsrInv s ∧ NothingLost s) ?_ ?_ ⟨hinit, hlost⟩ hquiet
    · rintro s o t ⟨hi, hn⟩ hc hst
      exact ⟨isrInv_step hi hst, (nothingLost_step hi hst).mpr ⟨hn, hc⟩⟩
    · rintro s o ⟨-, hn⟩ -
      exact clearsRead_of_nothingLost hn
  · intro hout hcount
    refine (hiff.mp ⟨hcount, fun hl => ?_⟩).2
    rw [hout] at hl
    cases hl

/-- The NIC before anything arrived, over memory of zeros. -/
def blankNic : Nic := nicInit (fun _ => 0) (fun _ => 0)

/-- A packet, and a second one when the handler has acknowledged the first and
    not yet received it. -/
def oneByOne : List NicOp :=
  [.arrive (plainPacket 64), .irq, .cpu, .cpu, .arrive (plainPacket 96), .cpu, .cpu, .cpu, .cpu, .cpu, .cpu,
    .cpu]

theorem rxok_handled_one_by_one :
    ∃ s, Runs.exec (nicStep 0x100000) blankNic oneByOne = some s ∧
      Runs.Meets (nicStep 0x100000) (ClearsRead 0x100000) blankNic oneByOne ∧
      s.pc = .idle ∧ s.raised = 2 ∧ s.handled = 2 := by
  have h : (Runs.exec (nicStep 0x100000) blankNic oneByOne).any (fun s => decide
      (s.pc.isIdle = true ∧ s.raised = 2 ∧ s.handled = 2)) = true := by decide +kernel
  have hquiet : Runs.Meets (nicStep 0x100000) QuietExit blankNic oneByOne := by decide +kernel
  obtain ⟨s, hs, hdone⟩ := (Option.any_eq_true _ _).mp h
  obtain ⟨hidle, hraised, hhandled⟩ := of_decide_eq_true hdone
  obtain ⟨hif, -⟩ := rxok_handled_iff_quiet 0x100000 (fun _ => 0) (fun _ => 0) oneByOne s hs
  exact ⟨s, hs, (hif hquiet).1, IsrPc.isIdle_iff.mp hidle, hraised, hhandled⟩

/-- One packet, an activation that receives it, and a second packet after the
    read that ends the loop. -/
def lateArrival : List NicOp :=
  [.arrive (plainPacket 64), .irq, .cpu, .cpu, .cpu, .cpu, .arrive (plainPacket 64), .cpu]

/-- The write after the loop clears RXOK, which the handler has not read: the
    handler returns with the second packet unread and no event left. -/
theorem late_arrival_wiped :
    ∃ s t, Runs.exec (nicStep 0x100000) blankNic lateArrival = some s ∧
      nicStep 0x100000 s .cpu = some t ∧ ¬ ClearsRead 0x100000 s .cpu ∧
      t.pc = .idle ∧ t.raised = 2 ∧ t.handled = 1 ∧ t.rxok = false := by
  have h : (Runs.exec (nicStep 0x100000) blankNic lateArrival).any (fun s =>
      s.rxok && (match s.pc with | .finalAck => true | _ => false) &&
      (nicStep 0x100000 s .cpu).any (fun t => decide
        (t.pc.isIdle = true ∧ t.raised = 2 ∧ t.handled = 1 ∧ t.rxok = false))) = true := by
    decide +kernel
  obtain ⟨s, hs, hstate⟩ := (Option.any_eq_true _ _).mp h
  simp only [Bool.and_eq_true] at hstate
  obtain ⟨⟨hrx, hpc⟩, hnext⟩ := hstate
  obtain ⟨t, ht, hfields⟩ := (Option.any_eq_true _ _).mp hnext
  obtain ⟨hidle, hraised, hhandled, hclear⟩ := of_decide_eq_true hfields
  refine ⟨s, t, hs, ht, ?_, IsrPc.isIdle_iff.mp hidle, hraised, hhandled, hclear⟩
  intro hclears
  obtain ⟨status, hack, -⟩ := hclears t ht hrx hclear
  rw [hack] at hpc
  exact Bool.false_ne_true hpc

end Qnixx
