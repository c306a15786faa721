import Qnixx.RxInterrupt

/- Whether the interrupt handler drains the receive ring. RXOK is one bit: two
   packets that arrive before the handler clears it are one event, for which it
   calls `recieve` once. -/
namespace Qnixx
open ByteMem

/-- A packet arrives only when RXOK is clear, and not between the read that
    ends the loop and the write after it. -/
def OneAtATime (s : Nic) (op : NicOp) : Prop :=
  ∀ p, op = .arrive p → s.pc.leaving = false ∧ s.rxok = false

instance (s : Nic) (op : NicOp) : Decidable (OneAtATime s op) :=
  inferInstanceAs (Decidable (∀ p, op = .arrive p → s.pc.leaving = false ∧ s.rxok = false))

def NicOp.WellFormed (op : NicOp) : Prop := ∀ p, op = .arrive p → p.good = true

instance (op : NicOp) : Decidable op.WellFormed :=
  inferInstanceAs (Decidable (∀ p, op = .arrive p → p.good = true))

/-- How many packets have arrived. -/
def Nic.arrivals (s : Nic) : Nat := s.ring.received.length + s.ring.unread.length

/-- What holds in every run with good packets: each call receives one, and
    each rise of RXOK is for one of its own. -/
structure DrainInv (rxbuf : BitVec 64) (s : Nic) : Prop extends IsrInv s where
  ring : RxInv rxbuf s.ring
  good : ∀ p ∈ s.ring.unread, p.good = true
  calls : s.ring.received.length = s.handled
  rises : s.raised ≤ s.arrivals

/-- Every packet is one the handler knows of. -/
structure AllKnown (s : Nic) : Prop extends NothingLost s where
  rises : s.raised = s.arrivals

section
variable {rxbuf : BitVec 64} {s t : Nic} {op : NicOp}

/-- Only an arrival and a call touch the ring and the counters. -/
theorem nicStep_ring (hs : nicStep rxbuf s op = some t) :
    (∃ p, op = .arrive p ∧ s.ring.Fits p ∧ t = s.arrive rxbuf p) ∨
    (op = .cpu ∧ s.pc = .recieve ∧ t = s.callRecieve rxbuf) ∨
    ((∀ p, op ≠ .arrive p) ∧ t.ring = s.ring ∧ t.raised = s.raised ∧ t.handled = s.handled) := by
  obtain harr | ⟨bits, rfl, rfl⟩ | ⟨rfl, -, rfl⟩ | ⟨rfl, -, rfl⟩ | ⟨status, rfl, -, rfl⟩ |
    hcall | ⟨rfl, -, rfl⟩ := nicStep_cases hs
  · exact .inl harr
  · exact .inr (.inr ⟨nofun, rfl, rfl, rfl⟩)
  · exact .inr (.inr ⟨nofun, rfl, rfl, rfl⟩)
  · exact .inr (.inr ⟨nofun, rfl, rfl, rfl⟩)
  · exact .inr (.inr ⟨nofun, rfl, rfl, rfl⟩)
  · exact .inr (.inl hcall)
  · exact .inr (.inr ⟨nofun, rfl, rfl, rfl⟩)

/-- When a call is due there is a packet for it, and the call receives it. -/
theorem DrainInv.call (h : DrainInv rxbuf s) (hpc : s.pc = .recieve) :
    ∃ p rest, s.ring.unread = p :: rest ∧ (s.ring.call rxbuf).unread = rest ∧
      (s.ring.call rxbuf).received = s.ring.received ++ [p] := by
  have hlen : 0 < s.ring.unread.length := by
    have hcount := h.count
    have hcalls := h.calls
    have hrises := h.rises
    rw [Nic.due, hpc, show IsrPc.recieve.calling.toNat = 1 from rfl] at hcount
    rw [Nic.arrivals] at hrises
    omega
  cases hu : s.ring.unread with
  | nil =>
    rw [hu] at hlen
    exact absurd hlen (Nat.lt_irrefl 0)
  | cons p rest =>
    obtain ⟨hcall, -⟩ := h.ring.call_good hu (h.good p (by simp [hu]))
    refine ⟨p, rest, rfl, ?_, ?_⟩
    · rw [hcall]
    · rw [hcall]

theorem arrivals_call (h : DrainInv rxbuf s) (hpc : s.pc = .recieve) :
    (s.callRecieve rxbuf).arrivals = s.arrivals := by
  obtain ⟨p, rest, hu, hrest, hrec⟩ := h.call hpc
  show (s.ring.call rxbuf).received.length + (s.ring.call rxbuf).unread.length = s.arrivals
  rw [hrest, hrec, Nic.arrivals, hu, List.length_append, List.length_singleton, List.length_cons]
  omega

theorem arrivals_arrive (s : Nic) (p : Packet) : (s.arrive rxbuf p).arrivals = s.arrivals + 1 := by
  show s.ring.received.length + (s.ring.unread ++ [p]).length = s.arrivals + 1
  rw [List.length_append, List.length_singleton, Nic.arrivals, Nat.add_assoc]

theorem drainInv_step (h : DrainInv rxbuf s) (hop : op.WellFormed)
    (hs : nicStep rxbuf s op = some t) : DrainInv rxbuf t := by
  have hisr := isrInv_step h.toIsrInv hs
  have hrises := h.rises
  -- an arrival, a call of `recieve`, or a step that leaves the ring alone
  obtain ⟨p, rfl, hfit, rfl⟩ | ⟨rfl, hpc, rfl⟩ | ⟨-, hring, hraised, hhandled⟩ := nicStep_ring hs
  · refine ⟨hisr, h.ring.store hfit, ?_, h.calls, ?_⟩
    · intro q hq
      rcases List.mem_append.mp hq with hq | hq
      · exact h.good q hq
      · rw [List.mem_singleton.mp hq]
        exact hop p rfl
    · rw [arrivals_arrive]
      show s.raised + (!s.rxok).toNat ≤ s.arrivals + 1
      have := Bool.toNat_le (!s.rxok)
      omega
  · obtain ⟨p, rest, hu, hrest, hrec⟩ := h.call hpc
    refine ⟨hisr, h.ring.call (by simp [hu]), ?_, ?_, ?_⟩
    · intro q hq
      have hq' : q ∈ rest := hrest ▸ hq
      exact h.good q (by simp [hu, hq'])
    · show (s.ring.call rxbuf).received.length = s.handled + 1
      rw [hrec, List.length_append, h.calls, List.length_singleton]
    · rw [arrivals_call h hpc]
      exact hrises
  · refine ⟨hisr, ?_, ?_, ?_, ?_⟩
    · rw [hring]; exact h.ring
    · rw [hring]; exact h.good
    · rw [hring, hhandled]; exact h.calls
    · rw [Nic.arrivals, hring, hraised]; exact hrises

theorem allKnown_step (h : DrainInv rxbuf s) (hs : nicStep rxbuf s op = some t) :
    AllKnown t ↔ AllKnown s ∧ OneAtATime s op := by
  have hlost := nothingLost_step h.toIsrInv hs
  have hrises := h.rises
  obtain ⟨p, rfl, -, rfl⟩ | ⟨rfl, hpc, rfl⟩ | ⟨hop, hring, hraised, -⟩ := nicStep_ring hs
  · have hraised : (s.arrive rxbuf p).raised = s.raised + (!s.rxok).toNat := rfl
    have harr := @arrivals_arrive rxbuf s p
    refine ⟨?_, ?_⟩
    · intro h
      obtain ⟨hn, hr⟩ := h
      obtain ⟨hn', hq⟩ := hlost.mp hn
      rw [hraised, harr] at hr
      -- an arrival with the bit set is one more packet without one more rise
      have hclear : s.rxok = false := by
        cases hx : s.rxok with
        | false => rfl
        | true => rw [hx, show (!true).toNat = 0 from rfl] at hr; omega
      rw [hclear, show (!false).toNat = 1 from rfl] at hr
      refine ⟨⟨hn', by omega⟩, ?_⟩
      rintro q hq'
      exact ⟨hq q hq', hclear⟩
    · intro h
      obtain ⟨⟨hn, hr⟩, hone⟩ := h
      obtain ⟨hquiet, hclear⟩ := hone p rfl
      refine ⟨hlost.mpr ⟨hn, fun _ _ => hquiet⟩, ?_⟩
      rw [hraised, harr, hclear, hr]
      rfl
  · have harr := arrivals_call h hpc
    refine ⟨?_, ?_⟩
    · intro h
      obtain ⟨hn, hr⟩ := h
      exact ⟨⟨(hlost.mp hn).1, hr.trans harr⟩, fun p hp => by cases hp⟩
    · intro h
      obtain ⟨⟨hn, hr⟩, -⟩ := h
      exact ⟨hlost.mpr ⟨hn, fun p hp => by cases hp⟩, hr.trans harr.symm⟩
  · have harr : t.arrivals = s.arrivals := by rw [Nic.arrivals, hring, Nic.arrivals]
    refine ⟨?_, ?_⟩
    · intro h
      obtain ⟨hn, hr⟩ := h
      exact ⟨⟨(hlost.mp hn).1, by rw [← hraised, ← harr]; exact hr⟩, fun p hp => absurd hp (hop p)⟩
    · intro h
      obtain ⟨⟨hn, hr⟩, -⟩ := h
      exact ⟨hlost.mpr ⟨hn, fun p hp => absurd hp (hop p)⟩, by rw [hraised, harr]; exact hr⟩

/-- Handled activations have received all they saw. -/
def Drained (s : Nic) : Prop := s.pc.leaving = true ∨ s.pc = .idle → s.seen <+: s.ring.received

/-- At a read that ends the loop, nothing is unread. -/
theorem AllKnown.unread_nil (h : AllKnown s) (hd : DrainInv rxbuf s) (hpc : s.pc.calling = false)
    (hrx : s.rxok = false) : s.ring.unread = [] := by
  have hcount := h.count
  have hrises := h.rises
  have hcalls := hd.calls
  rw [Nic.due, hpc, hrx, Bool.toNat_false] at hcount
  rw [Nic.arrivals] at hrises
  exact List.eq_nil_of_length_eq_zero (by omega)

theorem drained_step (h : Drained s) (hd : DrainInv rxbuf s) (hk : AllKnown s)
    (hs : nicStep rxbuf s op = some t) : Drained t := by
  intro hend
  obtain ⟨p, rfl, -, rfl⟩ | ⟨bits, rfl, rfl⟩ | ⟨rfl, hpc, rfl⟩ | ⟨rfl, hpc, rfl⟩ | ⟨status, rfl, hpc, rfl⟩ |
    ⟨rfl, hpc, rfl⟩ | ⟨rfl, hpc, rfl⟩ := nicStep_cases hs
  · exact h hend
  · exact h hend
  · rcases hend with hl | hl <;> cases hl
  · -- the read that ends the loop sees an empty ring
    rcases hend with hl | hl
    · have hnil := hk.unread_nil hd (by rw [hpc]; rfl) (leaving_rxok hl)
      have hsame : s.ring.received ++ s.ring.unread = s.ring.received := by
        rw [hnil, List.append_nil]
      exact ⟨[], by rw [List.append_nil]; exact hsame⟩
    · cases hl
  · -- writing the status back takes the branch that the read has decided
    refine h (.inl ?_)
    rcases hend with hl | hl
    · rw [hpc, ← afterAck_leaving]
      exact hl
    · have hidle : afterAck status = .idle := hl
      rcases afterAck_cases status with ⟨-, -, h'⟩ | ⟨-, -, h'⟩ | ⟨-, -, h'⟩
      all_goals
        rw [h'] at hidle
        cases hidle
  · rcases hend with hl | hl <;> cases hl
  · exact h (.inl (by rw [hpc]; rfl))

end

theorem drainInv_init (rxbuf : BitVec 64) (mem : Mem) (packetBuf : Nat → BitVec 8) :
    DrainInv rxbuf (nicInit mem packetBuf) :=
  ⟨isrInv_init mem packetBuf, RxInv.init rxbuf mem packetBuf, by simp [nicInit, rxInit], rfl,
    Nat.zero_le _⟩

theorem allKnown_init (mem : Mem) (packetBuf : Nat → BitVec 8) : AllKnown (nicInit mem packetBuf) :=
  ⟨nothingLost_init mem packetBuf, rfl⟩

/-- **Receive interrupts drain the ring.** In every interleaving of arrivals of
    good packets with the handler: if each packet arrives with RXOK clear and
    none between a read that ends the loop and the write after it, then
    whenever the handler returns, the packets that had arrived before its last
    read of REG_ISR have been received, in order. Conversely, if nothing is
    unread at a read that ends the loop, the run so far was such a one. -/
theorem ring_drained_iff (rxbuf : BitVec 64) (mem : Mem) (packetBuf : Nat → BitVec 8)
    (ops : List NicOp) (s : Nic) (hgood : ∀ p, .arrive p ∈ ops → p.good = true)
    (hs : Runs.exec (nicStep rxbuf) (nicInit mem packetBuf) ops = some s) :
    (Runs.Meets (nicStep rxbuf) OneAtATime (nicInit mem packetBuf) ops → s.pc = .idle →
      s.seen <+: s.ring.received) ∧
    (s.pc = .read → isrStat s.regIsr = 0 → (s.ring.unread = [] ↔
      Runs.Meets (nicStep rxbuf) OneAtATime (nicInit mem packetBuf) ops)) := by
  have hwf : ∀ op ∈ ops, op.WellFormed := fun op hop p hp => hgood p (hp ▸ hop)
  have hdrain := drainInv_init rxbuf mem packetBuf
  have hknown := allKnown_init mem packetBuf
  have hiff : AllKnown s ↔ AllKnown (nicInit mem packetBuf) ∧
      Runs.Meets (nicStep rxbuf) OneAtATime (nicInit mem packetBuf) ops :=
    Runs.exec_iff_meets (fun _ _ _ hp hd hst => drainInv_step hp hd hst)
      (fun _ _ _ hp _ hst => allKnown_step hp hst) hdrain hwf hs
  refine ⟨?_, ?_⟩
  · intro hone hidle
    have hinv : Drained s ∧ DrainInv rxbuf s ∧ AllKnown s := by
      refine Runs.exec_inv_of (P := fun s => Drained s ∧ DrainInv rxbuf s ∧ AllKnown s) ?_
        ⟨fun _ => List.nil_prefix, hdrain, hknown⟩ (Runs.meets_mem hone hwf) hs
      rintro s o t ⟨hd, hi, hk⟩ ⟨hc, ho⟩ hst
      exact ⟨drained_step hd hi hk hst, drainInv_step hi ho hst, (allKnown_step hi hst).mpr ⟨hk, hc⟩⟩
    exact hinv.1 (.inr hidle)
  · intro hpc hstat
    have hinv : DrainInv rxbuf s :=
      Runs.exec_inv_of (fun _ _ _ hp hc hst => drainInv_step hp hc.2 hst) hdrain
        (Runs.meets_mem (Runs.meets_true ops _) hwf) hs
    have hrx : s.rxok = false := hasRxok_of_stat hstat
    have hcalling : s.pc.calling = false := by rw [hpc]; rfl
    refine ⟨?_, ?_⟩
    · intro hnil
      refine (hiff.mp ⟨⟨?_, fun _ => hrx⟩, ?_⟩).2
      -- with nothing unread, every count is the number of calls
      all_goals
        have hcount := hinv.count
        have hcalls := hinv.calls
        have hrises := hinv.rises
        rw [Nic.due, hcalling, hrx, Bool.toNat_false] at hcount
        rw [Nic.arrivals, hnil, List.length_nil] at hrises
      · rw [Nic.due, hcalling, hrx, Bool.toNat_false]
        omega
      · rw [Nic.arrivals, hnil, List.length_nil]
        omega
    · intro hone
      exact (hiff.mpr ⟨hknown, hone⟩).unread_nil hinv hcalling hrx

theorem ring_drained_one_by_one :
    ∃ s, Runs.exec (nicStep 0x100000) blankNic oneByOne = some s ∧ s.pc = .idle ∧
      s.seen.length = 2 ∧ s.seen <+: s.ring.received := by
  have h : (Runs.exec (nicStep 0x100000) blankNic oneByOne).any (fun s => decide
      (s.pc.isIdle = true ∧ s.seen.length = 2)) = true := by decide +kernel
  have hmeets : Runs.Meets (nicStep 0x100000) OneAtATime blankNic oneByOne := by decide +kernel
  obtain ⟨s, hs, hfields⟩ := (Option.any_eq_true _ _).mp h
  obtain ⟨hidle, hseen⟩ := of_decide_eq_true hfields
  have hpc := IsrPc.isIdle_iff.mp hidle
  have hgood : ∀ op ∈ oneByOne, op.WellFormed := by decide +kernel
  exact ⟨s, hs, hpc, hseen,
    (ring_drained_iff 0x100000 _ _ oneByOne s (fun p hp => hgood _ hp p rfl) hs).1 hmeets hpc⟩

/-- Two packets before the handler's first read. -/
def twoArrivals : List NicOp :=
  [.arrive (plainPacket 64), .arrive (plainPacket 64), .irq, .cpu, .cpu, .cpu, .cpu, .cpu, .cpu]

/-- The handler returns with one of the two packets it saw unread. -/
theorem coalesced_packet_unread :
    ∃ s, Runs.exec (nicStep 0x100000) blankNic twoArrivals = some s ∧ s.pc = .idle ∧
      s.seen.length = 2 ∧ s.ring.received.length = 1 ∧ s.ring.unread.length = 1 ∧
      ¬ s.seen <+: s.ring.received := by
  have h : (Runs.exec (nicStep 0x100000) blankNic twoArrivals).any (fun s => decide
      (s.pc.isIdle = true ∧ s.seen.length = 2 ∧ s.ring.received.length = 1 ∧
        s.ring.unread.length = 1)) = true := by decide +kernel
  obtain ⟨s, hs, hfields⟩ := (Option.any_eq_true _ _).mp h
  obtain ⟨hidle, hseen, hrec, hun⟩ := of_decide_eq_true hfields
  refine ⟨s, hs, IsrPc.isIdle_iff.mp hidle, hseen, hrec, hun, ?_⟩
  intro hpre
  have := hpre.length_le
  omega

end Qnixx
