import Mathlib.Algebra.Group.Nat.Defs
import Mathlib.Tactic.Common

/- The HPET (`dev/timer/hpet.c`) and its main counter. `hpet_sleep` waits until
   the counter reaches a goal that it computes in 64 bits. `hpet_init` looks at
   the number of comparators and the period of the counter, but not at the
   capability bit for its width: a counter of 32 bits starts over before it
   reaches a goal behind its last value.

   Time is counted in ticks of the counter since `hpet_init` has set it to 0. -/
namespace Qnixx

/-- `reg_count`. -/
def hpetRegCount (cap : BitVec 64) : BitVec 32 := (((cap >>> 8) &&& 0x1F) + 1).setWidth 32

/-- The `hpet_period` that `hpet_init` takes from the capability register, `none`
    when it halts. -/
def hpetInit (cap : BitVec 64) : Option (BitVec 64) :=
  if hpetRegCount cap < 2 ∨ cap >>> 32 = 0 then none else some (cap >>> 32)

/-- `COUNT_SIZE_CAP`: the main counter has 64 bits. -/
def countSizeCap (cap : BitVec 64) : Bool := cap.getLsbD 13

def counterBits (cap : BitVec 64) : Nat := if countSizeCap cap then 64 else 32

/-- The register `HPET_REG_COUNTER` at tick `t`. -/
def hpetCounter (cap : BitVec 64) (t : Nat) : BitVec 64 := BitVec.ofNat 64 (t % 2 ^ counterBits cap)

/-- `goal`, from the counter at the call; `none` is a division by 0. -/
def sleepGoal (period ms counter : BitVec 64) : Option (BitVec 64) :=
  if period = 0 then none else some (counter + ms * (1000000000000 / period))

/-- The loop of `hpet_sleep`, with a read of the counter every tick from `t` on:
    the tick of the read that ends it. -/
def hpetWait (cap goal : BitVec 64) : Nat → Nat → Option Nat
  | 0, _ => none
  | fuel + 1, t => if hpetCounter cap t < goal then hpetWait cap goal fuel (t + 1) else some t

/-- `hpet_sleep`, called at tick `t`. -/
def hpetSleepAt (fuel : Nat) (cap period ms : BitVec 64) (t : Nat) : Option Nat :=
  (sleepGoal period ms (hpetCounter cap t)).bind (fun goal => hpetWait cap goal fuel t)

theorem hpetCounter_toNat (cap : BitVec 64) (t : Nat) : (hpetCounter cap t).toNat = t % 2 ^ counterBits cap := by
  have hbits : 2 ^ counterBits cap ≤ 2^64 := by
    rw [counterBits]
    split <;> decide
  have hlt := Nat.mod_lt t (Nat.two_pow_pos (counterBits cap))
  rw [hpetCounter, BitVec.toNat_ofNat, Nat.mod_eq_of_lt (Nat.lt_of_lt_of_le hlt hbits)]

/-- The loop ends when there is a tick for it to end at. -/
theorem hpetWait_ends {cap goal : BitVec 64} (n : Nat) : ∀ {t : Nat}, goal ≤ hpetCounter cap (t + n) →
    (hpetWait cap goal (n + 1) t).isSome := by
  induction n with
  | zero =>
    intro t h
    rw [Nat.add_zero] at h
    rw [hpetWait, if_neg (BitVec.not_lt.mpr h)]
    rfl
  | succ n ih =>
    intro t h
    rw [hpetWait]
    split
    · apply ih
      rwa [Nat.add_assoc, Nat.add_comm 1 n]
    · rfl

/-- And at a tick at which the goal is reached. -/
theorem hpetWait_reached {cap goal : BitVec 64} (fuel : Nat) : ∀ {t t' : Nat},
    hpetWait cap goal fuel t = some t' → t ≤ t' ∧ goal ≤ hpetCounter cap t' := by
  induction fuel with
  | zero =>
    intro t t' h
    cases h
  | succ fuel ih =>
    intro t t' h
    rw [hpetWait] at h
    split at h
    · obtain ⟨hle, hgoal⟩ := ih h
      exact ⟨Nat.le_of_succ_le hle, hgoal⟩
    · next hge =>
      cases h
      exact ⟨Nat.le_refl _, BitVec.not_lt.mp hge⟩

/-- So it has an exit when the goal is reached at some tick. -/
theorem hpetWait_iff (cap goal : BitVec 64) (t : Nat) :
    (∃ fuel, (hpetWait cap goal fuel t).isSome) ↔ ∃ t', t ≤ t' ∧ goal ≤ hpetCounter cap t' := by
  refine ⟨?_, ?_⟩
  · rintro ⟨fuel, hsome⟩
    obtain ⟨t', ht'⟩ := Option.isSome_iff_exists.mp hsome
    exact ⟨t', hpetWait_reached fuel ht'⟩
  · rintro ⟨t', hle, hgoal⟩
    obtain ⟨n, rfl⟩ := Nat.exists_eq_add_of_le hle
    exact ⟨n + 1, hpetWait_ends n hgoal⟩

section
variable {cap period : BitVec 64}

theorem hpetInit_period (h : hpetInit cap = some period) : period ≠ 0 := by
  rw [hpetInit] at h
  split at h
  · cases h
  · next hok =>
    cases h
    exact fun hzero => hok (.inr hzero)

/-- No overflow: the goal is ten milliseconds behind the counter. -/
theorem sleepGoal_ten (h : period ≠ 0) {counter : BitVec 64} (hcounter : counter.toNat ≤ 2^40) :
    ∃ goal, sleepGoal period 10 counter = some goal ∧
      goal.toNat = counter.toNat + 10 * (1000000000000 / period.toNat) := by
  have hticks : 1000000000000 / period.toNat ≤ 1000000000000 := Nat.div_le_self _ _
  have hdiv : (1000000000000 / period : BitVec 64).toNat = 1000000000000 / period.toNat := by
    rw [BitVec.toNat_udiv]
    rfl
  have hten : (10 : BitVec 64).toNat = 10 := rfl
  refine ⟨_, if_neg h, ?_⟩
  rw [BitVec.toNat_add, BitVec.toNat_mul, hdiv, hten]
  omega

theorem counter_le (cap : BitVec 64) {t : Nat} (ht : t ≤ 2^40) : (hpetCounter cap t).toNat ≤ 2^40 := by
  rw [hpetCounter_toNat]
  exact Nat.le_trans (Nat.mod_le _ _) ht

/-- When the goal is a value the counter has, it has it so many ticks later. -/
theorem counter_reaches {ticks t : Nat} (h : t % 2 ^ counterBits cap + ticks < 2 ^ counterBits cap) :
    (hpetCounter cap (t + ticks)).toNat = t % 2 ^ counterBits cap + ticks := by
  rw [hpetCounter_toNat, Nat.add_mod, Nat.mod_eq_of_lt (a := ticks) (by omega), Nat.mod_eq_of_lt h]

theorem reaches_iff {goal : BitVec 64} {ticks t : Nat} (hgoal : goal.toNat = t % 2 ^ counterBits cap + ticks) :
    (∃ t', t ≤ t' ∧ goal ≤ hpetCounter cap t') ↔ t % 2 ^ counterBits cap + ticks < 2 ^ counterBits cap := by
  refine ⟨?_, ?_⟩
  · rintro ⟨t', _, hle⟩
    have hlt := Nat.mod_lt t' (Nat.two_pow_pos (counterBits cap))
    rw [BitVec.le_def, hgoal, hpetCounter_toNat] at hle
    exact Nat.lt_of_le_of_lt hle hlt
  · intro hlt
    refine ⟨t + ticks, Nat.le_add_right _ _, ?_⟩
    exact BitVec.le_def.mpr (Nat.le_of_eq (hgoal.trans (counter_reaches hlt).symm))

end

/-- A call at tick `t` computes a goal that the counter attains or exceeds later
    on, and its loop ends. -/
def SleepEnds (cap period ms : BitVec 64) (t : Nat) : Prop :=
  (∃ goal, sleepGoal period ms (hpetCounter cap t) = some goal ∧ ∃ t', t ≤ t' ∧ goal ≤ hpetCounter cap t') ∧
    ∃ fuel, (hpetSleepAt fuel cap period ms t).isSome

/-- The wait has an exit when the counter has 64 bits, or when it does not start
    over during the ten milliseconds. -/
theorem hpetSleep_ends_iff (cap period : BitVec 64) (hinit : hpetInit cap = some period) (t : Nat)
    (ht : t ≤ 2^40) : SleepEnds cap period 10 t ↔
      countSizeCap cap = true ∨ t % 2^32 + 10 * (1000000000000 / period.toNat) < 2^32 := by
  obtain ⟨goal, hgoal, hvalue⟩ := sleepGoal_ten (hpetInit_period hinit) (counter_le cap ht)
  have hticks : 1000000000000 / period.toNat ≤ 1000000000000 := Nat.div_le_self _ _
  rw [hpetCounter_toNat] at hvalue
  simp only [SleepEnds, hpetSleepAt, hgoal, Option.some.injEq, exists_eq_left', Option.bind_some]
  rw [hpetWait_iff, and_self, reaches_iff hvalue, counterBits]
  cases countSizeCap cap with
  | true =>
    simp only [if_true, true_or, iff_true]
    omega
  | false => simp only [Bool.false_eq_true, if_false, false_or]

/-- A counter of 64 bits with ticks of 10 ns, after 2^32 of them. -/
theorem hpetSleep_ends_wide :
    hpetInit 0x0098968000002100 = some 0x989680 ∧ SleepEnds 0x0098968000002100 0x989680 10 (2^32) :=
  ⟨by decide, (hpetSleep_ends_iff 0x0098968000002100 0x989680 (by decide) (2^32) (by decide)).mpr (.inl (by decide))⟩

/-- A counter of 32 bits, at its last tick. -/
theorem hpetSleep_wraps :
    hpetInit 0x0098968000000100 = some 0x989680 ∧ ¬ SleepEnds 0x0098968000000100 0x989680 10 (2^32 - 1) := by
  refine ⟨by decide, ?_⟩
  rintro ⟨⟨goal, hgoal, t', _, hle⟩, _⟩
  have hvalue : goal = 0x1000F423F := by
    have hsome : sleepGoal 0x989680 10 (hpetCounter 0x0098968000000100 (2^32 - 1)) = some 0x1000F423F := by decide
    exact Option.some.inj (hgoal.symm.trans hsome)
  have hbits : counterBits 0x0098968000000100 = 32 := by decide
  rw [hvalue, BitVec.le_def, hpetCounter_toNat, hbits] at hle
  have hlt := Nat.mod_lt t' (Nat.two_pow_pos 32)
  exact absurd (Nat.lt_of_le_of_lt hle hlt) (by decide)

end Qnixx
