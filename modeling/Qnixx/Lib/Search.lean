import Mathlib.Algebra.Group.Nat.Defs
import Mathlib.Tactic.Common

/- Computations on a state that only look at it, and loops that search with
   them. `Yields P x a` says that from every state with `P` the computation `x`
   gives `a` and keeps `P`; it has a rule for each way to build a computation.
   `search` is a counting loop whose body may return, `first` is what such a
   loop finds. -/
namespace Search

variable {S α β : Type} {w : Nat}

def Yields (P : S → Prop) (x : StateM S α) (a : α) : Prop :=
  ∀ s, P s → (x s).1 = a ∧ P (x s).2

/-- A loop over `n` values of a counter from `i` on. -/
def search (body : BitVec w → StateM S (Option α)) (i : BitVec w) : Nat → StateM S (Option α)
  | 0 => pure none
  | n + 1 => do
    match ← body i with
    | some a => pure (some a)
    | none => search body (i + 1) n

/-- The first value of the counter for which `f` gives something. -/
def first (f : BitVec w → Option α) (i : BitVec w) : Nat → Option α
  | 0 => none
  | n + 1 => (f i).or (first f (i + 1) n)

theorem counter_succ (i : BitVec w) (k : Nat) : i + 1 + BitVec.ofNat w k = i + BitVec.ofNat w (k + 1) := by
  rw [Nat.add_comm, BitVec.ofNat_add, BitVec.add_assoc]
  rfl

section
variable {P : S → Prop}

theorem Yields.pure (a : α) : Yields P (pure a) a := fun _ hs => ⟨rfl, hs⟩

theorem Yields.bind {x : StateM S α} {f : α → StateM S β} {a : α} {b : β} (hx : Yields P x a)
    (hf : Yields P (f a) b) : Yields P (x >>= f) b := by
  intro s hs
  obtain ⟨hval, hkeep⟩ := hx s hs
  have hnext := hf (x s).2 hkeep
  rw [← hval] at hnext
  exact hnext

theorem Yields.congr {x : StateM S α} {a b : α} (hx : Yields P x a) (hab : a = b) : Yields P x b :=
  hab ▸ hx

/-- A search with a body that only looks finds the first value. -/
theorem Yields.search {body : BitVec w → StateM S (Option α)} {f : BitVec w → Option α} (i : BitVec w)
    (n : Nat) (h : ∀ k, k < n → Yields P (body (i + BitVec.ofNat w k)) (f (i + BitVec.ofNat w k))) :
    Yields P (search body i n) (first f i n) := by
  induction n generalizing i with
  | zero => exact Yields.pure none
  | succ n ih =>
    have hhere : Yields P (body i) (f i) := by
      have := h 0 (Nat.succ_pos n)
      rwa [BitVec.add_zero] at this
    refine Yields.bind hhere ?_
    rw [first]
    cases f i with
    | some a => exact Yields.pure (some a)
    | none =>
      refine ih (i + 1) ?_
      intro k hk
      rw [counter_succ]
      exact h (k + 1) (by omega)

/-- The same for a loop from 0 on, by the values of its counter. -/
theorem Yields.search_zero {body : BitVec w → StateM S (Option α)} {f : BitVec w → Option α} {n : Nat}
    (hn : n ≤ 2^w) (h : ∀ i, i.toNat < n → Yields P (body i) (f i)) :
    Yields P (Search.search body 0 n) (first f 0 n) := by
  refine Yields.search 0 n ?_
  intro k hk
  apply h
  rw [BitVec.ofNat_eq_ofNat, BitVec.zero_add, BitVec.toNat_ofNat, Nat.mod_eq_of_lt (by omega)]
  exact hk

end

theorem first_eq_none_iff {f : BitVec w → Option α} {i : BitVec w} {n : Nat} :
    first f i n = none ↔ ∀ k, k < n → f (i + BitVec.ofNat w k) = none := by
  induction n generalizing i with
  | zero => exact ⟨fun _ k hk => absurd hk (Nat.not_lt_zero k), fun _ => rfl⟩
  | succ n ih =>
    rw [first, Option.or_eq_none_iff, ih, Nat.forall_lt_succ_left, BitVec.add_zero]
    simp only [counter_succ]

/-- What is found is found at some value, and at none before it. -/
theorem first_eq_some_iff {f : BitVec w → Option α} {i : BitVec w} {n : Nat} {a : α} :
    first f i n = some a ↔ ∃ k, k < n ∧ f (i + BitVec.ofNat w k) = some a ∧
      ∀ j, j < k → f (i + BitVec.ofNat w j) = none := by
  induction n generalizing i with
  | zero => exact ⟨nofun, fun ⟨k, hk, _⟩ => absurd hk (Nat.not_lt_zero k)⟩
  | succ n ih =>
    rw [first, Option.or_eq_some_iff, ih]
    simp only [counter_succ]
    refine ⟨?_, ?_⟩
    · intro h
      rcases h with hhere | ⟨hnone, k, hk, hsome, hbefore⟩
      · exact ⟨0, Nat.succ_pos n, by rwa [BitVec.add_zero], fun j hj => absurd hj (Nat.not_lt_zero j)⟩
      · refine ⟨k + 1, by omega, hsome, ?_⟩
        rw [Nat.forall_lt_succ_left, BitVec.add_zero]
        exact ⟨hnone, hbefore⟩
    · intro h
      obtain ⟨k, hk, hsome, hbefore⟩ := h
      cases k with
      | zero => exact .inl (by rwa [BitVec.add_zero] at hsome)
      | succ k =>
        rw [Nat.forall_lt_succ_left, BitVec.add_zero] at hbefore
        exact .inr ⟨hbefore.1, k, by omega, hsome, hbefore.2⟩

/-- A loop from 0 on, by the values of its counter. -/
theorem first_zero_eq_none_iff {f : BitVec w → Option α} {n : Nat} (hn : n ≤ 2^w) :
    first f 0 n = none ↔ ∀ i, i.toNat < n → f i = none := by
  rw [first_eq_none_iff]
  simp only [BitVec.ofNat_eq_ofNat, BitVec.zero_add]
  refine ⟨?_, ?_⟩
  · intro h i hi
    have := h i.toNat hi
    rwa [BitVec.ofNat_toNat, BitVec.setWidth_eq] at this
  · intro h k hk
    apply h
    rw [BitVec.toNat_ofNat, Nat.mod_eq_of_lt (by omega)]
    exact hk

theorem first_zero_eq_some_iff {f : BitVec w → Option α} {n : Nat} {a : α} (hn : n ≤ 2^w) :
    first f 0 n = some a ↔ ∃ i, i.toNat < n ∧ f i = some a ∧ ∀ j, j < i → f j = none := by
  rw [first_eq_some_iff]
  simp only [BitVec.ofNat_eq_ofNat, BitVec.zero_add]
  refine ⟨?_, ?_⟩
  · intro h
    obtain ⟨k, hk, hsome, hbefore⟩ := h
    have hval : (BitVec.ofNat w k).toNat = k := by
      rw [BitVec.toNat_ofNat, Nat.mod_eq_of_lt (by omega)]
    refine ⟨BitVec.ofNat w k, by omega, hsome, ?_⟩
    intro j hj
    have := hbefore j.toNat (by rw [BitVec.lt_def] at hj; omega)
    rwa [BitVec.ofNat_toNat, BitVec.setWidth_eq] at this
  · intro h
    obtain ⟨i, hi, hsome, hbefore⟩ := h
    refine ⟨i.toNat, hi, ?_, ?_⟩
    · rwa [BitVec.ofNat_toNat, BitVec.setWidth_eq]
    · intro j hj
      apply hbefore
      rw [BitVec.lt_def, BitVec.toNat_ofNat, Nat.mod_eq_of_lt (by omega)]
      exact hj

end Search
