import Mathlib.Data.List.Rotate

/- A cursor that moves through a queue one element at a time and wraps to the
   front. `next l a` is the element after `a` (none at the end, or when `a` is
   not in the queue); `advance` wraps. In a queue without duplicates the
   cursor's position moves by one modulo the length, so after `k` moves it has
   moved by `k` modulo the length. -/
namespace Cyclic

variable {α : Type} [DecidableEq α]

/-- The element that follows `a` in the queue. -/
def next : List α → α → Option α
  | [], _ => none
  | x :: l, a => if x = a then l.head? else next l a

/-- The element that follows `a`, or the first one where nothing follows. -/
def advance (l : List α) (a : α) : Option α :=
  match next l a with
  | some b => some b
  | none => l.head?

theorem next_mem : ∀ {l : List α} {a b : α}, next l a = some b → b ∈ l
  | [], _, _, h => by simp [next] at h
  | x :: l, a, b, h => by
    simp only [next] at h
    split at h
    · exact List.mem_cons_of_mem _ (List.mem_of_head? h)
    · exact List.mem_cons_of_mem _ (next_mem h)

theorem advance_mem {l : List α} {a b : α} (h : advance l a = some b) : b ∈ l := by
  unfold advance at h
  split at h
  · next c hc => rw [Option.some.injEq] at h; exact h ▸ next_mem hc
  · exact List.mem_of_head? h

theorem advance_isSome {l : List α} (a : α) (h : l ≠ []) : ∃ b, advance l a = some b := by
  unfold advance
  split
  · exact ⟨_, rfl⟩
  · obtain ⟨x, l, rfl⟩ := List.exists_cons_of_ne_nil h
    exact ⟨x, rfl⟩

theorem next_append {a : α} {before : List α} (h : a ∉ before) (rest : List α) :
    next (before ++ a :: rest) a = rest.head? := by
  induction before with
  | nil => rw [List.nil_append, next, if_pos rfl]
  | cons x before ih =>
    rw [List.mem_cons, not_or] at h
    rw [List.cons_append, next, if_neg (Ne.symm h.1)]
    exact ih h.2

theorem next_getElem? : ∀ {l : List α} {i : Nat} {a : α}, l.Nodup → l[i]? = some a →
    next l a = l[i + 1]?
  | [], i, a, _, h => by simp at h
  | x :: l, 0, a, _, h => by
    simp only [List.getElem?_cons_zero, Option.some.injEq] at h
    simp [next, h, List.head?_eq_getElem?]
  | x :: l, i + 1, a, hd, h => by
    rw [List.getElem?_cons_succ] at h
    obtain ⟨hx, hl⟩ := List.nodup_cons.mp hd
    have hne : x ≠ a := fun e => hx (e ▸ List.mem_of_getElem? h)
    rw [List.getElem?_cons_succ, next, if_neg hne]
    exact next_getElem? hl h

/-- The cursor at position `i` moves to position `i + 1` modulo the length. -/
theorem advance_getElem? {l : List α} {i : Nat} {a : α} (hd : l.Nodup) (h : l[i]? = some a) :
    advance l a = l[(i + 1) % l.length]? := by
  obtain ⟨hi, -⟩ := List.getElem?_eq_some_iff.mp h
  unfold advance
  rw [next_getElem? hd h]
  by_cases hlast : i + 1 < l.length
  · rw [Nat.mod_eq_of_lt hlast, List.getElem?_eq_getElem hlast]
  · have hlen : i + 1 = l.length := by omega
    rw [List.getElem?_eq_none (by omega), hlen, Nat.mod_self, List.head?_eq_getElem?]

/-- The queue in cyclic order from `a` on. -/
def startingAt (l : List α) (a : α) : List α := l.rotate (l.idxOf a)

theorem startingAt_length (l : List α) (a : α) : (startingAt l a).length = l.length :=
  List.length_rotate l _

theorem startingAt_nodup {l : List α} (a : α) (h : l.Nodup) : (startingAt l a).Nodup :=
  List.nodup_rotate.mpr h

theorem mem_startingAt {l : List α} {a b : α} : b ∈ startingAt l a ↔ b ∈ l := List.mem_rotate

theorem startingAt_zero {l : List α} {a : α} (h : a ∈ l) : (startingAt l a)[0]? = some a := by
  have hlt := List.idxOf_lt_length_iff.mpr h
  rw [startingAt, List.getElem?_rotate (by omega), Nat.zero_add, Nat.mod_eq_of_lt hlt,
    List.getElem?_eq_getElem hlt, List.getElem_idxOf]

/-- One move, counted from `a` on. -/
theorem advance_startingAt {l : List α} {a b : α} {c : Nat} (hd : l.Nodup)
    (h : (startingAt l a)[c % l.length]? = some b) :
    advance l b = (startingAt l a)[(c + 1) % l.length]? := by
  have hpos : 0 < l.length := by
    have := (List.getElem?_eq_some_iff.mp h).1
    rw [startingAt_length] at this
    omega
  rw [startingAt, List.getElem?_rotate (Nat.mod_lt _ hpos)] at h ⊢
  rw [advance_getElem? hd h]
  simp only [Nat.mod_add_mod]
  congr 2
  omega

/-! `n` cursors that move in turn: move `K` is made by cursor `K % n`. -/

/-- How often cursor `j` moves in the first `K` moves. -/
def turns (n j K : Nat) : Nat := K / n + if j < K % n then 1 else 0

theorem div_mod_succ {n : Nat} (hn : 0 < n) (K : Nat) :
    if K % n + 1 = n then (K + 1) / n = K / n + 1 ∧ (K + 1) % n = 0
    else (K + 1) / n = K / n ∧ (K + 1) % n = K % n + 1 := by
  have hK := Nat.div_add_mod K n
  have hlt := Nat.mod_lt K hn
  split
  · next hwrap =>
    rw [Nat.div_mod_unique hn, Nat.mul_add]
    omega
  · next hno =>
    rw [Nat.div_mod_unique hn]
    omega

/-- Move `K` is made by cursor `K % n` and by no other. -/
theorem turns_succ {n j : Nat} (hj : j < n) (K : Nat) :
    turns n j (K + 1) = turns n j K + if j = K % n then 1 else 0 := by
  have hn : 0 < n := by omega
  have hstep := div_mod_succ hn K
  have hlt := Nat.mod_lt K hn
  unfold turns
  split at hstep
  · obtain ⟨hd, hm⟩ := hstep
    rw [hd, hm]
    split <;> split <;> split <;> omega
  · obtain ⟨hd, hm⟩ := hstep
    rw [hd, hm]
    split <;> split <;> split <;> omega

/-- When its turn comes, a cursor has made one move for each round before. -/
theorem turns_self (n K : Nat) : turns n (K % n) K = K / n := by simp [turns]

/-- Among `N` consecutive numbers, one has the remainder `r`. -/
theorem window_unique {N r : Nat} (hr : r < N) (a : Nat) :
    ∃! k, (a ≤ k ∧ k < a + N) ∧ k % N = r := by
  have hN : 0 < N := by omega
  have ha := Nat.div_add_mod a N
  have hlt := Nat.mod_lt a hN
  have hmod : ∀ q, (N * q + r) % N = r := by
    intro q
    rw [Nat.mul_add_mod, Nat.mod_eq_of_lt hr]
  -- the next number with remainder `r` is in this round or in the one after
  have hex : ∃ k, (a ≤ k ∧ k < a + N) ∧ k % N = r := by
    by_cases hle : a % N ≤ r
    · exact ⟨N * (a / N) + r, by omega, hmod _⟩
    · refine ⟨N * (a / N + 1) + r, ?_, hmod _⟩
      rw [Nat.mul_add]
      omega
  obtain ⟨k, hk, hkr⟩ := hex
  refine ⟨k, ⟨hk, hkr⟩, ?_⟩
  rintro l ⟨hl, hlr⟩
  have hkl : (k - l) % N = 0 := Nat.sub_mod_eq_zero_of_mod_eq (hkr.trans hlr.symm)
  have hlk : (l - k) % N = 0 := Nat.sub_mod_eq_zero_of_mod_eq (hlr.trans hkr.symm)
  rw [Nat.mod_eq_of_lt (by omega)] at hkl hlk
  omega

end Cyclic
