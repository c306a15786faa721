import Mathlib.Data.List.Induction
import Mathlib.Tactic.Common

/- Trees of tables in a store. A table has one slot per index and a slot may
   link another table; `tableAt` follows a path of indices from a root. The
   tables form a tree to depth `d` when no two paths of at most `d` steps end
   in the same table (`Tree`), which is so when each is linked by one slot only
   (`tree_of_unshared`). Linking a table that is not in the tree and
   whose own slots are empty adds one path and changes no other
   (`tableAt_link`, `tree_link`); a store that reads alike on the tables above
   depth `d` has the same tree (`tableAt_agree`). -/
namespace Radix

variable {T I : Type}

/-- What each slot of each table links. -/
abbrev Links (T I : Type) := T → I → Option T

def tableAt (L : Links T I) : T → List I → Option T
  | t, [] => some t
  | t, i :: p => (L t i).bind (fun u => tableAt L u p)

/-- How many tables a path lacks. -/
def missing (L : Links T I) : T → List I → Nat
  | _, [] => 0
  | t, i :: p => match L t i with
    | none => p.length + 1
    | some u => missing L u p

/-- No table is reached by two paths of at most `d` steps. -/
def Tree (L : Links T I) (root : T) (d : Nat) : Prop :=
  ∀ p q t, p.length ≤ d → q.length ≤ d → tableAt L root p = some t → tableAt L root q = some t → p = q

/-- No table is linked by two slots of the tables above depth `d`, and the root
    by none. -/
structure Unshared (L : Links T I) (root : T) (d : Nat) : Prop where
  top : ∀ p t i, p.length < d → tableAt L root p = some t → L t i ≠ some root
  slot : ∀ p q t u i j f, p.length < d → q.length < d → tableAt L root p = some t →
    tableAt L root q = some u → L t i = some f → L u j = some f → t = u ∧ i = j

/-- `f` is not one of the tables to depth `d`. -/
def Outside (L : Links T I) (root : T) (d : Nat) (f : T) : Prop :=
  ∀ p, p.length ≤ d → tableAt L root p ≠ some f

theorem tableAt_snoc (L : Links T I) (p : List I) (i : I) : ∀ t,
    tableAt L t (p ++ [i]) = (tableAt L t p).bind (fun u => L u i) := by
  induction p with
  | nil =>
    intro t
    simp only [List.nil_append, tableAt, Option.bind_some, Option.bind_fun_some]
  | cons j p ih =>
    intro t
    simp only [List.cons_append, tableAt, Option.bind_assoc, ih]

theorem missing_none {L : Links T I} {t : T} {i : I} (h : L t i = none) (p : List I) :
    missing L t (i :: p) = p.length + 1 := by
  simp only [missing, h]

theorem missing_some {L : Links T I} {t u : T} {i : I} (h : L t i = some u) (p : List I) :
    missing L t (i :: p) = missing L u p := by
  simp only [missing, h]

/-- A table whose slots are all empty lacks the whole of every path. -/
theorem missing_blank {L : Links T I} {t : T} (h : ∀ i, L t i = none) (p : List I) :
    missing L t p = p.length := by
  cases p with
  | nil => rfl
  | cons i p => exact missing_none (h i) p

theorem missing_le (L : Links T I) (p : List I) : ∀ t, missing L t p ≤ p.length := by
  induction p with
  | nil => exact fun _ => Nat.le_refl 0
  | cons i p ih =>
    intro t
    rw [missing]
    split
    · exact Nat.le_refl _
    · next u _ => exact Nat.le_succ_of_le (ih u)

/-- From a root whose slots are all empty only the root is reached. -/
theorem tableAt_blank {L : Links T I} {root t : T} (h : ∀ i, L root i = none) {p : List I}
    (ht : tableAt L root p = some t) : p = [] ∧ root = t := by
  cases p with
  | nil => exact ⟨rfl, Option.some.inj ht⟩
  | cons i p => simp [tableAt, h i] at ht

/-- A table that no slot links and that is not the root is outside. -/
theorem outside_unlinked {L : Links T I} {root f : T} (hroot : root ≠ f) (h : ∀ t i, L t i ≠ some f)
    (d : Nat) : Outside L root d f := by
  intro p
  induction p using List.reverseRecOn with
  | nil =>
    intro _ hf
    exact hroot (Option.some.inj hf)
  | append_singleton p i _ =>
    intro _ hf
    rw [tableAt_snoc] at hf
    obtain ⟨t, -, ht⟩ := Option.bind_eq_some_iff.mp hf
    exact h t i ht

/-- Stores that read alike on every table above depth `d` lead to the same
    tables to depth `d`. -/
theorem tableAt_agree {L L' : Links T I} {root : T} {d : Nat}
    (h : ∀ p t i, p.length < d → tableAt L root p = some t → L' t i = L t i) :
    ∀ p : List I, p.length ≤ d → tableAt L' root p = tableAt L root p := by
  intro p
  induction p using List.reverseRecOn with
  | nil => intro _; rfl
  | append_singleton p i ih =>
    intro hlen
    rw [List.length_append, List.length_singleton] at hlen
    rw [tableAt_snoc, tableAt_snoc, ih (by omega)]
    cases ht : tableAt L root p with
    | none => rfl
    | some t => exact h p t i (by omega) ht

theorem tree_blank {L : Links T I} {root : T} (h : ∀ i, L root i = none) (d : Nat) : Tree L root d := by
  intro p q t _ _ hp hq
  rw [(tableAt_blank h hp).1, (tableAt_blank h hq).1]

/-- Tables linked by one slot each form a tree. -/
theorem tree_of_unshared {L : Links T I} {root : T} {d : Nat} (h : Unshared L root d) :
    Tree L root d := by
  intro p
  induction p using List.reverseRecOn with
  | nil =>
    intro q t _ hq hpt hqt
    obtain rfl := Option.some.inj hpt
    cases q using List.reverseRecOn with
    | nil => rfl
    | append_singleton q j =>
      rw [tableAt_snoc] at hqt
      obtain ⟨u, hu, hlink⟩ := Option.bind_eq_some_iff.mp hqt
      rw [List.length_append, List.length_singleton] at hq
      exact absurd hlink (h.top q u j (by omega) hu)
  | append_singleton p i ih =>
    intro q t hp hq hpt hqt
    rw [tableAt_snoc] at hpt
    obtain ⟨u, hu, hlink⟩ := Option.bind_eq_some_iff.mp hpt
    rw [List.length_append, List.length_singleton] at hp
    cases q using List.reverseRecOn with
    | nil =>
      obtain rfl := Option.some.inj hqt
      exact absurd hlink (h.top p u i (by omega) hu)
    | append_singleton q j =>
      -- the two paths end in one slot, so they lead to one table above it
      rw [tableAt_snoc] at hqt
      obtain ⟨u', hu', hlink'⟩ := Option.bind_eq_some_iff.mp hqt
      rw [List.length_append, List.length_singleton] at hq
      obtain ⟨rfl, rfl⟩ := h.slot p q u u' i j t (by omega) (by omega) hu hu' hlink hlink'
      rw [ih q u (by omega) (by omega) hu hu']

theorem unshared_of_tree {L : Links T I} {root : T} {d : Nat} (h : Tree L root d) :
    Unshared L root d := by
  have hend : ∀ {p t i f}, tableAt L root p = some t → L t i = some f →
      tableAt L root (p ++ [i]) = some f := by
    intro p t i f ht hlink
    rw [tableAt_snoc, ht]
    exact hlink
  have hlen : ∀ {p : List I} {i : I}, p.length < d → (p ++ [i]).length ≤ d := by
    intro p i hp
    rw [List.length_append, List.length_singleton]
    exact hp
  refine ⟨?_, ?_⟩
  · intro p t i hp ht hlink
    have hnil := h (p ++ [i]) [] root (hlen hp) (Nat.zero_le d) (hend ht hlink) rfl
    simp at hnil
  · intro p q t u i j f hp hq ht hu hi hj
    have hpq := h (p ++ [i]) (q ++ [j]) f (hlen hp) (hlen hq) (hend ht hi) (hend hu hj)
    obtain ⟨rfl, hij⟩ := List.append_inj' hpq rfl
    rw [ht] at hu
    exact ⟨Option.some.inj hu, List.singleton_inj.mp hij⟩

theorem tree_agree {L L' : Links T I} {root : T} {d : Nat} (htree : Tree L root d)
    (h : ∀ p : List I, p.length ≤ d → tableAt L' root p = tableAt L root p) : Tree L' root d := by
  intro p q t hp hq hpt hqt
  rw [h p hp] at hpt
  rw [h q hq] at hqt
  exact htree p q t hp hq hpt hqt

/-- The table `f` may be linked in the slot `i` of the table `t` at the end of
    the path `p`: the slot is empty, `f` is not in the tree, and where `f` is
    to hold links itself its slots are empty. -/
structure Linkable (L : Links T I) (root : T) (d : Nat) (p : List I) (t : T) (i : I) (f : T) :
    Prop where
  tree : Tree L root d
  depth : p.length < d
  here : tableAt L root p = some t
  empty : L t i = none
  outside : Outside L root d f
  blank : p.length + 1 < d → ∀ j, L f j = none

section
variable {L : Links T I} {root t f : T} {d : Nat} {p : List I} {i : I}

theorem Linkable.ne (h : Linkable L root d p t i f) : f ≠ t := by
  intro hft
  exact h.outside p (Nat.le_of_lt h.depth) (hft ▸ h.here)

/-- The path to the new table ended before it was linked. -/
theorem Linkable.path_empty (h : Linkable L root d p t i f) : tableAt L root (p ++ [i]) = none := by
  rw [tableAt_snoc, h.here]
  exact h.empty

/-- A path through another table does not end in the new one. -/
theorem Linkable.snoc_ne (h : Linkable L root d p t i f) {r : List I} {j : I}
    (hr : tableAt L root r ≠ some t) : ¬ r ++ [j] = p ++ [i] := by
  intro heq
  rw [List.append_inj_left' heq rfl] at hr
  exact hr h.here

variable [DecidableEq T] [DecidableEq I]

def link (L : Links T I) (t : T) (i : I) (f : T) : Links T I := fun u j =>
  if u = t ∧ j = i then some f else L u j

theorem tableAt_link (h : Linkable L root d p t i f) : ∀ q : List I, q.length ≤ d →
    tableAt (link L t i f) root q = if q = p ++ [i] then some f else tableAt L root q := by
  intro q
  induction q using List.reverseRecOn with
  | nil =>
    intro _
    rw [if_neg (by simp)]
    rfl
  | append_singleton r j ih =>
    intro hlen
    rw [List.length_append, List.length_singleton] at hlen
    rw [tableAt_snoc, ih (by omega)]
    by_cases hr : r = p ++ [i]
    · -- through the new table, whose slots are empty
      subst hr
      rw [List.length_append, List.length_singleton] at hlen
      have hnone : tableAt L root (p ++ [i] ++ [j]) = none := by
        rw [tableAt_snoc, h.path_empty]
        rfl
      rw [if_pos rfl, if_neg (by simp), hnone, Option.bind_some]
      simp only [link, h.ne, false_and, if_false]
      exact h.blank (by omega) j
    · rw [if_neg hr, tableAt_snoc]
      cases hu : tableAt L root r with
      | none =>
        have hrp : ¬ r ++ [j] = p ++ [i] := h.snoc_ne (by simp [hu])
        simp only [Option.bind_none, hrp, if_false]
      | some u =>
        simp only [Option.bind_some, link]
        by_cases hut : u = t
        · -- `t` is at the end of one path only
          have hrp : r = p := h.tree r p t (by omega) (Nat.le_of_lt h.depth) (hut ▸ hu) h.here
          simp only [hut, hrp, true_and, List.append_cancel_left_eq, List.cons.injEq, and_true]
        · have hrp : ¬ r ++ [j] = p ++ [i] := h.snoc_ne (by simp [hu, hut])
          simp only [hut, hrp, false_and, if_false]

theorem tableAt_link_self (h : Linkable L root d p t i f) :
    tableAt (link L t i f) root (p ++ [i]) = some f := by
  have hlen : (p ++ [i]).length ≤ d := by
    rw [List.length_append, List.length_singleton]
    exact h.depth
  rw [tableAt_link h _ hlen, if_pos rfl]

theorem tree_link (h : Linkable L root d p t i f) : Tree (link L t i f) root d := by
  intro q r u hq hr hqu hru
  rw [tableAt_link h q hq] at hqu
  rw [tableAt_link h r hr] at hru
  -- the new table was outside the tree, so only its own path leads to it
  by_cases hqp : q = p ++ [i]
  · by_cases hrp : r = p ++ [i]
    · rw [hqp, hrp]
    · rw [if_pos hqp] at hqu
      rw [if_neg hrp, ← hqu] at hru
      exact absurd hru (h.outside r hr)
  · by_cases hrp : r = p ++ [i]
    · rw [if_pos hrp] at hru
      rw [if_neg hqp, ← hru] at hqu
      exact absurd hqu (h.outside q hq)
    · rw [if_neg hqp] at hqu
      rw [if_neg hrp] at hru
      exact h.tree q r u hq hr hqu hru

/-- A table outside the tree stays outside when another one is linked. -/
theorem outside_link (h : Linkable L root d p t i f) {g : T} (hg : Outside L root d g) (hgf : g ≠ f) :
    Outside (link L t i f) root d g := by
  intro q hq
  rw [tableAt_link h q hq]
  by_cases hqp : q = p ++ [i]
  · rw [if_pos hqp]
    exact fun heq => hgf (Option.some.inj heq).symm
  · rw [if_neg hqp]
    exact hg q hq

end

end Radix
