import Mathlib.Data.Set.Card
import Mathlib.Logic.Function.Basic
import Mathlib.Tactic.Common

/- Hash tables with linear probing whose chains have at most `bound` slots. A
   table is a list of slots, and what it stands for is the finite map `contents`.
   `Placed` is the invariant of such tables: every key lies on its own chain, and
   lies there once. Free slots may stand anywhere, so a key that is removed
   leaves no mark behind, and a search has to look at its whole chain. -/
namespace Probing

variable {K V : Type}

/-- `j` is one of the `bound` slots from `home` on, in a table of `n`. -/
def InChain (bound n home j : Nat) : Prop := ∃ i < bound, j = (home + i) % n

structure Placed (bound : Nat) (home : K → Nat) (t : List (Option (K × V))) : Prop where
  near : ∀ (j : Nat) (k : K) (v : V), t[j]? = some (some (k, v)) → InChain bound t.length (home k) j
  once : ∀ (i j : Nat) (k : K) (v v' : V), t[i]? = some (some (k, v)) → t[j]? = some (some (k, v')) → i = j

/-- The number of slots in use. -/
def used (t : List (Option (K × V))) : Nat := t.countP Option.isSome

/-- The keys of the slots in use, in the order of the slots. -/
def keys (t : List (Option (K × V))) : List K := t.filterMap (·.map Prod.fst)

section
variable [DecidableEq K]

/-- The value of a key. -/
def contents (t : List (Option (K × V))) (key : K) : Option V :=
  t.findSome? (fun slot => slot.bind (fun e => if e.1 = key then some e.2 else none))

/-- A slot that `key` can be written to: its own, or a free one when it has none. -/
def Spot (t : List (Option (K × V))) (key : K) (j : Nat) : Prop :=
  (t[j]? = some none ∧ contents t key = none) ∨ ∃ v, t[j]? = some (some (key, v))

theorem slot_bind {slot : Option (K × V)} {key : K} {v : V} :
    slot.bind (fun e => if e.1 = key then some e.2 else none) = some v ↔ slot = some (key, v) := by
  cases slot with
  | none => simp
  | some e =>
    obtain ⟨k, w⟩ := e
    simp only [Option.bind_some, Option.some.injEq, Prod.mk.injEq]
    by_cases hk : k = key
    · simp [hk]
    · simp [hk]

end

theorem getElem?_set_cases {α : Type} {l : List α} {j i : Nat} {x y : α} (h : (l.set j x)[i]? = some y) :
    (i = j ∧ y = x) ∨ (i ≠ j ∧ l[i]? = some y) := by
  by_cases hij : j = i
  · rw [List.getElem?_set, if_pos hij] at h
    split at h
    · exact .inl ⟨hij.symm, (Option.some.inj h).symm⟩
    · cases h
  · rw [List.getElem?_set_ne hij] at h
    exact .inr ⟨fun heq => hij heq.symm, h⟩

section
variable [DecidableEq K] {bound j n : Nat} {home : K → Nat} {t : List (Option (K × V))} {key k : K} {v w : V}

theorem contents_eq_none : contents t key = none ↔ ∀ (j : Nat) (v : V), t[j]? ≠ some (some (key, v)) := by
  rw [contents, List.findSome?_eq_none_iff]
  refine ⟨?_, ?_⟩
  · intro h j v hj
    have hnone := h _ (List.mem_of_getElem? hj)
    rw [slot_bind.mpr rfl] at hnone
    cases hnone
  · intro h slot hslot
    obtain ⟨j, hj⟩ := List.getElem?_of_mem hslot
    cases hbind : slot.bind (fun e => if e.1 = key then some e.2 else none) with
    | none => rfl
    | some v => exact absurd (slot_bind.mp hbind ▸ hj) (h j v)

theorem exists_of_contents (h : contents t key = some v) : ∃ j : Nat, t[j]? = some (some (key, v)) := by
  obtain ⟨slot, hslot, hbind⟩ := List.exists_of_findSome?_eq_some h
  obtain ⟨j, hj⟩ := List.getElem?_of_mem hslot
  exact ⟨j, slot_bind.mp hbind ▸ hj⟩

theorem Placed.contents_of_slot (h : Placed bound home t) (hj : t[j]? = some (some (key, v))) :
    contents t key = some v := by
  cases hc : contents t key with
  | none => exact absurd hj (contents_eq_none.mp hc j v)
  | some w =>
    obtain ⟨i, hi⟩ := exists_of_contents hc
    obtain rfl := h.once i j key w v hi hj
    rw [hi, Option.some.injEq, Option.some.injEq, Prod.mk.injEq] at hj
    rw [hj.2]

theorem Placed.contents_iff (h : Placed bound home t) :
    contents t key = some v ↔ ∃ j : Nat, t[j]? = some (some (key, v)) :=
  ⟨exists_of_contents, fun ⟨_, hj⟩ => h.contents_of_slot hj⟩

/-- Two tables with the same slots for a key give it the same value. -/
theorem Placed.contents_congr {t' : List (Option (K × V))} (h : Placed bound home t) (h' : Placed bound home t')
    (hsame : ∀ v, (∃ j : Nat, t[j]? = some (some (key, v))) ↔ ∃ j : Nat, t'[j]? = some (some (key, v))) :
    contents t key = contents t' key := by
  apply Option.ext
  intro v
  rw [h.contents_iff, h'.contents_iff, hsame]

/-! A table of free slots. -/

omit [DecidableEq K] in
theorem placed_replicate (bound : Nat) (home : K → Nat) (n : Nat) :
    Placed bound home (List.replicate n (none : Option (K × V))) := by
  refine ⟨?_, ?_⟩
  · intro j k v hj
    cases List.eq_of_mem_replicate (List.mem_of_getElem? hj)
  · intro i j k v v' hi
    cases List.eq_of_mem_replicate (List.mem_of_getElem? hi)

theorem contents_replicate (n : Nat) : contents (List.replicate n (none : Option (K × V))) key = none := by
  rw [contents_eq_none]
  intro j v hj
  cases List.eq_of_mem_replicate (List.mem_of_getElem? hj)

omit [DecidableEq K] in
theorem used_replicate (n : Nat) : used (List.replicate n (none : Option (K × V))) = 0 := by
  rw [used, List.countP_eq_zero]
  intro slot hslot
  rw [List.eq_of_mem_replicate hslot]
  exact Bool.false_ne_true

/-! Writing and clearing a slot. -/

theorem Spot.lt (h : Spot t key j) : j < t.length := by
  rcases h with ⟨hj, -⟩ | ⟨v, hj⟩
  · exact (List.getElem?_eq_some_iff.mp hj).1
  · exact (List.getElem?_eq_some_iff.mp hj).1

/-- Every slot that holds the key is the one that is written. -/
theorem Placed.spot_only (h : Placed bound home t) (hspot : Spot t key j) {i : Nat}
    (hi : t[i]? = some (some (key, w))) : i = j := by
  rcases hspot with ⟨-, hnone⟩ | ⟨v, hj⟩
  · exact absurd hi (contents_eq_none.mp hnone i w)
  · exact h.once i j key w v hi hj

/-- A slot that holds another key is not the one that is written. -/
theorem Spot.ne (hspot : Spot t key j) {i : Nat} (hne : k ≠ key) (hi : t[i]? = some (some (k, w))) : i ≠ j := by
  rintro rfl
  rcases hspot with ⟨hj, -⟩ | ⟨v, hj⟩
  · rw [hi] at hj
    cases hj
  · rw [hi, Option.some.injEq, Option.some.injEq, Prod.mk.injEq] at hj
    exact hne hj.1

theorem Placed.put (h : Placed bound home t) (hspot : Spot t key j)
    (hchain : InChain bound t.length (home key) j) : Placed bound home (t.set j (some (key, v))) := by
  refine ⟨?_, ?_⟩
  · intro i k w hi
    rw [List.length_set]
    rcases getElem?_set_cases hi with ⟨rfl, heq⟩ | ⟨-, hold⟩
    · rw [Option.some.injEq, Prod.mk.injEq] at heq
      rw [heq.1]
      exact hchain
    · exact h.near i k w hold
  · intro i i' k w w' hi hi'
    rcases getElem?_set_cases hi with ⟨rfl, heq⟩ | ⟨hne, hold⟩
    · rw [Option.some.injEq, Prod.mk.injEq] at heq
      rcases getElem?_set_cases hi' with ⟨rfl, -⟩ | ⟨-, hold'⟩
      · rfl
      · exact (h.spot_only hspot (heq.1 ▸ hold')).symm
    · rcases getElem?_set_cases hi' with ⟨rfl, heq⟩ | ⟨-, hold'⟩
      · rw [Option.some.injEq, Prod.mk.injEq] at heq
        exact h.spot_only hspot (heq.1 ▸ hold)
      · exact h.once i i' k w w' hold hold'

theorem Placed.contents_put (h : Placed bound home t) (hspot : Spot t key j)
    (hchain : InChain bound t.length (home key) j) :
    contents (t.set j (some (key, v))) = Function.update (contents t) key (some v) := by
  have hput : Placed bound home (t.set j (some (key, v))) := h.put hspot hchain
  funext k
  by_cases hk : k = key
  · rw [hk, Function.update_self]
    exact hput.contents_of_slot (List.getElem?_set_self hspot.lt)
  · rw [Function.update_of_ne hk]
    apply hput.contents_congr h
    intro w
    refine ⟨?_, ?_⟩
    · rintro ⟨i, hi⟩
      rcases getElem?_set_cases hi with ⟨-, heq⟩ | ⟨-, hold⟩
      · rw [Option.some.injEq, Prod.mk.injEq] at heq
        exact absurd heq.1 hk
      · exact ⟨i, hold⟩
    · rintro ⟨i, hi⟩
      refine ⟨i, ?_⟩
      rw [List.getElem?_set_ne (fun heq => hspot.ne hk hi heq.symm)]
      exact hi

omit [DecidableEq K] in
theorem Placed.clear (h : Placed bound home t) (j : Nat) : Placed bound home (t.set j none) := by
  have hold : ∀ (i : Nat) (k : K) (w : V), (t.set j none)[i]? = some (some (k, w)) → t[i]? = some (some (k, w)) := by
    intro i k w hi
    rcases getElem?_set_cases hi with ⟨-, heq⟩ | ⟨-, hold⟩
    · cases heq
    · exact hold
  refine ⟨?_, ?_⟩
  · intro i k w hi
    rw [List.length_set]
    exact h.near i k w (hold i k w hi)
  · intro i i' k w w' hi hi'
    exact h.once i i' k w w' (hold i k w hi) (hold i' k w' hi')

theorem Placed.contents_clear (h : Placed bound home t) (hj : t[j]? = some (some (key, v))) :
    contents (t.set j none) = Function.update (contents t) key none := by
  have hspot : Spot t key j := .inr ⟨v, hj⟩
  funext k
  by_cases hk : k = key
  · rw [hk, Function.update_self, contents_eq_none]
    intro i w hi
    rcases getElem?_set_cases hi with ⟨-, heq⟩ | ⟨hne, hold⟩
    · cases heq
    · exact hne (h.spot_only hspot hold)
  · rw [Function.update_of_ne hk]
    apply (h.clear j).contents_congr h
    intro w
    refine ⟨?_, ?_⟩
    · rintro ⟨i, hi⟩
      rcases getElem?_set_cases hi with ⟨-, heq⟩ | ⟨-, hold⟩
      · cases heq
      · exact ⟨i, hold⟩
    · rintro ⟨i, hi⟩
      refine ⟨i, ?_⟩
      rw [List.getElem?_set_ne (fun heq => hspot.ne hk hi heq.symm)]
      exact hi

omit [DecidableEq K] in
/-- What a write changes in the number of used slots. -/
theorem used_set {slot : Option (K × V)} (hj : t[j]? = some slot) (new : Option (K × V)) :
    used (t.set j new) + slot.isSome.toNat = used t + new.isSome.toNat := by
  obtain ⟨hlt, hget⟩ := List.getElem?_eq_some_iff.mp hj
  have hset : t.set j new = t.take j ++ new :: t.drop (j + 1) := List.set_eq_take_append_cons_drop.trans (if_pos hlt)
  have hold : t = t.take j ++ slot :: t.drop (j + 1) := by
    rw [← hget, List.getElem_cons_drop, List.take_append_drop]
  have hcount : ∀ x : Option (K × V), used (t.take j ++ x :: t.drop (j + 1)) =
      used (t.take j) + used (t.drop (j + 1)) + x.isSome.toNat := by
    intro x
    rw [used, List.countP_append, List.countP_cons, used, used]
    cases x with
    | none => simp
    | some e => simp [Nat.add_assoc]
  have hused := hcount slot
  rw [← hold] at hused
  rw [hset, hcount, hused]
  omega

/-! How many keys there are. -/

omit [DecidableEq K] in
theorem length_keys : (keys t).length = used t := by
  rw [keys, used, List.length_filterMap_eq_countP]
  apply List.countP_congr
  intro slot _
  cases slot <;> simp

theorem mem_keys : key ∈ keys t ↔ contents t key ≠ none := by
  rw [keys, List.mem_filterMap, ne_eq, contents_eq_none]
  refine ⟨?_, ?_⟩
  · rintro ⟨slot, hslot, hkey⟩ hnone
    obtain ⟨⟨k, v⟩, rfl, rfl⟩ := Option.map_eq_some_iff.mp hkey
    obtain ⟨j, hj⟩ := List.getElem?_of_mem hslot
    exact hnone j v hj
  · intro h
    simp only [ne_eq, not_forall, not_not] at h
    obtain ⟨j, v, hj⟩ := h
    exact ⟨_, List.mem_of_getElem? hj, rfl⟩

omit [DecidableEq K] in
theorem Placed.nodup_keys (h : Placed bound home t) : (keys t).Nodup := by
  rw [List.Nodup, keys, List.pairwise_filterMap, List.pairwise_iff_getElem]
  intro i j hi hj hij k hk k' hk' heq
  obtain ⟨⟨a, v⟩, ha, rfl⟩ := Option.map_eq_some_iff.mp hk
  obtain ⟨⟨b, w⟩, hb, rfl⟩ := Option.map_eq_some_iff.mp hk'
  have heq : a = b := heq
  subst heq
  have hsame := h.once i j a v w (List.getElem?_eq_some_iff.mpr ⟨hi, ha⟩) (List.getElem?_eq_some_iff.mpr ⟨hj, hb⟩)
  omega

/-- There are as many used slots as keys. -/
theorem Placed.used_eq_ncard (h : Placed bound home t) : used t = {k | contents t k ≠ none}.ncard := by
  have hset : {k | contents t k ≠ none} = ((keys t).toFinset : Set K) := by
    ext k
    rw [Set.mem_ofPred_eq, List.coe_toFinset, Set.mem_ofPred_eq, mem_keys]
  rw [hset, Set.ncard_coe_finset, List.toFinset_card_of_nodup h.nodup_keys, length_keys]

/-- No more keys can have their homes in one place than a chain has slots. -/
theorem Placed.chain_full (h : Placed bound home t) {ks : List K} (hnodup : ks.Nodup) (place : Nat)
    (hhome : ∀ k ∈ ks, home k = place) (hheld : ∀ k ∈ ks, contents t k ≠ none) : ks.length ≤ bound := by
  have hoffset : ∀ k, k ∈ ks → ∃ i < bound, ∃ v, t[(place + i) % t.length]? = some (some (k, v)) := by
    intro k hk
    obtain ⟨v, hv⟩ := Option.ne_none_iff_exists'.mp (hheld k hk)
    obtain ⟨j, hj⟩ := exists_of_contents hv
    obtain ⟨i, hi, rfl⟩ := h.near j k v hj
    exact ⟨i, hi, v, hhome k hk ▸ hj⟩
  choose! offset hlt value hat using hoffset
  rw [← List.toFinset_card_of_nodup hnodup, ← Finset.card_range bound]
  apply Finset.card_le_card_of_injOn offset
  · intro k hk
    rw [Finset.mem_coe, List.mem_toFinset] at hk
    exact Finset.mem_coe.mpr (Finset.mem_range.mpr (hlt k hk))
  · intro k hk k' hk' heq
    rw [Finset.mem_coe, List.mem_toFinset] at hk hk'
    have hslot := hat k hk
    rw [heq, hat k' hk', Option.some.injEq, Option.some.injEq, Prod.mk.injEq] at hslot
    exact hslot.1.symm

end

end Probing
