import Qnixx.HashmapTable

/- `hashmap_put`, its rehashing and the removals. A put that finds no place goes
   through `hashmap_rehash_helper`, which moves the elements one by one into a
   table of twice the size, with puts that may have to rehash themselves. When
   one of these fails, the elements moved so far are in neither table. It fails
   only for want of a larger table, so the specification follows the allocator. -/
namespace Qnixx
open Probing

variable {A C P V : Type} {text : P → Nat → Byte}

section
variable {m : HashmapS P V} {key : P} {len : Nat} {value : V} {j : Nat} {e : HashmapElement P V}

theorem HashmapInv.used_le (h : HashmapInv text m) : used (m.table text) ≤ m.tableSize := h.size ▸ h.size_le

/-- A slot that is free of its element, whatever else is left in it. -/
theorem HashmapInv.blank (h : HashmapInv text m) {k : List Byte} {entry : P × V} (he : m.slots[j]? = some e)
    (hslot : e.slot text = some (k, entry)) (free : HashmapElement P V) (hfree : free.inUse = false) :
    let m' : HashmapS P V := { m with slots := m.slots.set j free, size := (m.size + (2^32 - 1)) % 2^32 }
    HashmapInv text m' ∧ m'.table text = (m.table text).set j none ∧
      m'.contents text = Function.update (m.contents text) k none := by
  intro m'
  have hat : (m.table text)[j]? = some (some (k, entry)) := by rw [getElem?_table, he, Option.map_some, hslot]
  have htable : m'.table text = (m.table text).set j none := by
    show (m.slots.set j free).map (HashmapElement.slot text) = _
    rw [List.map_set, slot_eq_none.mpr hfree]
    rfl
  have hused : used (m'.table text) + 1 = used (m.table text) := by
    have hset := used_set hat none
    rw [htable]
    exact hset
  have hle := h.used_le
  have hsmall := h.small
  refine ⟨⟨h.pow, ?_, ?_, ?_⟩, htable, ?_⟩
  · show (m.slots.set j free).length = m.tableSize
    rw [List.length_set, h.length]
  · show (m.size + (2^32 - 1)) % 2^32 = used (m'.table text)
    rw [h.size]
    omega
  · rw [htable]
    exact h.placed.clear j
  · rw [HashmapS.contents, htable]
    exact h.placed.contents_clear hat

theorem HashmapInv.store (h : HashmapInv text m) (value : V) (he : m.slots[j]? = some e)
    (hspot : Spot (m.table text) (keyBytes text key len) j)
    (hchain : InChain hashmapMaxChainLength m.tableSize (hashmapHome (keyBytes text key len)) j) :
    ∃ m', m.store j key len value = some m' ∧ HashmapInv text m' ∧ m'.tableSize = m.tableSize ∧
      m'.contents text = Function.update (m.contents text) (keyBytes text key len) (some (key, value)) := by
  have hslot : (⟨key, len, true, value⟩ : HashmapElement P V).slot text =
      some (keyBytes text key len, (key, value)) := rfl
  have hchain' : InChain hashmapMaxChainLength (m.table text).length (hashmapHome (keyBytes text key len)) j := by
    rw [h.length_table]
    exact hchain
  have htable : (m.slots.set j ⟨key, len, true, value⟩).map (HashmapElement.slot text) =
      (m.table text).set j (some (keyBytes text key len, (key, value))) := by
    rw [List.map_set, hslot]
    rfl
  have hat : (m.table text)[j]? = some (e.slot text) := by rw [getElem?_table, he, Option.map_some]
  have hused := used_set hat (some (keyBytes text key len, (key, value)))
  have hbound : used ((m.table text).set j (some (keyBytes text key len, (key, value)))) ≤ m.tableSize := by
    rw [← h.length_table, ← List.length_set (i := j) (a := some (keyBytes text key len, (key, value)))]
    exact List.countP_le_length
  have hsmall := h.small
  rw [HashmapS.store, he, Option.bind_eq_bind, Option.bind_some]
  refine ⟨_, rfl, ⟨h.pow, ?_, ?_, ?_⟩, rfl, ?_⟩
  · show (m.slots.set j _).length = m.tableSize
    rw [List.length_set, h.length]
  · show (if e.inUse then m.size else (m.size + 1) % 2^32) = used ((m.slots.set j _).map _)
    rw [htable, h.size]
    cases hin : e.inUse with
    | false =>
      rw [slot_eq_none.mpr hin, Option.isSome_none, Option.isSome_some, Bool.toNat_false, Bool.toNat_true] at hused
      rw [if_neg Bool.false_ne_true]
      omega
    | true =>
      rw [HashmapElement.slot, if_pos hin, Option.isSome_some, Option.isSome_some] at hused
      rw [if_pos rfl]
      omega
  · show Placed _ _ ((m.slots.set j _).map _)
    rw [htable]
    exact h.placed.put hspot hchain'
  · show Probing.contents ((m.slots.set j _).map _) = _
    rw [htable]
    exact h.placed.contents_put hspot hchain'

/-! Larger tables. -/

/-- A request for a table, and whether it was met. -/
structure TableRequest where
  slots : Nat
  given : Bool

/-- Calls of the allocator from one state to another, with the tables that were
    asked for. -/
inductive Kalloc.Calls (K : Kalloc A) : A → List TableRequest → A → Prop
  | nil (a : A) : K.Calls a [] a
  | kcalloc {a c : A} (n : Nat) {rs : List TableRequest} : K.Calls (K.kcalloc a n 24).2 rs c →
    K.Calls a (⟨n, (K.kcalloc a n 24).1.isSome⟩ :: rs) c
  | kfree {a c : A} (block : Option Nat) {rs : List TableRequest} : K.Calls (K.kfree a block) rs c → K.Calls a rs c

theorem Kalloc.Calls.append {K : Kalloc A} {a b c : A} {rs rs' : List TableRequest} (h : K.Calls a rs b)
    (h' : K.Calls b rs' c) : K.Calls a (rs ++ rs') c := by
  induction h with
  | nil a => exact h'
  | kcalloc n _ ih => exact .kcalloc n (ih h')
  | kfree block _ ih => exact .kfree block (ih h')

/-- A table of `n` slots has become one of `n'`: all requests were for larger
    ones, and it has the same size or was given. -/
structure Grown (n : Nat) (rs : List TableRequest) (n' : Nat) : Prop where
  le : n ≤ n'
  larger : ∀ r ∈ rs, n < r.slots
  given : n' = n ∨ ⟨n', true⟩ ∈ rs

/-- A request was refused, or there is a table of `2^31` slots, whose size cannot
    be doubled in 32 bits. -/
def OutOfTables (n : Nat) (rs : List TableRequest) : Prop :=
  (∃ r ∈ rs, r.given = false) ∨ n = 2^31 ∨ ⟨2^31, true⟩ ∈ rs

section
variable {n n' n'' : Nat} {rs rs' : List TableRequest}

theorem Grown.nil (n : Nat) : Grown n [] n := ⟨Nat.le_refl n, fun _ hr => absurd hr List.not_mem_nil, .inl rfl⟩

theorem Grown.trans (h : Grown n rs n') (h' : Grown n' rs' n'') : Grown n (rs ++ rs') n'' := by
  refine ⟨Nat.le_trans h.le h'.le, ?_, ?_⟩
  · intro r hr
    rcases List.mem_append.mp hr with hr | hr
    · exact h.larger r hr
    · exact Nat.lt_of_le_of_lt h.le (h'.larger r hr)
  · rcases h'.given with rfl | hgiven
    · exact h.given.imp_right (List.mem_append_left rs')
    · exact .inr (List.mem_append_right rs hgiven)

/-- The larger tables are dropped. -/
theorem Grown.dropped (h : Grown n rs n') : Grown n rs n := ⟨Nat.le_refl n, h.larger, .inl rfl⟩

theorem Grown.given_one (hlt : n < n') : Grown n [⟨n', true⟩] n' := by
  refine ⟨Nat.le_of_lt hlt, ?_, .inr List.mem_cons_self⟩
  intro r hr
  rw [List.mem_singleton.mp hr]
  exact hlt

theorem Grown.refused_one (hlt : n < n') : Grown n [⟨n', false⟩] n := by
  refine ⟨Nat.le_refl n, ?_, .inl rfl⟩
  intro r hr
  rw [List.mem_singleton.mp hr]
  exact hlt

/-- Where a larger table cannot be enlarged, the smaller one cannot either. -/
theorem OutOfTables.of_grown (hout : OutOfTables n' rs') (h : Grown n rs n') : OutOfTables n (rs ++ rs') := by
  rcases hout with ⟨r, hr, hrefused⟩ | rfl | hgiven
  · exact .inl ⟨r, List.mem_append_right rs hr, hrefused⟩
  · rcases h.given with hsame | hgiven
    · exact .inr (.inl hsame.symm)
    · exact .inr (.inr (List.mem_append_left rs' hgiven))
  · exact .inr (.inr (List.mem_append_right rs hgiven))

end

/-! What the calls do. -/

/-- What is left of a map that lost entries. -/
def LeftOf (before after : List Byte → Option (P × V)) : Prop := ∀ k, after k = before k ∨ after k = none

theorem LeftOf.refl (f : List Byte → Option (P × V)) : LeftOf f f := fun _ => .inl rfl

/-- A put: on success the key has the value, on failure nothing new is there.
    It fails only when the key finds no place and no larger table is to be had. -/
structure PutDone (text : P → Nat → Byte) (m : HashmapS P V) (k : List Byte) (entry : P × V) (ret : Nat)
    (m' : HashmapS P V) (rs : List TableRequest) : Prop where
  inv : HashmapInv text m'
  grown : Grown m.tableSize rs m'.tableSize
  outcome : (ret = 0 ∧ m'.contents text = Function.update (m.contents text) k (some entry)) ∨
    (ret = 1 ∧ LeftOf (m.contents text) (m'.contents text))
  refused : ret = 1 → Crowded text m k ∧ OutOfTables m.tableSize rs

/-- A put does what it should on tables of at least `n` slots. -/
def PutOk (text : P → Nat → Byte) (K : Kalloc A)
    (put : HashmapS P V → P → Nat → V → A → Option (Nat × HashmapS P V × A)) (n : Nat) : Prop :=
  ∀ m key len value a, HashmapInv text m → n ≤ m.tableSize →
    ∃ ret m' a' rs, put m key len value a = some (ret, m', a') ∧ K.Calls a rs a' ∧
      PutDone text m (keyBytes text key len) (key, value) ret m' rs

/-- How the loop of `hashmap_rehash_helper` ends, over a map `σ` that the two
    tables share: all of it is in the new one, or what is left is in the old one
    and something is lost. -/
def Moved (text : P → Nat → Byte) (σ : List Byte → Option (P × V)) (m new : HashmapS P V) (ret : Nat)
    (m' new' : HashmapS P V) : Prop :=
  (ret = 0 ∧ HashmapInv text new' ∧ new.tableSize ≤ new'.tableSize ∧ new'.contents text = σ) ∨
  (ret = 1 ∧ HashmapInv text m' ∧ m'.tableSize = m.tableSize ∧ LeftOf σ (m'.contents text) ∧
    ∃ k, σ k ≠ none ∧ m'.contents text k = none)

/-- The old table and the new one share the map `σ`, up to slot `i`. -/
structure Sharing (text : P → Nat → Byte) (σ : List Byte → Option (P × V)) (n i : Nat) (m new : HashmapS P V) :
    Prop where
  source : HashmapInv text m
  target : HashmapInv text new
  large : n ≤ new.tableSize
  cleared : ∀ j < i, (m.table text)[j]? = some none
  union : ∀ k, σ k = (new.contents text k).or (m.contents text k)
  apart : ∀ k, m.contents text k ≠ none → new.contents text k = none

section
variable {put : HashmapS P V → P → Nat → V → A → Option (Nat × HashmapS P V × A)} {n i : Nat}
  {σ : List Byte → Option (P × V)} {new : HashmapS P V}

theorem Sharing.all_moved (h : Sharing text σ n m.tableSize m new) : new.contents text = σ := by
  funext k
  have hnone : m.contents text k = none := by
    rw [HashmapS.contents, contents_eq_none]
    intro j entry hj
    have hlt := (List.getElem?_eq_some_iff.mp hj).1
    rw [h.source.length_table] at hlt
    rw [h.cleared j hlt] at hj
    cases hj
  rw [h.union k, hnone, Option.or_none]

/-- A free slot is passed over. -/
theorem Sharing.skip (h : Sharing text σ n i m new) (he : m.slots[i]? = some e) (hfree : e.inUse = false) :
    Sharing text σ n (i + 1) m new := by
  refine ⟨h.source, h.target, h.large, ?_, h.union, h.apart⟩
  intro j hj
  rcases Nat.lt_succ_iff_lt_or_eq.mp hj with hlt | rfl
  · exact h.cleared j hlt
  · rw [getElem?_table, he, Option.map_some, slot_eq_none.mpr hfree]

theorem Sharing.left (h : Sharing text σ n i m new) : LeftOf σ (m.contents text) := by
  intro k
  cases hm : m.contents text k with
  | none => exact .inr rfl
  | some entry =>
    refine .inl ?_
    rw [h.union k, h.apart k (by rw [hm]; exact Option.some_ne_none entry), hm]
    rfl

/-- When the new table is not empty, the old one lacks something. -/
theorem Sharing.lost (h : Sharing text σ n i m new) (hne : new.contents text ≠ fun _ => none) :
    ∃ k, σ k ≠ none ∧ m.contents text k = none := by
  obtain ⟨k, hk⟩ := Function.ne_iff.mp hne
  obtain ⟨entry, hentry⟩ := Option.ne_none_iff_exists'.mp hk
  refine ⟨k, ?_, ?_⟩
  · rw [h.union k, hentry]
    exact Option.some_ne_none entry
  · exact Classical.byContradiction (fun hm => hk (h.apart k hm))

variable [Inhabited P] [Inhabited V]

/-- An element is moved. -/
theorem Sharing.move (h : Sharing text σ n i m new) (he : m.slots[i]? = some e) {k : List Byte} {entry : P × V}
    (hslot : e.slot text = some (k, entry)) {new' : HashmapS P V} (hinv : HashmapInv text new')
    (hgrown : new.tableSize ≤ new'.tableSize)
    (hput : new'.contents text = Function.update (new.contents text) k (some entry)) :
    Sharing text σ n (i + 1)
      { m with slots := m.slots.set i .zero, size := (m.size + (2^32 - 1)) % 2^32 } new' := by
  obtain ⟨hold, htable, hcontents⟩ := h.source.blank he hslot .zero rfl
  have hat : (m.table text)[i]? = some (some (k, entry)) := by rw [getElem?_table, he, Option.map_some, hslot]
  have hhere : m.contents text k = some entry := h.source.placed.contents_of_slot hat
  have hnew : new.contents text k = none := h.apart k (by rw [hhere]; exact Option.some_ne_none entry)
  refine ⟨hold, hinv, Nat.le_trans h.large hgrown, ?_, ?_, ?_⟩
  · intro j hj
    rw [htable]
    rcases Nat.lt_succ_iff_lt_or_eq.mp hj with hlt | rfl
    · rw [List.getElem?_set_ne (Nat.ne_of_gt hlt)]
      exact h.cleared j hlt
    · exact List.getElem?_set_self (List.getElem?_eq_some_iff.mp hat).1
  · intro k'
    rw [hcontents, hput, h.union k']
    by_cases hk : k' = k
    · rw [hk, Function.update_self, Function.update_self, hnew, hhere]
      rfl
    · rw [Function.update_of_ne hk, Function.update_of_ne hk]
  · intro k' hne
    rw [hcontents] at hne
    rw [hput]
    by_cases hk : k' = k
    · rw [hk, Function.update_self] at hne
      exact absurd rfl hne
    · rw [Function.update_of_ne hk] at hne ⊢
      exact h.apart k' hne

theorem rehash_loop {K : Kalloc A} (hput : PutOk text K put n) {count : Nat} {a : A}
    (h : Sharing text σ n i m new) (hcount : i + count = m.tableSize) :
    ∃ ret m' new' a' rs,
      iteratePairsLoop (hashmapRehashIterator put) count i m (new, a) = some (ret, m', new', a') ∧
      K.Calls a rs a' ∧ Moved text σ m new ret m' new' ∧ Grown new.tableSize rs new'.tableSize ∧
      (ret = 1 → OutOfTables new.tableSize rs) := by
  induction count generalizing i m new a with
  | zero =>
    rw [Nat.add_zero] at hcount
    subst hcount
    exact ⟨0, m, new, a, [], rfl, .nil a, .inl ⟨rfl, h.target, Nat.le_refl _, h.all_moved⟩, .nil _,
      fun hret => absurd hret (by decide)⟩
  | succ count ih =>
    have hlt : i < m.slots.length := by
      rw [h.source.length]
      omega
    obtain ⟨e, he⟩ : ∃ e, m.slots[i]? = some e := ⟨_, List.getElem?_eq_getElem hlt⟩
    rw [iteratePairsLoop, he, Option.bind_eq_bind, Option.bind_some]
    cases hin : e.inUse with
    | false =>
      rw [if_neg Bool.false_ne_true]
      exact ih (h.skip he hin) (by omega)
    | true =>
      have hslot : e.slot text = some (keyBytes text e.key e.keyLen, (e.key, e.data)) := by
        rw [HashmapElement.slot, if_pos hin]
      obtain ⟨ret, new', a', rs, hrun, hcalls, hdone⟩ := hput new e.key e.keyLen e.data a h.target h.large
      rw [if_pos rfl]
      simp only [hashmapRehashIterator, hrun, Option.bind_eq_bind, Option.bind_some]
      rcases hdone.outcome with ⟨rfl, hcontents⟩ | ⟨rfl, -⟩
      · rw [if_neg (Nat.lt_irrefl 0), if_pos rfl]
        obtain ⟨ret, m', new₂, a₂, rs₂, hloop, hcalls₂, hmoved, hgrown, hout⟩ :=
          ih (a := a') (h.move he hslot hdone.inv hdone.grown.le hcontents)
            (by show i + 1 + count = m.tableSize; omega)
        refine ⟨ret, m', new₂, a₂, rs ++ rs₂, hloop, hcalls.append hcalls₂, ?_, hdone.grown.trans hgrown,
          fun hret => (hout hret).of_grown hdone.grown⟩
        rcases hmoved with ⟨hret, hinv, hle, hall⟩ | hfailed
        · exact .inl ⟨hret, hinv, Nat.le_trans hdone.grown.le hle, hall⟩
        · exact .inr hfailed
      · rw [if_pos Nat.one_pos, if_neg (by decide), if_neg (by decide)]
        obtain ⟨hcrowded, hout⟩ := hdone.refused rfl
        have hlost := h.lost (h.target.ne_empty hcrowded)
        exact ⟨1, m, new', a', rs, rfl, hcalls, .inr ⟨rfl, h.source, rfl, h.left, hlost⟩, hdone.grown,
          fun _ => hout⟩

end

section
variable [Inhabited P] [Inhabited V]

variable (text) in
/-- An empty table. -/
theorem hashmapInv_fresh {n k : Nat} (hn : n = 2^k) (hk : k < 32) (data : Option Nat) :
    let m : HashmapS P V := { tableSize := n, size := 0, data := data, slots := List.replicate n .zero }
    HashmapInv text m ∧ m.contents text = fun _ => none := by
  intro m
  have htable : m.table text = List.replicate n none := List.map_replicate
  refine ⟨⟨⟨k, hk, hn⟩, List.length_replicate, ?_, ?_⟩, ?_⟩
  · rw [htable, used_replicate]
  · rw [htable]
    exact placed_replicate _ _ n
  · funext key
    rw [HashmapS.contents, htable]
    exact contents_replicate n

/-- A table is created empty, or not at all: its size is not a power of two, and
    the allocator is not asked, or the allocator has none. -/
theorem hashmapCreate_cases (K : Kalloc A) (n : Nat) (out : HashmapS P V) (a : A) :
    (∃ k data, n = 2^k ∧ (K.kcalloc a n 24).1 = some data ∧ hashmapCreate K n out a =
      (0, { tableSize := n, size := 0, data := some data, slots := List.replicate n .zero }, (K.kcalloc a n 24).2)) ∨
    ((hashmapCreate K n out a).1 = 1 ∧ (((∀ k, n ≠ 2^k) ∧ (hashmapCreate K n out a).2.2 = a) ∨
      (n ≠ 0 ∧ (K.kcalloc a n 24).1 = none ∧ (hashmapCreate K n out a).2.2 = (K.kcalloc a n 24).2))) := by
  rw [hashmapCreate]
  by_cases hpow : n = 0 ∨ n &&& (n - 1) ≠ 0
  · rw [if_pos hpow]
    refine .inr ⟨rfl, .inl ⟨?_, rfl⟩⟩
    intro k hk
    obtain ⟨hne, hand⟩ := Nat.ne_zero_and_sub_one_eq_zero_iff_isPowerOfTwo.mpr ⟨k, hk⟩
    rcases hpow with hzero | hbits
    · exact hne hzero
    · exact hbits hand
  · rw [not_or, not_not] at hpow
    obtain ⟨k, hk⟩ := Nat.ne_zero_and_sub_one_eq_zero_iff_isPowerOfTwo.mp hpow
    rw [if_neg (by rw [not_or, not_not]; exact hpow)]
    cases hcall : K.kcalloc a n 24 with
    | mk data a' =>
      cases data with
      | none => exact .inr ⟨rfl, .inr ⟨hpow.1, rfl, rfl⟩⟩
      | some data => exact .inl ⟨k, data, hk, rfl, rfl⟩

/-- What `hashmap_rehash_helper` makes of a map. -/
inductive Rehashed (text : P → Nat → Byte) (created : Bool) (m : HashmapS P V) : Nat → HashmapS P V → Prop
  | moved {m' : HashmapS P V} : HashmapInv text m' → 2 * m.tableSize ≤ m'.tableSize →
    m'.contents text = m.contents text → Rehashed text created m 0 m'
  | refused : created = false → Rehashed text created m 1 m
  | lost {m' : HashmapS P V} : created = true → HashmapInv text m' → m'.tableSize = m.tableSize →
    LeftOf (m.contents text) (m'.contents text) →
    (∃ k, m.contents text k ≠ none ∧ m'.contents text k = none) → Rehashed text created m 1 m'

/-- Whether the larger table could be made. -/
def newTableMade (K : Kalloc A) (m : HashmapS P V) (a : A) : Bool :=
  (hashmapCreate K (2 * m.tableSize % 2^32) ({ tableSize := 0, size := 0, data := none, slots := [] } : HashmapS P V)
    a).1 = 0

/-- A power of two is doubled in 32 bits, unless it is the largest. -/
theorem double_of_pow {x k : Nat} (hx : x = 2^k) (hk : k < 32) :
    (2 * x % 2^32 = 2 * x ∧ 2 * x = 2^(k + 1)) ∨ (2 * x % 2^32 = 0 ∧ x = 2^31) := by
  have hdouble : 2 * x = 2^(k + 1) := by rw [hx, Nat.pow_succ, Nat.mul_comm]
  rcases Nat.lt_or_ge (k + 1) 32 with hlt | hge
  · exact .inl ⟨by rw [hdouble, Nat.mod_eq_of_lt (Nat.pow_lt_pow_right (by decide) hlt)], hdouble⟩
  · obtain rfl : k = 31 := by omega
    exact .inr ⟨by rw [hdouble, Nat.mod_self], hx⟩

/-- A doubled table that cannot be made: it would be too large, or it is refused. -/
theorem double_failed {K : Kalloc A} {x k : Nat} {out : HashmapS P V} {a : A} (hx : x = 2^k) (hk : k < 32)
    (h : ((∀ k', 2 * x % 2^32 ≠ 2^k') ∧ (hashmapCreate K (2 * x % 2^32) out a).2.2 = a) ∨
      (2 * x % 2^32 ≠ 0 ∧ (K.kcalloc a (2 * x % 2^32) 24).1 = none ∧
        (hashmapCreate K (2 * x % 2^32) out a).2.2 = (K.kcalloc a (2 * x % 2^32) 24).2)) :
    ∃ rs, K.Calls a rs (hashmapCreate K (2 * x % 2^32) out a).2.2 ∧ Grown x rs x ∧ OutOfTables x rs := by
  have hpos : 0 < x := hx ▸ Nat.two_pow_pos k
  rcases h with ⟨hno, hstate⟩ | ⟨hnz, hnull, hstate⟩
  · rcases double_of_pow hx hk with ⟨hmod, hpow⟩ | ⟨-, hlargest⟩
    · exact absurd (hmod.trans hpow) (hno (k + 1))
    · rw [hstate]
      exact ⟨[], .nil a, .nil x, .inr (.inl hlargest)⟩
  · rw [hstate]
    have hcalls : K.Calls a [⟨2 * x % 2^32, (K.kcalloc a (2 * x % 2^32) 24).1.isSome⟩]
        (K.kcalloc a (2 * x % 2^32) 24).2 := .kcalloc _ (.nil _)
    rw [hnull] at hcalls
    obtain ⟨hmod, -⟩ := (double_of_pow hx hk).resolve_right (fun hzero => hnz hzero.1)
    exact ⟨_, hcalls, .refused_one (by rw [hmod]; omega), .inl ⟨_, List.mem_cons_self, rfl⟩⟩

theorem rehash_spec (K : Kalloc A) {put : HashmapS P V → P → Nat → V → A → Option (Nat × HashmapS P V × A)}
    (h : HashmapInv text m) (hput : PutOk text K put (2 * m.tableSize)) (a : A) :
    ∃ ret m' a' rs, hashmapRehashHelper K put m a = some (ret, m', a') ∧ K.Calls a rs a' ∧
      Rehashed text (newTableMade K m a) m ret m' ∧ Grown m.tableSize rs m'.tableSize ∧
      (ret = 1 → OutOfTables m.tableSize rs) := by
  obtain ⟨k, hk, hpow⟩ := h.pow
  have hpos := h.pos
  rcases hashmapCreate_cases K (2 * m.tableSize % 2^32)
    ({ tableSize := 0, size := 0, data := none, slots := [] } : HashmapS P V) a with
    ⟨k', data, hnew, hgiven, hcreate⟩ | ⟨hfailed, hnone⟩
  · have hnz : 2 * m.tableSize % 2^32 ≠ 0 := hnew ▸ Nat.ne_of_gt (Nat.two_pow_pos k')
    obtain ⟨hmod, -⟩ := (double_of_pow hpow hk).resolve_right (fun hzero => hnz hzero.1)
    have hk' : k' < 32 :=
      (Nat.pow_lt_pow_iff_right (by decide : 1 < 2)).mp (hnew ▸ Nat.mod_lt _ (by decide))
    obtain ⟨hinv, hempty⟩ := hashmapInv_fresh text (V := V) hnew hk' (some data)
    have hmade : newTableMade K m a = true := by rw [newTableMade, hcreate]; rfl
    have hcall : Grown m.tableSize [⟨2 * m.tableSize % 2^32, true⟩] (2 * m.tableSize % 2^32) :=
      .given_one (by rw [hmod]; omega)
    have hshare : Sharing text (m.contents text) (2 * m.tableSize) 0 m
        { tableSize := 2 * m.tableSize % 2^32, size := 0, data := some data,
          slots := List.replicate (2 * m.tableSize % 2^32) .zero } := by
      refine ⟨h, hinv, Nat.le_of_eq hmod.symm, fun j hj => absurd hj (Nat.not_lt_zero j), ?_, ?_⟩
      · intro k
        rw [hempty]
        rfl
      · intro k _
        rw [hempty]
    obtain ⟨ret, m', new', a', rs, hloop, hcalls, hmoved, hgrown, hout⟩ :=
      rehash_loop hput (a := (K.kcalloc a (2 * m.tableSize % 2^32) 24).2) hshare (Nat.zero_add _)
    have hfirst : K.Calls a ([⟨2 * m.tableSize % 2^32, true⟩] ++ rs) a' := by
      have hone := hcalls.kcalloc (2 * m.tableSize % 2^32)
      rwa [hgiven] at hone
    have htables := hcall.trans hgrown
    simp only [hashmapRehashHelper, hcreate, hashmapIteratePairs, hloop, ne_eq, not_true_eq_false, if_false,
      Option.bind_eq_bind, Option.bind_some]
    rcases hmoved with ⟨rfl, hinv', hle, hall⟩ | ⟨rfl, hinv', hsize, hleft, hlost⟩
    · refine ⟨0, new', _, [⟨2 * m.tableSize % 2^32, true⟩] ++ rs, rfl, ?_, .moved hinv' (hmod ▸ hle) hall, htables,
        fun hret => absurd hret (by decide)⟩
      have hfree := hfirst.append (.kfree m'.data (.nil _))
      rwa [List.append_nil] at hfree
    · exact ⟨1, m', a', _, rfl, hfirst, .lost hmade hinv' hsize hleft hlost, hsize ▸ htables.dropped,
        fun hret => (hout hret).of_grown hcall⟩
  · have hmade : newTableMade K m a = false := by rw [newTableMade, hfailed]; rfl
    obtain ⟨rs, hcalls, hgrown, hout⟩ := double_failed hpow hk hnone
    simp only [hashmapRehashHelper, hfailed, ne_eq, one_ne_zero, not_false_eq_true, if_true]
    exact ⟨1, m, _, rs, rfl, hcalls, .refused hmade, hgrown, fun _ => hout⟩

/-- `hashmap_put` returns, whatever the allocator does: a table that has been
    doubled `k` times leaves room for `32 - k` more. -/
theorem put_spec (K : Kalloc A) {fuel k : Nat} (hfuel : 32 ≤ k + fuel) :
    PutOk (V := V) text K (hashmapPutLoop text K fuel) (2^k) := by
  induction fuel generalizing k with
  | zero =>
    intro m key len value a h hk
    have hsmall := h.small
    have hlarge : 2^32 ≤ 2^k := Nat.pow_le_pow_right (by decide) hfuel
    omega
  | succ fuel ih =>
    intro m key len value a h hk
    obtain ⟨k', hk', hpow⟩ := h.pow
    have hkk : k ≤ k' := by
      rw [hpow] at hk
      exact (Nat.pow_le_pow_iff_right (by decide)).mp hk
    have hdouble : 2 * m.tableSize = 2^(k' + 1) := by rw [hpow, Nat.pow_succ, Nat.mul_comm]
    have hnext : PutOk (V := V) text K (hashmapPutLoop text K fuel) (2 * m.tableSize) := by
      rw [hdouble]
      exact ih (by omega)
    rw [hashmapPutLoop]
    rcases h.hashHelper key len with ⟨-, j, e, hplace, he, hspot, hchain⟩ | ⟨hcrowded, hplace⟩
    · obtain ⟨m', hstore, hinv, hsize, hcontents⟩ := h.store value he hspot hchain
      rw [hplace]
      refine ⟨0, m', a, [], ?_, .nil a, hinv, hsize.symm ▸ .nil _, .inl ⟨rfl, hcontents⟩,
        fun hret => absurd hret (by decide)⟩
      simp only [hstore, Option.map_some]
    · obtain ⟨ret, m₁, a₁, rs, hrun, hcalls, hrehash, hgrown, hout⟩ := rehash_spec K h hnext a
      rw [hplace]
      simp only [hrun]
      cases hrehash with
      | moved hinv hlarge hsame =>
        obtain ⟨ret, m', a', rs', hput, hcalls', hdone⟩ := hnext m₁ key len value a₁ hinv hlarge
        exact ⟨ret, m', a', rs ++ rs', by rw [if_neg (by decide), hput], hcalls.append hcalls', hdone.inv,
          hgrown.trans hdone.grown, hsame ▸ hdone.outcome,
          fun hret => ⟨hcrowded, (hdone.refused hret).2.of_grown hgrown⟩⟩
      | refused _ =>
        exact ⟨1, m, a₁, rs, by rw [if_pos (by decide)], hcalls, h, hgrown, .inr ⟨rfl, LeftOf.refl _⟩,
          fun hret => ⟨hcrowded, hout hret⟩⟩
      | lost _ hinv hsize hleft _ =>
        exact ⟨1, m₁, a₁, rs, by rw [if_pos (by decide)], hcalls, hinv, hgrown, .inr ⟨rfl, hleft⟩,
          fun hret => ⟨hcrowded, hout hret⟩⟩

/-- A put of a key that finds no place, without a table of twice the size. -/
theorem put_refused (K : Kalloc A) (h : HashmapInv text m) {a : A} (hcrowded : Crowded text m (keyBytes text key len))
    (hmade : newTableMade K m a = false) (value : V) :
    ∃ a', hashmapPut text K m key len value a = some (1, m, a') := by
  have hplace : hashmapHashHelper text m key len = some none := by
    rcases h.hashHelper key len with ⟨hroom, -⟩ | ⟨-, hplace⟩
    · exact absurd hcrowded hroom
    · exact hplace
  have hfailed := of_decide_eq_false hmade
  rw [hashmapPut, hashmapPutLoop, hplace]
  simp only [hashmapRehashHelper, ne_eq, hfailed, not_false_eq_true, if_true]
  exact ⟨_, rfl⟩

theorem hashmapPut_spec (K : Kalloc A) (h : HashmapInv text m) (key : P) (len : Nat) (value : V) (a : A) :
    ∃ ret m' a' rs, hashmapPut text K m key len value a = some (ret, m', a') ∧ K.Calls a rs a' ∧
      PutDone text m (keyBytes text key len) (key, value) ret m' rs :=
  put_spec K (Nat.le_refl 32) m key len value a h h.pos

end

end

end Qnixx
