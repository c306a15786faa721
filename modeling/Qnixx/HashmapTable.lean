import Qnixx.Hashmap

/- What the functions of the hash map do to the finite map that the table stands
   for. A table is kept so that every key in use lies on its own chain and lies
   there once (`HashmapInv`); the map is read off it (`HashmapS.contents`), from
   the bytes of a key to the pointer that was put for it and its value. -/
namespace Qnixx
open Probing

variable {A C P V : Type} (text : P → Nat → Byte)

/-! The hash. -/

theorem crc32Tab_entries : ∀ i : BitVec 8,
    crc32Tab.getD i.toNat 0 = Crc.shifts (BitVec.reverse 0x1EDC6F41#32) 8 (i.setWidth 32) := by decide +kernel

/-- **The table computes the code it is made for.** For every string the helper
    returns its remainder by the polynomial `0x1EDC6F41`, one bit at a time and
    lowest bits first, which is what the branch for SSE 4.2 has the processor do. -/
theorem crc32_helper_divides (s : List Byte) :
    hashmapCrc32Helper s = Crc.crc (BitVec.reverse 0x1EDC6F41#32) s := by
  have hstep : (fun (crc32val : BitVec 32) (b : Byte) =>
      crc32Tab.getD (crc32val.setWidth 8 ^^^ b).toNat 0 ^^^ (crc32val >>> 8)) =
        Crc.feed (BitVec.reverse 0x1EDC6F41#32) := by
    funext crc32val b
    exact (Crc.feed_eq_table _ crc32val b (fun i => crc32Tab.getD i.toNat 0) crc32Tab_entries).symm
  rw [hashmapCrc32Helper, hstep, Crc.crc]

/-- What an element says: nothing when it is not in use. -/
def HashmapElement.slot (e : HashmapElement P V) : Option (List Byte × (P × V)) :=
  if e.inUse then some (keyBytes text e.key e.keyLen, (e.key, e.data)) else none

def HashmapS.table (m : HashmapS P V) : List (Option (List Byte × (P × V))) :=
  m.slots.map (HashmapElement.slot text)

/-- The finite map. -/
def HashmapS.contents (m : HashmapS P V) : List Byte → Option (P × V) := Probing.contents (m.table text)

structure HashmapInv (m : HashmapS P V) : Prop where
  pow : ∃ k < 32, m.tableSize = 2^k
  length : m.slots.length = m.tableSize
  size : m.size = used (m.table text)
  placed : Placed hashmapMaxChainLength hashmapHome (m.table text)

section
variable {text} {m : HashmapS P V} {key : P} {len : Nat} {value : V}

theorem length_table : (m.table text).length = m.slots.length := List.length_map _

theorem HashmapInv.length_table (h : HashmapInv text m) : (m.table text).length = m.tableSize :=
  Qnixx.length_table.trans h.length

theorem HashmapInv.pos (h : HashmapInv text m) : 0 < m.tableSize := by
  obtain ⟨k, -, hk⟩ := h.pow
  rw [hk]
  exact Nat.two_pow_pos k

theorem HashmapInv.small (h : HashmapInv text m) : m.tableSize < 2^32 := by
  obtain ⟨k, hlt, hk⟩ := h.pow
  rw [hk]
  exact Nat.pow_lt_pow_right (by decide) hlt

theorem HashmapInv.size_le (h : HashmapInv text m) : m.size ≤ m.tableSize := by
  rw [h.size, ← h.length_table]
  exact List.countP_le_length

theorem getElem?_table (j : Nat) : (m.table text)[j]? = (m.slots[j]?).map (HashmapElement.slot text) :=
  List.getElem?_map

theorem keyBytes_length : (keyBytes text key len).length = len := by
  rw [keyBytes, List.length_map, List.length_range]

theorem hashmapMatchHelper_iff {e : HashmapElement P V} :
    hashmapMatchHelper text e key len = true ↔ keyBytes text e.key e.keyLen = keyBytes text key len := by
  rw [hashmapMatchHelper, Bool.and_eq_true, beq_iff_eq, beq_iff_eq, memcmp_eq_zero]
  refine ⟨?_, ?_⟩
  · rintro ⟨hlen, hbytes⟩
    rw [hlen, keyBytes, keyBytes]
    apply List.map_congr_left
    intro i hi
    have hbyte := hbytes i (List.mem_range.mp hi)
    rwa [Nat.zero_add] at hbyte
  · intro h
    have hlen : e.keyLen = len := by
      have hsame := congrArg List.length h
      rwa [keyBytes_length, keyBytes_length] at hsame
    refine ⟨hlen, ?_⟩
    intro i hi
    rw [hlen, keyBytes, keyBytes, List.map_inj_left] at h
    rw [Nat.zero_add]
    exact h i (List.mem_range.mpr hi)

/-- The test of the probing loops: the element holds this key. -/
theorem slot_of_match {e : HashmapElement P V} :
    (e.inUse && hashmapMatchHelper text e key len) = true ↔
      e.slot text = some (keyBytes text key len, (e.key, e.data)) := by
  rw [Bool.and_eq_true, hashmapMatchHelper_iff, HashmapElement.slot]
  cases e.inUse with
  | false => simp
  | true => simp

theorem slot_eq_none {e : HashmapElement P V} : e.slot text = none ↔ e.inUse = false := by
  rw [HashmapElement.slot]
  cases e.inUse <;> simp

theorem slot_eq_some {e : HashmapElement P V} {k : List Byte} {entry : P × V} (h : e.slot text = some (k, entry)) :
    e.inUse = true ∧ keyBytes text e.key e.keyLen = k ∧ e.key = entry.1 ∧ e.data = entry.2 := by
  rw [HashmapElement.slot] at h
  split at h
  · next hused =>
    rw [Option.some.injEq, Prod.mk.injEq] at h
    exact ⟨hused, h.1, congrArg Prod.fst h.2, congrArg Prod.snd h.2⟩
  · cases h

/-! The probing loops. -/

/-- What a probe of the slots `home + off`, ... finds. -/
def Probed (m : HashmapS P V) (p : HashmapElement P V → Bool) (home off n : Nat) : Option Nat → Prop
  | some j => ∃ i, off ≤ i ∧ i < off + n ∧ j = (home + i) % m.tableSize ∧ ∃ e, m.slots[j]? = some e ∧ p e = true
  | none => ∀ i, off ≤ i → i < off + n → ∃ e, m.slots[(home + i) % m.tableSize]? = some e ∧ p e = false

theorem slot_there (hlen : m.slots.length = m.tableSize) (hpos : 0 < m.tableSize) (x : Nat) :
    ∃ e, m.slots[x % m.tableSize]? = some e := by
  have hlt : x % m.tableSize < m.slots.length := by
    rw [hlen]
    exact Nat.mod_lt x hpos
  exact ⟨_, List.getElem?_eq_getElem hlt⟩

theorem next_slot (home off n : Nat) : ((home + off) % n + 1) % n = (home + (off + 1)) % n := by
  rw [Nat.mod_add_mod, Nat.add_assoc]

theorem hashmapProbe_spec (hlen : m.slots.length = m.tableSize) (hpos : 0 < m.tableSize)
    (p : HashmapElement P V → Bool) (home n off : Nat) :
    ∃ r, hashmapProbe m p n ((home + off) % m.tableSize) = some r ∧ Probed m p home off n r := by
  induction n generalizing off with
  | zero => exact ⟨none, rfl, fun i hi hlt => absurd hlt (by omega)⟩
  | succ n ih =>
    obtain ⟨e, he⟩ := slot_there hlen hpos (home + off)
    rw [hashmapProbe, he, Option.bind_eq_bind, Option.bind_some]
    by_cases hp : p e = true
    · rw [if_pos hp]
      exact ⟨_, rfl, off, Nat.le_refl off, by omega, rfl, e, he, hp⟩
    · rw [if_neg hp, next_slot]
      obtain ⟨r, hr, hprobed⟩ := ih (off + 1)
      refine ⟨r, hr, ?_⟩
      cases r with
      | some j =>
        obtain ⟨i, hle, hlt, hj⟩ := hprobed
        exact ⟨i, by omega, by omega, hj⟩
      | none =>
        intro i hle hlt
        rcases Nat.lt_or_ge off i with hgt | hge
        · exact hprobed i (by omega) (by omega)
        · obtain rfl : i = off := by omega
          exact ⟨e, he, by simpa using hp⟩

/-- `total_in_use` counts slots, and reaches their number when all are in use. -/
theorem totalInUse_spec (hlen : m.slots.length = m.tableSize) (hpos : 0 < m.tableSize) (home n off : Nat) :
    ∃ total, totalInUse m n ((home + off) % m.tableSize) = some total ∧ total ≤ n ∧
      (total = n → ∀ i, off ≤ i → i < off + n → ∃ e, m.slots[(home + i) % m.tableSize]? = some e ∧ e.inUse = true) := by
  induction n generalizing off with
  | zero => exact ⟨0, rfl, Nat.le_refl 0, fun _ i hi hlt => absurd hlt (by omega)⟩
  | succ n ih =>
    obtain ⟨e, he⟩ := slot_there hlen hpos (home + off)
    obtain ⟨total, htotal, hle, hall⟩ := ih (off + 1)
    simp only [totalInUse, he, Option.bind_eq_bind, Option.bind_some, next_slot, htotal]
    have hone : e.inUse.toNat ≤ 1 := Bool.toNat_le _
    refine ⟨_, rfl, by omega, ?_⟩
    intro heq i hi hlt
    rcases Nat.lt_or_ge off i with hgt | hge
    · exact hall (by omega) i (by omega) (by omega)
    · obtain rfl : i = off := by omega
      refine ⟨e, he, ?_⟩
      cases hused : e.inUse with
      | true => rfl
      | false =>
        rw [hused, Bool.toNat_false] at heq
        omega

/-- From its home on, a probe looks at the chain of a key. -/
theorem HashmapInv.probe_chain (h : HashmapInv text m) (p : HashmapElement P V → Bool) (k : List Byte) :
    ∃ r, hashmapProbe m p hashmapMaxChainLength (hashmapHashHelperIntHelper m k) = some r ∧
      Probed m p (hashmapHome k) 0 hashmapMaxChainLength r := by
  have hspec := hashmapProbe_spec h.length h.pos p (hashmapHome k) hashmapMaxChainLength 0
  rwa [Nat.add_zero] at hspec

/-- What the search for a key finds: its element, or that the map has none. -/
theorem HashmapInv.find (h : HashmapInv text m) (key : P) (len : Nat) :
    (∃ j e, hashmapFind text m key len = some (some j) ∧ m.slots[j]? = some e ∧
      InChain hashmapMaxChainLength m.tableSize (hashmapHome (keyBytes text key len)) j ∧
      e.slot text = some (keyBytes text key len, (e.key, e.data)) ∧
      m.contents text (keyBytes text key len) = some (e.key, e.data)) ∨
    (hashmapFind text m key len = some none ∧ m.contents text (keyBytes text key len) = none) := by
  obtain ⟨r, hr, hprobed⟩ := h.probe_chain (fun e => e.inUse && hashmapMatchHelper text e key len)
    (keyBytes text key len)
  cases r with
  | some j =>
    obtain ⟨i, -, hlt, hj, e, he, hmatch⟩ := hprobed
    have hslot := slot_of_match.mp hmatch
    refine .inl ⟨j, e, hr, he, ⟨i, by omega, hj⟩, hslot, ?_⟩
    apply h.placed.contents_of_slot (j := j)
    rw [getElem?_table, he, Option.map_some, hslot]
  | none =>
    refine .inr ⟨hr, ?_⟩
    rw [HashmapS.contents, contents_eq_none]
    intro j entry hj
    obtain ⟨i, hi, hat⟩ := h.placed.near j _ entry hj
    rw [h.length_table] at hat
    obtain ⟨e, he, hno⟩ := hprobed i (Nat.zero_le i) (by omega)
    rw [hat, getElem?_table, he, Option.map_some, Option.some.injEq] at hj
    obtain ⟨hused, hkey, -, -⟩ := slot_eq_some hj
    have hmatch := Bool.and_eq_true_iff.mpr ⟨hused, hashmapMatchHelper_iff.mpr hkey⟩
    exact absurd hmatch (Bool.eq_false_iff.mp hno)

variable (text) in
/-- A key finds no place: the table is full, or the key is not in it and all
    eight slots of its chain are in use. -/
def Crowded (m : HashmapS P V) (k : List Byte) : Prop :=
  m.tableSize ≤ m.size ∨ (m.contents text k = none ∧ ∀ i < hashmapMaxChainLength,
    ∃ e, m.slots[(hashmapHome k + i) % m.tableSize]? = some e ∧ e.inUse = true)

/-- A map in which a key finds no place is not empty. -/
theorem HashmapInv.ne_empty (h : HashmapInv text m) {k : List Byte} (hc : Crowded text m k) :
    m.contents text ≠ fun _ => none := by
  have hslot : ∃ (j : Nat) (k : List Byte) (entry : P × V), (m.table text)[j]? = some (some (k, entry)) := by
    rcases hc with hfull | ⟨-, hall⟩
    · have hpos : 0 < used (m.table text) := by
        rw [← h.size]
        exact Nat.lt_of_lt_of_le h.pos hfull
      obtain ⟨slot, hmem, hsome⟩ := List.countP_pos_iff.mp hpos
      obtain ⟨⟨k, entry⟩, rfl⟩ := Option.isSome_iff_exists.mp hsome
      obtain ⟨j, hj⟩ := List.getElem?_of_mem hmem
      exact ⟨j, k, entry, hj⟩
    · obtain ⟨e, he, hin⟩ := hall 0 (by decide)
      generalize (hashmapHome k + 0) % m.tableSize = j at he
      refine ⟨j, keyBytes text e.key e.keyLen, (e.key, e.data), ?_⟩
      rw [getElem?_table, he, Option.map_some, HashmapElement.slot, if_pos hin]
  obtain ⟨j, k, entry, hj⟩ := hslot
  intro hempty
  have hnone := congrFun hempty k
  rw [HashmapS.contents, h.placed.contents_of_slot hj] at hnone
  cases hnone

/-- What `hashmap_hash_helper` returns: a place for the key on its chain, or 0
    when there is none. -/
theorem HashmapInv.hashHelper (h : HashmapInv text m) (key : P) (len : Nat) :
    (¬ Crowded text m (keyBytes text key len) ∧
      ∃ j e, hashmapHashHelper text m key len = some (some j) ∧ m.slots[j]? = some e ∧
        Spot (m.table text) (keyBytes text key len) j ∧
        InChain hashmapMaxChainLength m.tableSize (hashmapHome (keyBytes text key len)) j) ∨
    (Crowded text m (keyBytes text key len) ∧ hashmapHashHelper text m key len = some none) := by
  by_cases hfull : m.size ≥ m.tableSize
  · exact .inr ⟨.inl hfull, by rw [hashmapHashHelper, if_pos hfull]⟩
  rw [hashmapHashHelper, if_neg hfull]
  have hfind := h.find key len
  rw [hashmapFind] at hfind
  rcases hfind with ⟨j, e, hprobe, he, hchain, hslot, hsome⟩ | ⟨hprobe, hnone⟩
  · refine .inl ⟨?_, j, e, ?_, he, .inr ⟨_, by rw [getElem?_table, he, Option.map_some, hslot]⟩, hchain⟩
    · rintro (hfull' | ⟨hnone, -⟩)
      · exact hfull hfull'
      · rw [hsome] at hnone
        cases hnone
    · simp only [hprobe, Option.bind_eq_bind, Option.bind_some]
  · obtain ⟨total, htotal, hle, hall⟩ := totalInUse_spec h.length h.pos (hashmapHome (keyBytes text key len))
      hashmapMaxChainLength 0
    rw [Nat.add_zero] at htotal
    rw [hashmapHashHelperIntHelper] at hprobe
    simp only [hprobe, Option.bind_eq_bind, Option.bind_some, hashmapHashHelperIntHelper, htotal]
    obtain ⟨r, hr, hprobed⟩ := h.probe_chain (fun e => !e.inUse) (keyBytes text key len)
    rw [hashmapHashHelperIntHelper] at hr
    by_cases hroom : hashmapMaxChainLength > total
    · rw [if_pos hroom, hr]
      cases r with
      | some j =>
        obtain ⟨i, -, hlt, hj, e, he, hfree⟩ := hprobed
        have hunused : e.inUse = false := by simpa using hfree
        refine .inl ⟨?_, j, e, rfl, he, .inl ⟨?_, hnone⟩, i, by omega, hj⟩
        · rintro (hfull' | ⟨-, hused⟩)
          · exact hfull hfull'
          · obtain ⟨e', he', hin⟩ := hused i (by omega)
            rw [← hj, he, Option.some.injEq] at he'
            rw [← he', hunused] at hin
            cases hin
        · rw [getElem?_table, he, Option.map_some, slot_eq_none.mpr hunused]
      | none =>
        refine .inr ⟨.inr ⟨hnone, ?_⟩, rfl⟩
        intro i hi
        obtain ⟨e, he, hused⟩ := hprobed i (Nat.zero_le i) (by omega)
        exact ⟨e, he, by simpa using hused⟩
    · rw [if_neg hroom]
      refine .inr ⟨.inr ⟨hnone, ?_⟩, rfl⟩
      intro i hi
      exact hall (by omega) i (Nat.zero_le i) (by omega)

end

end Qnixx
