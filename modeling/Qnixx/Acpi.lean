import Mathlib.Algebra.GroupWithZero.Nat
import Qnixx.LibKern
import Qnixx.Madt

/- The search for a table (`acpi/acpi.c`): `acpi_init` finds the RSDT and counts
   its entries, `acpi_query` compares the signature of each table listed there
   and returns the first that matches, if its checksum is right.
   `VMM_HIGHER_HALF` is where the boot loader maps physical memory, a parameter
   here. -/
namespace Qnixx
open ByteMem

/-- `rsdt` and `rsdt_entry_count`. -/
structure AcpiTables where
  rsdt : BitVec 64
  rsdtEntryCount : BitVec 64

/-- `header.length` of any table. -/
def headerLength (m : Mem) (header : BitVec 64) : BitVec 32 := load32 m (header + 4)

/-- `acpi_init` up to its query: `rsdtaddr` is at offset 16 of the RSDP, the
    header has 36 bytes, and `sizeof` makes the subtraction one of 64 bits. -/
def acpiTables (m : Mem) (higherHalf rsdp : BitVec 64) : AcpiTables :=
  let rsdt := (load32 m (rsdp + 16)).setWidth 64 + higherHalf
  { rsdt := rsdt
    rsdtEntryCount := ((headerLength m rsdt).setWidth 64 - 36) / 4 }

/-- `memcmp` from index `i` on. -/
def memcmp (str1 str2 : Nat → Byte) (i : Nat) : Nat → BitVec 8
  | 0 => 0
  | n + 1 => if str1 i ≠ str2 i then 1 else memcmp str1 str2 (i + 1) n

/-- The loop of `do_checksum`: the bytes are signed chars, the sum is an `int`
    until it is stored back. -/
def checksumLoop (m : Mem) (header : BitVec 64) : Nat → BitVec 8
  | 0 => 0
  | n + 1 =>
    ((checksumLoop m header n).setWidth 32 + (m (header + BitVec.ofNat 64 n)).signExtend 32).setWidth 8

def doChecksum (m : Mem) (header : BitVec 64) : Bool :=
  (checksumLoop m header (headerLength m header).toNat).setWidth 32 % 0x100#32 = 0#32

/-- The table behind `rsdt->tables[i]`. -/
def rsdtTable (m : Mem) (higherHalf rsdt : BitVec 64) (i : Nat) : BitVec 64 :=
  (load32 m (rsdt + BitVec.ofNat 64 (36 + 4 * i))).setWidth 64 + higherHalf

/-- The loop of `acpi_query` from entry `i` on, and the entries it reads. The
    outer `none` is a query without an end of string, the inner one NULL. -/
def acpiQueryLoop (m : Mem) (higherHalf rsdt : BitVec 64) (query : List Byte) (i : Nat) :
    Nat → Option (Option (BitVec 64)) × List Nat
  | 0 => (some none, [])
  | n + 1 =>
    let current := rsdtTable m higherHalf rsdt i
    match strlen query with
    | none => (none, [i])
    | some len =>
      if memcmp (fun k => m (current + BitVec.ofNat 64 k)) (fun k => query.getD k 0) 0 len = 0 then
        (some (if doChecksum m current then some current else none), [i])
      else
        let rest := acpiQueryLoop m higherHalf rsdt query (i + 1) n
        (rest.1, i :: rest.2)

def acpiQuery (m : Mem) (higherHalf : BitVec 64) (t : AcpiTables) (query : List Byte) :
    Option (Option (BitVec 64)) × List Nat :=
  acpiQueryLoop m higherHalf t.rsdt query 0 t.rsdtEntryCount.toNat

/-- `"APIC"`. -/
def apicQuery : List Byte := [0x41, 0x50, 0x49, 0x43, 0]

/-- `acpi_init`; `none` where the assertion fails, or `parse_madt` has not
    ended yet. -/
def acpiInit (fuel : Nat) (m : Mem) (higherHalf rsdp : BitVec 64) (bases : ApicBases) :
    Option (AcpiTables × BitVec 64 × ApicBases) := do
  let t := acpiTables m higherHalf rsdp
  let madt ← (acpiQuery m higherHalf t apicQuery).1
  let madt ← madt
  let bases ← parseMadt fuel m madt bases
  some (t, madt, bases)

/-! What a query is to return. -/

/-- The tables the RSDT lists. -/
def listedTables (m : Mem) (higherHalf rsdt : BitVec 64) : List (BitVec 64) :=
  (List.range (((headerLength m rsdt).toNat - 36) / 4)).map (rsdtTable m higherHalf rsdt)

/-- The sum of the bytes of a table. -/
def byteSum (m : Mem) (header : BitVec 64) : Nat :=
  ((loadBytes m header (headerLength m header).toNat).map BitVec.toNat).sum

section
variable {m : Mem} {higherHalf : BitVec 64}

theorem memcmp_eq_zero (str1 str2 : Nat → Byte) (i n : Nat) :
    memcmp str1 str2 i n = 0 ↔ ∀ k, k < n → str1 (i + k) = str2 (i + k) := by
  induction n generalizing i with
  | zero => exact ⟨fun _ k hk => absurd hk (Nat.not_lt_zero k), fun _ => rfl⟩
  | succ n ih =>
    rw [memcmp]
    by_cases hne : str1 i = str2 i
    · rw [if_neg (fun h => h hne), ih]
      refine ⟨?_, ?_⟩
      · intro h k hk
        cases k with
        | zero => exact hne
        | succ k =>
          have := h k (by omega)
          rwa [Nat.add_right_comm] at this
      · intro h k hk
        have := h (k + 1) (by omega)
        rwa [Nat.add_right_comm]
    · rw [if_pos hne]
      exact ⟨fun h => absurd h (by decide), fun h => absurd (h 0 (Nat.succ_pos n)) hne⟩

/-- Adding a signed char to eight bits is adding its byte. -/
theorem checksum_add (sum b : BitVec 8) :
    (sum.setWidth 32 + b.signExtend 32).setWidth 8 = sum + b := by
  rw [BitVec.setWidth_add _ _ (by decide), BitVec.setWidth_setWidth_of_le _ (by decide)]
  congr 1
  apply BitVec.eq_of_getLsbD_eq
  intro i hi
  rw [BitVec.getLsbD_setWidth, BitVec.getLsbD_signExtend]
  simp [hi, show i < 32 by omega]

theorem loadBytes_succ (m : Mem) (a : BitVec 64) (n : Nat) :
    loadBytes m a (n + 1) = loadBytes m a n ++ [m (a + BitVec.ofNat 64 n)] := by
  simp only [loadBytes, List.range_succ, List.map_append, List.map_cons, List.map_nil]

theorem checksumLoop_toNat (header : BitVec 64) (n : Nat) :
    (checksumLoop m header n).toNat = ((loadBytes m header n).map BitVec.toNat).sum % 256 := by
  induction n with
  | zero => rfl
  | succ n ih =>
    rw [checksumLoop, checksum_add, BitVec.toNat_add, ih, loadBytes_succ, List.map_append, List.sum_append]
    simp only [List.map_cons, List.map_nil, List.sum_cons, List.sum_nil]
    omega

theorem doChecksum_iff (header : BitVec 64) : doChecksum m header = true ↔ byteSum m header % 256 = 0 := by
  have hsum := checksumLoop_toNat (m := m) header (headerLength m header).toNat
  rw [doChecksum, decide_eq_true_iff, ← BitVec.toNat_inj, byteSum, ← hsum]
  have hlt := (checksumLoop m header (headerLength m header).toNat).isLt
  simp only [BitVec.toNat_umod, BitVec.toNat_setWidth, BitVec.toNat_ofNat, Nat.reducePow, Nat.reduceMod]
  omega

/-- The comparison with a query of four characters. -/
theorem memcmp_signature (t : BitVec 64) {query : List Byte} (hlen : query.length = 4) :
    memcmp (fun k => m (t + BitVec.ofNat 64 k)) (fun k => (query ++ [0]).getD k 0) 0 4 = 0 ↔
      loadBytes m t 4 = query := by
  rw [memcmp_eq_zero, List.ext_getElem_iff]
  simp only [Nat.zero_add, loadBytes, List.length_map, List.length_range, hlen, true_and, List.getElem_map,
    List.getElem_range]
  refine ⟨?_, ?_⟩
  · intro h i hi _
    have hq : i < query.length := by omega
    rw [h i hi, List.getD_eq_getElem?_getD, List.getElem?_append_left hq, List.getElem?_eq_getElem hq]
    rfl
  · intro h k hk
    have hq : k < query.length := by omega
    rw [h k hk hk, List.getD_eq_getElem?_getD, List.getElem?_append_left hq, List.getElem?_eq_getElem hq]
    rfl

/-- What the loop returns from entry `i` on. -/
theorem acpiQueryLoop_first (rsdt : BitVec 64) {query : List Byte} (hlen : query.length = 4)
    (hquery : ∀ c ∈ query, c ≠ 0) (i n : Nat) :
    (acpiQueryLoop m higherHalf rsdt (query ++ [0]) i n).1 =
      some ((((List.range' i n).map (rsdtTable m higherHalf rsdt)).find?
        (fun t => loadBytes m t 4 = query)).filter (fun t => byteSum m t % 256 = 0)) := by
  induction n generalizing i with
  | zero => rfl
  | succ n ih =>
    simp only [acpiQueryLoop, strlen_cstr hquery, hlen, memcmp_signature _ hlen, List.range'_succ,
      List.map_cons, List.find?_cons]
    by_cases hsig : loadBytes m (rsdtTable m higherHalf rsdt i) 4 = query
    · simp only [hsig, if_true, decide_true, Option.filter_some, decide_eq_true_eq, doChecksum_iff]
    · simp only [hsig, if_false, decide_false]
      exact ih (i + 1)

/-- The count, which wraps around for an RSDT shorter than its header. -/
theorem rsdtEntryCount_toNat (rsdp : BitVec 64) : (acpiTables m higherHalf rsdp).rsdtEntryCount.toNat =
    ((headerLength m (acpiTables m higherHalf rsdp).rsdt).toNat + (2^64 - 36)) % 2^64 / 4 := by
  have hlt := (headerLength m (acpiTables m higherHalf rsdp).rsdt).isLt
  show (((headerLength m (acpiTables m higherHalf rsdp).rsdt).setWidth 64 - 36) / 4).toNat = _
  rw [BitVec.toNat_udiv, BitVec.toNat_sub, BitVec.toNat_setWidth, show (36 : BitVec 64).toNat = 36 from rfl,
    show (4 : BitVec 64).toNat = 4 from rfl]
  omega

theorem rsdtEntryCount_of_le {rsdp : BitVec 64}
    (h : 36 ≤ (headerLength m (acpiTables m higherHalf rsdp).rsdt).toNat) :
    (acpiTables m higherHalf rsdp).rsdtEntryCount.toNat =
      ((headerLength m (acpiTables m higherHalf rsdp).rsdt).toNat - 36) / 4 := by
  have hlt := (headerLength m (acpiTables m higherHalf rsdp).rsdt).isLt
  rw [rsdtEntryCount_toNat]
  omega

/-- A query returns one of the tables listed. -/
theorem acpiQueryLoop_some {rsdt t : BitVec 64} {query : List Byte} {i n : Nat}
    (h : (acpiQueryLoop m higherHalf rsdt query i n).1 = some (some t)) :
    ∃ k, t = rsdtTable m higherHalf rsdt k := by
  induction n generalizing i with
  | zero => cases h
  | succ n ih =>
    rw [acpiQueryLoop] at h
    cases hlen : strlen query with
    | none =>
      rw [hlen] at h
      cases h
    | some len =>
      rw [hlen] at h
      dsimp only at h
      split at h
      · rw [Option.some.injEq, Option.ite_none_right_eq_some] at h
        exact ⟨i, (Option.some.inj h.2).symm⟩
      · exact ih h

/-- The loop reads entry `i` first, and none behind the last. -/
theorem acpiQueryLoop_reads (rsdt : BitVec 64) (query : List Byte) (i n : Nat) :
    (∀ k ∈ (acpiQueryLoop m higherHalf rsdt query i n).2, k < i + n) ∧
      (0 < n → i ∈ (acpiQueryLoop m higherHalf rsdt query i n).2) := by
  induction n generalizing i with
  | zero => exact ⟨nofun, fun h => absurd h (Nat.lt_irrefl 0)⟩
  | succ n ih =>
    have honly : ∀ k ∈ [i], k < i + (n + 1) := by
      intro k hk
      rw [List.mem_singleton.mp hk]
      omega
    rw [acpiQueryLoop]
    cases strlen query with
    | none => exact ⟨honly, fun _ => List.mem_singleton.mpr rfl⟩
    | some len =>
      dsimp only
      split
      · exact ⟨honly, fun _ => List.mem_singleton.mpr rfl⟩
      · obtain ⟨hrest, -⟩ := ih (i + 1)
        refine ⟨List.forall_mem_cons.mpr ⟨honly i (List.mem_singleton.mpr rfl), ?_⟩,
          fun _ => List.mem_cons_self⟩
        intro k hk
        have := hrest k hk
        omega

end

/-- **`acpi_query` finds the first matching valid table.** For every RSDT of at
    least its header's length, whatever it lists, and every query of four
    characters: the first listed table with that signature is returned if its
    bytes add up to 0 modulo 256; otherwise, and when there is none, NULL. So a
    table that is returned has the signature and the checksum. -/
theorem acpiQuery_first_valid (m : Mem) (higherHalf rsdp : BitVec 64)
    (hrsdt : 36 ≤ (headerLength m (acpiTables m higherHalf rsdp).rsdt).toNat) (query : List Byte)
    (hlen : query.length = 4) (hquery : ∀ c ∈ query, c ≠ 0) :
    (acpiQuery m higherHalf (acpiTables m higherHalf rsdp) (query ++ [0])).1 =
      some (match (listedTables m higherHalf (acpiTables m higherHalf rsdp).rsdt).find?
          (fun t => loadBytes m t 4 = query) with
        | none => none
        | some t => if byteSum m t % 256 = 0 then some t else none) ∧
    ∀ t, (acpiQuery m higherHalf (acpiTables m higherHalf rsdp) (query ++ [0])).1 = some (some t) →
      t ∈ listedTables m higherHalf (acpiTables m higherHalf rsdp).rsdt ∧ loadBytes m t 4 = query ∧
        byteSum m t % 256 = 0 := by
  have hloop : (acpiQuery m higherHalf (acpiTables m higherHalf rsdp) (query ++ [0])).1 =
      some (((listedTables m higherHalf (acpiTables m higherHalf rsdp).rsdt).find?
        (fun t => loadBytes m t 4 = query)).filter (fun t => byteSum m t % 256 = 0)) := by
    rw [acpiQuery, rsdtEntryCount_of_le hrsdt, acpiQueryLoop_first _ hlen hquery, listedTables,
      List.range_eq_range']
  rw [hloop]
  refine ⟨?_, ?_⟩
  · cases (listedTables m higherHalf (acpiTables m higherHalf rsdp).rsdt).find?
        (fun t => loadBytes m t 4 = query) with
    | none => rfl
    | some t => rw [Option.filter_some, Option.some.injEq]; simp only [decide_eq_true_eq]
  · intro t ht
    rw [Option.some.injEq, Option.filter_eq_some_iff] at ht
    obtain ⟨hfind, hsum⟩ := ht
    have hsig := List.find?_some hfind
    exact ⟨List.mem_of_find?_eq_some hfind, of_decide_eq_true hsig, of_decide_eq_true hsum⟩

/-! Firmware with one table. -/

/-- An RSDP at `0x500` and an RSDT that lists the table at `0x2000`. -/
def firmware (madt : List Byte) : Mem :=
  let rsdt : List Byte := [0x52, 0x53, 0x44, 0x54, 40, 0, 0, 0, 1, 0x7A] ++ List.replicate 26 0 ++ [0, 0x20, 0, 0]
  storeBytes (storeBytes (storeBytes (fun _ => 0) 0x510 [0, 0x10, 0, 0]) 0xFFFF800000001000 rsdt)
    0xFFFF800000002000 madt

/-- A MADT of 46 bytes whose only record is `record`; `checksum` makes it valid. -/
def shortMadt (checksum : Byte) (record : List Byte) : List Byte :=
  [0x41, 0x50, 0x49, 0x43, 46, 0, 0, 0, 1, checksum] ++ List.replicate 34 0 ++ record

/-- `VMM_HIGHER_HALF` as the boot loader sets it, and where the table is then. -/
def hhdm : BitVec 64 := 0xFFFF800000000000
def shortMadtAddr : BitVec 64 := 0xFFFF800000002000

/-- The only table of the firmware is found under its signature, unless its
    checksum is wrong. -/
theorem acpiQuery_first_valid_firmware :
    (acpiQuery (firmware (shortMadt 0xB2 [0, 2])) hhdm
      (acpiTables (firmware (shortMadt 0xB2 [0, 2])) hhdm 0x500) apicQuery).1 = some (some shortMadtAddr) ∧
    (acpiQuery (firmware (shortMadt 0xB3 [0, 2])) hhdm
      (acpiTables (firmware (shortMadt 0xB3 [0, 2])) hhdm 0x500) apicQuery).1 = some none := by
  refine ⟨?_, ?_⟩
  · obtain ⟨hfirst, -⟩ := acpiQuery_first_valid (firmware (shortMadt 0xB2 [0, 2])) hhdm 0x500 (by decide +kernel)
      [0x41, 0x50, 0x49, 0x43] rfl (by decide)
    exact hfirst.trans (by decide +kernel)
  · obtain ⟨hfirst, -⟩ := acpiQuery_first_valid (firmware (shortMadt 0xB3 [0, 2])) hhdm 0x500 (by decide +kernel)
      [0x41, 0x50, 0x49, 0x43] rfl (by decide)
    exact hfirst.trans (by decide +kernel)

end Qnixx
