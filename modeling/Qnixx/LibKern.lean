import Mathlib.Tactic.Common
import Qnixx.Lib.ByteMem

/- The parts of `libkern/string.c` the kernel's modules use: byte loops over
   memory, and strings. A string is the list of its bytes. -/
namespace Qnixx
open ByteMem

abbrev Byte := BitVec 8

/-- `NAME_MAX` of `limits.h`. -/
def nameMax : Nat := 255

def memzero (m : Mem) (ptr : BitVec 64) : Nat → Mem
  | 0 => m
  | n + 1 => store8 (memzero m ptr n) (ptr + BitVec.ofNat 64 n) 0

/-- `memcpy` inside memory, byte by byte from the front: what it reads may be
    what it has written. -/
def memcpyMem (m : Mem) (dst src : BitVec 64) : Nat → Mem
  | 0 => m
  | n + 1 =>
    store8 (memcpyMem m dst src n) (dst + BitVec.ofNat 64 n) (memcpyMem m dst src n (src + BitVec.ofNat 64 n))

/-- The length of a string; `none` when its buffer has no end of string. -/
def strlen : List Byte → Option Nat
  | [] => none
  | b :: str => if b = 0 then some 0 else (strlen str).map (· + 1)

/-- The digits of a number, lowest first, as the loops of `dec2str` and
    `hex2str` store them; `digits` is how many there can be. -/
def digitLoop (base : Nat) (digit : Nat → Byte) : (digits number : Nat) → List Byte
  | 0, _ => []
  | digits + 1, number =>
    if number > 0 then digit (number % base) :: digitLoop base digit digits (number / base) else []

/-- `dec2str`; the number is unsigned, and the branch for negative ones dead. -/
def dec2str (number : BitVec 64) : List Byte :=
  if number = 0 then [0x30]
  else (digitLoop 10 (fun d => BitVec.ofNat 8 (d + 0x30)) 64 number.toNat).reverse

/-- `hex2str`: `0x` and at least two digits. -/
def hex2str (hexNum : BitVec 64) : List Byte :=
  let digits := if hexNum = 0 then [0x30]
    else digitLoop 16 (fun d => BitVec.ofNat 8 (if d < 10 then d + 0x30 else d + 0x37)) 64 hexNum.toNat
  let padded := if hexNum.toNat < 0x10 then digits ++ [0x30] else digits
  (padded ++ [0x78, 0x30]).reverse

/-- Writing the byte after those already read. -/
theorem set_next {α : Type} (read rest : List α) (b c : α) :
    (read ++ b :: rest).set read.length c = read ++ c :: rest := by
  rw [List.set_append_right _ _ (Nat.le_refl _), Nat.sub_self]
  rfl

theorem strlen_append {str : List Byte} (h : ∀ c ∈ str, c ≠ 0) (rest : List Byte) :
    strlen (str ++ rest) = (strlen rest).map (· + str.length) := by
  induction str with
  | nil =>
    rw [List.nil_append]
    exact (Option.map_id' ..).symm
  | cons c str ih =>
    obtain ⟨hc, hstr⟩ := List.forall_mem_cons.mp h
    rw [List.cons_append, strlen, if_neg hc, ih hstr, Option.map_map]
    rfl

theorem strlen_cstr {name : List Byte} (h : ∀ c ∈ name, c ≠ 0) (rest : List Byte) :
    strlen (name ++ 0 :: rest) = some name.length := by
  rw [strlen_append h, strlen, if_pos rfl, Option.map_some, Nat.zero_add]

theorem strlen_lt {str : List Byte} {n : Nat} (h : strlen str = some n) : n < str.length := by
  induction str generalizing n with
  | nil => cases h
  | cons c str ih =>
    rw [strlen] at h
    split at h
    · obtain rfl := Option.some.inj h
      exact Nat.succ_pos _
    · obtain ⟨k, hk, rfl⟩ := Option.map_eq_some_iff.mp h
      exact Nat.succ_lt_succ (ih hk)

theorem strlen_eq_zero {str : List Byte} : strlen str = some 0 ↔ str.head? = some 0 := by
  cases str with
  | nil => simp [strlen]
  | cons c str =>
    rw [strlen]
    by_cases hc : c = 0
    · rw [if_pos hc, hc]
      simp
    · rw [if_neg hc, List.head?_cons, Option.some.injEq]
      refine ⟨?_, fun heq => absurd heq hc⟩
      intro hmap
      obtain ⟨n, -, hn⟩ := Option.map_eq_some_iff.mp hmap
      exact absurd hn (Nat.succ_ne_zero n)

theorem memzero_eq_fill (m : Mem) (ptr : BitVec 64) {n : Nat} (hn : n ≤ 2^64) :
    memzero m ptr n = fill m ptr n 0 := by
  induction n with
  | zero =>
    funext x
    simp only [memzero, fill, Inside, Nat.not_lt_zero, if_false]
  | succ n ih =>
    have hlast : ∀ x, Inside ptr (n + 1) x ↔ x = ptr + BitVec.ofNat 64 n ∨ Inside ptr n x := by
      intro x
      simp only [Inside]
      bv_omega
    funext x
    simp only [memzero, store8, ih (by omega), fill, hlast]
    by_cases hx : x = ptr + BitVec.ofNat 64 n
    · simp only [hx, true_or, if_true]
    · simp only [hx, false_or, if_false]

/-- Byte `n` of the source, when the first `n` bytes are copied: one that was
    copied if the destination starts inside the source. -/
theorem inside_source (dst src : BitVec 64) {n : Nat} (hn : n < 2^64) :
    Inside dst n (src + BitVec.ofNat 64 n) ↔ 0 < (dst - src).toNat ∧ (dst - src).toNat ≤ n := by
  simp only [Inside]
  bv_omega

theorem offset_in_source {dst src : BitVec 64} {n : Nat} (hn : n < 2^64) (h : (dst - src).toNat ≤ n) :
    (src + BitVec.ofNat 64 n - dst).toNat = n - (dst - src).toNat := by
  bv_omega

/-- Every byte after `memcpy`, in terms of the memory before. Where the
    destination starts `d` bytes into the source, the first `d` bytes are
    repeated. -/
theorem memcpyMem_eq (m : Mem) (dst src : BitVec 64) {n : Nat} (hn : n ≤ 2^64) (x : BitVec 64) :
    memcpyMem m dst src n x =
      if Inside dst n x then m (src + BitVec.ofNat 64 ((x - dst).toNat % (dst - src).toNat)) else m x := by
  induction n generalizing x with
  | zero => rfl
  | succ n ih =>
    have hlt : n < 2^64 := by omega
    have hlast : Inside dst (n + 1) x ↔ x = dst + BitVec.ofNat 64 n ∨ Inside dst n x := by
      simp only [Inside]
      bv_omega
    rw [memcpyMem, store8]
    by_cases hx : x = dst + BitVec.ofNat 64 n
    · have hoff : (x - dst).toNat = n := by
        rw [hx]
        bv_omega
      rw [if_pos hx, if_pos (hlast.mpr (.inl hx)), hoff, ih (by omega)]
      have hsource := inside_source dst src hlt
      by_cases hd : 0 < (dst - src).toNat ∧ (dst - src).toNat ≤ n
      · rw [if_pos (hsource.mpr hd), offset_in_source hlt hd.2, ← Nat.mod_eq_sub_mod hd.2]
      · rw [if_neg (fun hin => hd (hsource.mp hin))]
        congr 3
        rcases Nat.eq_zero_or_pos (dst - src).toNat with hzero | hpos
        · rw [hzero, Nat.mod_zero]
        · rw [Nat.mod_eq_of_lt (by omega)]
    · rw [if_neg hx, ih (by omega)]
      simp only [hlast, hx, false_or]

end Qnixx
