import Mathlib.Data.List.Induction
import Mathlib.Data.Nat.Digits.Lemmas
import Qnixx.LibKern

/- `hex2str` and `dec2str` (`libkern/string.c`) as they work: the digits go into
   a static buffer, the lowest first, and then two 8-bit indices run towards
   each other and swap what they meet. What an earlier call left in the buffer
   is behind the end of the string. -/
namespace Qnixx

/-- `hex_string` and `dec_string` have this many bytes. -/
def staticSize : Nat := 80

/-- `buf[i] = b`; `none` is a write behind the buffer. -/
def setByte (buf : List Byte) (i : BitVec 8) (b : Byte) : Option (List Byte) :=
  if i.toNat < buf.length then some (buf.set i.toNat b) else none

/-- `ascii_numbers`. -/
def asciiNumbers : List Byte :=
  [0x30, 0x31, 0x32, 0x33, 0x34, 0x35, 0x36, 0x37, 0x38, 0x39, 0x41, 0x42, 0x43, 0x44, 0x45, 0x46]

/-- The loop of `hex2str` that stores digits. -/
def hexLoop (hexNum : BitVec 64) (i : BitVec 8) (buf : List Byte) : Option (BitVec 8 × List Byte) :=
  if h : hexNum > 0 then do
    let nibble := hexNum.setWidth 8 &&& 0x0F#8
    let digit ← asciiNumbers[nibble.toNat]?
    let buf ← setByte buf i digit
    hexLoop (hexNum >>> 4) (i + 1) buf
  else some (i, buf)
termination_by hexNum.toNat
decreasing_by
  rw [BitVec.toNat_ushiftRight, Nat.shiftRight_eq_div_pow]
  exact Nat.div_lt_self h (by decide)

/-- The loop of `dec2str` that stores digits. -/
def decLoop (number : BitVec 64) (i : BitVec 8) (buf : List Byte) : Option (BitVec 8 × List Byte) :=
  if h : number > 0 then do
    let buf ← setByte buf i ((number % 10#64 + 0x30#64).setWidth 8)
    decLoop (number / 10#64) (i + 1) buf
  else some (i, buf)
termination_by number.toNat
decreasing_by
  rw [BitVec.toNat_udiv]
  exact Nat.div_lt_self h (by decide)

/-- The loop of both that swaps the ends until `j` and `i` meet. -/
def swapLoop (buf : List Byte) (j i : BitVec 8) : Option (List Byte) :=
  if h : j < i then do
    let temp ← buf[j.toNat]?
    let last ← buf[i.toNat]?
    let buf ← setByte buf j last
    let buf ← setByte buf i temp
    swapLoop buf (j + 1) (i - 1)
  else some buf
termination_by i.toNat - j.toNat
decreasing_by
  rw [BitVec.lt_def] at h
  bv_omega

/-- A 0 is stored before the loop, with an end of string. -/
def hexStart (buf : List Byte) (hexNum : BitVec 64) : Option (BitVec 8 × List Byte) :=
  if hexNum = 0 then do
    let buf ← setByte buf 0 0x30
    let buf ← setByte buf 1 0
    some (1#8, buf)
  else some (0#8, buf)

/-- One digit is padded to two. -/
def hexPad (hexNum : BitVec 64) (i : BitVec 8) (buf : List Byte) : Option (BitVec 8 × List Byte) :=
  if hexNum < 0x10 then do
    let buf ← setByte buf i 0x30
    some (i + 1, buf)
  else some (i, buf)

/-- `hex2str` on what its buffer holds; the result is the buffer after it. -/
def hex2strStatic (hexString : List Byte) (hexNum : BitVec 64) : Option (List Byte) := do
  let start ← hexStart hexString hexNum
  let digits ← hexLoop hexNum start.1 start.2
  let (i, buf) ← hexPad hexNum digits.1 digits.2
  let buf ← setByte buf i 0x78
  let buf ← setByte buf (i + 1) 0x30
  let buf ← setByte buf (i + 2) 0
  swapLoop buf 0 (i + 2 - 1)

def decStart (buf : List Byte) (number : BitVec 64) : Option (BitVec 8 × List Byte) :=
  if number = 0 then do
    let buf ← setByte buf 0 0x30
    some (1#8, buf)
  else some (0#8, buf)

def decSign (negative : Bool) (i : BitVec 8) (buf : List Byte) : Option (BitVec 8 × List Byte) :=
  if negative then do
    let buf ← setByte buf i 0x2D
    some (i + 1, buf)
  else some (i, buf)

/-- `dec2str`; `number` is unsigned, so the test for negative numbers fails. -/
def dec2strStatic (decString : List Byte) (number : BitVec 64) : Option (List Byte) := do
  let negative := decide (number < 0)
  let start ← decStart decString number
  let digits ← decLoop (if negative then -number else number) start.1 start.2
  let (i, buf) ← decSign negative digits.1 digits.2
  let buf ← setByte buf i 0
  swapLoop buf 0 (i - 1)

/-! Numerals. -/

/-- The character of a digit, in upper case. -/
def digitChar (d : Nat) : Byte := BitVec.ofNat 8 (if d < 10 then d + 0x30 else d + 0x37)

/-- The numeral of `n` without leading zeros, `0` for zero. -/
def numeral (base n : Nat) : List Byte :=
  if n = 0 then [0x30] else (Nat.digits base n).reverse.map digitChar

/-- `0x` and the numeral, one digit padded to two. -/
def hexText (n : Nat) : List Byte :=
  [0x30, 0x78] ++ (if n < 16 then 0x30 :: numeral 16 n else numeral 16 n)

def decText (n : Nat) : List Byte := numeral 10 n

/-- The digit a character stands for. -/
def digitValue (c : Byte) : Nat := if c.toNat < 0x3A then c.toNat - 0x30 else c.toNat - 0x37

/-- Reading a numeral. -/
def parseNumeral (base : Nat) (str : List Byte) : Nat :=
  str.foldl (fun n c => base * n + digitValue c) 0

/-! The loops. -/

/-- A write at the end of what is already in the buffer. -/
theorem setByte_next (read more : List Byte) {i : BitVec 8} (hi : i.toNat = read.length)
    (hroom : 0 < more.length) (c : Byte) :
    setByte (read ++ more) i c = some ((read ++ [c]) ++ more.drop 1) := by
  obtain ⟨b, more, rfl⟩ := List.exists_cons_of_length_pos hroom
  have hlt : i.toNat < (read ++ b :: more).length := by
    rw [List.length_append, List.length_cons]
    omega
  rw [setByte, if_pos hlt, hi, set_next, List.drop_one, List.tail_cons, List.append_assoc]
  rfl

/-- An index that does not wrap. -/
theorem index_toNat {n : Nat} (h : n < 256) : (BitVec.ofNat 8 n).toNat = n := by
  rw [BitVec.toNat_ofNat, Nat.mod_eq_of_lt h]

/-- The digits of a number, the lowest first. -/
def lowDigits (base n : Nat) : List Byte := (Nat.digits base n).map digitChar

theorem lowDigits_pos {base n : Nat} (hbase : 1 < base) (hn : 0 < n) :
    lowDigits base n = digitChar (n % base) :: lowDigits base (n / base) := by
  rw [lowDigits, Nat.digits_def' hbase hn, List.map_cons, lowDigits]

theorem lowDigits_zero (base : Nat) : lowDigits base 0 = [] := by
  rw [lowDigits, Nat.digits_zero, List.map_nil]

theorem lowDigits_length_le {base n k : Nat} (hbase : 1 < base) (hn : n < base ^ k) :
    (lowDigits base n).length ≤ k := by
  rw [lowDigits, List.length_map, Nat.digits_length_le_iff hbase]
  exact hn

theorem nibble_digit (hexNum : BitVec 64) :
    asciiNumbers[(hexNum.setWidth 8 &&& 0x0F#8).toNat]? = some (digitChar (hexNum.toNat % 16)) := by
  have htable : ∀ d, d < 16 → asciiNumbers[d]? = some (digitChar d) := by decide
  have hnibble : (hexNum.setWidth 8 &&& 0x0F#8).toNat = hexNum.toNat % 16 := by
    rw [BitVec.toNat_and, BitVec.toNat_setWidth, show (0x0F#8).toNat = 2^4 - 1 from rfl,
      Nat.and_two_pow_sub_one_eq_mod]
    omega
  rw [hnibble]
  exact htable _ (Nat.mod_lt _ (by decide))

theorem dec_digit (number : BitVec 64) :
    (number % 10#64 + 0x30#64).setWidth 8 = digitChar (number.toNat % 10) := by
  have hdigit : (number % 10#64).toNat = number.toNat % 10 := BitVec.toNat_umod
  apply BitVec.eq_of_toNat_eq
  rw [BitVec.toNat_setWidth, BitVec.toNat_add, hdigit, digitChar, if_pos (Nat.mod_lt _ (by decide)),
    BitVec.toNat_ofNat, BitVec.toNat_ofNat]
  omega

theorem hexLoop_zero (i : BitVec 8) (buf : List Byte) : hexLoop 0 i buf = some (i, buf) := by
  rw [hexLoop, dif_neg (by decide)]

theorem hexLoop_pos {hexNum : BitVec 64} (h : 0 < hexNum.toNat) (i : BitVec 8) (buf : List Byte) :
    hexLoop hexNum i buf = (setByte buf i (digitChar (hexNum.toNat % 16))).bind
      (hexLoop (BitVec.ofNat 64 (hexNum.toNat / 16)) (i + 1#8)) := by
  have hnext : hexNum >>> 4 = BitVec.ofNat 64 (hexNum.toNat / 16) := by
    apply BitVec.eq_of_toNat_eq
    rw [BitVec.toNat_ushiftRight, Nat.shiftRight_eq_div_pow, BitVec.toNat_ofNat]
    omega
  have hpos : hexNum > 0 := h
  rw [hexLoop, dif_pos hpos]
  dsimp only
  rw [nibble_digit, Option.bind_eq_bind, Option.bind_some, hnext]
  rfl

theorem decLoop_zero (i : BitVec 8) (buf : List Byte) : decLoop 0 i buf = some (i, buf) := by
  rw [decLoop, dif_neg (by decide)]

theorem decLoop_pos {number : BitVec 64} (h : 0 < number.toNat) (i : BitVec 8) (buf : List Byte) :
    decLoop number i buf = (setByte buf i (digitChar (number.toNat % 10))).bind
      (decLoop (BitVec.ofNat 64 (number.toNat / 10)) (i + 1#8)) := by
  have hnext : number / 10#64 = BitVec.ofNat 64 (number.toNat / 10) := by
    have hdiv : (number / 10#64).toNat = number.toNat / 10 := BitVec.toNat_udiv
    apply BitVec.eq_of_toNat_eq
    rw [hdiv, BitVec.toNat_ofNat]
    omega
  have hpos : number > 0 := h
  rw [decLoop, dif_pos hpos, dec_digit, hnext]
  rfl

/-- A loop that stores the lowest digit and goes on with the others. -/
structure DigitLoop (base : Nat) (loop : BitVec 64 → BitVec 8 → List Byte → Option (BitVec 8 × List Byte)) :
    Prop where
  base_gt : 1 < base
  stop : ∀ i buf, loop 0#64 i buf = some (i, buf)
  step : ∀ number i buf, 0 < number.toNat → loop number i buf =
    (setByte buf i (digitChar (number.toNat % base))).bind
      (loop (BitVec.ofNat 64 (number.toNat / base)) (i + 1#8))

theorem hexLoop_digits : DigitLoop 16 hexLoop :=
  ⟨by decide, hexLoop_zero, fun _ i buf h => hexLoop_pos h i buf⟩

theorem decLoop_digits : DigitLoop 10 decLoop :=
  ⟨by decide, decLoop_zero, fun _ i buf h => decLoop_pos h i buf⟩

section
variable {base : Nat} {loop : BitVec 64 → BitVec 8 → List Byte → Option (BitVec 8 × List Byte)}

/-- It stores the digits behind what is in the buffer. The induction is on the
    number. -/
theorem digits_stored (hloop : DigitLoop base loop) (n : Nat) (hn : n < 2^64) : ∀ {i : BitVec 8}
    (read more : List Byte), i.toNat = read.length → (lowDigits base n).length ≤ more.length →
    read.length + more.length < 256 →
    loop (BitVec.ofNat 64 n) i (read ++ more) =
      some (BitVec.ofNat 8 (read.length + (lowDigits base n).length),
        (read ++ lowDigits base n) ++ more.drop (lowDigits base n).length) := by
  induction n using Nat.strongRecOn with
  | ind n ih =>
    intro i read more hi hroom hsize
    rcases Nat.eq_zero_or_pos n with rfl | hpos
    · rw [hloop.stop, lowDigits_zero, List.append_nil, List.length_nil, Nat.add_zero,
        List.drop_zero, ← hi, BitVec.ofNat_toNat, BitVec.setWidth_eq]
    · have hval : (BitVec.ofNat 64 n).toNat = n := by
        rw [BitVec.toNat_ofNat, Nat.mod_eq_of_lt hn]
      have hless := Nat.div_lt_self hpos hloop.base_gt
      rw [lowDigits_pos hloop.base_gt hpos, List.length_cons] at hroom
      have hi' : (i + 1#8).toNat = (read ++ [digitChar (n % base)]).length := by
        rw [BitVec.toNat_add, List.length_append, List.length_singleton, hi]
        exact Nat.mod_eq_of_lt (by rw [BitVec.toNat_ofNat]; omega)
      have hrec := ih (n / base) hless (by omega) (read ++ [digitChar (n % base)]) (more.drop 1) hi'
        (by rw [List.length_drop]; omega)
        (by rw [List.length_append, List.length_singleton, List.length_drop]; omega)
      rw [hloop.step _ _ _ (by omega), hval, setByte_next read more hi (by omega), Option.bind_some, hrec,
        lowDigits_pos hloop.base_gt hpos, List.length_cons]
      simp only [List.length_append, List.length_singleton, List.append_assoc, List.drop_drop,
        List.singleton_append, Nat.add_comm 1, Nat.add_assoc]

end

/-- Swapping the ends of a part of the buffer until the indices meet reverses
    that part. The induction takes both ends off. -/
theorem swapLoop_reverse (part : List Byte) : ∀ {j i : BitVec 8} (before behind : List Byte),
    j.toNat = before.length → i.toNat + 1 = before.length + part.length →
    swapLoop (before ++ part ++ behind) j i = some (before ++ part.reverse ++ behind) := by
  induction part using List.bidirectionalRec with
  | nil =>
    intro j i before behind hj hi
    have hmet : ¬ j < i := by
      rw [BitVec.lt_def]
      rw [List.length_nil] at hi
      omega
    rw [swapLoop, dif_neg hmet, List.reverse_nil]
  | singleton x =>
    intro j i before behind hj hi
    have hmet : ¬ j < i := by
      rw [BitVec.lt_def]
      rw [List.length_singleton] at hi
      omega
    rw [swapLoop, dif_neg hmet, List.reverse_singleton]
  | cons_append x part y ih =>
    intro j i before behind hj hi
    rw [List.length_cons, List.length_append, List.length_singleton] at hi
    have hlt : j < i := by
      rw [BitVec.lt_def]
      omega
    have hfront : before ++ (x :: (part ++ [y])) ++ behind = before ++ (x :: (part ++ y :: behind)) := by simp
    have hback : before ++ (y :: (part ++ y :: behind)) = (before ++ y :: part) ++ (y :: behind) := by simp
    have hlast : i.toNat = (before ++ y :: part).length := by
      rw [List.length_append, List.length_cons]
      omega
    have hx : (before ++ (x :: (part ++ y :: behind)))[j.toNat]? = some x := by
      rw [hj, List.getElem?_append_right (Nat.le_refl _), Nat.sub_self]
      rfl
    have hy : (before ++ (x :: (part ++ y :: behind)))[i.toNat]? = some y := by
      rw [List.getElem?_append_right (by omega), show i.toNat - before.length = part.length + 1 by omega,
        List.getElem?_cons_succ, List.getElem?_append_right (Nat.le_refl _), Nat.sub_self]
      rfl
    have hj' : (j + 1).toNat = (before ++ [y]).length := by
      rw [List.length_append, List.length_singleton]
      bv_omega
    have hi' : (i - 1).toNat + 1 = (before ++ [y]).length + part.length := by
      rw [List.length_append, List.length_singleton]
      bv_omega
    rw [swapLoop, dif_pos hlt, hfront, hx, hy]
    simp only [Option.bind_eq_bind, Option.bind_some]
    rw [setByte_next before _ hj (by simp), Option.bind_some, List.drop_one, List.tail_cons, List.append_assoc,
      List.singleton_append, hback, setByte_next _ _ hlast (by simp), Option.bind_some, List.drop_one, List.tail_cons]
    have hrec := ih (before ++ [y]) (x :: behind) hj' hi'
    simp only [List.append_assoc, List.cons_append, List.nil_append, List.reverse_cons, List.reverse_append,
      List.reverse_nil] at hrec ⊢
    exact hrec

/-! The two functions. -/

/-- The digits that are in the buffer when the loops are done: one for 0. -/
def storedDigits (base n : Nat) : List Byte := if n = 0 then [0x30] else lowDigits base n

theorem numeral_eq (base n : Nat) : numeral base n = (storedDigits base n).reverse := by
  rw [numeral, storedDigits]
  by_cases hn : n = 0
  · rw [if_pos hn, if_pos hn, List.reverse_singleton]
  · rw [if_neg hn, if_neg hn, lowDigits, List.map_reverse]

theorem storedDigits_length {base n k : Nat} (hbase : 1 < base) (hk : 0 < k) (hn : n < base ^ k) :
    0 < (storedDigits base n).length ∧ (storedDigits base n).length ≤ k := by
  rw [storedDigits]
  by_cases hzero : n = 0
  · rw [if_pos hzero, List.length_singleton]
    exact ⟨Nat.one_pos, hk⟩
  · rw [if_neg hzero]
    refine ⟨?_, lowDigits_length_le hbase hn⟩
    rw [lowDigits_pos hbase (Nat.pos_of_ne_zero hzero), List.length_cons]
    exact Nat.succ_pos _

/-- The end of the string and the reversal, when `str` is in the buffer. -/
theorem finish_string {i : BitVec 8} (str more : List Byte) (hi : i.toNat = str.length) (hpos : 0 < str.length)
    (hroom : 0 < more.length) :
    ((setByte (str ++ more) i 0).bind (fun buf => swapLoop buf 0 (i - 1))) =
      some (str.reverse ++ 0 :: more.drop 1) := by
  have hlast : (i - 1).toNat + 1 = ([] : List Byte).length + str.length := by
    rw [List.length_nil]
    bv_omega
  have hswap := swapLoop_reverse str (j := 0) [] (0 :: more.drop 1) rfl hlast
  rw [setByte_next str more hi hroom, Option.bind_some, List.append_assoc]
  exact hswap

/-- After the loop, when it has something to do. -/
theorem loop_stored {base : Nat} {loop : BitVec 64 → BitVec 8 → List Byte → Option (BitVec 8 × List Byte)}
    (hloop : DigitLoop base loop) {buf : List Byte} (hbuf : buf.length = staticSize) {number : BitVec 64}
    (hne : number ≠ 0) (hlen : (storedDigits base number.toNat).length ≤ 20) :
    ∃ more, (storedDigits base number.toNat).length + more.length = staticSize ∧
      loop number 0#8 buf =
        some (BitVec.ofNat 8 (storedDigits base number.toNat).length, storedDigits base number.toNat ++ more) := by
  have hstored : storedDigits base number.toNat = lowDigits base number.toNat :=
    if_neg (fun h => hne (BitVec.eq_of_toNat_eq h))
  rw [hstored] at hlen ⊢
  rw [staticSize] at hbuf ⊢
  have hrun := digits_stored hloop number.toNat number.isLt (i := 0#8) [] buf rfl (by omega)
    (by rw [List.length_nil]; omega)
  refine ⟨buf.drop (lowDigits base number.toNat).length, ?_, ?_⟩
  · rw [List.length_drop]
    omega
  · rw [BitVec.ofNat_toNat, BitVec.setWidth_eq, List.nil_append, List.nil_append, List.length_nil,
      Nat.zero_add] at hrun
    exact hrun

theorem hex_digits_le (hexNum : BitVec 64) : 0 < (storedDigits 16 hexNum.toNat).length ∧
    (storedDigits 16 hexNum.toNat).length ≤ 16 :=
  storedDigits_length (by decide) (by decide) hexNum.isLt

theorem dec_digits_le (number : BitVec 64) : 0 < (storedDigits 10 number.toNat).length ∧
    (storedDigits 10 number.toNat).length ≤ 20 :=
  storedDigits_length (by decide) (by decide) (Nat.lt_trans number.isLt (by decide))

theorem hex_stored {buf : List Byte} (hbuf : buf.length = staticSize) (hexNum : BitVec 64) :
    ∃ more, (storedDigits 16 hexNum.toNat).length + more.length = staticSize ∧
      ((hexStart buf hexNum).bind (fun start => hexLoop hexNum start.1 start.2)) =
        some (BitVec.ofNat 8 (storedDigits 16 hexNum.toNat).length, storedDigits 16 hexNum.toNat ++ more) := by
  by_cases hzero : hexNum = 0
  · rw [staticSize] at hbuf ⊢
    refine ⟨0 :: buf.drop 2, ?_, ?_⟩
    · rw [hzero]
      show 1 + (buf.drop 2).length.succ = 80
      rw [List.length_drop]
      omega
    · have hfirst := setByte_next [] buf (i := 0) rfl (by omega) 0x30
      have hsecond := setByte_next [0x30] (buf.drop 1) (i := 1) rfl (by rw [List.length_drop]; omega) 0
      rw [List.nil_append] at hfirst
      rw [hexStart, if_pos hzero, Option.bind_eq_bind, hfirst, Option.bind_some, List.nil_append, hsecond,
        Option.bind_some, Option.bind_some, hzero, hexLoop_zero, List.drop_drop]
      rfl
  · have hlen := (hex_digits_le hexNum).2
    rw [hexStart, if_neg hzero, Option.bind_some]
    exact loop_stored hexLoop_digits hbuf hzero (by omega)

theorem dec_stored {buf : List Byte} (hbuf : buf.length = staticSize) (number : BitVec 64) :
    ∃ more, (storedDigits 10 number.toNat).length + more.length = staticSize ∧
      ((decStart buf number).bind (fun start => decLoop number start.1 start.2)) =
        some (BitVec.ofNat 8 (storedDigits 10 number.toNat).length, storedDigits 10 number.toNat ++ more) := by
  by_cases hzero : number = 0
  · rw [staticSize] at hbuf ⊢
    refine ⟨buf.drop 1, ?_, ?_⟩
    · rw [hzero]
      show 1 + (buf.drop 1).length = 80
      rw [List.length_drop]
      omega
    · have hfirst := setByte_next [] buf (i := 0) rfl (by omega) 0x30
      rw [List.nil_append] at hfirst
      rw [decStart, if_pos hzero, Option.bind_eq_bind, hfirst, Option.bind_some, List.nil_append,
        Option.bind_some, hzero, decLoop_zero]
      rfl
  · rw [decStart, if_neg hzero, Option.bind_some]
    exact loop_stored decLoop_digits hbuf hzero (dec_digits_le number).2

/-- `dec2str` leaves the numeral, an end of string and old bytes. -/
theorem dec2strStatic_text {buf : List Byte} (hbuf : buf.length = staticSize) (number : BitVec 64) :
    ∃ rest, dec2strStatic buf number = some (decText number.toNat ++ 0 :: rest) ∧
      (decText number.toNat ++ 0 :: rest).length = staticSize := by
  obtain ⟨more, hlen, hstored⟩ := dec_stored hbuf number
  obtain ⟨hpos, hle⟩ := dec_digits_le number
  have hroom : 0 < more.length := by
    rw [staticSize] at hlen
    omega
  have hnegative : decide (number < 0) = false := by
    rw [decide_eq_false_iff_not, BitVec.lt_def]
    exact Nat.not_lt_zero _
  have hend := finish_string _ more (index_toNat (by omega)) hpos hroom
  refine ⟨more.drop 1, ?_, ?_⟩
  · rw [decText, numeral_eq, ← hend]
    simp only [dec2strStatic, hnegative, Bool.false_eq_true, if_false, Option.bind_eq_bind, decSign]
    rw [← Option.bind_assoc, hstored, Option.bind_some, Option.bind_some]
  · rw [decText, numeral_eq, List.length_append, List.length_reverse, List.length_cons, List.length_drop]
    omega

/-- The digits with what pads them. -/
def paddedDigits (n : Nat) : List Byte := storedDigits 16 n ++ (if n < 16 then [0x30] else [])

theorem hexText_eq (n : Nat) : hexText n = (paddedDigits n ++ [0x78, 0x30]).reverse := by
  rw [hexText, paddedDigits, numeral_eq]
  by_cases hn : n < 16
  · simp [hn]
  · simp [hn]

theorem paddedDigits_length (hexNum : BitVec 64) : 0 < (paddedDigits hexNum.toNat).length ∧
    (paddedDigits hexNum.toNat).length ≤ 17 := by
  obtain ⟨hpos, hle⟩ := hex_digits_le hexNum
  rw [paddedDigits, List.length_append]
  split
  · rw [List.length_singleton]
    omega
  · rw [List.length_nil]
    omega

theorem hexPad_stored (hexNum : BitVec 64) (more : List Byte) (hroom : 0 < more.length) :
    ∃ rest, (paddedDigits hexNum.toNat).length + rest.length =
        (storedDigits 16 hexNum.toNat).length + more.length ∧
      hexPad hexNum (BitVec.ofNat 8 (storedDigits 16 hexNum.toNat).length)
          (storedDigits 16 hexNum.toNat ++ more) =
        some (BitVec.ofNat 8 (paddedDigits hexNum.toNat).length, paddedDigits hexNum.toNat ++ rest) := by
  obtain ⟨-, hle⟩ := hex_digits_le hexNum
  rw [hexPad, paddedDigits]
  by_cases hone : hexNum < 0x10
  · have hlt : hexNum.toNat < 16 := hone
    refine ⟨more.drop 1, ?_, ?_⟩
    · rw [if_pos hlt, List.length_append, List.length_singleton, List.length_drop]
      omega
    · rw [if_pos hone, if_pos hlt, Option.bind_eq_bind, setByte_next _ _ (index_toNat (by omega)) hroom,
        Option.bind_some, List.length_append, List.length_singleton, BitVec.ofNat_add]
      rfl
  · have hge : ¬ hexNum.toNat < 16 := hone
    refine ⟨more, ?_, ?_⟩
    · rw [if_neg hge, List.append_nil]
    · rw [if_neg hone, if_neg hge, List.append_nil]

/-- `hex2str` leaves its text, an end of string and old bytes. -/
theorem hex2strStatic_text {buf : List Byte} (hbuf : buf.length = staticSize) (hexNum : BitVec 64) :
    ∃ rest, hex2strStatic buf hexNum = some (hexText hexNum.toNat ++ 0 :: rest) ∧
      (hexText hexNum.toNat ++ 0 :: rest).length = staticSize := by
  obtain ⟨more, hlen, hstored⟩ := hex_stored hbuf hexNum
  obtain ⟨-, hle⟩ := hex_digits_le hexNum
  rw [staticSize] at hlen
  obtain ⟨more', hlen', hpad⟩ := hexPad_stored hexNum more (by omega)
  obtain ⟨hpos, hle'⟩ := paddedDigits_length hexNum
  have hx := setByte_next (paddedDigits hexNum.toNat) more' (index_toNat (by omega)) (by omega) 0x78
  have hi₁ : (BitVec.ofNat 8 (paddedDigits hexNum.toNat).length + 1).toNat =
      (paddedDigits hexNum.toNat ++ [0x78]).length := by
    rw [List.length_append, List.length_singleton]
    bv_omega
  have hzero := setByte_next _ (more'.drop 1) hi₁ (by rw [List.length_drop]; omega) 0x30
  have hi₂ : (BitVec.ofNat 8 (paddedDigits hexNum.toNat).length + 2).toNat =
      (paddedDigits hexNum.toNat ++ [0x78] ++ [0x30]).length := by
    rw [List.length_append, List.length_append, List.length_singleton, List.length_singleton]
    bv_omega
  have hend := finish_string _ ((more'.drop 1).drop 1) hi₂ (by simp)
    (by rw [List.length_drop, List.length_drop]; omega)
  refine ⟨((more'.drop 1).drop 1).drop 1, ?_, ?_⟩
  · rw [hexText_eq, show paddedDigits hexNum.toNat ++ [0x78, 0x30] = paddedDigits hexNum.toNat ++ [0x78] ++ [0x30]
      by simp, ← hend]
    simp only [hex2strStatic, Option.bind_eq_bind]
    rw [← Option.bind_assoc, hstored, Option.bind_some, hpad, Option.bind_some, hx, Option.bind_some, hzero,
      Option.bind_some]
  · rw [hexText_eq, List.length_append, List.length_reverse, List.length_cons, List.length_append,
      List.length_drop, List.length_drop, List.length_drop, staticSize]
    simp only [List.length_cons, List.length_nil]
    omega

/-! What the texts are. -/

theorem digitChar_ne_zero {d : Nat} (hd : d < 16) : digitChar d ≠ 0 := by
  have hall : ∀ d, d < 16 → digitChar d ≠ 0 := by decide
  exact hall d hd

theorem digitValue_digitChar {d : Nat} (hd : d < 16) : digitValue (digitChar d) = d := by
  have hall : ∀ d, d < 16 → digitValue (digitChar d) = d := by decide
  exact hall d hd

theorem digit_lt {base n d : Nat} (hbase : 1 < base) (hle : base ≤ 16) (hd : d ∈ Nat.digits base n) : d < 16 :=
  Nat.lt_of_lt_of_le (Nat.digits_lt_base hbase hd) hle

theorem numeral_chars {base : Nat} (hbase : 1 < base) (hle : base ≤ 16) (n : Nat) :
    ∀ c ∈ numeral base n, c ≠ 0 := by
  intro c hc
  rw [numeral] at hc
  split at hc
  · rw [List.mem_singleton.mp hc]
    decide
  · obtain ⟨d, hd, rfl⟩ := List.mem_map.mp hc
    exact digitChar_ne_zero (digit_lt hbase hle (List.mem_reverse.mp hd))

theorem hexText_chars (n : Nat) : ∀ c ∈ hexText n, c ≠ 0 := by
  have hnumeral := numeral_chars (show 1 < 16 by decide) (Nat.le_refl 16) n
  refine List.forall_mem_append.mpr ⟨by decide, ?_⟩
  split
  · exact List.forall_mem_cons.mpr ⟨by decide, hnumeral⟩
  · exact hnumeral

/-- A numeral starts with a digit that is not 0. -/
theorem numeral_head {base n : Nat} (hbase : 1 < base) (hle : base ≤ 16) (hn : n ≠ 0) :
    (numeral base n).head? ≠ some 0x30 := by
  have hne : Nat.digits base n ≠ [] := Nat.digits_ne_nil_iff_ne_zero.mpr hn
  have hlast := Nat.getLast_digit_ne_zero base hn
  have hchar : ∀ d, d < 16 → digitChar d = 0x30 → d = 0 := by decide
  rw [numeral, if_neg hn, List.head?_map, List.head?_reverse, List.getLast?_eq_some_getLast hne, Option.map_some,
    ne_eq, Option.some.injEq]
  intro hzero
  exact hlast (hchar _ (digit_lt hbase hle (List.getLast_mem hne)) hzero)

/-- Reading a numeral gives its number back. -/
theorem parseNumeral_numeral {base : Nat} (hbase : 1 < base) (hle : base ≤ 16) (n : Nat) :
    parseNumeral base (numeral base n) = n := by
  rw [numeral]
  by_cases hn : n = 0
  · rw [if_pos hn, hn]
    show base * 0 + 0 = 0
    rw [Nat.mul_zero]
  · have hvalues : ∀ digits : List Nat, (∀ d ∈ digits, d < 16) →
        digits.foldr (fun d n => base * n + digitValue (digitChar d)) 0 = Nat.ofDigits base digits := by
      intro digits hdigits
      induction digits with
      | nil => rfl
      | cons d digits ih =>
        obtain ⟨hd, hdigits⟩ := List.forall_mem_cons.mp hdigits
        rw [List.foldr_cons, ih hdigits, digitValue_digitChar hd, Nat.ofDigits_cons, Nat.add_comm]
    rw [if_neg hn, parseNumeral, List.foldl_map, List.foldl_reverse,
      hvalues _ (fun d hd => digit_lt hbase hle hd), Nat.ofDigits_digits]

theorem parseNumeral_hexText (n : Nat) : parseNumeral 16 ((hexText n).drop 2) = n := by
  have hnumeral := parseNumeral_numeral (show 1 < 16 by decide) (Nat.le_refl 16) n
  have hdrop : (hexText n).drop 2 = if n < 16 then 0x30 :: numeral 16 n else numeral 16 n := rfl
  rw [hdrop]
  split
  · exact hnumeral
  · exact hnumeral

/-! The strings of `LibKern` are these texts. -/

theorem digitLoop_eq {base : Nat} (hbase : 1 < base) (digit : Nat → Byte) {digits n : Nat} (hn : n < base ^ digits) :
    digitLoop base digit digits n = (Nat.digits base n).map digit := by
  induction digits generalizing n with
  | zero =>
    have hzero : n = 0 := Nat.lt_one_iff.mp hn
    rw [hzero, digitLoop, Nat.digits_zero, List.map_nil]
  | succ digits ih =>
    rw [digitLoop]
    by_cases hpos : n > 0
    · have hless : n / base < base ^ digits := by
        rw [Nat.div_lt_iff_lt_mul (by omega), ← Nat.pow_succ]
        exact hn
      rw [if_pos hpos, ih hless, Nat.digits_def' hbase hpos, List.map_cons]
    · have hzero : n = 0 := by omega
      rw [if_neg hpos, hzero, Nat.digits_zero, List.map_nil]

theorem hex2str_eq (hexNum : BitVec 64) : hex2str hexNum = hexText hexNum.toNat := by
  have hloop := digitLoop_eq (show 1 < 16 by decide) digitChar
    (Nat.lt_of_lt_of_le hexNum.isLt (show 2^64 ≤ 16^64 by decide))
  have hzero : hexNum = 0 ↔ hexNum.toNat = 0 := BitVec.toNat_eq
  have hdigits : (if hexNum = 0 then [0x30] else digitLoop 16 digitChar 64 hexNum.toNat) =
      storedDigits 16 hexNum.toNat := by
    rw [storedDigits, hloop, lowDigits]
    simp only [hzero]
  have hchar : (fun d => BitVec.ofNat 8 (if d < 10 then d + 0x30 else d + 0x37)) = digitChar := rfl
  rw [hexText_eq, paddedDigits, hex2str, hchar, hdigits]
  split
  · rfl
  · rw [List.append_nil]

theorem dec2str_eq (number : BitVec 64) : dec2str number = decText number.toNat := by
  have hdigit : ∀ digits : List Nat, (∀ d ∈ digits, d < 10) →
      digits.map (fun d => BitVec.ofNat 8 (d + 0x30)) = digits.map digitChar := by
    intro digits hdigits
    apply List.map_congr_left
    intro d hd
    rw [digitChar, if_pos (hdigits d hd)]
  have hzero : number = 0 ↔ number.toNat = 0 := BitVec.toNat_eq
  rw [dec2str, decText, numeral, digitLoop_eq (by decide) _
    (Nat.lt_of_lt_of_le number.isLt (show 2^64 ≤ 10^64 by decide)),
    hdigit _ (fun d hd => Nat.digits_lt_base (by decide) hd), List.map_reverse]
  simp only [hzero]

/-- **Numbers are formatted so that they can be read back.** For every number
    and whatever the static buffers held: `hex2str` and `dec2str` write no byte
    behind the 80 of their buffers and leave a string there that depends on the
    number alone, `0x` and the hexadecimal numeral, one digit padded to two, and
    the decimal numeral. These have no leading zero, and reading them gives the
    number. -/
theorem number_strings (hexString decString : List Byte) (hhex : hexString.length = staticSize)
    (hdec : decString.length = staticSize) (n : BitVec 64) :
    (∃ rest, hex2strStatic hexString n = some (hexText n.toNat ++ 0 :: rest) ∧
      (hexText n.toNat ++ 0 :: rest).length = staticSize) ∧
    (∃ rest, dec2strStatic decString n = some (decText n.toNat ++ 0 :: rest) ∧
      (decText n.toNat ++ 0 :: rest).length = staticSize) ∧
    (∀ c ∈ hexText n.toNat, c ≠ 0) ∧ (∀ c ∈ decText n.toNat, c ≠ 0) ∧
    (n ≠ 0 → (numeral 16 n.toNat).head? ≠ some 0x30 ∧ (decText n.toNat).head? ≠ some 0x30) ∧
    parseNumeral 16 ((hexText n.toNat).drop 2) = n.toNat ∧ parseNumeral 10 (decText n.toNat) = n.toNat := by
  refine ⟨hex2strStatic_text hhex n, dec2strStatic_text hdec n, hexText_chars _,
    numeral_chars (by decide) (by decide) _, ?_, parseNumeral_hexText _,
    parseNumeral_numeral (by decide) (by decide) _⟩
  intro hn
  have hne : n.toNat ≠ 0 := fun h => hn (BitVec.eq_of_toNat_eq h)
  exact ⟨numeral_head (by decide) (by decide) hne, numeral_head (by decide) (by decide) hne⟩

/-- 254 behind what longer numbers left. -/
theorem number_strings_fe :
    ∃ rest rest', hex2strStatic (List.replicate 80 0x37) 254 = some ([0x30, 0x78, 0x46, 0x45] ++ 0 :: rest) ∧
      dec2strStatic (List.replicate 80 0x37) 254 = some ([0x32, 0x35, 0x34] ++ 0 :: rest') := by
  obtain ⟨⟨rest, hhex, -⟩, ⟨rest', hdec, -⟩, -⟩ :=
    number_strings (List.replicate 80 0x37) (List.replicate 80 0x37) rfl rfl 254
  have hhexText : hexText (254#64).toNat = [0x30, 0x78, 0x46, 0x45] := by
    simp [hexText, numeral, digitChar]
  have hdecText : decText (254#64).toNat = [0x32, 0x35, 0x34] := by
    simp [decText, numeral, digitChar]
  refine ⟨rest, rest', ?_, ?_⟩
  · rw [← hhexText]
    exact hhex
  · rw [← hdecText]
    exact hdec

end Qnixx
