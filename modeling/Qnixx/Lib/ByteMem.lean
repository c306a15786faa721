import Mathlib.Algebra.Group.Nat.Defs
import Mathlib.Tactic.Common

/- Byte-addressed memory with a 64-bit address space. A memory is a total
   function from addresses to bytes, so a store past the end of an object is
   a store to whatever lies there, as on the machine. Words are little
   endian. Address arithmetic wraps, and the disjointness of two accesses is
   stated on wrapped differences (`Apart`), so no lemma needs a bound that
   keeps an access from wrapping. -/
namespace ByteMem

/-- One byte at every address. -/
abbrev Mem := BitVec 64 → BitVec 8

/-- `x` is one of the `n` bytes from `a` on. -/
def Inside (a : BitVec 64) (n : Nat) (x : BitVec 64) : Prop := (x - a).toNat < n

instance (a : BitVec 64) (n : Nat) (x : BitVec 64) : Decidable (Inside a n x) :=
  inferInstanceAs (Decidable ((x - a).toNat < n))

/-- The 8-byte words at `a` and `b` have no byte in common. -/
def Apart (a b : BitVec 64) : Prop := 8 ≤ (a - b).toNat ∧ 8 ≤ (b - a).toNat

def load64 (m : Mem) (a : BitVec 64) : BitVec 64 :=
  m (a + 7) ++ m (a + 6) ++ m (a + 5) ++ m (a + 4) ++ m (a + 3) ++ m (a + 2) ++ m (a + 1) ++ m a

def load16 (m : Mem) (a : BitVec 64) : BitVec 16 := m (a + 1) ++ m a

def load32 (m : Mem) (a : BitVec 64) : BitVec 32 := m (a + 3) ++ m (a + 2) ++ m (a + 1) ++ m a

def store8 (m : Mem) (a : BitVec 64) (v : BitVec 8) : Mem := fun x => if x = a then v else m x

def store64 (m : Mem) (a v : BitVec 64) : Mem := fun x =>
  if Inside a 8 x then v.extractLsb' (8 * (x - a).toNat) 8 else m x

/-- The `n` bytes from `a` on set to `v`. -/
def fill (m : Mem) (a : BitVec 64) (n : Nat) (v : BitVec 8) : Mem := fun x =>
  if Inside a n x then v else m x

/-- The bytes `bs` written from `a` on. -/
def storeBytes (m : Mem) (a : BitVec 64) (bs : List (BitVec 8)) : Mem := fun x =>
  (bs[(x - a).toNat]?).getD (m x)

/-- The `n` bytes from `a` on. -/
def loadBytes (m : Mem) (a : BitVec 64) (n : Nat) : List (BitVec 8) :=
  (List.range n).map (fun i => m (a + BitVec.ofNat 64 i))

/-- The memory from `a` on starts with `bs`. -/
def Holds (m : Mem) (a : BitVec 64) (bs : List (BitVec 8)) : Prop :=
  ∀ i b, bs[i]? = some b → m (a + BitVec.ofNat 64 i) = b

/-- The bytes of a word, the low one first. -/
def bytes16 (v : BitVec 16) : List (BitVec 8) := [v.extractLsb' 0 8, v.extractLsb' 8 8]

def bytes32 (v : BitVec 32) : List (BitVec 8) :=
  [v.extractLsb' 0 8, v.extractLsb' 8 8, v.extractLsb' 16 8, v.extractLsb' 24 8]

/-! Reading a word byte by byte. -/

theorem load64_bit (m : Mem) (a : BitVec 64) {i : Nat} (hi : i < 64) :
    (load64 m a).getLsbD i = (m (a + BitVec.ofNat 64 (i / 8))).getLsbD (i % 8) := by
  have hk : i / 8 < 8 := by omega
  unfold load64
  simp only [BitVec.getLsbD_append]
  obtain h | h | h | h | h | h | h | h : i / 8 = 0 ∨ i / 8 = 1 ∨ i / 8 = 2 ∨ i / 8 = 3 ∨
      i / 8 = 4 ∨ i / 8 = 5 ∨ i / 8 = 6 ∨ i / 8 = 7 := by omega
  all_goals
    rw [h]
    simp (disch := omega) only [if_pos, if_neg, BitVec.ofNat_eq_ofNat, BitVec.add_zero]
    congr 1
    omega

theorem load64_congr {m m' : Mem} {a a' : BitVec 64}
    (h : ∀ k < 8, m (a + BitVec.ofNat 64 k) = m' (a' + BitVec.ofNat 64 k)) :
    load64 m a = load64 m' a' := by
  apply BitVec.eq_of_getLsbD_eq
  intro i hi
  rw [load64_bit m a hi, load64_bit m' a' hi, h (i / 8) (by omega)]

/-- A word whose low byte is `v` is `v` iff the bytes above it are zero. -/
theorem load64_eq_byte {m : Mem} {a : BitVec 64} {v : BitVec 8} (h : m a = v) :
    load64 m a = v.setWidth 64 ↔ ∀ k, 1 ≤ k → k < 8 → m (a + BitVec.ofNat 64 k) = 0 := by
  refine ⟨?_, ?_⟩
  · intro hload k hk hk'
    apply BitVec.eq_of_getLsbD_eq
    intro i hi
    have hbit := load64_bit m a (show 8 * k + i < 64 by omega)
    rw [show (8 * k + i) / 8 = k by omega, show (8 * k + i) % 8 = i by omega, hload] at hbit
    rw [← hbit, BitVec.getLsbD_setWidth, BitVec.getLsbD_of_ge _ _ (by omega)]
    simp
  · intro hzero
    apply BitVec.eq_of_getLsbD_eq
    intro i hi
    rw [load64_bit m a hi, BitVec.getLsbD_setWidth]
    by_cases hlow : i < 8
    · rw [show i / 8 = 0 by omega, show i % 8 = i by omega, BitVec.add_zero, h]
      simp [hi]
    · rw [hzero (i / 8) (by omega) (by omega), BitVec.getLsbD_of_ge v _ (by omega)]
      simp

/-- The `k`-th byte from `a` on is at distance `k`. -/
theorem sub_ofNat (a : BitVec 64) {k : Nat} (hk : k < 2^64) :
    (a + BitVec.ofNat 64 k - a).toNat = k := by
  bv_omega

@[simp] theorem load64_store64 (m : Mem) (a v : BitVec 64) : load64 (store64 m a v) a = v := by
  apply BitVec.eq_of_getLsbD_eq
  intro i hi
  have hk : i / 8 < 8 := by omega
  rw [load64_bit _ _ hi]
  simp only [store64, Inside, sub_ofNat a (show i / 8 < 2^64 by omega), hk, if_true, BitVec.getLsbD_extractLsb']
  simp only [show i % 8 < 8 by omega, decide_true, Bool.true_and]
  congr 1
  omega

theorem load64_store64_apart (m : Mem) {a b : BitVec 64} (v : BitVec 64) (h : Apart a b) :
    load64 (store64 m a v) b = load64 m b := by
  apply load64_congr
  intro k hk
  have hout : ¬ Inside a 8 (b + BitVec.ofNat 64 k) := by
    simp only [Inside, Apart] at h ⊢
    bv_omega
  simp only [store64, hout, if_false]

/-- Bytes outside a stored word keep their value. -/
theorem store64_outside (m : Mem) {a x : BitVec 64} (v : BitVec 64) (h : ¬ Inside a 8 x) :
    store64 m a v x = m x := by
  simp only [store64, h, if_false]

/-! Blocks set to one byte. -/

theorem store64_comm (m : Mem) {a b : BitVec 64} (v w : BitVec 64) (h : Apart a b) :
    store64 (store64 m a v) b w = store64 (store64 m b w) a v := by
  have hnot : ∀ x, Inside a 8 x → ¬ Inside b 8 x := by
    intro x ha hb
    simp only [Apart, Inside] at h ha hb
    bv_omega
  funext x
  simp only [store64]
  by_cases ha : Inside a 8 x
  · rw [if_neg (hnot x ha), if_pos ha, if_pos ha]
  · rw [if_neg ha, if_neg ha]

/-- The second of two stores to one word decides it. -/
theorem store64_store64 (m : Mem) (a v w : BitVec 64) :
    store64 (store64 m a v) a w = store64 m a w := by
  funext x
  simp only [store64]
  by_cases hx : Inside a 8 x
  · rw [if_pos hx, if_pos hx]
  · rw [if_neg hx, if_neg hx, if_neg hx]

theorem load64_fill_zero (m : Mem) (a : BitVec 64) {n i : Nat} (hi : i + 8 ≤ n) (hn : n ≤ 2^64) :
    load64 (fill m a n 0) (a + BitVec.ofNat 64 i) = 0 := by
  apply BitVec.eq_of_getLsbD_eq
  intro j hj
  rw [load64_bit _ _ hj]
  have hin : Inside a n (a + BitVec.ofNat 64 i + BitVec.ofNat 64 (j / 8)) := by
    simp only [Inside]
    bv_omega
  simp only [fill, hin, if_true]
  simp

theorem load64_fill_outside (m : Mem) (a b : BitVec 64) {n : Nat} (v : BitVec 8)
    (h : ∀ k < 8, ¬ Inside a n (b + BitVec.ofNat 64 k)) :
    load64 (fill m a n v) b = load64 m b := by
  apply load64_congr
  intro k hk
  simp only [fill, h k hk, if_false]

/-! Byte strings in memory. -/

theorem holds_storeBytes (m : Mem) (a : BitVec 64) {bs : List (BitVec 8)} (hlen : bs.length ≤ 2^64) :
    Holds (storeBytes m a bs) a bs := by
  intro i b hb
  obtain ⟨hi, -⟩ := List.getElem?_eq_some_iff.mp hb
  rw [storeBytes, sub_ofNat a (by omega), hb, Option.getD_some]

/-- A store that touches none of the string's bytes leaves it there. -/
theorem Holds.storeBytes_apart {m : Mem} {a b : BitVec 64} {bs cs : List (BitVec 8)}
    (h : Holds m a bs) (hd : ∀ i < bs.length, ¬ Inside b cs.length (a + BitVec.ofNat 64 i)) :
    Holds (storeBytes m b cs) a bs := by
  intro i x hx
  obtain ⟨hi, -⟩ := List.getElem?_eq_some_iff.mp hx
  have hout := hd i hi
  rw [Inside, Nat.not_lt] at hout
  rw [storeBytes, List.getElem?_eq_none hout, Option.getD_none, h i x hx]

theorem holds_append {m : Mem} {a : BitVec 64} {bs cs : List (BitVec 8)} :
    Holds m a (bs ++ cs) ↔ Holds m a bs ∧ Holds m (a + BitVec.ofNat 64 bs.length) cs := by
  refine ⟨?_, ?_⟩
  · intro h
    refine ⟨?_, ?_⟩
    · intro i b hb
      obtain ⟨hi, -⟩ := List.getElem?_eq_some_iff.mp hb
      exact h i b (by rw [List.getElem?_append_left hi]; exact hb)
    · intro i b hb
      have := h (bs.length + i) b (by rw [List.getElem?_append_right (by omega)]; simpa using hb)
      rwa [BitVec.ofNat_add, ← BitVec.add_assoc] at this
  · rintro ⟨hbs, hcs⟩ i b hb
    by_cases hi : i < bs.length
    · rw [List.getElem?_append_left hi] at hb
      exact hbs i b hb
    · rw [List.getElem?_append_right (by omega)] at hb
      have := hcs (i - bs.length) b hb
      rwa [BitVec.add_assoc, ← BitVec.ofNat_add, show bs.length + (i - bs.length) = i by omega] at this

theorem Holds.loadBytes {m : Mem} {a : BitVec 64} {bs : List (BitVec 8)} (h : Holds m a bs) {n : Nat}
    (hn : n ≤ bs.length) : loadBytes m a n = bs.take n := by
  apply List.ext_getElem?
  intro i
  by_cases hi : i < n
  · have hb : bs[i]? = some bs[i] := List.getElem?_eq_getElem (by omega)
    rw [ByteMem.loadBytes, List.getElem?_map, List.getElem?_range hi, List.getElem?_take_of_lt hi, hb]
    exact congrArg some (h i _ hb)
  · rw [List.getElem?_take, if_neg hi, List.getElem?_eq_none]
    simp only [ByteMem.loadBytes, List.length_map, List.length_range]
    omega

theorem Holds.load16 {m : Mem} {a : BitVec 64} {v : BitVec 16} (h : Holds m a (bytes16 v)) :
    load16 m a = v := by
  have h0 : m a = v.extractLsb' 0 8 := by simpa using h 0 _ rfl
  have h1 : m (a + 1) = v.extractLsb' 8 8 := h 1 _ rfl
  rw [ByteMem.load16, h0, h1]
  apply BitVec.eq_of_getLsbD_eq
  intro i hi
  rw [BitVec.getLsbD_append, BitVec.getLsbD_extractLsb', BitVec.getLsbD_extractLsb']
  by_cases hlow : i < 8
  · simp [hlow]
  · simp [hlow, show i - 8 < 8 by omega, show 8 + (i - 8) = i by omega]

theorem Holds.load32 {m : Mem} {a : BitVec 64} {v : BitVec 32} (h : Holds m a (bytes32 v)) :
    load32 m a = v := by
  have h0 : m a = v.extractLsb' 0 8 := by simpa using h 0 _ rfl
  have h1 : m (a + 1) = v.extractLsb' 8 8 := h 1 _ rfl
  have h2 : m (a + 2) = v.extractLsb' 16 8 := h 2 _ rfl
  have h3 : m (a + 3) = v.extractLsb' 24 8 := h 3 _ rfl
  rw [ByteMem.load32, h0, h1, h2, h3]
  apply BitVec.eq_of_getLsbD_eq
  intro i hi
  simp only [BitVec.getLsbD_append, BitVec.getLsbD_extractLsb']
  obtain h | h | h | h : i / 8 = 0 ∨ i / 8 = 1 ∨ i / 8 = 2 ∨ i / 8 = 3 := by omega
  · simp [show i < 8 by omega]
  · simp [show ¬ i < 8 by omega, show i - 8 < 8 by omega, show 8 + (i - 8) = i by omega]
  · simp [show ¬ i < 8 by omega, show ¬ i - 8 < 8 by omega, show i - 8 - 8 < 8 by omega,
      show 16 + (i - 8 - 8) = i by omega]
  · simp [show ¬ i < 8 by omega, show ¬ i - 8 < 8 by omega, show ¬ i - 8 - 8 < 8 by omega,
      show i - 8 - 8 - 8 < 8 by omega, show 24 + (i - 8 - 8 - 8) = i by omega]

/-- The word behind the bytes `bs`. -/
theorem Holds.load32_after {m : Mem} {a : BitVec 64} {bs cs : List (BitVec 8)} {v : BitVec 32}
    (h : Holds m a (bs ++ (bytes32 v ++ cs))) :
    ByteMem.load32 m (a + BitVec.ofNat 64 bs.length) = v := by
  obtain ⟨-, hrest⟩ := holds_append.mp h
  exact (holds_append.mp hrest).1.load32

/-! Accesses at addresses that are numbers, where they do not wrap. -/

/-- The two memories agree from `lo` on, below `hi`. -/
def Agree (m m' : Mem) (lo hi : Nat) : Prop := ∀ x : BitVec 64, lo ≤ x.toNat → x.toNat < hi → m' x = m x

theorem Agree.trans {m m' m'' : Mem} {lo hi : Nat} (h : Agree m m' lo hi) (h' : Agree m' m'' lo hi) :
    Agree m m'' lo hi :=
  fun x hlo hhi => (h' x hlo hhi).trans (h x hlo hhi)

theorem Agree.mono {m m' : Mem} {lo hi lo' hi' : Nat} (h : Agree m m' lo hi) (hlo : lo ≤ lo') (hhi : hi' ≤ hi) :
    Agree m m' lo' hi' :=
  fun x hx hx' => h x (Nat.le_trans hlo hx) (Nat.lt_of_lt_of_le hx' hhi)

theorem toNat_ofNat_add {a k : Nat} (h : a + k < 2^64) : (BitVec.ofNat 64 a + BitVec.ofNat 64 k).toNat = a + k := by
  rw [← BitVec.ofNat_add, BitVec.toNat_ofNat, Nat.mod_eq_of_lt h]

theorem load64_agree {m m' : Mem} {a : Nat} (ha : a + 8 ≤ 2^64) (h : Agree m m' a (a + 8)) :
    load64 m' (BitVec.ofNat 64 a) = load64 m (BitVec.ofNat 64 a) := by
  apply load64_congr
  intro k hk
  have hat := toNat_ofNat_add (a := a) (k := k) (by omega)
  exact h _ (by omega) (by omega)

/-- A word that is stored elsewhere. -/
theorem agree_store64 (m : Mem) {a lo hi : Nat} (v : BitVec 64) (ha : a + 8 ≤ 2^64) (h : hi ≤ a ∨ a + 8 ≤ lo) :
    Agree m (store64 m (BitVec.ofNat 64 a) v) lo hi := by
  intro x hlo hhi
  apply store64_outside
  have hx := x.isLt
  have hmod : a % 2^64 = a := Nat.mod_eq_of_lt (by omega)
  rw [Inside, BitVec.toNat_sub, BitVec.toNat_ofNat, hmod]
  omega

theorem Holds.agree {m m' : Mem} {a : Nat} {bs : List (BitVec 8)} (h : Holds m (BitVec.ofNat 64 a) bs)
    (ha : a + bs.length ≤ 2^64) (hagree : Agree m m' a (a + bs.length)) : Holds m' (BitVec.ofNat 64 a) bs := by
  intro i b hb
  obtain ⟨hi, -⟩ := List.getElem?_eq_some_iff.mp hb
  have hat := toNat_ofNat_add (a := a) (k := i) (by omega)
  rw [hagree _ (by omega) (by omega), h i b hb]

theorem Holds.take {m : Mem} {a : BitVec 64} {bs : List (BitVec 8)} (h : Holds m a bs) (n : Nat) :
    Holds m a (bs.take n) := by
  intro i b hb
  rw [List.getElem?_take] at hb
  split at hb
  · exact h i b hb
  · cases hb

theorem holds_loadBytes (m : Mem) (a : BitVec 64) (n : Nat) : Holds m a (loadBytes m a n) := by
  intro i b hb
  obtain ⟨hi, -⟩ := List.getElem?_eq_some_iff.mp hb
  rw [loadBytes, List.length_map, List.length_range] at hi
  rw [loadBytes, List.getElem?_map, List.getElem?_range hi, Option.map_some] at hb
  exact Option.some.inj hb

end ByteMem
