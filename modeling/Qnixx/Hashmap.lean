import Mathlib.Algebra.Order.Group.Nat
import Qnixx.Acpi
import Qnixx.Lib.Crc
import Qnixx.Lib.Probing

/- The hash map (`lib/hashmap.h`): linear probing over eight slots, in a table
   that is doubled until a key finds a place. A key is a pointer `P` and a length;
   `text` is the bytes behind a pointer, and the map does not copy them. NULL is
   the default pointer and the default value. Tables come from an allocator that
   is a parameter. `none` is a slot outside of the table. -/
namespace Qnixx

variable {A C P V : Type}

structure HashmapElement (P V : Type) where
  key : P
  keyLen : Nat
  inUse : Bool
  data : V

/-- `struct hashmap_s`; `slots` is the table `data` points to. -/
structure HashmapS (P V : Type) where
  tableSize : Nat
  size : Nat
  data : Option Nat
  slots : List (HashmapElement P V)

/-- `kcalloc` and `kfree` on the allocator's state; `none` is NULL. -/
structure Kalloc (A : Type) where
  kcalloc : A → Nat → Nat → Option Nat × A
  kfree : A → Option Nat → A

def hashmapMaxChainLength : Nat := 8

/-! The hash of a key. -/

def crc32Tab : List (BitVec 32) :=
  [
0x00000000, 0xF26B8303, 0xE13B70F7, 0x1350F3F4, 0xC79A971F, 0x35F1141C, 0x26A1E7E8, 0xD4CA64EB,
    0x8AD958CF, 0x78B2DBCC, 0x6BE22838, 0x9989AB3B, 0x4D43CFD0, 0xBF284CD3, 0xAC78BF27, 0x5E133C24,
    0x105EC76F, 0xE235446C, 0xF165B798, 0x030E349B, 0xD7C45070, 0x25AFD373, 0x36FF2087, 0xC494A384,
    0x9A879FA0, 0x68EC1CA3, 0x7BBCEF57, 0x89D76C54, 0x5D1D08BF, 0xAF768BBC, 0xBC267848, 0x4E4DFB4B,
    0x20BD8EDE, 0xD2D60DDD, 0xC186FE29, 0x33ED7D2A, 0xE72719C1, 0x154C9AC2, 0x061C6936, 0xF477EA35,
    0xAA64D611, 0x580F5512, 0x4B5FA6E6, 0xB93425E5, 0x6DFE410E, 0x9F95C20D, 0x8CC531F9, 0x7EAEB2FA,
    0x30E349B1, 0xC288CAB2, 0xD1D83946, 0x23B3BA45, 0xF779DEAE, 0x05125DAD, 0x1642AE59, 0xE4292D5A,
    0xBA3A117E, 0x4851927D, 0x5B016189, 0xA96AE28A, 0x7DA08661, 0x8FCB0562, 0x9C9BF696, 0x6EF07595,
    0x417B1DBC, 0xB3109EBF, 0xA0406D4B, 0x522BEE48, 0x86E18AA3, 0x748A09A0, 0x67DAFA54, 0x95B17957,
    0xCBA24573, 0x39C9C670, 0x2A993584, 0xD8F2B687, 0x0C38D26C, 0xFE53516F, 0xED03A29B, 0x1F682198,
    0x5125DAD3, 0xA34E59D0, 0xB01EAA24, 0x42752927, 0x96BF4DCC, 0x64D4CECF, 0x77843D3B, 0x85EFBE38,
    0xDBFC821C, 0x2997011F, 0x3AC7F2EB, 0xC8AC71E8, 0x1C661503, 0xEE0D9600, 0xFD5D65F4, 0x0F36E6F7,
    0x61C69362, 0x93AD1061, 0x80FDE395, 0x72966096, 0xA65C047D, 0x5437877E, 0x4767748A, 0xB50CF789,
    0xEB1FCBAD, 0x197448AE, 0x0A24BB5A, 0xF84F3859, 0x2C855CB2, 0xDEEEDFB1, 0xCDBE2C45, 0x3FD5AF46,
    0x7198540D, 0x83F3D70E, 0x90A324FA, 0x62C8A7F9, 0xB602C312, 0x44694011, 0x5739B3E5, 0xA55230E6,
    0xFB410CC2, 0x092A8FC1, 0x1A7A7C35, 0xE811FF36, 0x3CDB9BDD, 0xCEB018DE, 0xDDE0EB2A, 0x2F8B6829,
    0x82F63B78, 0x709DB87B, 0x63CD4B8F, 0x91A6C88C, 0x456CAC67, 0xB7072F64, 0xA457DC90, 0x563C5F93,
    0x082F63B7, 0xFA44E0B4, 0xE9141340, 0x1B7F9043, 0xCFB5F4A8, 0x3DDE77AB, 0x2E8E845F, 0xDCE5075C,
    0x92A8FC17, 0x60C37F14, 0x73938CE0, 0x81F80FE3, 0x55326B08, 0xA759E80B, 0xB4091BFF, 0x466298FC,
    0x1871A4D8, 0xEA1A27DB, 0xF94AD42F, 0x0B21572C, 0xDFEB33C7, 0x2D80B0C4, 0x3ED04330, 0xCCBBC033,
    0xA24BB5A6, 0x502036A5, 0x4370C551, 0xB11B4652, 0x65D122B9, 0x97BAA1BA, 0x84EA524E, 0x7681D14D,
    0x2892ED69, 0xDAF96E6A, 0xC9A99D9E, 0x3BC21E9D, 0xEF087A76, 0x1D63F975, 0x0E330A81, 0xFC588982,
    0xB21572C9, 0x407EF1CA, 0x532E023E, 0xA145813D, 0x758FE5D6, 0x87E466D5, 0x94B49521, 0x66DF1622,
    0x38CC2A06, 0xCAA7A905, 0xD9F75AF1, 0x2B9CD9F2, 0xFF56BD19, 0x0D3D3E1A, 0x1E6DCDEE, 0xEC064EED,
    0xC38D26C4, 0x31E6A5C7, 0x22B65633, 0xD0DDD530, 0x0417B1DB, 0xF67C32D8, 0xE52CC12C, 0x1747422F,
    0x49547E0B, 0xBB3FFD08, 0xA86F0EFC, 0x5A048DFF, 0x8ECEE914, 0x7CA56A17, 0x6FF599E3, 0x9D9E1AE0,
    0xD3D3E1AB, 0x21B862A8, 0x32E8915C, 0xC083125F, 0x144976B4, 0xE622F5B7, 0xF5720643, 0x07198540,
    0x590AB964, 0xAB613A67, 0xB831C993, 0x4A5A4A90, 0x9E902E7B, 0x6CFBAD78, 0x7FAB5E8C, 0x8DC0DD8F,
    0xE330A81A, 0x115B2B19, 0x020BD8ED, 0xF0605BEE, 0x24AA3F05, 0xD6C1BC06, 0xC5914FF2, 0x37FACCF1,
    0x69E9F0D5, 0x9B8273D6, 0x88D28022, 0x7AB90321, 0xAE7367CA, 0x5C18E4C9, 0x4F48173D, 0xBD23943E,
    0xF36E6F75, 0x0105EC76, 0x12551F82, 0xE03E9C81, 0x34F4F86A, 0xC69F7B69, 0xD5CF889D, 0x27A40B9E,
    0x79B737BA, 0x8BDCB4B9, 0x988C474D, 0x6AE7C44E, 0xBE2DA0A5, 0x4C4623A6, 0x5F16D052, 0xAD7D5351]

def hashmapCrc32Helper (s : List Byte) : BitVec 32 :=
  s.foldl (fun crc32val b =>
    crc32Tab.getD (crc32val.setWidth 8 ^^^ b).toNat 0 ^^^ (crc32val >>> 8)) 0

/-- The mixing steps of `hashmap_hash_helper_int_helper`. -/
def hashmapMix (key : BitVec 32) : BitVec 32 :=
  let key := key + (key <<< 12)
  let key := key ^^^ (key >>> 22)
  let key := key + (key <<< 4)
  let key := key ^^^ (key >>> 9)
  let key := key + (key <<< 10)
  let key := key ^^^ (key >>> 2)
  let key := key + (key <<< 7)
  let key := key ^^^ (key >>> 12)
  (key >>> 3) * 2654435761

/-- The hash of a key before it is reduced to the table. -/
def hashmapHome (s : List Byte) : Nat := (hashmapMix (hashmapCrc32Helper s)).toNat

def hashmapHashHelperIntHelper (m : HashmapS P V) (keystring : List Byte) : Nat :=
  hashmapHome keystring % m.tableSize

/-! The table. -/

section
variable [Inhabited P] [Inhabited V]

/-- What `memset` to 0 makes of an element. -/
def HashmapElement.zero : HashmapElement P V := { key := default, keyLen := 0, inUse := false, data := default }

/-- `out` is what the structure held before; on a failure parts of it stay. -/
def hashmapCreate (K : Kalloc A) (initialSize : Nat) (out : HashmapS P V) (a : A) : Nat × HashmapS P V × A :=
  let out := { out with tableSize := initialSize, size := 0 }
  if initialSize = 0 ∨ initialSize &&& (initialSize - 1) ≠ 0 then (1, out, a)
  else
    match K.kcalloc a initialSize 24 with
    | (none, a) => (1, { out with data := none, slots := [] }, a)
    | (some data, a) => (0, { out with data := some data, slots := List.replicate initialSize .zero }, a)

end

/-- The first of `n` slots from `curr` on that `p` accepts. -/
def hashmapProbe (m : HashmapS P V) (p : HashmapElement P V → Bool) : Nat → Nat → Option (Option Nat)
  | 0, _ => some none
  | n + 1, curr => do
    let e ← m.slots[curr]?
    if p e then some (some curr) else hashmapProbe m p n ((curr + 1) % m.tableSize)

/-- `total_in_use` of `n` slots from `curr` on. -/
def totalInUse (m : HashmapS P V) : Nat → Nat → Option Nat
  | 0, _ => some 0
  | n + 1, curr => do
    let e ← m.slots[curr]?
    let rest ← totalInUse m n ((curr + 1) % m.tableSize)
    some (rest + e.inUse.toNat)

/-- `hashmap_iterate_pairs` from slot `i` on; `f` may ask for the removal of the
    element it gets. -/
def iteratePairsLoop [Inhabited P] [Inhabited V] (f : C → HashmapElement P V → Option (Int × C)) :
    Nat → Nat → HashmapS P V → C → Option (Nat × HashmapS P V × C)
  | 0, _, m, context => some (0, m, context)
  | n + 1, i, m, context => do
    let e ← m.slots[i]?
    if e.inUse then
      let (r, context) ← f context e
      if r = -1 then
        iteratePairsLoop f n (i + 1)
          { m with slots := m.slots.set i .zero, size := (m.size + (2^32 - 1)) % 2^32 } context
      else if r = 0 then iteratePairsLoop f n (i + 1) m context
      else some (1, m, context)
    else iteratePairsLoop f n (i + 1) m context

def hashmapIteratePairs [Inhabited P] [Inhabited V] (m : HashmapS P V)
    (f : C → HashmapElement P V → Option (Int × C)) (context : C) : Option (Nat × HashmapS P V × C) :=
  iteratePairsLoop f m.tableSize 0 m context

section
variable (text : P → Nat → Byte)

/-- The bytes of a key. -/
def keyBytes (key : P) (len : Nat) : List Byte := (List.range len).map (text key)

def hashmapMatchHelper (element : HashmapElement P V) (key : P) (len : Nat) : Bool :=
  element.keyLen == len && memcmp (text element.key) (text key) 0 len == 0

/-- The slot for a key; the inner `none` is the return value 0. -/
def hashmapHashHelper (m : HashmapS P V) (key : P) (len : Nat) : Option (Option Nat) :=
  if m.size ≥ m.tableSize then some none
  else do
    let start := hashmapHashHelperIntHelper m (keyBytes text key len)
    match ← hashmapProbe m (fun e => e.inUse && hashmapMatchHelper text e key len) hashmapMaxChainLength start with
    | some index => some (some index)
    | none =>
      let total ← totalInUse m hashmapMaxChainLength start
      if hashmapMaxChainLength > total then
        hashmapProbe m (fun e => !e.inUse) hashmapMaxChainLength start
      else some none

/-- The loop of `hashmap_get` and of the two removals: the slot of a key. -/
def hashmapFind (m : HashmapS P V) (key : P) (len : Nat) : Option (Option Nat) :=
  hashmapProbe m (fun e => e.inUse && hashmapMatchHelper text e key len) hashmapMaxChainLength
    (hashmapHashHelperIntHelper m (keyBytes text key len))

section
variable [Inhabited P] [Inhabited V]

def hashmapGet (m : HashmapS P V) (key : P) (len : Nat) : Option V := do
  match ← hashmapFind text m key len with
  | some curr => (m.slots[curr]?).map (·.data)
  | none => some default

def hashmapRemove (m : HashmapS P V) (key : P) (len : Nat) : Option (Nat × HashmapS P V) := do
  match ← hashmapFind text m key len with
  | some curr =>
    some (0, { m with slots := m.slots.set curr .zero, size := (m.size + (2^32 - 1)) % 2^32 })
  | none => some (1, m)

/-- The element keeps its `key_len`, unlike in `hashmap_remove`. -/
def hashmapRemoveAndReturnKey (m : HashmapS P V) (key : P) (len : Nat) : Option (P × HashmapS P V) := do
  match ← hashmapFind text m key len with
  | some curr =>
    let e ← m.slots[curr]?
    let blank := { e with inUse := false, data := default, key := default }
    some (e.key, { m with slots := m.slots.set curr blank, size := (m.size + (2^32 - 1)) % 2^32 })
  | none => some (default, m)

/-- The end of `hashmap_put`. -/
def HashmapS.store (m : HashmapS P V) (index : Nat) (key : P) (len : Nat) (value : V) : Option (HashmapS P V) := do
  let e ← m.slots[index]?
  some { m with
    slots := m.slots.set index { key := key, keyLen := len, inUse := true, data := value }
    size := if e.inUse then m.size else (m.size + 1) % 2^32 }

variable (K : Kalloc A)

def hashmapDestroy (m : HashmapS P V) (a : A) : HashmapS P V × A :=
  ({ tableSize := 0, size := 0, data := none, slots := [] }, K.kfree a m.data)

/-- `hashmap_rehash_iterator`, with the map it fills and the allocator as its
    context; `put` is `hashmap_put`. -/
def hashmapRehashIterator (put : HashmapS P V → P → Nat → V → A → Option (Nat × HashmapS P V × A))
    (newHash : HashmapS P V × A) (e : HashmapElement P V) : Option (Int × (HashmapS P V × A)) := do
  let (temp, new) ← put newHash.1 e.key e.keyLen e.data newHash.2
  some (if 0 < temp then 1 else -1, new)

def hashmapRehashHelper (put : HashmapS P V → P → Nat → V → A → Option (Nat × HashmapS P V × A))
    (m : HashmapS P V) (a : A) : Option (Nat × HashmapS P V × A) :=
  let newSize := 2 * m.tableSize % 2^32
  let (flag, newHash, a) := hashmapCreate K newSize { tableSize := 0, size := 0, data := none, slots := [] } a
  if flag ≠ 0 then some (flag, m, a)
  else do
    let (flag, m, newHash, a) ← hashmapIteratePairs m (hashmapRehashIterator put) (newHash, a)
    if flag ≠ 0 then some (flag, m, a)
    else some (0, newHash, (hashmapDestroy K m a).2)

/-- `hashmap_put`; `fuel` bounds the depth of its recursion through
    `hashmap_rehash_helper` and the turns of its loop. -/
def hashmapPutLoop : Nat → HashmapS P V → P → Nat → V → A → Option (Nat × HashmapS P V × A)
  | 0, _, _, _, _, _ => none
  | fuel + 1, m, key, len, value, a =>
    match hashmapHashHelper text m key len with
    | none => none
    | some (some index) => (m.store index key len value).map (fun m => (0, m, a))
    | some none =>
      match hashmapRehashHelper K (hashmapPutLoop fuel) m a with
      | none => none
      | some (flag, m, a) => if flag ≠ 0 then some (1, m, a) else hashmapPutLoop fuel m key len value a

/-- Tables have at most `2^31` slots, so there are no more than 32 sizes. -/
def hashmapPut (m : HashmapS P V) (key : P) (len : Nat) (value : V) (a : A) : Option (Nat × HashmapS P V × A) :=
  hashmapPutLoop text K 32 m key len value a

end

end

end Qnixx
