import Qnixx.LibKern
import Qnixx.TlsfClass

/- The allocator of the kernel's heap (`mm/tlsf.c`). A pool is cut into blocks;
   the header of a block is four words from its address on:

     +0   `prev_phys_block`, in the last word of the block before
     +8   `size`, with two flags in its low bits
     +16  `next_free`, where the data of a used block starts
     +24  `prev_free`

   The blocks are in memory. The two bitmaps and the heads of the free lists
   are fields of the control structure; its null block, the end of every list,
   is in memory again. `none` is an assertion that fails, which stops the
   machine, or an index outside of the lists. -/
namespace Qnixx.Tlsf
open ByteMem

def blockHeaderFreeBit : BitVec 64 := 1
def blockHeaderPrevFreeBit : BitVec 64 := 2
def blockHeaderOverhead : BitVec 64 := 8
def blockStartOffset : BitVec 64 := 16
/-- `sizeof(block_header_t)`. -/
def blockHeaderSize : BitVec 64 := 32

def tlsfAssert (cond : Bool) : Option Unit := if cond then some () else none

/-! The header of a block. -/

def sizeField (m : Mem) (block : BitVec 64) : BitVec 64 := load64 m (block + 8)
def setSizeField (m : Mem) (block v : BitVec 64) : Mem := store64 m (block + 8) v
def prevPhysBlock (m : Mem) (block : BitVec 64) : BitVec 64 := load64 m block
def setPrevPhysBlock (m : Mem) (block v : BitVec 64) : Mem := store64 m block v
def nextFree (m : Mem) (block : BitVec 64) : BitVec 64 := load64 m (block + 16)
def setNextFree (m : Mem) (block v : BitVec 64) : Mem := store64 m (block + 16) v
def prevFree (m : Mem) (block : BitVec 64) : BitVec 64 := load64 m (block + 24)
def setPrevFree (m : Mem) (block v : BitVec 64) : Mem := store64 m (block + 24) v

def blockSize (m : Mem) (block : BitVec 64) : BitVec 64 :=
  sizeField m block &&& ~~~(blockHeaderFreeBit ||| blockHeaderPrevFreeBit)

def blockSetSize (m : Mem) (block size : BitVec 64) : Mem :=
  setSizeField m block (size ||| (sizeField m block &&& (blockHeaderFreeBit ||| blockHeaderPrevFreeBit)))

def blockIsLast (m : Mem) (block : BitVec 64) : Bool := blockSize m block == 0

def blockIsFree (m : Mem) (block : BitVec 64) : Bool := sizeField m block &&& blockHeaderFreeBit != 0

def blockSetFree (m : Mem) (block : BitVec 64) : Mem :=
  setSizeField m block (sizeField m block ||| blockHeaderFreeBit)

def blockSetUsed (m : Mem) (block : BitVec 64) : Mem :=
  setSizeField m block (sizeField m block &&& ~~~blockHeaderFreeBit)

def blockIsPrevFree (m : Mem) (block : BitVec 64) : Bool := sizeField m block &&& blockHeaderPrevFreeBit != 0

def blockSetPrevFree (m : Mem) (block : BitVec 64) : Mem :=
  setSizeField m block (sizeField m block ||| blockHeaderPrevFreeBit)

def blockSetPrevUsed (m : Mem) (block : BitVec 64) : Mem :=
  setSizeField m block (sizeField m block &&& ~~~blockHeaderPrevFreeBit)

def blockFromPtr (ptr : BitVec 64) : BitVec 64 := ptr - blockStartOffset

def blockToPtr (block : BitVec 64) : BitVec 64 := block + blockStartOffset

def offsetToBlock (ptr size : BitVec 64) : BitVec 64 := ptr + size

/-! The neighbours of a block in memory. -/

def blockPrev (m : Mem) (block : BitVec 64) : Option (BitVec 64) := do
  tlsfAssert (blockIsPrevFree m block)
  return prevPhysBlock m block

def blockNext (m : Mem) (block : BitVec 64) : Option (BitVec 64) := do
  let next := offsetToBlock (blockToPtr block) (blockSize m block - blockHeaderOverhead)
  tlsfAssert (!blockIsLast m block)
  return next

/-- The neighbour, and the memory. -/
def blockLinkNext (m : Mem) (block : BitVec 64) : Option (BitVec 64 × Mem) := do
  let next ← blockNext m block
  return (next, setPrevPhysBlock m next block)

def blockMarkAsFree (m : Mem) (block : BitVec 64) : Option Mem := do
  let (next, m) ← blockLinkNext m block
  let m := blockSetPrevFree m next
  return blockSetFree m block

def blockMarkAsUsed (m : Mem) (block : BitVec 64) : Option Mem := do
  let next ← blockNext m block
  let m := blockSetPrevUsed m next
  return blockSetUsed m block

/-! Sizes. -/

def alignUp (x align : BitVec 64) : Option (BitVec 64) := do
  tlsfAssert (0 == align &&& (align - 1))
  return (x + (align - 1)) &&& ~~~(align - 1)

def alignDown (x align : BitVec 64) : Option (BitVec 64) := do
  tlsfAssert (0 == align &&& (align - 1))
  return x - (x &&& (align - 1))

def alignPtr (ptr align : BitVec 64) : Option (BitVec 64) := do
  let aligned := (ptr + (align - 1)) &&& ~~~(align - 1)
  tlsfAssert (0 == align &&& (align - 1))
  return aligned

def tlsfMax (a b : BitVec 64) : BitVec 64 := if b < a then a else b

def tlsfMin (a b : BitVec 64) : BitVec 64 := if a < b then a else b

/-- 0 for a size of 0 and for one that is too large. -/
def adjustRequestSize (size align : BitVec 64) : Option (BitVec 64) :=
  if size ≠ 0 then do
    let aligned ← alignUp size align
    return if aligned < blockSizeMax then tlsfMax aligned blockSizeMin else 0
  else some 0

/-! The free lists. -/

/-- The memory and the control structure; `blockNull` is where its first field is. -/
structure Control where
  mem : Mem
  blockNull : BitVec 64
  flBitmap : BitVec 32
  slBitmap : Nat → BitVec 32
  blocks : Nat → Nat → BitVec 64

/-- An access to `sl_bitmap[fl]` or `blocks[fl][sl]` inside of the arrays. -/
def inLists (fl sl : Nat) : Option Unit := tlsfAssert (fl < flIndexCount && sl < slIndexCount)

/-- The block, 0 for NULL, and the list it is the first of. -/
def searchSuitableBlock (t : Control) (fl sl : Nat) : Option (BitVec 64 × Nat × Nat) := do
  inLists fl sl
  let slMap := t.slBitmap fl &&& (~~~0#32 <<< sl)
  if slMap = 0 then
    let flMap := t.flBitmap &&& (~~~0#32 <<< (fl + 1))
    if flMap = 0 then
      return (0, fl, sl)
    else
      let fl := (tlsfFfs flMap).toNat
      inLists fl 0
      let slMap := t.slBitmap fl
      tlsfAssert (slMap != 0)
      let sl := (tlsfFfs slMap).toNat
      return (t.blocks fl sl, fl, sl)
  else
    let sl := (tlsfFfs slMap).toNat
    return (t.blocks fl sl, fl, sl)

def removeFreeBlock (t : Control) (block : BitVec 64) (fl sl : Nat) : Option Control := do
  inLists fl sl
  let prev := prevFree t.mem block
  let next := nextFree t.mem block
  tlsfAssert (prev != 0)
  tlsfAssert (next != 0)
  let m := setPrevFree t.mem next prev
  let m := setNextFree m prev next
  if t.blocks fl sl = block then
    let blocks := Function.update t.blocks fl (Function.update (t.blocks fl) sl next)
    if next = t.blockNull then
      let slMap := t.slBitmap fl &&& ~~~(1#32 <<< sl)
      return { t with
        mem := m
        blocks := blocks
        slBitmap := Function.update t.slBitmap fl slMap
        flBitmap := if slMap = 0 then t.flBitmap &&& ~~~(1#32 <<< fl) else t.flBitmap }
    else
      return { t with mem := m, blocks := blocks }
  else
    return { t with mem := m }

def insertFreeBlock (t : Control) (block : BitVec 64) (fl sl : Nat) : Option Control := do
  inLists fl sl
  let current := t.blocks fl sl
  tlsfAssert (current != 0)
  tlsfAssert (block != 0)
  let m := setNextFree t.mem block current
  let m := setPrevFree m block t.blockNull
  let m := setPrevFree m current block
  let aligned ← alignPtr (blockToPtr block) alignSize
  tlsfAssert (blockToPtr block == aligned)
  return { t with
    mem := m
    blocks := Function.update t.blocks fl (Function.update (t.blocks fl) sl block)
    flBitmap := t.flBitmap ||| (1#32 <<< fl)
    slBitmap := Function.update t.slBitmap fl (t.slBitmap fl ||| (1#32 <<< sl)) }

def blockRemove (t : Control) (block : BitVec 64) : Option Control :=
  let (fl, sl) := mappingInsert (blockSize t.mem block)
  removeFreeBlock t block fl sl

def blockInsert (t : Control) (block : BitVec 64) : Option Control :=
  let (fl, sl) := mappingInsert (blockSize t.mem block)
  insertFreeBlock t block fl sl

/-! Splitting and merging. -/

def blockCanSplit (m : Mem) (block size : BitVec 64) : Bool := blockHeaderSize + size ≤ blockSize m block

/-- The second block, and the memory. -/
def blockSplit (m : Mem) (block size : BitVec 64) : Option (BitVec 64 × Mem) := do
  let remaining := offsetToBlock (blockToPtr block) (size - blockHeaderOverhead)
  let remainSize := blockSize m block - (size + blockHeaderOverhead)
  let aligned ← alignPtr (blockToPtr remaining) alignSize
  tlsfAssert (blockToPtr remaining == aligned)
  tlsfAssert (blockSize m block == remainSize + size + blockHeaderOverhead)
  let m := blockSetSize m remaining remainSize
  tlsfAssert (blockSizeMin ≤ blockSize m remaining)
  let m := blockSetSize m block size
  let m ← blockMarkAsFree m remaining
  return (remaining, m)

def blockAbsorb (m : Mem) (prev block : BitVec 64) : Option Mem := do
  tlsfAssert (!blockIsLast m prev)
  let m := setSizeField m prev (sizeField m prev + (blockSize m block + blockHeaderOverhead))
  let (_, m) ← blockLinkNext m prev
  return m

/-- The merged block, and what it is in. -/
def blockMergePrev (t : Control) (block : BitVec 64) : Option (BitVec 64 × Control) :=
  if blockIsPrevFree t.mem block then do
    let prev ← blockPrev t.mem block
    tlsfAssert (prev != 0)
    tlsfAssert (blockIsFree t.mem prev)
    let t ← blockRemove t prev
    let m ← blockAbsorb t.mem prev block
    return (prev, { t with mem := m })
  else some (block, t)

def blockMergeNext (t : Control) (block : BitVec 64) : Option (BitVec 64 × Control) := do
  let next ← blockNext t.mem block
  tlsfAssert (next != 0)
  if blockIsFree t.mem next then
    tlsfAssert (!blockIsLast t.mem block)
    let t ← blockRemove t next
    let m ← blockAbsorb t.mem block next
    return (block, { t with mem := m })
  else
    return (block, t)

def blockTrimFree (t : Control) (block size : BitVec 64) : Option Control := do
  tlsfAssert (blockIsFree t.mem block)
  if blockCanSplit t.mem block size then
    let (remaining, m) ← blockSplit t.mem block size
    let (_, m) ← blockLinkNext m block
    let m := blockSetPrevFree m remaining
    blockInsert { t with mem := m } remaining
  else
    return t

def blockTrimUsed (t : Control) (block size : BitVec 64) : Option Control := do
  tlsfAssert (!blockIsFree t.mem block)
  if blockCanSplit t.mem block size then
    let (remaining, m) ← blockSplit t.mem block size
    let m := blockSetPrevUsed m remaining
    let (remaining, t) ← blockMergeNext { t with mem := m } remaining
    blockInsert t remaining
  else
    return t

def blockTrimFreeLeading (t : Control) (block size : BitVec 64) : Option (BitVec 64 × Control) :=
  if blockCanSplit t.mem block size then do
    let (remaining, m) ← blockSplit t.mem block (size - blockHeaderOverhead)
    let m := blockSetPrevFree m remaining
    let (_, m) ← blockLinkNext m block
    let t ← blockInsert { t with mem := m } block
    return (remaining, t)
  else some (block, t)

/-! Locating a block, and using it. -/

def blockLocateFree (t : Control) (size : BitVec 64) : Option (BitVec 64 × Control) :=
  if size ≠ 0 then do
    let (fl, sl) := mappingSearch size
    let (block, fl, sl) ← if fl < flIndexCount then searchSuitableBlock t fl sl else some (0, fl, sl)
    if block ≠ 0 then
      tlsfAssert (size ≤ blockSize t.mem block)
      let t ← removeFreeBlock t block fl sl
      return (block, t)
    else
      return (0, t)
  else some (0, t)

def blockPrepareUsed (t : Control) (block size : BitVec 64) : Option (BitVec 64 × Control) :=
  if block ≠ 0 then do
    tlsfAssert (size != 0)
    let t ← blockTrimFree t block size
    let m ← blockMarkAsUsed t.mem block
    return (blockToPtr block, { t with mem := m })
  else some (0, t)

/-! Pools. -/

/-- `sizeof(control_t)`. -/
def tlsfSize : BitVec 64 := 6536

def controlConstruct (m : Mem) (control : BitVec 64) : Control :=
  { mem := setPrevFree (setNextFree m control control) control control
    blockNull := control
    flBitmap := 0
    slBitmap := fun _ => 0
    blocks := fun _ _ => control }

/-- The first block starts a word before the pool, so that its
    `prev_phys_block` is outside. Returns the pool, 0 for NULL. -/
def tlsfAddPool (t : Control) (mem bytes : BitVec 64) : Option (BitVec 64 × Control) := do
  let poolBytes ← alignDown (bytes - 2 * blockHeaderOverhead) alignSize
  if mem.srem alignSize ≠ 0 then
    return (0, t)
  else if poolBytes < blockSizeMin || blockSizeMax < poolBytes then
    return (0, t)
  else
    let block := offsetToBlock mem (-blockHeaderOverhead)
    let m := blockSetSize t.mem block poolBytes
    let m := blockSetFree m block
    let m := blockSetPrevUsed m block
    let t ← blockInsert { t with mem := m } block
    let (next, m) ← blockLinkNext t.mem block
    let m := blockSetSize m next 0
    let m := blockSetUsed m next
    let m := blockSetPrevFree m next
    return (mem, { t with mem := m })

/-- `none` is NULL. -/
def tlsfCreate (m : Mem) (mem : BitVec 64) : Option Control :=
  if mem.srem alignSize ≠ 0 then none else some (controlConstruct m mem)

/-- The control structure with the pool behind it. On memory that is not
    aligned both calls fail, and nothing is written. -/
def tlsfCreateWithPool (m : Mem) (mem bytes : BitVec 64) : Option (Option Control) :=
  match tlsfCreate m mem with
  | none => some none
  | some t => do
    let (_, t) ← tlsfAddPool t (mem + tlsfSize) (bytes - tlsfSize)
    return some t

/-! The checks of the debugging utilities. Their loops have a bound on the
    number of blocks, `none` when it is too small. -/

/-- The status, counted down for a condition that does not hold. -/
def tlsfInsist (cond : Bool) (status : Int) : Option Int := do
  tlsfAssert cond
  return if cond then status else status - 1

structure Integrity where
  prevStatus : Int
  status : Int

def integrityWalker (m : Mem) (ptr size : BitVec 64) (_used : Bool) (integ : Integrity) : Option Integrity := do
  let block := blockFromPtr ptr
  let thisPrevStatus : Int := if blockIsPrevFree m block then 1 else 0
  let thisStatus : Int := if blockIsFree m block then 1 else 0
  let status ← tlsfInsist (integ.prevStatus == thisPrevStatus) 0
  let status ← tlsfInsist (size == blockSize m block) status
  return { prevStatus := thisStatus, status := integ.status + status }

def walkBlocks {α : Type} (m : Mem) (walker : BitVec 64 → BitVec 64 → Bool → α → Option α) : Nat → BitVec 64 → α → Option α
  | 0, _, _ => none
  | fuel + 1, block, user =>
    if block ≠ 0 ∧ blockIsLast m block = false then do
      let user ← walker (blockToPtr block) (blockSize m block) (!blockIsFree m block) user
      let next ← blockNext m block
      walkBlocks m walker fuel next user
    else some user

def tlsfWalkPool {α : Type} (m : Mem) (fuel : Nat) (pool : BitVec 64)
    (walker : BitVec 64 → BitVec 64 → Bool → α → Option α) (user : α) : Option α :=
  walkBlocks m walker fuel (offsetToBlock pool (-blockHeaderOverhead)) user

def tlsfCheckPool (m : Mem) (fuel : Nat) (pool : BitVec 64) : Option Int := do
  let integ ← tlsfWalkPool m fuel pool (integrityWalker m) { prevStatus := 0, status := 0 }
  return integ.status

/-- The blocks of one list. -/
def checkList (t : Control) (i j : Nat) : Nat → BitVec 64 → Int → Option Int
  | 0, _, _ => none
  | fuel + 1, block, status =>
    if block ≠ t.blockNull then do
      let status ← tlsfInsist (blockIsFree t.mem block) status
      let status ← tlsfInsist (!blockIsPrevFree t.mem block) status
      let next ← blockNext t.mem block
      let status ← tlsfInsist (!blockIsFree t.mem next) status
      let status ← tlsfInsist (blockIsPrevFree t.mem next) status
      let status ← tlsfInsist (blockSizeMin ≤ blockSize t.mem block) status
      let (fli, sli) := mappingInsert (blockSize t.mem block)
      let status ← tlsfInsist (fli == i && sli == j) status
      checkList t i j fuel (nextFree t.mem block) status
    else some status

def checkClass (t : Control) (fuel i j : Nat) (status : Int) : Option Int := do
  let flMap := t.flBitmap &&& (1#32 <<< i)
  let slList := t.slBitmap i
  let slMap := slList &&& (1#32 <<< j)
  let block := t.blocks i j
  let status ← if flMap = 0 then tlsfInsist (slMap == 0) status else some status
  if slMap = 0 then
    tlsfInsist (block == t.blockNull) status
  else
    let status ← tlsfInsist (slList != 0) status
    let status ← tlsfInsist (block != t.blockNull) status
    checkList t i j fuel block status

def tlsfCheck (t : Control) (fuel : Nat) : Option Int :=
  (List.range flIndexCount).foldlM (fun status i =>
    (List.range slIndexCount).foldlM (fun status j => checkClass t fuel i j status) status) 0

def tlsfBlockSize (m : Mem) (ptr : BitVec 64) : BitVec 64 :=
  if ptr ≠ 0 then blockSize m (blockFromPtr ptr) else 0

/-! The interface. -/

def tlsfMalloc (t : Control) (size : BitVec 64) : Option (BitVec 64 × Control) := do
  let adjust ← adjustRequestSize size alignSize
  let (block, t) ← blockLocateFree t adjust
  blockPrepareUsed t block adjust

/-- How far the data of the block moves up, for an alignment. -/
def memalignGap (ptr align : BitVec 64) : Option (BitVec 64) := do
  let aligned ← alignPtr ptr align
  let gap := aligned - ptr
  if gap ≠ 0 ∧ gap < blockHeaderSize then
    let offset := tlsfMax (blockHeaderSize - gap) align
    let aligned ← alignPtr (aligned + offset) align
    return aligned - ptr
  else
    return gap

def tlsfMemalign (t : Control) (align size : BitVec 64) : Option (BitVec 64 × Control) := do
  let adjust ← adjustRequestSize size alignSize
  let sizeWithGap ← adjustRequestSize (adjust + align + blockHeaderSize) align
  let alignedSize := if adjust ≠ 0 ∧ alignSize < align then sizeWithGap else adjust
  let (block, t) ← blockLocateFree t alignedSize
  if block ≠ 0 then
    let gap ← memalignGap (blockToPtr block) align
    if gap ≠ 0 then
      tlsfAssert (blockHeaderSize ≤ gap)
      let (block, t) ← blockTrimFreeLeading t block gap
      blockPrepareUsed t block adjust
    else
      blockPrepareUsed t block adjust
  else
    blockPrepareUsed t block adjust

def tlsfFree (t : Control) (ptr : BitVec 64) : Option Control :=
  if ptr ≠ 0 then do
    let block := blockFromPtr ptr
    tlsfAssert (!blockIsFree t.mem block)
    let m ← blockMarkAsFree t.mem block
    let (block, t) ← blockMergePrev { t with mem := m } block
    let (block, t) ← blockMergeNext t block
    blockInsert t block
  else some t

def tlsfRealloc (t : Control) (ptr size : BitVec 64) : Option (BitVec 64 × Control) :=
  if ptr ≠ 0 ∧ size = 0 then do
    let t ← tlsfFree t ptr
    return (0, t)
  else if ptr = 0 then tlsfMalloc t size
  else do
    let block := blockFromPtr ptr
    let next ← blockNext t.mem block
    let cursize := blockSize t.mem block
    let combined := cursize + blockSize t.mem next + blockHeaderOverhead
    let adjust ← adjustRequestSize size alignSize
    tlsfAssert (!blockIsFree t.mem block)
    if cursize < adjust ∧ (!blockIsFree t.mem next || combined < adjust) then
      let (p, t) ← tlsfMalloc t size
      if p ≠ 0 then
        let t ← tlsfFree { t with mem := memcpyMem t.mem p ptr (tlsfMin cursize size).toNat } ptr
        return (p, t)
      else
        return (0, t)
    else if cursize < adjust then
      let (_, t) ← blockMergeNext t block
      let m ← blockMarkAsUsed t.mem block
      let t ← blockTrimUsed { t with mem := m } block adjust
      return (ptr, t)
    else
      let t ← blockTrimUsed t block adjust
      return (ptr, t)

/-! Aligning to powers of two. -/

theorem tlsfAssert_true {cond : Bool} (h : cond = true) : tlsfAssert cond = some () := by
  rw [tlsfAssert, if_pos h]

section
variable {k : Nat} (hk : k < 64)
include hk

theorem toNat_two_pow : (BitVec.ofNat 64 (2^k)).toNat = 2^k := by
  rw [BitVec.toNat_ofNat, Nat.mod_eq_of_lt (Nat.pow_lt_pow_right (by decide) hk)]

theorem toNat_mask : (BitVec.ofNat 64 (2^k) - 1).toNat = 2^k - 1 := by
  have hpos : 0 < 2^k := Nat.two_pow_pos k
  have hlt : 2^k < 2^64 := Nat.pow_lt_pow_right (by decide) hk
  rw [BitVec.toNat_sub, toNat_two_pow hk]
  show (2^64 - 1 + 2^k) % 2^64 = _
  omega

theorem mask_bit (i : Nat) : (BitVec.ofNat 64 (2^k) - 1).getLsbD i = decide (i < k) := by
  rw [BitVec.getLsbD, toNat_mask hk, Nat.testBit_two_pow_sub_one]

/-- A power of two passes the check of the three functions. -/
theorem two_pow_and_mask : (0 == BitVec.ofNat 64 (2^k) &&& (BitVec.ofNat 64 (2^k) - 1)) = true := by
  have hzero : BitVec.ofNat 64 (2^k) &&& (BitVec.ofNat 64 (2^k) - 1) = 0 := by
    apply BitVec.eq_of_getLsbD_eq
    intro i hi
    rw [BitVec.getLsbD_and, mask_bit hk, BitVec.getLsbD, toNat_two_pow hk, Nat.testBit_two_pow]
    by_cases hik : k = i
    · simp [hik]
    · simp [hik]
  rw [hzero]
  rfl

theorem and_mask (w : BitVec 64) : (w &&& (BitVec.ofNat 64 (2^k) - 1)).toNat = w.toNat % 2^k := by
  rw [BitVec.toNat_and, toNat_mask hk, Nat.and_two_pow_sub_one_eq_mod]

theorem and_not_mask (w : BitVec 64) : (w &&& ~~~(BitVec.ofNat 64 (2^k) - 1)).toNat = w.toNat / 2^k * 2^k := by
  have hsum : (w &&& ~~~(BitVec.ofNat 64 (2^k) - 1)) = w >>> k <<< k := by
    apply BitVec.eq_of_getLsbD_eq
    intro i hi
    rw [BitVec.getLsbD_and, BitVec.getLsbD_not, mask_bit hk, BitVec.getLsbD_shiftLeft, BitVec.getLsbD_ushiftRight]
    by_cases hik : i < k
    · simp [hik]
    · simp [hik, hi, show k + (i - k) = i by omega]
  have hlt := w.isLt
  have hle := Nat.div_mul_le_self w.toNat (2^k)
  rw [hsum, BitVec.toNat_shiftLeft, BitVec.toNat_ushiftRight, Nat.shiftRight_eq_div_pow, Nat.shiftLeft_eq,
    Nat.mod_eq_of_lt (by omega)]

theorem alignPtr_two_pow (ptr : BitVec 64) :
    alignPtr ptr (BitVec.ofNat 64 (2^k)) = some (BitVec.ofNat 64 ((ptr.toNat + (2^k - 1)) % 2^64 / 2^k * 2^k)) := by
  rw [alignPtr, tlsfAssert_true (two_pow_and_mask hk)]
  apply congrArg some
  apply BitVec.eq_of_toNat_eq
  have hle := Nat.div_mul_le_self ((ptr.toNat + (2^k - 1)) % 2^64) (2^k)
  have hlt := Nat.mod_lt (ptr.toNat + (2^k - 1)) (show 0 < 2^64 by decide)
  rw [and_not_mask hk, BitVec.toNat_add, toNat_mask hk, BitVec.toNat_ofNat]
  exact (Nat.mod_eq_of_lt (by omega)).symm

end

theorem alignUp_eq_alignPtr (x align : BitVec 64) : alignUp x align = alignPtr x align := by
  rw [alignUp, alignPtr]

/-- What is aligned stays. -/
theorem alignPtr_aligned {a : Nat} (ha : a % 8 = 0) (hlt : a < 2^64) :
    alignPtr (BitVec.ofNat 64 a) alignSize = some (BitVec.ofNat 64 a) := by
  have h := alignPtr_two_pow (k := 3) (by decide) (BitVec.ofNat 64 a)
  rw [BitVec.toNat_ofNat, Nat.mod_eq_of_lt hlt] at h
  rw [show alignSize = BitVec.ofNat 64 (2^3) from rfl, h]
  congr 2
  omega

theorem alignDown_words (x : BitVec 64) : alignDown x alignSize = some (BitVec.ofNat 64 (x.toNat / 8 * 8)) := by
  rw [show alignSize = BitVec.ofNat 64 (2^3) from rfl, alignDown, tlsfAssert_true (two_pow_and_mask (by decide))]
  apply congrArg some
  apply BitVec.eq_of_toNat_eq
  have hlt := x.isLt
  rw [BitVec.toNat_sub, and_mask (by decide), BitVec.toNat_ofNat]
  omega

/-- A request in units of an alignment, at least the smallest block; 0 for none
    and for too much. -/
theorem adjustRequestSize_two_pow {k : Nat} (hk : k < 64) (size : BitVec 64) :
    adjustRequestSize size (BitVec.ofNat 64 (2^k)) = some (BitVec.ofNat 64
      (if size.toNat = 0 then 0
      else if (size.toNat + (2^k - 1)) % 2^64 / 2^k * 2^k < 2^32 then max ((size.toNat + (2^k - 1)) % 2^64 / 2^k * 2^k) 24
      else 0)) := by
  rw [adjustRequestSize]
  by_cases hzero : size = 0
  · rw [if_neg (not_not.mpr hzero), if_pos (by rw [hzero]; rfl)]
    rfl
  · have hne : size.toNat ≠ 0 := fun h => hzero (BitVec.eq_of_toNat_eq h)
    have hle := Nat.div_mul_le_self ((size.toNat + (2^k - 1)) % 2^64) (2^k)
    have hmod := Nat.mod_lt (size.toNat + (2^k - 1)) (show 0 < 2^64 by decide)
    rw [if_pos hzero, if_neg hne, alignUp_eq_alignPtr, alignPtr_two_pow hk]
    generalize haligned : (size.toNat + (2^k - 1)) % 2^64 / 2^k * 2^k = n at hle ⊢
    have hlt : n < 2^64 := by omega
    have hcmp : BitVec.ofNat 64 n < blockSizeMax ↔ n < 2^32 := by
      rw [BitVec.lt_def, BitVec.toNat_ofNat, Nat.mod_eq_of_lt hlt]
      exact Iff.rfl
    simp only [Option.bind_eq_bind, Option.bind_some, Option.pure_def, Option.some.injEq, hcmp]
    by_cases hsmall : n < 2^32
    · rw [if_pos hsmall, if_pos hsmall, tlsfMax]
      have hmin : blockSizeMin < BitVec.ofNat 64 n ↔ 24 < n := by
        rw [BitVec.lt_def, BitVec.toNat_ofNat, Nat.mod_eq_of_lt hlt]
        exact Iff.rfl
      by_cases hbig : 24 < n
      · rw [if_pos (hmin.mpr hbig), Nat.max_eq_left (by omega)]
      · rw [if_neg (fun h => hbig (hmin.mp h)), Nat.max_eq_right (by omega)]
        rfl
    · rw [if_neg hsmall, if_neg hsmall]
      rfl

/-- For words the sum wraps only for the last seven sizes. -/
theorem adjustRequestSize_words (size : BitVec 64) :
    adjustRequestSize size alignSize = some (BitVec.ofNat 64
      (if size.toNat = 0 then 0
      else if (size.toNat + 7) % 2^64 / 8 * 8 < 2^32 then max ((size.toNat + 7) % 2^64 / 8 * 8) 24 else 0)) :=
  adjustRequestSize_two_pow (k := 3) (by decide) size

end Qnixx.Tlsf
