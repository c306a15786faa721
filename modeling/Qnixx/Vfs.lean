import Mathlib.Tactic.Common
import Mathlib.Data.List.Find
import Mathlib.Data.List.Induction
import Qnixx.Lib.Runs
import Qnixx.LibKern

/- The virtual file system (`fs/vfs.c`): vnodes with a name and a map of
   children, and the lookup of a path. A C string is the bytes from its pointer
   to the end of its buffer. The outer `none` of an `Option (Option _)` is a
   read behind a buffer or through NULL, the inner one is NULL itself.

   `lib/hashmap.h` is a parameter, taken for what it is used as: a finite map
   whose keys are byte strings. Vnodes live as long as the kernel, so the key
   an entry points to, its vnode's name, stays what it was. -/
namespace Qnixx

/-- `hashmap_create`, `hashmap_put` and `hashmap_get`, on maps of type `M`. -/
structure Hashmap (M : Type) where
  create : M
  put : M → List Byte → Nat → M
  get : M → List Byte → Option Nat
  get_create : ∀ key, get create key = none
  get_put : ∀ m key value key', get (put m key value) key' = if key' = key then some value else get m key'

inductive Vtype where
  | vnon | vreg | vdir | vblk | vchr | vbad

inductive Vstate where
  | uninit | constructed | destroying | dead

def vRoot : BitVec 8 := 1#8 <<< 0
def vMountpoint : BitVec 8 := 1#8 <<< 3

structure Vnode (M : Type) where
  /-- `v_name[255]`. -/
  name : List Byte
  type : Vtype
  state : Vstate
  flags : BitVec 8
  children : M
  nChildren : Nat

/-- A vnode pointer is an index into `vnodes`. -/
structure Vfs (M : Type) where
  vnodes : List (Vnode M)
  fsRoot : Option Nat

section
variable {M : Type} (H : Hashmap M)

/-- `vfs_make_vnode`; the vnode comes zeroed out of `kcalloc`. -/
def vfsMakeVnode (s : Vfs M) (name : List Byte) (vtype : Vtype) (isMountpoint : Bool) :
    Option (Vfs M × Option Nat) := do
  let len ← strlen name
  if len ≥ nameMax then some (s, none)
  else
    let zeroed := List.replicate 255 0
    let new : Vnode M :=
      { name := name.take len ++ zeroed.drop len
        type := vtype
        state := .constructed
        flags := if isMountpoint then vMountpoint else 0
        children := H.create
        nChildren := 0 }
    some ({ s with vnodes := s.vnodes ++ [new] }, some s.vnodes.length)

/-- `vfs_append_child`; a NULL parent is the root of the file system. -/
def vfsAppendChild (s : Vfs M) (parent : Option Nat) (child : Nat) : Option (Vfs M) := do
  let parent ← parent.or s.fsRoot
  let parentNode ← s.vnodes[parent]?
  let childNode ← s.vnodes[child]?
  let len ← strlen childNode.name
  let children := H.put parentNode.children (childNode.name.take len) child
  some { s with vnodes := s.vnodes.set parent { parentNode with children } }

def vfsInit : Option (Vfs M) := do
  let (s, root) ← vfsMakeVnode H ⟨[], none⟩ [0] .vdir true
  let root ← root
  let rootNode ← s.vnodes[root]?
  some
    { vnodes := s.vnodes.set root { rootNode with flags := rootNode.flags ||| vRoot }
      fsRoot := some root }

def name2vnode (s : Vfs M) (name : List Byte) (parent : Nat) : Option (Option Nat) := do
  let parentNode ← s.vnodes[parent]?
  let len ← strlen name
  some (H.get parentNode.children (name.take len))

def slash : Byte := 0x2F

/-- The loop of `path2vnode` from the character at `ptr` on. -/
def path2vnodeLoop (s : Vfs M) (current : Nat) (fname : List Byte) (fnameIdx : Nat) :
    List Byte → Option (Option Nat)
  | [] => none
  | c :: ptr =>
    if fnameIdx ≥ nameMax then some none
    else if c = slash ∨ c = 0 then do
      match ← name2vnode H s (fname.set fnameIdx 0) current with
      | none => some none
      | some current =>
        if c = 0 then some (if some current ≠ s.fsRoot then some current else none)
        else path2vnodeLoop s current (List.replicate (nameMax + 1) 0) 0 ptr
    else path2vnodeLoop s current (fname.set fnameIdx c) (fnameIdx + 1) ptr

/-- `path2vnode`; `fname` is what the buffer on the stack holds before. -/
def path2vnode (s : Vfs M) (fname : List Byte) : List Byte → Option (Option Nat)
  | [] => none
  | c :: path =>
    if c ≠ slash then some none
    else do
      let root ← s.fsRoot
      path2vnodeLoop H s root fname 0 path

end

/-! Runs, and what they are to build. -/

inductive VfsOp where
  | make (name : List Byte) (vtype : Vtype) (isMountpoint : Bool)
  | append (parent : Option Nat) (child : Nat)

/-- A string with its end. -/
def cstr (name : List Byte) : List Byte := name ++ [0]

def vfsStep {M : Type} (H : Hashmap M) (s : Vfs M) : VfsOp → Option (Vfs M)
  | .make name vtype isMountpoint => (vfsMakeVnode H s (cstr name) vtype isMountpoint).map Prod.fst
  | .append parent child => vfsAppendChild H s parent child

/-- Characters a name is made of: no end of string and no `/`. -/
def NameChars (name : List Byte) : Prop := ∀ c ∈ name, c ≠ 0 ∧ c ≠ slash

instance (name : List Byte) : Decidable (NameChars name) :=
  inferInstanceAs (Decidable (∀ c ∈ name, c ≠ 0 ∧ c ≠ slash))

/-- Names are not empty, and the root is nobody's child. -/
def VfsOp.Wf : VfsOp → Prop
  | make name _ _ => name ≠ [] ∧ NameChars name
  | append _ child => child ≠ 0

instance : (op : VfsOp) → Decidable op.Wf
  | .make name _ _ => inferInstanceAs (Decidable (name ≠ [] ∧ NameChars name))
  | .append _ child => inferInstanceAs (Decidable (child ≠ 0))

/-- The names of the vnodes, in the order they were made. Vnode 0 is the root. -/
def madeNames (ops : List VfsOp) : List (List Byte) :=
  [] :: ops.filterMap (fun op => match op with
    | .make name _ _ => if name.length < nameMax then some name else none
    | .append _ _ => none)

/-- Who was appended to whom. -/
def appended (ops : List VfsOp) : List (Nat × Nat) :=
  ops.filterMap (fun op => match op with
    | .make _ _ _ => none
    | .append parent child => some (parent.getD 0, child))

/-- The last child with this name that was appended under `parent`. -/
def lastChild (ops : List VfsOp) (parent : Nat) (name : List Byte) : Option Nat :=
  ((appended ops).reverse.find? (fun e => e.1 = parent ∧ (madeNames ops)[e.2]? = some name)).map Prod.snd

/-- `v` is reached from `u` by a chain of names, each that of the last child. -/
inductive NameChain (ops : List VfsOp) : Nat → List (List Byte) → Nat → Prop
  | nil (u : Nat) : NameChain ops u [] u
  | cons {u w v : Nat} {name : List Byte} {names : List (List Byte)} :
    lastChild ops u name = some w → NameChain ops w names v → NameChain ops u (name :: names) v

/-- `/` and the names, with a `/` between them. -/
def pathOf : List (List Byte) → List Byte
  | [] => []
  | name :: names => slash :: name ++ pathOf names

/-! Names in buffers. -/

theorem getElem?_snoc {α : Type} {l : List α} {x y : α} {v : Nat} (h : (l ++ [x])[v]? = some y) :
    l[v]? = some y ∨ (v = l.length ∧ y = x) := by
  rcases Nat.lt_trichotomy v l.length with hlt | heq | hgt
  · rw [List.getElem?_append_left hlt] at h
    exact .inl h
  · rw [heq, List.getElem?_append_right (Nat.le_refl _), Nat.sub_self] at h
    exact .inr ⟨heq, (Option.some.inj h).symm⟩
  · rw [List.getElem?_eq_none (by rw [List.length_append, List.length_singleton]; omega)] at h
    cases h

/-- The buffer of a vnode holds the name, then zeros, at least one of them. -/
structure StoredName (buf name : List Byte) : Prop where
  chars : ∀ c ∈ name, c ≠ 0
  short : name.length < nameMax
  buffer : buf = name ++ List.replicate (255 - name.length) 0

theorem StoredName.strlen {buf name : List Byte} (h : StoredName buf name) :
    Qnixx.strlen buf = some name.length ∧ buf.take name.length = name := by
  have hlen : 255 - name.length = 254 - name.length + 1 := by
    have hshort := h.short
    rw [nameMax] at hshort
    omega
  rw [h.buffer]
  refine ⟨?_, List.take_left⟩
  rw [hlen, List.replicate_succ]
  exact strlen_cstr h.chars _

/-! What every run keeps. -/

/-- The vnodes are the ones made, under their names, and each has the children
    appended last. -/
structure VfsInv {M : Type} (H : Hashmap M) (ops : List VfsOp) (s : Vfs M) : Prop where
  root : s.fsRoot = some 0
  size : s.vnodes.length = (madeNames ops).length
  names : ∀ (v : Nat) (node : Vnode M) (name : List Byte), s.vnodes[v]? = some node →
    (madeNames ops)[v]? = some name → StoredName node.name name
  children : ∀ (v : Nat) (node : Vnode M), s.vnodes[v]? = some node →
    ∀ name, H.get node.children name = lastChild ops v name
  links : ∀ e ∈ appended ops, e.1 < s.vnodes.length ∧ e.2 < s.vnodes.length

section
variable {M : Type} {H : Hashmap M} {ops : List VfsOp} {s : Vfs M}

theorem madeNames_snoc (ops : List VfsOp) (op : VfsOp) : madeNames (ops ++ [op]) = madeNames ops ++
    (match op with
      | .make name _ _ => if name.length < nameMax then [name] else []
      | .append _ _ => []) := by
  cases op with
  | make name _ _ =>
    by_cases hlen : name.length < nameMax
    · simp [madeNames, hlen]
    · simp [madeNames, hlen]
  | append _ _ => simp [madeNames]

theorem appended_snoc (ops : List VfsOp) (op : VfsOp) : appended (ops ++ [op]) = appended ops ++
    (match op with
      | .make _ _ _ => []
      | .append parent child => [(parent.getD 0, child)]) := by
  cases op with
  | make _ _ _ => simp [appended]
  | append _ _ => simp [appended]

theorem lastChild_append (ops : List VfsOp) (parent : Option Nat) (child v : Nat) (name : List Byte) :
    lastChild (ops ++ [.append parent child]) v name =
      if parent.getD 0 = v ∧ (madeNames ops)[child]? = some name then some child
      else lastChild ops v name := by
  have hnames : madeNames (ops ++ [.append parent child]) = madeNames ops := by
    rw [madeNames_snoc, List.append_nil]
  simp only [lastChild, hnames, appended_snoc, List.reverse_append, List.reverse_singleton,
    List.singleton_append, List.find?_cons]
  by_cases hlast : parent.getD 0 = v ∧ (madeNames ops)[child]? = some name
  · simp only [hlast, and_self, decide_true, if_true, Option.map_some]
  · simp only [hlast, decide_false, if_false]

/-- A vnode made later changes no one's children, and has none. -/
theorem lastChild_make (hlinks : ∀ e ∈ appended ops, e.2 < (madeNames ops).length) (name : List Byte)
    (vtype : Vtype) (mount : Bool) (v : Nat) (key : List Byte) :
    lastChild (ops ++ [.make name vtype mount]) v key = lastChild ops v key := by
  have happended : appended (ops ++ [.make name vtype mount]) = appended ops := by
    rw [appended_snoc, List.append_nil]
  have hsame : ∀ e ∈ (appended ops).reverse,
      decide (e.1 = v ∧ (madeNames (ops ++ [.make name vtype mount]))[e.2]? = some key) =
        decide (e.1 = v ∧ (madeNames ops)[e.2]? = some key) := by
    intro e he
    rw [madeNames_snoc, List.getElem?_append_left (hlinks e (List.mem_reverse.mp he))]
  rw [lastChild, lastChild, happended, List.find?_congr hsame]

theorem lastChild_some {u w : Nat} {name : List Byte} (h : lastChild ops u name = some w) :
    (u, w) ∈ appended ops ∧ (madeNames ops)[w]? = some name := by
  obtain ⟨e, he, hw⟩ := Option.map_eq_some_iff.mp h
  have hfound := List.find?_some he
  obtain ⟨hu, hname⟩ := of_decide_eq_true hfound
  refine ⟨?_, hw ▸ hname⟩
  have hmem := List.mem_reverse.mp (List.mem_of_find?_eq_some he)
  rw [← hu, ← hw]
  exact hmem

theorem lastChild_fresh {v : Nat} (h : ∀ e ∈ appended ops, e.1 ≠ v) (name : List Byte) :
    lastChild ops v name = none := by
  cases hlast : lastChild ops v name with
  | none => rfl
  | some w => exact absurd rfl (h _ (lastChild_some hlast).1)

/-- The state `vfs_init` leaves: the root, with no name and no children. -/
def rootVfs {M : Type} (H : Hashmap M) : Vfs M :=
  { vnodes := [{ name := List.replicate 255 0
                 type := .vdir
                 state := .constructed
                 flags := vMountpoint ||| vRoot
                 children := H.create
                 nChildren := 0 }]
    fsRoot := some 0 }

theorem vfsInit_eq (H : Hashmap M) : vfsInit H = some (rootVfs H) := rfl

theorem vfsInv_init : VfsInv H [] (rootVfs H) := by
  have honly : ∀ (v : Nat) (node : Vnode M), (rootVfs H).vnodes[v]? = some node →
      v = 0 ∧ node.name = List.replicate 255 0 ∧ node.children = H.create := by
    intro v node hnode
    cases v with
    | zero =>
      cases hnode
      exact ⟨rfl, rfl, rfl⟩
    | succ v => cases hnode
  refine ⟨rfl, rfl, ?_, ?_, nofun⟩
  · intro v node name hnode hname
    obtain ⟨rfl, hbuf, -⟩ := honly v node hnode
    cases hname
    exact ⟨nofun, by decide, hbuf⟩
  · intro v node hnode name
    obtain ⟨-, -, hchildren⟩ := honly v node hnode
    rw [hchildren, H.get_create]
    rfl

/-- A vnode whose name is short enough is the last one. -/
theorem vfsInv_made {name : List Byte} {node : Vnode M} (h : VfsInv H ops s) (vtype : Vtype) (mount : Bool)
    (hname : StoredName node.name name) (hchildren : node.children = H.create) :
    VfsInv H (ops ++ [.make name vtype mount]) { s with vnodes := s.vnodes ++ [node] } := by
  have hlinks : ∀ e ∈ appended ops, e.2 < (madeNames ops).length := by
    intro e he
    rw [← h.size]
    exact (h.links e he).2
  have hmade : madeNames (ops ++ [.make name vtype mount]) = madeNames ops ++ [name] := by
    rw [madeNames_snoc]
    simp only [hname.short, if_true]
  refine ⟨h.root, ?_, ?_, ?_, ?_⟩
  · rw [hmade, List.length_append, List.length_append, h.size]
    rfl
  · intro v node' key hnode hkey
    rw [hmade] at hkey
    rcases getElem?_snoc hnode with hold | ⟨hv, hnew⟩
    · rcases getElem?_snoc hkey with hkey | ⟨hv, -⟩
      · exact h.names v node' key hold hkey
      · obtain ⟨hlt, -⟩ := List.getElem?_eq_some_iff.mp hold
        have := h.size
        omega
    · rw [hv, h.size, List.getElem?_append_right (Nat.le_refl _), Nat.sub_self] at hkey
      cases hkey
      rw [hnew]
      exact hname
  · intro v node' hnode key
    rw [lastChild_make hlinks]
    rcases getElem?_snoc hnode with hold | ⟨hv, hnew⟩
    · exact h.children v node' hold key
    · rw [hnew, hchildren, H.get_create, lastChild_fresh]
      intro e he
      have := (h.links e he).1
      omega
  · intro e he
    rw [appended_snoc, List.append_nil] at he
    have := h.links e he
    rw [List.length_append, List.length_singleton]
    omega

/-- A name that is too long makes no vnode. -/
theorem vfsInv_refused {name : List Byte} (h : VfsInv H ops s) (vtype : Vtype) (mount : Bool)
    (hlen : ¬ name.length < nameMax) : VfsInv H (ops ++ [.make name vtype mount]) s := by
  have hmade : madeNames (ops ++ [.make name vtype mount]) = madeNames ops := by
    rw [madeNames_snoc]
    simp only [hlen, if_false, List.append_nil]
  have happended : appended (ops ++ [.make name vtype mount]) = appended ops := by
    rw [appended_snoc, List.append_nil]
  refine ⟨h.root, hmade ▸ h.size, hmade ▸ h.names, ?_, happended ▸ h.links⟩
  intro v node hnode key
  rw [lastChild, hmade, happended]
  exact h.children v node hnode key

theorem vfsInv_make {name : List Byte} {vtype : Vtype} {mount : Bool} {s' : Vfs M} (h : VfsInv H ops s)
    (hname : NameChars name) (hstep : vfsStep H s (.make name vtype mount) = some s') :
    VfsInv H (ops ++ [.make name vtype mount]) s' := by
  have hchars : ∀ c ∈ name, c ≠ 0 := fun c hc => (hname c hc).1
  simp only [vfsStep, vfsMakeVnode, cstr, strlen_cstr hchars, Option.bind_eq_bind, Option.bind_some] at hstep
  by_cases hlen : name.length < nameMax
  · rw [if_neg (by omega), Option.map_some, Option.some.injEq] at hstep
    subst hstep
    refine vfsInv_made h vtype mount ⟨hchars, hlen, ?_⟩ rfl
    dsimp only
    rw [List.take_left, List.drop_replicate]
  · rw [if_pos (by omega), Option.map_some, Option.some.injEq] at hstep
    subst hstep
    exact vfsInv_refused h vtype mount hlen

/-- The only vnode that changes is the parent, and only in its children. -/
theorem getElem?_setChildren {nodes : List (Vnode M)} {u : Nat} {parentNode : Vnode M}
    (hp : nodes[u]? = some parentNode) (f : M → M) {v : Nat} {node : Vnode M}
    (h : (nodes.set u { parentNode with children := f parentNode.children })[v]? = some node) :
    ∃ old, nodes[v]? = some old ∧ node.name = old.name ∧
      node.children = if u = v then f old.children else old.children := by
  obtain ⟨hlt, -⟩ := List.getElem?_eq_some_iff.mp hp
  rw [List.getElem?_set] at h
  by_cases hv : u = v
  · rw [if_pos hv, if_pos hlt] at h
    cases h
    refine ⟨parentNode, hv ▸ hp, rfl, ?_⟩
    rw [if_pos hv]
  · rw [if_neg hv] at h
    exact ⟨node, h, rfl, (if_neg hv).symm⟩

theorem vfsInv_append {parent : Option Nat} {child : Nat} {s' : Vfs M} (h : VfsInv H ops s)
    (hstep : vfsStep H s (.append parent child) = some s') :
    VfsInv H (ops ++ [.append parent child]) s' := by
  have hmade : madeNames (ops ++ [.append parent child]) = madeNames ops := by
    rw [madeNames_snoc, List.append_nil]
  have hparent : parent.or s.fsRoot = some (parent.getD 0) := by
    rw [h.root]
    cases parent <;> rfl
  simp only [vfsStep, vfsAppendChild, hparent, Option.bind_eq_bind, Option.bind_some] at hstep
  obtain ⟨parentNode, hp, hstep⟩ := Option.bind_eq_some_iff.mp hstep
  obtain ⟨childNode, hc, hstep⟩ := Option.bind_eq_some_iff.mp hstep
  obtain ⟨hplt, -⟩ := List.getElem?_eq_some_iff.mp hp
  obtain ⟨hclt, -⟩ := List.getElem?_eq_some_iff.mp hc
  obtain ⟨name, hname⟩ : ∃ name, (madeNames ops)[child]? = some name :=
    ⟨_, List.getElem?_eq_getElem (h.size ▸ hclt)⟩
  obtain ⟨hlen, htake⟩ := (h.names child childNode name hc hname).strlen
  rw [hlen, Option.bind_some, htake, Option.some.injEq] at hstep
  subst hstep
  have hset : ∀ (v : Nat) (node : Vnode M), (s.vnodes.set (parent.getD 0)
      { parentNode with children := H.put parentNode.children name child })[v]? = some node →
      ∃ old, s.vnodes[v]? = some old ∧ node.name = old.name ∧
        node.children = if parent.getD 0 = v then H.put old.children name child else old.children :=
    fun v node => getElem?_setChildren hp (fun m => H.put m name child)
  refine ⟨h.root, ?_, ?_, ?_, ?_⟩
  · rw [hmade, List.length_set]
    exact h.size
  · intro v node key hnode hkey
    obtain ⟨old, hold, hsame, -⟩ := hset v node hnode
    rw [hmade] at hkey
    rw [hsame]
    exact h.names v old key hold hkey
  · intro v node hnode key
    obtain ⟨old, hold, -, hchildren⟩ := hset v node hnode
    have hget := h.children v old hold key
    rw [lastChild_append, hname, hchildren]
    by_cases hv : parent.getD 0 = v
    · rw [if_pos hv, H.get_put, hget]
      by_cases hkey : key = name
      · rw [if_pos hkey, if_pos ⟨hv, congrArg some hkey.symm⟩]
      · rw [if_neg hkey, if_neg (fun hc => hkey (Option.some.inj hc.2).symm)]
    · rw [if_neg hv, if_neg (fun hc => hv hc.1)]
      exact hget
  · intro e he
    rw [appended_snoc] at he
    rw [List.length_set]
    rcases List.mem_append.mp he with he | he
    · exact h.links e he
    · rw [List.mem_singleton.mp he]
      exact ⟨hplt, hclt⟩

theorem vfsInv_run : ∀ {ops : List VfsOp} {s : Vfs M}, (∀ op ∈ ops, op.Wf) →
    Runs.exec (vfsStep H) (rootVfs H) ops = some s → VfsInv H ops s := by
  intro ops
  induction ops using List.reverseRecOn with
  | nil =>
    intro s _ hrun
    cases hrun
    exact vfsInv_init
  | append_singleton ops op ih =>
    intro s hwf hrun
    obtain ⟨s₁, hops, hop⟩ := Runs.exec_append.mp hrun
    obtain ⟨s₂, hstep, hnil⟩ := Runs.exec_cons.mp hop
    cases hnil
    have hinv := ih (fun op hop => hwf op (List.mem_append_left _ hop)) hops
    have hopwf := hwf op (by simp)
    cases op with
    | make name vtype mount => exact vfsInv_make hinv hopwf.2 hstep
    | append parent child => exact vfsInv_append hinv hstep

/-! What names and links a run can have. -/

theorem madeNames_wf (hwf : ∀ op ∈ ops, op.Wf) : ∀ name ∈ madeNames ops,
    name.length < nameMax ∧ NameChars name := by
  intro name hname
  rcases List.mem_cons.mp hname with rfl | hname
  · exact ⟨by decide, nofun⟩
  · obtain ⟨op, hop, heq⟩ := List.mem_filterMap.mp hname
    cases op with
    | make made vtype mount =>
      dsimp only at heq
      split at heq
      · next hlen =>
        cases heq
        exact ⟨hlen, (hwf _ hop).2⟩
      · cases heq
    | append parent child => cases heq

theorem appended_wf (hwf : ∀ op ∈ ops, op.Wf) : ∀ e ∈ appended ops, e.2 ≠ 0 := by
  intro e he
  obtain ⟨op, hop, heq⟩ := List.mem_filterMap.mp he
  cases op with
  | make _ _ _ => cases heq
  | append parent child =>
    cases heq
    exact hwf _ hop

end

/-- A map as the list of what was put into it. -/
def listHashmap : Hashmap (List (List Byte × Nat)) where
  create := []
  put m key value := (key, value) :: m
  get m key := m.lookup key
  get_create _ := rfl
  get_put m key value key' := by
    show (match key' == key with | true => some value | false => m.lookup key') = _
    by_cases h : key' = key
    · rw [if_pos h, beq_iff_eq.mpr h]
    · rw [if_neg h, beq_eq_false_iff_ne.mpr h]

/-- `/a` with two children `b`: the second is the one found. -/
def twoB : List VfsOp :=
  [.make [0x61] .vdir false, .make [0x62] .vreg false, .make [0x62] .vreg false,
    .append none 1, .append (some 1) 2, .append (some 1) 3]

end Qnixx
