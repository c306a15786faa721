import Qnixx.HashmapRuns
import Qnixx.Vfs

/- The virtual file system on the hash map it really has. `vfs_append_child` does
   not look at what `hashmap_put` returns; as long as no put fails, the system
   goes through the states of the one on finite maps, and finds the same vnodes.

   A pointer to a name is its buffer, as in `Vfs`. The field `putFailed` is there
   for the statements: whether a put has returned something other than 0. -/
namespace Qnixx
namespace OnHashmap

variable {A : Type}

/-- `children` of a vnode: from names to vnode pointers. -/
abbrev Children := HashmapS (List Byte) (Option Nat)

/-- The bytes of a buffer. -/
def bufText (buf : List Byte) (i : Nat) : Byte := buf.getD i 0

def sizeofVnode : Nat := 304

structure KVfs (A : Type) where
  fs : Vfs Children
  alloc : A
  putFailed : Bool

section
variable (K : Kalloc A)

/-- `none` also where `kcalloc` returns NULL, which is written through, or the
    assert on `hashmap_create` halts. -/
def vfsMakeVnode (s : KVfs A) (name : List Byte) (vtype : Vtype) (isMountpoint : Bool) :
    Option (KVfs A × Option Nat) := do
  let len ← strlen name
  if len ≥ nameMax then some (s, none)
  else
    match K.kcalloc s.alloc 1 sizeofVnode with
    | (none, _) => none
    | (some _, a) =>
      match hashmapCreate K (2#32).toNat ({ tableSize := 0, size := 0, data := none, slots := [] } : Children) a with
      | (0, children, a) =>
        let zeroed := List.replicate 255 0
        let new : Vnode Children :=
          { name := name.take len ++ zeroed.drop len
            type := vtype
            state := .constructed
            flags := if isMountpoint then vMountpoint else 0
            children := children
            nChildren := 0 }
        some ({ s with fs := { s.fs with vnodes := s.fs.vnodes ++ [new] }, alloc := a }, some s.fs.vnodes.length)
      | _ => none

def vfsAppendChild (s : KVfs A) (parent : Option Nat) (child : Nat) : Option (KVfs A) := do
  let parent ← parent.or s.fs.fsRoot
  let parentNode ← s.fs.vnodes[parent]?
  let childNode ← s.fs.vnodes[child]?
  let len ← strlen childNode.name
  let (ret, children, a) ← hashmapPut bufText K parentNode.children childNode.name len (some child) s.alloc
  some
    { fs := { s.fs with vnodes := s.fs.vnodes.set parent { parentNode with children := children } }
      alloc := a
      putFailed := s.putFailed || ret != 0 }

def vfsInit (a : A) : Option (KVfs A) := do
  let (s, root) ← vfsMakeVnode K ⟨⟨[], none⟩, a, false⟩ [0] .vdir true
  let root ← root
  let rootNode ← s.fs.vnodes[root]?
  some { s with fs :=
    { vnodes := s.fs.vnodes.set root { rootNode with flags := rootNode.flags ||| vRoot }
      fsRoot := some root } }

def vfsStep (s : KVfs A) : VfsOp → Option (KVfs A)
  | .make name vtype isMountpoint => (vfsMakeVnode K s (cstr name) vtype isMountpoint).map Prod.fst
  | .append parent child => vfsAppendChild K s parent child

end

def name2vnode (s : Vfs Children) (name : List Byte) (parent : Nat) : Option (Option Nat) := do
  let parentNode ← s.vnodes[parent]?
  let len ← strlen name
  hashmapGet bufText parentNode.children name len

/-- The loop of `path2vnode` from the character at `ptr` on. -/
def path2vnodeLoop (s : Vfs Children) (current : Nat) (fname : List Byte) (fnameIdx : Nat) :
    List Byte → Option (Option Nat)
  | [] => none
  | c :: ptr =>
    if fnameIdx ≥ nameMax then some none
    else if c = slash ∨ c = 0 then do
      match ← name2vnode s (fname.set fnameIdx 0) current with
      | none => some none
      | some current =>
        if c = 0 then some (if some current ≠ s.fsRoot then some current else none)
        else path2vnodeLoop s current (List.replicate (nameMax + 1) 0) 0 ptr
    else path2vnodeLoop s current (fname.set fnameIdx c) (fnameIdx + 1) ptr

def path2vnode (s : Vfs Children) (fname : List Byte) : List Byte → Option (Option Nat)
  | [] => none
  | c :: path =>
    if c ≠ slash then some none
    else do
      let root ← s.fsRoot
      path2vnodeLoop s root fname 0 path

/-! The same on finite maps. -/

/-- Finite maps as functions. -/
def funHashmap : Hashmap (List Byte → Option Nat) where
  create := fun _ => none
  put m key value := Function.update m key (some value)
  get m key := m key
  get_create _ := rfl
  get_put m key value key' := Function.update_apply m key (some value) key'

/-- What a table of children says. -/
def childMap (children : Children) (name : List Byte) : Option Nat := (children.contents bufText name).bind Prod.snd

def absVnode (node : Vnode Children) : Vnode (List Byte → Option Nat) :=
  { name := node.name
    type := node.type
    state := node.state
    flags := node.flags
    children := childMap node.children
    nChildren := node.nChildren }

def abs (s : Vfs Children) : Vfs (List Byte → Option Nat) :=
  { vnodes := s.vnodes.map absVnode, fsRoot := s.fsRoot }

/-- All tables are in order. -/
def TablesOk (s : Vfs Children) : Prop := ∀ node ∈ s.vnodes, HashmapInv bufText node.children

theorem getElem?_abs (s : Vfs Children) (v : Nat) : (abs s).vnodes[v]? = (s.vnodes[v]?).map absVnode :=
  List.getElem?_map

theorem keyBytes_buf {buf : List Byte} {len : Nat} (h : len ≤ buf.length) : keyBytes bufText buf len = buf.take len := by
  apply List.ext_getElem
  · rw [keyBytes_length, List.length_take, Nat.min_eq_left h]
  · intro i hi hi'
    rw [keyBytes_length] at hi
    rw [List.getElem_take]
    simp only [keyBytes, List.getElem_map, List.getElem_range, bufText]
    rw [List.getD_eq_getElem?_getD, List.getElem?_eq_getElem (by omega), Option.getD_some]

theorem name2vnode_abs {s : Vfs Children} (h : TablesOk s) (name : List Byte) (parent : Nat) :
    name2vnode s name parent = Qnixx.name2vnode funHashmap (abs s) name parent := by
  rw [name2vnode, Qnixx.name2vnode, getElem?_abs]
  cases hnode : s.vnodes[parent]? with
  | none => rfl
  | some node =>
    cases hlen : strlen name with
    | none => rfl
    | some len =>
      have hinv : HashmapInv bufText node.children := h node (List.mem_of_getElem? hnode)
      have hget := hashmapGet_spec hinv name len
      rw [keyBytes_buf (Nat.le_of_lt (strlen_lt hlen))] at hget
      simp only [Option.bind_eq_bind, Option.bind_some, Option.map_some]
      rw [hget]
      show _ = some (childMap node.children (name.take len))
      rw [childMap]
      cases node.children.contents bufText (name.take len) with
      | none => rfl
      | some entry => rfl

theorem path2vnodeLoop_abs {s : Vfs Children} (h : TablesOk s) (current : Nat) (fname : List Byte) (fnameIdx : Nat)
    (path : List Byte) :
    path2vnodeLoop s current fname fnameIdx path =
      Qnixx.path2vnodeLoop funHashmap (abs s) current fname fnameIdx path := by
  induction path generalizing current fname fnameIdx with
  | nil => rfl
  | cons c path ih =>
    rw [path2vnodeLoop, Qnixx.path2vnodeLoop]
    simp only [name2vnode_abs h, ih]
    rfl

theorem path2vnode_abs {s : Vfs Children} (h : TablesOk s) (fname path : List Byte) :
    path2vnode s fname path = Qnixx.path2vnode funHashmap (abs s) fname path := by
  cases path with
  | nil => rfl
  | cons c path =>
    rw [path2vnode, Qnixx.path2vnode]
    simp only [path2vnodeLoop_abs h]
    rfl

section
variable {K : Kalloc A} {s t : KVfs A} {op : VfsOp}

theorem childMap_update {children children' : Children} {k buf : List Byte} {v : Nat}
    (h : children'.contents bufText = Function.update (children.contents bufText) k (some (buf, some v))) :
    childMap children' = Function.update (childMap children) k (some v) := by
  funext name
  rw [childMap, h]
  by_cases hname : name = k
  · rw [hname, Function.update_self, Function.update_self]
    rfl
  · rw [Function.update_of_ne hname, Function.update_of_ne hname]
    rfl

theorem vfsMakeVnode_abs (h : TablesOk s.fs) {name : List Byte} {vtype : Vtype} {mount : Bool} {v : Option Nat}
    (hmake : vfsMakeVnode K s name vtype mount = some (t, v)) :
    TablesOk t.fs ∧ t.putFailed = s.putFailed ∧
      Qnixx.vfsMakeVnode funHashmap (abs s.fs) name vtype mount = some (abs t.fs, v) := by
  rw [vfsMakeVnode] at hmake
  rw [Qnixx.vfsMakeVnode]
  cases hlen : strlen name with
  | none =>
    rw [hlen] at hmake
    cases hmake
  | some len =>
    rw [hlen, Option.bind_eq_bind, Option.bind_some] at hmake
    rw [Option.bind_eq_bind, Option.bind_some]
    by_cases hlong : len ≥ nameMax
    · rw [if_pos hlong] at hmake ⊢
      cases hmake
      exact ⟨h, rfl, rfl⟩
    · rw [if_neg hlong] at hmake ⊢
      split at hmake
      · cases hmake
      · next b a hcalloc =>
        split at hmake
        · next children a' hcreate =>
          have hcreated : HashmapInv bufText children ∧ children.contents bufText = fun _ => none :=
            created_inv K hcreate
          obtain ⟨hinv, hempty⟩ := hcreated
          cases hmake
          refine ⟨?_, rfl, ?_⟩
          · intro node hnode
            rcases List.mem_append.mp hnode with hold | hnew
            · exact h node hold
            · rw [List.mem_singleton.mp hnew]
              exact hinv
          · have hchildren : childMap children = fun _ => none := by
              funext key
              rw [childMap, hempty]
              rfl
            simp only [abs, List.map_append, List.map_cons, List.map_nil, absVnode, hchildren, List.length_map,
              funHashmap]
        · cases hmake

theorem vfsAppendChild_abs (h : TablesOk s.fs) {parent : Option Nat} {child : Nat}
    (happend : vfsAppendChild K s parent child = some t) :
    TablesOk t.fs ∧ (t.putFailed = false → s.putFailed = false ∧
      Qnixx.vfsAppendChild funHashmap (abs s.fs) parent child = some (abs t.fs)) := by
  simp only [vfsAppendChild, Option.bind_eq_bind, Option.bind_eq_some_iff] at happend
  obtain ⟨p, hp, parentNode, hparent, childNode, hchild, len, hlen, ⟨ret, children, a⟩, hput, happend⟩ := happend
  cases happend
  have hinv : HashmapInv bufText parentNode.children := h parentNode (List.mem_of_getElem? hparent)
  obtain ⟨ret', children', a', rs, hput', -, hdone⟩ := hashmapPut_spec K hinv childNode.name len (some child) s.alloc
  rw [hput, Option.some.injEq, Prod.mk.injEq, Prod.mk.injEq] at hput'
  obtain ⟨rfl, rfl, rfl⟩ := hput'
  refine ⟨?_, ?_⟩
  · intro node hnode
    rcases List.mem_or_eq_of_mem_set hnode with hold | rfl
    · exact h node hold
    · exact hdone.inv
  · intro hok
    obtain ⟨hbefore, hret⟩ := Bool.or_eq_false_iff.mp hok
    refine ⟨hbefore, ?_⟩
    rcases hdone.outcome with ⟨-, hcontents⟩ | ⟨rfl, -⟩
    · rw [keyBytes_buf (Nat.le_of_lt (strlen_lt hlen))] at hcontents
      have hroot : (abs s.fs).fsRoot = s.fs.fsRoot := rfl
      simp only [Qnixx.vfsAppendChild, hroot, hp, getElem?_abs, hparent, hchild, Option.bind_eq_bind, Option.bind_some,
        Option.map_some]
      show (strlen childNode.name).bind _ = _
      rw [hlen, Option.bind_some]
      simp only [abs, List.map_set, absVnode, childMap_update hcontents, funHashmap]
    · cases hret

theorem vfsStep_abs (h : TablesOk s.fs) (hstep : vfsStep K s op = some t) :
    TablesOk t.fs ∧ (t.putFailed = false → s.putFailed = false ∧
      Qnixx.vfsStep funHashmap (abs s.fs) op = some (abs t.fs)) := by
  cases op with
  | make name vtype mount =>
    obtain ⟨⟨u, v⟩, hmake, rfl⟩ := Option.map_eq_some_iff.mp hstep
    obtain ⟨hok, hfailed, habs⟩ := vfsMakeVnode_abs h hmake
    refine ⟨hok, fun hnot => ⟨hfailed ▸ hnot, ?_⟩⟩
    rw [Qnixx.vfsStep, habs]
    rfl
  | append parent child => exact vfsAppendChild_abs h hstep

/-- A run without a failed put is a run on finite maps. -/
theorem exec_abs (h : TablesOk s.fs) {ops : List VfsOp} (hexec : Runs.exec (vfsStep K) s ops = some t) :
    TablesOk t.fs ∧ (t.putFailed = false → s.putFailed = false ∧
      Runs.exec (Qnixx.vfsStep funHashmap) (abs s.fs) ops = some (abs t.fs)) := by
  induction ops generalizing s with
  | nil =>
    cases hexec
    exact ⟨h, fun hok => ⟨hok, rfl⟩⟩
  | cons op ops ih =>
    obtain ⟨u, hstep, hrest⟩ := Runs.exec_cons.mp hexec
    obtain ⟨hu, hone⟩ := vfsStep_abs h hstep
    obtain ⟨ht, hmany⟩ := ih hu hrest
    refine ⟨ht, ?_⟩
    intro hok
    obtain ⟨hok', hexec'⟩ := hmany hok
    obtain ⟨hok'', hstep'⟩ := hone hok'
    exact ⟨hok'', Runs.exec_cons.mpr ⟨_, hstep', hexec'⟩⟩

theorem vfsInit_abs {a : A} (hinit : vfsInit K a = some s) :
    TablesOk s.fs ∧ abs s.fs = rootVfs funHashmap := by
  simp only [vfsInit, Option.bind_eq_bind, Option.bind_eq_some_iff] at hinit
  obtain ⟨⟨u, v⟩, hmake, root, rfl, rootNode, hroot, hinit⟩ := hinit
  obtain ⟨hok, -, habs⟩ := vfsMakeVnode_abs (fun node hnode => absurd hnode List.not_mem_nil) hmake
  cases hinit
  refine ⟨?_, ?_⟩
  · intro node hnode
    rcases List.mem_or_eq_of_mem_set hnode with hold | rfl
    · exact hok node hold
    · exact hok rootNode (List.mem_of_getElem? hroot)
  · have hspec := vfsInit_eq funHashmap
    have habs' : Qnixx.vfsMakeVnode funHashmap ⟨[], none⟩ [0] .vdir true = some (abs u.fs, some root) := habs
    have hnode : (abs u.fs).vnodes[root]? = some (absVnode rootNode) := by rw [getElem?_abs, hroot, Option.map_some]
    simp only [Qnixx.vfsInit, habs', hnode, Option.bind_eq_bind, Option.bind_some, Option.some.injEq] at hspec
    rw [← hspec]
    simp only [abs, List.map_set, absVnode]

end

/-- **The file system finds on hash maps what it finds on finite maps.** Every
    run from `vfs_init` in which no `hashmap_put` has failed is a run of the file
    system on finite maps, and every lookup afterwards finds the same there. -/
theorem lookups_refine (K : Kalloc A) (a : A) (s t : KVfs A) (hinit : vfsInit K a = some s) (ops : List VfsOp)
    (hexec : Runs.exec (vfsStep K) s ops = some t) (hok : t.putFailed = false) :
    ∃ u, Runs.exec (Qnixx.vfsStep funHashmap) (rootVfs funHashmap) ops = some u ∧
      ∀ fname path, path2vnode t.fs fname path = Qnixx.path2vnode funHashmap u fname path := by
  obtain ⟨htables, hroot⟩ := vfsInit_abs hinit
  obtain ⟨hend, habs⟩ := exec_abs htables hexec
  refine ⟨abs t.fs, hroot ▸ (habs hok).2, ?_⟩
  exact path2vnode_abs hend

theorem lookups_refine_twoB :
    ∃ s t, vfsInit countedKalloc 20 = some s ∧ Runs.exec (vfsStep countedKalloc) s twoB = some t ∧
      ∃ u, Runs.exec (Qnixx.vfsStep funHashmap) (rootVfs funHashmap) twoB = some u ∧
        ∀ fname path, path2vnode t.fs fname path = Qnixx.path2vnode funHashmap u fname path := by
  have hrun : (vfsInit countedKalloc 20).bind (fun s =>
      (Runs.exec (vfsStep countedKalloc) s twoB).map (·.putFailed)) = some false := by decide +kernel
  obtain ⟨s, hinit, hmap⟩ := Option.bind_eq_some_iff.mp hrun
  obtain ⟨t, hexec, hok⟩ := Option.map_eq_some_iff.mp hmap
  exact ⟨s, t, hinit, hexec, lookups_refine countedKalloc 20 s t hinit twoB hexec hok⟩

end OnHashmap
end Qnixx
