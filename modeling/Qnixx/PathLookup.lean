import Qnixx.Vfs

/- `path2vnode` on every tree and every path. Its loop collects the characters
   of one name in `fname`, looks the name up at a `/` or at the end, and starts
   over. Here the loop also lists what it touches, and what it returns is a fold
   of the lookup of one name over the names between the slashes. A vnode that a
   run has made is found that way, under the path of its names. -/
namespace Qnixx

/-- A read of a character of the path, or a write of a byte of `fname`. -/
inductive PathAccess where
  | readPath (i : Nat)
  | writeName (i : Nat)
  deriving DecidableEq

section
variable {M : Type} (H : Hashmap M) (s : Vfs M)

/-- The loop of `path2vnode` with the list of its accesses; the character at
    `ptr` is character `pos` of the path. `memzero` writes all of `fname`, and
    `*(ptr - 1)` reads the character once more. -/
def tracedPathLoop (current : Nat) (fname : List Byte) (fnameIdx pos : Nat) :
    List Byte → Option (Option Nat) × List PathAccess
  | [] => (none, [.readPath pos])
  | c :: ptr =>
    if fnameIdx ≥ nameMax then (some none, [])
    else if c = slash ∨ c = 0 then
      match name2vnode H s (fname.set fnameIdx 0) current with
      | none => (none, [.readPath pos, .writeName fnameIdx])
      | some none => (some none, [.readPath pos, .writeName fnameIdx])
      | some (some current) =>
        let turn := [.readPath pos, .writeName fnameIdx] ++
          (List.range (nameMax + 1)).map .writeName ++ [.readPath pos]
        if c = 0 then (some (if some current ≠ s.fsRoot then some current else none), turn)
        else
          let rest := tracedPathLoop current (List.replicate (nameMax + 1) 0) 0 (pos + 1) ptr
          (rest.1, turn ++ rest.2)
    else
      let rest := tracedPathLoop current (fname.set fnameIdx c) (fnameIdx + 1) (pos + 1) ptr
      (rest.1, [.readPath pos, .writeName fnameIdx] ++ rest.2)

def tracedPath2vnode (fname : List Byte) : List Byte → Option (Option Nat) × List PathAccess
  | [] => (none, [.readPath 0])
  | c :: path =>
    if c ≠ slash then (some none, [.readPath 0])
    else
      match s.fsRoot with
      | none => (none, [.readPath 0])
      | some root =>
        let rest := tracedPathLoop H s root fname 0 1 path
        (rest.1, .readPath 0 :: rest.2)

/-- The child of a vnode under a name. -/
def childNamed (parent : Nat) (name : List Byte) : Option Nat :=
  (s.vnodes[parent]?).bind (fun node => H.get node.children name)

/-- A path leads to `v`: it is absolute, no name in it is too long, and the
    names, empty ones too, lead one after another from the root to `v`. -/
structure LeadsTo (root : Nat) (path : List Byte) (v : Nat) : Prop where
  absolute : path.head? = some slash
  short : ∀ name ∈ path.tail.splitOn slash, name.length < nameMax
  names : (path.tail.splitOn slash).foldlM (childNamed H s) root = some v
  notRoot : v ≠ root

/-- A file system with a root, where every pointer to a child is one to a vnode. -/
structure VnodeTree (root : Nat) : Prop where
  fsRoot : s.fsRoot = some root
  root_lt : root < s.vnodes.length
  child_lt : ∀ node ∈ s.vnodes, ∀ name child, H.get node.children name = some child →
    child < s.vnodes.length

end

section
variable {M : Type} {H : Hashmap M} {s : Vfs M} {root : Nat}

/-- What `vfs_init`, `vfs_make_vnode` and `vfs_append_child` build is such a tree. -/
theorem vnodeTree_of_inv {ops : List VfsOp} (h : VfsInv H ops s) : VnodeTree H s 0 := by
  refine ⟨h.root, ?_, ?_⟩
  · rw [h.size]
    exact Nat.succ_pos _
  · intro node hnode name child hchild
    obtain ⟨v, hv⟩ := List.mem_iff_getElem?.mp hnode
    rw [h.children v node hv] at hchild
    exact (h.links _ (lastChild_some hchild).1).2

theorem VnodeTree.childNamed_lt (h : VnodeTree H s root) {u w : Nat} {name : List Byte}
    (hw : childNamed H s u name = some w) : w < s.vnodes.length := by
  obtain ⟨node, hnode, hget⟩ := Option.bind_eq_some_iff.mp hw
  exact h.child_lt node (List.mem_of_getElem? hnode) name w hget

/-! The accesses aside, the loop is the one of `Vfs`. -/

theorem tracedPathLoop_erase (current : Nat) (fname : List Byte) (fnameIdx pos : Nat) (ptr : List Byte) :
    (tracedPathLoop H s current fname fnameIdx pos ptr).1 = path2vnodeLoop H s current fname fnameIdx ptr := by
  induction ptr generalizing current fname fnameIdx pos with
  | nil => rfl
  | cons c ptr ih =>
    rw [tracedPathLoop, path2vnodeLoop]
    by_cases hlong : fnameIdx ≥ nameMax
    · rw [if_pos hlong, if_pos hlong]
    rw [if_neg hlong, if_neg hlong]
    by_cases hsep : c = slash ∨ c = 0
    · rw [if_pos hsep, if_pos hsep]
      cases name2vnode H s (fname.set fnameIdx 0) current with
      | none => rfl
      | some found =>
        cases found with
        | none => rfl
        | some w =>
          simp only [Option.bind_eq_bind, Option.bind_some]
          by_cases hend : c = 0
          · rw [if_pos hend, if_pos hend]
          · rw [if_neg hend, if_neg hend]
            exact ih ..
    · rw [if_neg hsep, if_neg hsep]
      exact ih ..

theorem tracedPath2vnode_erase (fname path : List Byte) :
    (tracedPath2vnode H s fname path).1 = path2vnode H s fname path := by
  cases path with
  | nil => rfl
  | cons c path =>
    rw [tracedPath2vnode, path2vnode]
    by_cases hc : c ≠ slash
    · rw [if_pos hc, if_pos hc]
    · rw [if_neg hc, if_neg hc]
      cases s.fsRoot with
      | none => rfl
      | some root => exact tracedPathLoop_erase ..

/-! What the loop touches. -/

/-- An access to a path that ends at character `stop`. -/
def PathAccess.Inside (stop : Nat) : PathAccess → Prop
  | readPath i => i ≤ stop
  | writeName i => i ≤ nameMax

theorem inside_turn {stop pos idx : Nat} (hpos : pos ≤ stop) (hidx : idx ≤ nameMax) :
    ∀ a ∈ [PathAccess.readPath pos, .writeName idx], a.Inside stop := by
  intro a ha
  rcases List.mem_cons.mp ha with rfl | ha
  · exact hpos
  · rw [List.mem_singleton.mp ha]
    exact hidx

theorem inside_memzero (stop : Nat) :
    ∀ a ∈ (List.range (nameMax + 1)).map PathAccess.writeName, a.Inside stop := by
  intro a ha
  obtain ⟨i, hi, rfl⟩ := List.mem_map.mp ha
  exact Nat.le_of_lt_succ (List.mem_range.mp hi)

/-- One turn of the loop: only the end of the string ends the path. -/
theorem tracedPathLoop_turn {stop pos : Nat} {c : Byte} {ptr : List Byte} (hpos : pos ≤ stop)
    (hrest : c ≠ 0 → ∀ current fname fnameIdx,
      ∀ a ∈ (tracedPathLoop H s current fname fnameIdx (pos + 1) ptr).2, a.Inside stop)
    (current : Nat) (fname : List Byte) (fnameIdx : Nat) :
    ∀ a ∈ (tracedPathLoop H s current fname fnameIdx pos (c :: ptr)).2, a.Inside stop := by
  rw [tracedPathLoop]
  by_cases hlong : fnameIdx ≥ nameMax
  · rw [if_pos hlong]
    exact nofun
  have hturn := inside_turn hpos (Nat.le_of_lt (Nat.lt_of_not_le hlong))
  have hread : ∀ a ∈ [PathAccess.readPath pos], a.Inside stop := by
    intro a ha
    rw [List.mem_singleton.mp ha]
    exact hpos
  rw [if_neg hlong]
  by_cases hsep : c = slash ∨ c = 0
  · rw [if_pos hsep]
    cases name2vnode H s (fname.set fnameIdx 0) current with
    | none => exact hturn
    | some found =>
      cases found with
      | none => exact hturn
      | some w =>
        have hall := List.forall_mem_append.mpr
          ⟨List.forall_mem_append.mpr ⟨hturn, inside_memzero _⟩, hread⟩
        by_cases hend : c = 0
        · simp only [hend, if_true]
          exact hall
        · simp only [hend, if_false]
          exact List.forall_mem_append.mpr ⟨hall, hrest hend _ _ _⟩
  · rw [if_neg hsep]
    exact List.forall_mem_append.mpr ⟨hturn, hrest (fun hend => hsep (.inr hend)) _ _ _⟩

theorem tracedPathLoop_inside (path rest : List Byte) (pos : Nat) (current : Nat) (fname : List Byte)
    (fnameIdx : Nat) : ∀ a ∈ (tracedPathLoop H s current fname fnameIdx pos (path ++ 0 :: rest)).2,
      a.Inside (pos + path.length) := by
  induction path generalizing pos current fname fnameIdx with
  | nil => exact tracedPathLoop_turn (Nat.le_refl _) (fun hne => absurd rfl hne) current fname fnameIdx
  | cons c path ih =>
    refine tracedPathLoop_turn (Nat.le_add_right _ _) ?_ current fname fnameIdx
    intro _ current fname fnameIdx
    have hstop : pos + 1 + path.length = pos + (c :: path).length := by
      rw [List.length_cons]
      omega
    rw [← hstop]
    exact ih (pos + 1) current fname fnameIdx

theorem tracedPath2vnode_inside (fname path rest : List Byte) :
    ∀ a ∈ (tracedPath2vnode H s fname (path ++ 0 :: rest)).2, a.Inside path.length := by
  have hfirst : ∀ a ∈ [PathAccess.readPath 0], a.Inside path.length := by
    intro a ha
    rw [List.mem_singleton.mp ha]
    exact Nat.zero_le _
  cases path with
  | nil => exact hfirst
  | cons c path =>
    rw [List.cons_append, tracedPath2vnode]
    by_cases hc : c ≠ slash
    · rw [if_pos hc]
      exact hfirst
    rw [if_neg hc]
    cases s.fsRoot with
    | none => exact hfirst
    | some root =>
      have hloop := tracedPathLoop_inside (H := H) (s := s) path rest 1 root fname 0
      rw [Nat.add_comm 1] at hloop
      exact List.forall_mem_append.mpr ⟨hfirst, hloop⟩

/-! What the loop returns. -/

/-- The names from `u` on, with `none` where the loop returns NULL. -/
def namesFrom (H : Hashmap M) (s : Vfs M) (root u : Nat) (names : List (List Byte)) : Option Nat :=
  if ∀ name ∈ names, name.length < nameMax then
    (names.foldlM (childNamed H s) u).filter (fun v => decide (v ≠ root))
  else none

theorem namesFrom_long {u : Nat} {name : List Byte} {names : List (List Byte)} (hmem : name ∈ names)
    (hlong : nameMax ≤ name.length) : namesFrom H s root u names = none :=
  if_neg (fun hall => Nat.not_lt.mpr hlong (hall name hmem))

theorem namesFrom_cons {u : Nat} {name : List Byte} (hshort : name.length < nameMax)
    (names : List (List Byte)) : namesFrom H s root u (name :: names) =
      (childNamed H s u name).bind (fun w => namesFrom H s root w names) := by
  simp only [namesFrom, List.forall_mem_cons, hshort, true_and, List.foldlM_cons, Option.bind_eq_bind]
  cases childNamed H s u name with
  | none => simp
  | some w => rfl

/-- The first name goes on from what was read of it before. -/
theorem exists_name_of_read (read path : List Byte) :
    ∃ name ∈ path.splitOnPPrepend (· == slash) read.reverse, read.length ≤ name.length := by
  rw [List.splitOnPPrepend_eq_modifyHead, List.reverse_reverse]
  obtain ⟨name, names, hnames⟩ := List.exists_cons_of_ne_nil (List.splitOnP_ne_nil (· == slash) path)
  refine ⟨read ++ name, ?_, ?_⟩
  · rw [hnames]
    exact List.mem_cons_self
  · rw [List.length_append]
    exact Nat.le_add_right _ _

theorem name2vnode_childNamed {u : Nat} (hu : u < s.vnodes.length) {name : List Byte}
    (hname : ∀ c ∈ name, c ≠ 0) (rest : List Byte) :
    name2vnode H s (name ++ 0 :: rest) u = some (childNamed H s u name) := by
  simp only [name2vnode, childNamed, List.getElem?_eq_getElem hu, strlen_cstr hname,
    Option.bind_eq_bind, Option.bind_some, List.take_left]

/-- The loop, when it has `read` a part of a name and `path` is still to come.
    The induction is on `path`; a name that gets too long stays so, whatever
    comes behind it. -/
theorem path2vnodeLoop_names (h : VnodeTree H s root) (rest path : List Byte) :
    ∀ {u : Nat} (read more : List Byte), u < s.vnodes.length → (∀ c ∈ read, c ≠ 0) →
      (∀ c ∈ path, c ≠ 0) → (read ++ more).length = nameMax + 1 → read.length ≤ nameMax →
      path2vnodeLoop H s u (read ++ more) read.length (path ++ 0 :: rest) =
        some (namesFrom H s root u (path.splitOnPPrepend (· == slash) read.reverse)) := by
  induction path with
  | nil =>
    intro u read more hu hread _ hsize hroom
    rw [List.nil_append, path2vnodeLoop, List.splitOnPPrepend_nil, List.reverse_reverse]
    by_cases hlong : read.length ≥ nameMax
    · rw [if_pos hlong, namesFrom_long List.mem_cons_self hlong]
    obtain ⟨b, more, rfl⟩ := List.exists_cons_of_length_pos (l := more)
      (by rw [List.length_append] at hsize; omega)
    rw [if_neg hlong, if_pos (.inr rfl), set_next, name2vnode_childNamed hu hread,
      namesFrom_cons (Nat.lt_of_not_le hlong), h.fsRoot]
    cases childNamed H s u read with
    | none => rfl
    | some w =>
      simp only [Option.bind_eq_bind, Option.bind_some, if_true, namesFrom]
      by_cases hw : w = root
      · simp [hw, Option.filter]
      · simp [hw, Option.filter]
  | cons c path ih =>
    intro u read more hu hread hpath hsize hroom
    obtain ⟨hc, hpath⟩ := List.forall_mem_cons.mp hpath
    rw [List.cons_append, path2vnodeLoop]
    by_cases hlong : read.length ≥ nameMax
    · obtain ⟨name, hmem, hle⟩ := exists_name_of_read read (c :: path)
      rw [if_pos hlong, namesFrom_long hmem (Nat.le_trans hlong hle)]
    obtain ⟨b, more, rfl⟩ := List.exists_cons_of_length_pos (l := more)
      (by rw [List.length_append] at hsize; omega)
    rw [if_neg hlong, set_next, set_next]
    by_cases hslash : c = slash
    · rw [if_pos (.inl hslash), name2vnode_childNamed hu hread,
        List.splitOnPPrepend_cons_pos (p := (· == slash)) (beq_iff_eq.mpr hslash), List.reverse_reverse,
        namesFrom_cons (Nat.lt_of_not_le hlong)]
      cases hw : childNamed H s u read with
      | none => rfl
      | some w =>
        simp only [Option.bind_eq_bind, Option.bind_some, if_neg hc]
        exact ih [] (List.replicate (nameMax + 1) 0) (h.childNamed_lt hw) (List.forall_mem_nil _) hpath
          List.length_replicate (Nat.zero_le _)
    · have hread' : ∀ d ∈ read ++ [c], d ≠ 0 :=
        List.forall_mem_append.mpr ⟨hread, fun d hd => List.mem_singleton.mp hd ▸ hc⟩
      have hsize' : ((read ++ [c]) ++ more).length = nameMax + 1 := by
        rw [← hsize, List.append_assoc]
        simp only [List.length_append, List.length_cons, List.length_nil]
        omega
      have hrec := ih (read ++ [c]) more hu hread' hpath hsize'
        (by rw [List.length_append, List.length_singleton]; omega)
      rw [List.length_append, List.length_singleton, List.append_assoc, List.reverse_append] at hrec
      rw [if_neg (not_or.mpr ⟨hslash, hc⟩),
        List.splitOnPPrepend_cons_neg (p := (· == slash)) (beq_eq_false_iff_ne.mpr hslash)]
      exact hrec

theorem namesFrom_eq_some {u v : Nat} {names : List (List Byte)} :
    namesFrom H s root u names = some v ↔
      (∀ name ∈ names, name.length < nameMax) ∧ names.foldlM (childNamed H s) u = some v ∧ v ≠ root := by
  rw [namesFrom]
  by_cases hshort : ∀ name ∈ names, name.length < nameMax
  · rw [if_pos hshort, Option.filter_eq_some_iff, decide_eq_true_iff]
    exact ⟨fun hv => ⟨hshort, hv⟩, fun hv => hv.2⟩
  · rw [if_neg hshort]
    exact ⟨nofun, fun hv => absurd hv.1 hshort⟩

/-- `path2vnode` always returns, and what it returns is what the path leads to. -/
theorem path2vnode_returns (h : VnodeTree H s root) {fname : List Byte}
    (hfname : fname.length = nameMax + 1) {path : List Byte} (hpath : ∀ c ∈ path, c ≠ 0)
    (rest : List Byte) : ∃ r, path2vnode H s fname (path ++ 0 :: rest) = some r ∧
      ∀ v, r = some v ↔ LeadsTo H s root path v := by
  cases path with
  | nil =>
    refine ⟨none, rfl, ?_⟩
    intro v
    refine ⟨?_, ?_⟩
    · intro hv
      cases hv
    · intro hv
      cases hv.absolute
  | cons c path =>
    obtain ⟨-, hpath⟩ := List.forall_mem_cons.mp hpath
    rw [List.cons_append, path2vnode]
    by_cases hc : c = slash
    · have hloop := path2vnodeLoop_names h rest path [] fname h.root_lt (List.forall_mem_nil _) hpath hfname
        (Nat.zero_le _)
      refine ⟨namesFrom H s root root (path.splitOn slash), ?_, ?_⟩
      · rw [if_neg (fun hne => hne hc), h.fsRoot]
        exact hloop
      · intro v
        rw [namesFrom_eq_some]
        exact ⟨fun hv => ⟨congrArg some hc, hv.1, hv.2.1, hv.2.2⟩,
          fun hv => ⟨hv.short, hv.names, hv.notRoot⟩⟩
    · refine ⟨none, if_pos hc, ?_⟩
      intro v
      refine ⟨?_, ?_⟩
      · intro hv
        cases hv
      · intro hv
        exact absurd (Option.some.inj hv.absolute) hc

end

/-- **`path2vnode` folds the lookup of a name over the names of the path.** On
    every tree, for every string and whatever `fname` held: the loop ends, reads
    no character behind the end of the string and writes no byte behind
    `fname[NAME_MAX]`; it returns `v` exactly when the path leads to `v`, and
    NULL when it leads nowhere. -/
theorem path2vnode_folds_names {M : Type} (H : Hashmap M) (s : Vfs M) (root : Nat) (h : VnodeTree H s root)
    (fname : List Byte) (hfname : fname.length = nameMax + 1) (path rest : List Byte)
    (hpath : ∀ c ∈ path, c ≠ 0) :
    (tracedPath2vnode H s fname (path ++ 0 :: rest)).1 = path2vnode H s fname (path ++ 0 :: rest) ∧
    (∀ i, .readPath i ∈ (tracedPath2vnode H s fname (path ++ 0 :: rest)).2 → i ≤ path.length) ∧
    (∀ i, .writeName i ∈ (tracedPath2vnode H s fname (path ++ 0 :: rest)).2 → i ≤ nameMax) ∧
    (∀ v, path2vnode H s fname (path ++ 0 :: rest) = some (some v) ↔ LeadsTo H s root path v) ∧
    (path2vnode H s fname (path ++ 0 :: rest) = some none ↔ ¬ ∃ v, LeadsTo H s root path v) := by
  have hinside := tracedPath2vnode_inside (H := H) (s := s) fname path rest
  obtain ⟨r, hr, hv⟩ := path2vnode_returns h hfname hpath rest
  refine ⟨tracedPath2vnode_erase .., fun i => hinside _, fun i => hinside _, ?_, ?_⟩
  · intro v
    rw [hr, Option.some.injEq]
    exact hv v
  · rw [hr, Option.some.injEq]
    refine ⟨?_, ?_⟩
    · rintro rfl ⟨v, hlead⟩
      cases (hv v).mpr hlead
    · intro hno
      cases r with
      | none => rfl
      | some v => exact absurd ⟨v, (hv v).mp rfl⟩ hno

/-- `/a/b`, with other bytes behind its end, and nothing for `/a//b`. -/
theorem path2vnode_folds_names_twoB :
    ∃ s, Runs.exec (vfsStep listHashmap) (rootVfs listHashmap) twoB = some s ∧
      LeadsTo listHashmap s 0 [slash, 0x61, slash, 0x62] 3 ∧
      ¬ ∃ v, LeadsTo listHashmap s 0 [slash, 0x61, slash, slash, 0x62] v := by
  have hsome : (Runs.exec (vfsStep listHashmap) (rootVfs listHashmap) twoB).isSome = true := by
    decide +kernel
  have hab : (Runs.exec (vfsStep listHashmap) (rootVfs listHashmap) twoB).bind (fun s =>
      path2vnode listHashmap s (List.replicate 256 0xFF) ([slash, 0x61, slash, 0x62] ++ 0 :: [0x63])) =
        some (some 3) := by
    decide +kernel
  have haab : (Runs.exec (vfsStep listHashmap) (rootVfs listHashmap) twoB).bind (fun s =>
      path2vnode listHashmap s (List.replicate 256 0xFF) ([slash, 0x61, slash, slash, 0x62] ++ 0 :: [])) =
        some none := by
    decide +kernel
  obtain ⟨s, hs⟩ := Option.isSome_iff_exists.mp hsome
  rw [hs, Option.bind_some] at hab haab
  have htree := vnodeTree_of_inv (vfsInv_run (by decide) hs)
  refine ⟨s, hs, ?_, ?_⟩
  · obtain ⟨-, -, -, hfound, -⟩ := path2vnode_folds_names listHashmap s 0 htree _ List.length_replicate
      [slash, 0x61, slash, 0x62] [0x63] (by decide)
    exact (hfound 3).mp hab
  · obtain ⟨-, -, -, -, hnull⟩ := path2vnode_folds_names listHashmap s 0 htree _ List.length_replicate
      [slash, 0x61, slash, slash, 0x62] [] (by decide)
    exact hnull.mp haab

/-! The path of a chain of names. -/

/-- Splitting the path of some names gives the names back. -/
theorem splitOn_pathOf (name : List Byte) (names : List (List Byte)) (h : ∀ n ∈ name :: names, slash ∉ n) :
    (name ++ pathOf names).splitOn slash = name :: names := by
  induction names generalizing name with
  | nil =>
    rw [pathOf, List.append_nil]
    exact List.splitOn_eq_singleton (h name List.mem_cons_self)
  | cons next names ih =>
    obtain ⟨hname, hrest⟩ := List.forall_mem_cons.mp h
    rw [pathOf, List.cons_append, List.splitOn_append_cons_self_of_not_mem hname, ih next hrest]

theorem pathOf_chars {names : List (List Byte)} (h : ∀ name ∈ names, NameChars name) :
    ∀ c ∈ pathOf names, c ≠ 0 := by
  induction names with
  | nil => exact List.forall_mem_nil _
  | cons name names ih =>
    obtain ⟨hname, hrest⟩ := List.forall_mem_cons.mp h
    rw [pathOf, List.cons_append]
    refine List.forall_mem_cons.mpr ⟨by decide, List.forall_mem_append.mpr ⟨?_, ih hrest⟩⟩
    intro c hc
    exact (hname c hc).1

section
variable {M : Type} {H : Hashmap M} {s : Vfs M} {ops : List VfsOp} {u v : Nat} {names : List (List Byte)}

theorem NameChain.names_wf (hwf : ∀ op ∈ ops, op.Wf) (h : NameChain ops u names v) :
    ∀ name ∈ names, name.length < nameMax ∧ NameChars name := by
  induction h with
  | nil u => exact List.forall_mem_nil _
  | cons hlast _ ih =>
    have hname := List.mem_of_getElem? (lastChild_some hlast).2
    exact List.forall_mem_cons.mpr ⟨madeNames_wf hwf _ hname, ih⟩

theorem NameChain.ne_root (hwf : ∀ op ∈ ops, op.Wf) (h : NameChain ops u names v)
    (hstart : u ≠ 0 ∨ names ≠ []) : v ≠ 0 := by
  induction h with
  | nil u => exact hstart.resolve_right (fun hne => hne rfl)
  | cons hlast _ ih => exact ih (.inl (appended_wf hwf _ (lastChild_some hlast).1))

/-- A chain of names is what the lookups of its names follow. -/
theorem NameChain.folds (hinv : VfsInv H ops s) (h : NameChain ops u names v) :
    names.foldlM (childNamed H s) u = some v := by
  induction h with
  | nil u => rfl
  | @cons u w v name names hlast _ ih =>
    have hnode := List.getElem?_eq_getElem (hinv.links _ (lastChild_some hlast).1).1
    have hchild : childNamed H s u name = some w := by
      rw [childNamed, hnode, Option.bind_some, hinv.children u _ hnode, hlast]
    rw [List.foldlM_cons, hchild]
    exact ih

theorem NameChain.leadsTo (hinv : VfsInv H ops s) (hwf : ∀ op ∈ ops, op.Wf) (h : NameChain ops 0 names v)
    (hne : names ≠ []) : LeadsTo H s 0 (pathOf names) v := by
  have hnames := h.names_wf hwf
  have hroot := h.ne_root hwf (.inr hne)
  have hfolds := h.folds hinv
  obtain ⟨name, names, rfl⟩ := List.exists_cons_of_ne_nil hne
  have hsplit : (pathOf (name :: names)).tail.splitOn slash = name :: names :=
    splitOn_pathOf name names (fun n hn hslash => ((hnames n hn).2 slash hslash).2 rfl)
  refine ⟨rfl, ?_, ?_, hroot⟩
  · rw [hsplit]
    exact fun n hn => (hnames n hn).1
  · rw [hsplit]
    exact hfolds

end

/-- **Every vnode that can be made can be found.** After `vfs_init` and any run
    of `vfs_make_vnode`, with names that are not empty and have no `/`, and
    `vfs_append_child`: the path of a chain of names, each that of the last
    child appended under its parent with this name, leads to the vnode at its
    end, whatever the buffer for the names held. -/
theorem path_finds_vnode {M : Type} (H : Hashmap M) (init s : Vfs M) (ops : List VfsOp)
    (hinit : vfsInit H = some init) (hwf : ∀ op ∈ ops, op.Wf)
    (hrun : Runs.exec (vfsStep H) init ops = some s) (names : List (List Byte)) (v : Nat)
    (hne : names ≠ []) (hchain : NameChain ops 0 names v) (fname : List Byte)
    (hfname : fname.length = nameMax + 1) :
    path2vnode H s fname (cstr (pathOf names)) = some (some v) := by
  rw [vfsInit_eq, Option.some.injEq] at hinit
  subst hinit
  have h := vfsInv_run hwf hrun
  have hchars := pathOf_chars (fun name hname => (hchain.names_wf hwf name hname).2)
  obtain ⟨r, hr, hv⟩ := path2vnode_returns (vnodeTree_of_inv h) hfname hchars []
  rw [cstr, hr, (hv v).mpr (hchain.leadsTo h hwf hne)]

theorem path_finds_vnode_twoB :
    ∃ s, Runs.exec (vfsStep listHashmap) (rootVfs listHashmap) twoB = some s ∧
      path2vnode listHashmap s (List.replicate 256 0xFF) (cstr (pathOf [[0x61], [0x62]])) = some (some 3) := by
  have hsome : (Runs.exec (vfsStep listHashmap) (rootVfs listHashmap) twoB).isSome = true := by
    decide +kernel
  obtain ⟨s, hs⟩ := Option.isSome_iff_exists.mp hsome
  refine ⟨s, hs, path_finds_vnode listHashmap (rootVfs listHashmap) s twoB rfl ?_ hs _ 3 (by decide) ?_ _
    List.length_replicate⟩
  · decide
  · exact .cons (w := 1) (by decide) (.cons (w := 3) (by decide) (.nil 3))

end Qnixx
