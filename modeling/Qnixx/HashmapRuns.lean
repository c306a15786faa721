import Qnixx.HashmapPut
import Qnixx.Lib.Runs

/- Runs of the hash map. A caller sees a finite map from the bytes of a key to
   the pointer that was put for it last and its value: `MapDoes` says what a call
   may return and what the map is after it. The only freedom is in a put that
   returns 1, which may have lost entries that were there before; when that can
   happen is seen in the table and the allocator. -/
namespace Qnixx
open Probing

variable {A P V : Type} [Inhabited P] [Inhabited V]

inductive MapOp (P V : Type) where
  | put (key : P) (len : Nat) (value : V)
  | get (key : P) (len : Nat)
  | remove (key : P) (len : Nat)
  | removeAndReturnKey (key : P) (len : Nat)
  | numEntries

inductive MapRet (P V : Type) where
  | status (ret : Nat)
  | value (v : V)
  | key (p : P)
  | count (n : Nat)
  deriving DecidableEq

/-- The map, the allocator and what the calls have returned, last one first. -/
structure MapSys (A P V : Type) where
  map : HashmapS P V
  alloc : A
  returned : List (MapRet P V)

def mapStep (text : P → Nat → Byte) (K : Kalloc A) (s : MapSys A P V) : MapOp P V → Option (MapSys A P V)
  | .put key len value => do
    let (ret, map, alloc) ← hashmapPut text K s.map key len value s.alloc
    some { map := map, alloc := alloc, returned := .status ret :: s.returned }
  | .get key len => do
    let v ← hashmapGet text s.map key len
    some { s with returned := .value v :: s.returned }
  | .remove key len => do
    let (ret, map) ← hashmapRemove text s.map key len
    some { s with map := map, returned := .status ret :: s.returned }
  | .removeAndReturnKey key len => do
    let (p, map) ← hashmapRemoveAndReturnKey text s.map key len
    some { s with map := map, returned := .key p :: s.returned }
  | .numEntries => some { s with returned := .count s.map.size :: s.returned }

/-- What a call does to the finite map `σ`. A put into an empty map succeeds. -/
inductive MapDoes (text : P → Nat → Byte) (σ : List Byte → Option (P × V)) :
    MapOp P V → MapRet P V → (List Byte → Option (P × V)) → Prop
  | put (key : P) (len : Nat) (value : V) : MapDoes text σ (.put key len value) (.status 0)
    (Function.update σ (keyBytes text key len) (some (key, value)))
  | putFailed (key : P) (len : Nat) (value : V) {left : List Byte → Option (P × V)} : σ ≠ (fun _ => none) →
    LeftOf σ left → MapDoes text σ (.put key len value) (.status 1) left
  | get (key : P) (len : Nat) : MapDoes text σ (.get key len)
    (.value (((σ (keyBytes text key len)).map Prod.snd).getD default)) σ
  | remove (key : P) (len : Nat) : MapDoes text σ (.remove key len)
    (.status (if (σ (keyBytes text key len)).isSome then 0 else 1))
    (Function.update σ (keyBytes text key len) none)
  | removeAndReturnKey (key : P) (len : Nat) : MapDoes text σ (.removeAndReturnKey key len)
    (.key (((σ (keyBytes text key len)).map Prod.fst).getD default))
    (Function.update σ (keyBytes text key len) none)
  | numEntries : MapDoes text σ .numEntries (.count {k | σ k ≠ none}.ncard) σ

/-- The runs of finite maps, with what they return, last one first. -/
inductive MapRun (text : P → Nat → Byte) :
    (List Byte → Option (P × V)) → List (MapOp P V) → List (MapRet P V) → (List Byte → Option (P × V)) → Prop
  | nil (σ : List Byte → Option (P × V)) : MapRun text σ [] [] σ
  | cons {σ σ' σ'' : List Byte → Option (P × V)} {op : MapOp P V} {ops : List (MapOp P V)} {ret : MapRet P V}
    {rets : List (MapRet P V)} : MapDoes text σ op ret σ' → MapRun text σ' ops rets σ'' →
    MapRun text σ (op :: ops) (rets ++ [ret]) σ''

section
variable {text : P → Nat → Byte} {m : HashmapS P V} {key : P} {len : Nat}

omit [Inhabited P] in
theorem hashmapGet_spec (h : HashmapInv text m) (key : P) (len : Nat) :
    hashmapGet text m key len = some (((m.contents text (keyBytes text key len)).map Prod.snd).getD default) := by
  rcases h.find key len with ⟨j, e, hfind, he, -, -, hsome⟩ | ⟨hfind, hnone⟩
  · simp only [hsome, hashmapGet, hfind, he, Option.bind_eq_bind, Option.bind_some, Option.map_some,
      Option.getD_some]
  · rw [hnone, hashmapGet, hfind]
    rfl

omit [Inhabited P] [Inhabited V] in
/-- A key that is not there is not there after its removal either. -/
theorem update_absent {σ : List Byte → Option (P × V)} {k : List Byte} (h : σ k = none) :
    Function.update σ k none = σ := by
  rw [← h, Function.update_eq_self]

theorem hashmapRemove_spec (h : HashmapInv text m) (key : P) (len : Nat) :
    ∃ m', hashmapRemove text m key len =
        some (if (m.contents text (keyBytes text key len)).isSome then 0 else 1, m') ∧ HashmapInv text m' ∧
      m'.contents text = Function.update (m.contents text) (keyBytes text key len) none := by
  rcases h.find key len with ⟨j, e, hfind, he, -, hslot, hsome⟩ | ⟨hfind, hnone⟩
  · obtain ⟨hinv, -, hcontents⟩ := h.blank he hslot .zero rfl
    rw [hsome, hashmapRemove, hfind]
    exact ⟨_, rfl, hinv, hcontents⟩
  · rw [update_absent hnone, hnone, hashmapRemove, hfind]
    exact ⟨m, rfl, h, rfl⟩

theorem hashmapRemoveAndReturnKey_spec (h : HashmapInv text m) (key : P) (len : Nat) :
    ∃ m', hashmapRemoveAndReturnKey text m key len =
        some (((m.contents text (keyBytes text key len)).map Prod.fst).getD default, m') ∧ HashmapInv text m' ∧
      m'.contents text = Function.update (m.contents text) (keyBytes text key len) none := by
  rcases h.find key len with ⟨j, e, hfind, he, -, hslot, hsome⟩ | ⟨hfind, hnone⟩
  · obtain ⟨hinv, -, hcontents⟩ := h.blank he hslot
      { e with inUse := false, data := default, key := default } rfl
    simp only [hsome, hashmapRemoveAndReturnKey, hfind, he, Option.bind_eq_bind, Option.bind_some,
      Option.map_some, Option.getD_some]
    exact ⟨_, rfl, hinv, hcontents⟩
  · rw [update_absent hnone, hnone, hashmapRemoveAndReturnKey, hfind]
    exact ⟨m, rfl, h, rfl⟩

/-- One call: it returns, keeps the invariant and does what a finite map does. -/
theorem mapStep_spec (K : Kalloc A) {s : MapSys A P V} (h : HashmapInv text s.map) (op : MapOp P V) :
    ∃ t ret, mapStep text K s op = some t ∧ HashmapInv text t.map ∧ t.returned = ret :: s.returned ∧
      MapDoes text (s.map.contents text) op ret (t.map.contents text) := by
  cases op with
  | put key len value =>
    obtain ⟨ret, m', a', rs, hput, -, hdone⟩ := hashmapPut_spec K h key len value s.alloc
    rw [mapStep, hput]
    refine ⟨_, .status ret, rfl, hdone.inv, rfl, ?_⟩
    rcases hdone.outcome with ⟨rfl, hcontents⟩ | ⟨rfl, hleft⟩
    · show MapDoes text _ _ _ (m'.contents text)
      rw [hcontents]
      exact .put key len value
    · exact .putFailed key len value (h.ne_empty (hdone.refused rfl).1) hleft
  | get key len =>
    rw [mapStep, hashmapGet_spec h]
    exact ⟨_, _, rfl, h, rfl, .get key len⟩
  | remove key len =>
    obtain ⟨m', hremove, hinv, hcontents⟩ := hashmapRemove_spec h key len
    rw [mapStep, hremove]
    refine ⟨_, _, rfl, hinv, rfl, ?_⟩
    show MapDoes text _ _ _ (m'.contents text)
    rw [hcontents]
    exact .remove key len
  | removeAndReturnKey key len =>
    obtain ⟨m', hremove, hinv, hcontents⟩ := hashmapRemoveAndReturnKey_spec h key len
    rw [mapStep, hremove]
    refine ⟨_, _, rfl, hinv, rfl, ?_⟩
    show MapDoes text _ _ _ (m'.contents text)
    rw [hcontents]
    exact .removeAndReturnKey key len
  | numEntries =>
    refine ⟨_, _, rfl, h, rfl, ?_⟩
    rw [h.size, h.placed.used_eq_ncard]
    exact .numEntries

theorem mapRun_exec (K : Kalloc A) {s : MapSys A P V} (h : HashmapInv text s.map) (ops : List (MapOp P V)) :
    ∃ t rets, Runs.exec (mapStep text K) s ops = some t ∧ HashmapInv text t.map ∧ t.returned = rets ++ s.returned ∧
      MapRun text (s.map.contents text) ops rets (t.map.contents text) := by
  induction ops generalizing s with
  | nil => exact ⟨s, [], rfl, h, rfl, .nil _⟩
  | cons op ops ih =>
    obtain ⟨u, ret, hstep, hinv, hret, hdoes⟩ := mapStep_spec K h op
    obtain ⟨t, rets, hexec, hinv', hrets, hrun⟩ := ih hinv
    refine ⟨t, rets ++ [ret], Runs.exec_cons.mpr ⟨u, hstep, hexec⟩, hinv', ?_, .cons hdoes hrun⟩
    rw [hrets, hret, List.append_assoc]
    rfl

/-- A map that `hashmap_create` has made is empty and in order. -/
theorem created_inv (K : Kalloc A) {n : BitVec 32} {out : HashmapS P V} {a a' : A}
    (hcreate : hashmapCreate K n.toNat out a = (0, m, a')) : HashmapInv text m ∧ m.contents text = fun _ => none := by
  rcases hashmapCreate_cases K n.toNat out a with ⟨k, data, hn, -, heq⟩ | ⟨hfailed, -⟩
  · rw [hcreate, Prod.mk.injEq, Prod.mk.injEq] at heq
    have hk : k < 32 := (Nat.pow_lt_pow_iff_right (by decide : 1 < 2)).mp (hn ▸ n.isLt)
    rw [heq.2.1]
    exact hashmapInv_fresh text hn hk (some data)
  · rw [hcreate] at hfailed
    cases hfailed

/-- The states that runs reach are in order. -/
theorem reached_inv (K : Kalloc A) {n : BitVec 32} {out : HashmapS P V} {a a' : A} {ops : List (MapOp P V)}
    {s : MapSys A P V} (hcreate : hashmapCreate K n.toNat out a = (0, m, a'))
    (hs : Runs.exec (mapStep text K) ⟨m, a', []⟩ ops = some s) : HashmapInv text s.map := by
  have hinv : HashmapInv text m := (created_inv K hcreate).1
  refine Runs.exec_inv (P := fun s => HashmapInv text s.map) ?_ hinv hs
  intro s op t hinv hstep
  obtain ⟨u, ret, hu, hkeep, -⟩ := mapStep_spec K hinv op
  rw [hu] at hstep
  exact Option.some.inj hstep ▸ hkeep

end

/-- **The hash map is a finite map.** From `hashmap_create` on, with any
    allocator, every sequence of calls runs to its end, and the calls return
    what they return on a finite map that is empty at the start. -/
theorem hashmap_runs_finite_map (text : P → Nat → Byte) (K : Kalloc A) (n : BitVec 32) (out m : HashmapS P V)
    (a a' : A) (hcreate : hashmapCreate K n.toNat out a = (0, m, a')) (ops : List (MapOp P V)) :
    ∃ t, Runs.exec (mapStep text K) ⟨m, a', []⟩ ops = some t ∧
      MapRun text (fun _ => none) ops t.returned (t.map.contents text) := by
  have hcreated : HashmapInv text m ∧ m.contents text = fun _ => none := created_inv K hcreate
  obtain ⟨hinv, hempty⟩ := hcreated
  obtain ⟨t, rets, hexec, -, hrets, hrun⟩ := mapRun_exec K (s := ⟨m, a', []⟩) hinv ops
  rw [List.append_nil] at hrets
  exact ⟨t, hexec, hrets ▸ hempty ▸ hrun⟩

/-- An allocator that has room for `a` more tables. -/
def countedKalloc : Kalloc Nat where
  kcalloc a _ _ := if a = 0 then (none, 0) else (some a, a - 1)
  kfree a _ := a

/-- Pointers into a memory of zeros. -/
def zeroText (_ : Nat) (_ : Nat) : Byte := 0

/-- A structure before `hashmap_create`. -/
def unmade : HashmapS Nat Nat := { tableSize := 0, size := 0, data := none, slots := [] }

/-- A map of `n` free slots. -/
def freeSlots (n : Nat) : HashmapS Nat Nat :=
  { tableSize := n, size := 0, data := some 1, slots := List.replicate n .zero }

/-- Calls on a map of two slots, with two keys and then a third. -/
def twoSlotOps : List (MapOp Nat Nat) :=
  [.put 7 1 5, .get 8 1, .put 9 2 6, .put 9 3 4, .numEntries, .removeAndReturnKey 8 1, .get 7 1]

/-- The third key finds the table full and no room for a larger one. -/
theorem hashmap_runs_finite_map_two_slots :
    ∃ t, Runs.exec (mapStep zeroText countedKalloc) ⟨freeSlots 2, 0, []⟩ twoSlotOps = some t ∧
      t.returned = [.value 0, .key 7, .count 2, .status 1, .status 0, .value 5, .status 0] ∧
      MapRun zeroText (fun _ => none) twoSlotOps t.returned (t.map.contents zeroText) := by
  have hreturned : (Runs.exec (mapStep zeroText countedKalloc) ⟨freeSlots 2, 0, []⟩ twoSlotOps).map
      (·.returned) = some [.value 0, .key 7, .count 2, .status 1, .status 0, .value 5, .status 0] := by
    decide +kernel
  obtain ⟨t, ht, hrun⟩ :=
    hashmap_runs_finite_map zeroText countedKalloc 2#32 unmade (freeSlots 2) 1 0 rfl twoSlotOps
  rw [ht, Option.map_some, Option.some.injEq] at hreturned
  exact ⟨t, ht, hreturned, hrun⟩

/-- **When a put is refused.** On every map that a run has made: a put returns 0
    or 1, and all tables it asks for are larger than the map's. It returns 1 only
    when the key finds no place and one of its requests is refused, or there is a
    table of `2^31` slots. When the key finds no place and the doubled table
    cannot be made, it returns 1 and the map is what it was. -/
theorem put_fails_only_when (text : P → Nat → Byte) (K : Kalloc A) (n : BitVec 32) (out m : HashmapS P V)
    (a a' : A) (hcreate : hashmapCreate K n.toNat out a = (0, m, a')) (ops : List (MapOp P V)) (s : MapSys A P V)
    (hs : Runs.exec (mapStep text K) ⟨m, a', []⟩ ops = some s) (key : P) (len : Nat) (value : V) (b : A) :
    ∃ ret m' b' rs, hashmapPut text K s.map key len value b = some (ret, m', b') ∧ K.Calls b rs b' ∧
      (∀ r ∈ rs, s.map.tableSize < r.slots) ∧
      (ret = 0 ∨ (ret = 1 ∧ Crowded text s.map (keyBytes text key len) ∧ OutOfTables s.map.tableSize rs)) ∧
      (Crowded text s.map (keyBytes text key len) → newTableMade K s.map b = false → ret = 1 ∧ m' = s.map) := by
  have hinv : HashmapInv text s.map := reached_inv K hcreate hs
  obtain ⟨ret, m', b', rs, hput, hcalls, hdone⟩ := hashmapPut_spec K hinv key len value b
  refine ⟨ret, m', b', rs, hput, hcalls, hdone.grown.larger, ?_, ?_⟩
  · rcases hdone.outcome with ⟨hret, -⟩ | ⟨hret, -⟩
    · exact .inl hret
    · exact .inr ⟨hret, hdone.refused hret⟩
  · intro hcrowded hmade
    obtain ⟨b'', hrefused⟩ := put_refused K hinv hcrowded hmade value
    rw [hput, Option.some.injEq, Prod.mk.injEq, Prod.mk.injEq] at hrefused
    exact ⟨hrefused.1, hrefused.2.1⟩

/-- A pointer is the number whose bytes it points to. -/
def byteText (p i : Nat) : Byte := BitVec.ofNat 8 (p >>> (8 * i))

/-- The third key in a map of two slots: without room for another table it is
    refused. -/
theorem put_fails_only_when_two_slots :
    ∃ s b' rs, Runs.exec (mapStep byteText countedKalloc) ⟨freeSlots 2, 0, []⟩ [.put 1 1 1, .put 2 1 2] = some s ∧
      hashmapPut byteText countedKalloc s.map 3 1 3 0 = some (1, s.map, b') ∧
      Crowded byteText s.map (keyBytes byteText 3 1) ∧ countedKalloc.Calls 0 rs b' ∧
      (∀ r ∈ rs, 2 < r.slots) ∧ OutOfTables 2 rs ∧
      (hashmapPut byteText countedKalloc s.map 3 1 3 1).map Prod.fst = some 0 := by
  have hputs : (Runs.exec (mapStep byteText countedKalloc) ⟨freeSlots 2, 0, []⟩
      [.put 1 1 1, .put 2 1 2]).any (fun s =>
        s.map.tableSize == 2 && !newTableMade countedKalloc s.map 0 &&
          (hashmapPut byteText countedKalloc s.map 3 1 3 0).map Prod.fst == some 1 &&
          (hashmapPut byteText countedKalloc s.map 3 1 3 1).map Prod.fst == some 0) = true := by
    decide +kernel
  obtain ⟨s, hs, hrets⟩ := (Option.any_eq_true _ _).mp hputs
  simp only [Bool.and_eq_true, beq_iff_eq, Bool.not_eq_true'] at hrets
  obtain ⟨⟨⟨hsize, hmade⟩, hfull⟩, hroom⟩ := hrets
  obtain ⟨ret, m', b', rs, hput, hcalls, hlarger, houtcome, hkept⟩ := put_fails_only_when byteText countedKalloc 2#32
    unmade (freeSlots 2) 1 0 rfl _ s hs 3 1 3 0
  rw [hsize] at hlarger houtcome
  rcases houtcome with rfl | ⟨rfl, hcrowded, hout⟩
  · rw [hput] at hfull
    cases hfull
  · obtain ⟨-, rfl⟩ := hkept hcrowded hmade
    exact ⟨s, b', rs, hs, hput, hcrowded, hcalls, hlarger, hout, hroom⟩

/-- **A rehash that fails loses entries iff it had made its table.** On every
    map that a run has made: `hashmap_rehash_helper` returns; if it returns 0,
    the map is what it was; otherwise nothing new is in it, and it has kept all
    its entries exactly when the larger table could not be made. -/
theorem rehash_keeps_iff (text : P → Nat → Byte) (K : Kalloc A) (n : BitVec 32) (out m : HashmapS P V) (a a' : A)
    (hcreate : hashmapCreate K n.toNat out a = (0, m, a')) (ops : List (MapOp P V)) (s : MapSys A P V)
    (hs : Runs.exec (mapStep text K) ⟨m, a', []⟩ ops = some s) (b : A) :
    ∃ ret m' b', hashmapRehashHelper K (hashmapPut text K) s.map b = some (ret, m', b') ∧
      LeftOf (s.map.contents text) (m'.contents text) ∧
      (m'.contents text = s.map.contents text ↔ ret = 0 ∨ newTableMade K s.map b = false) := by
  have hinv : HashmapInv text s.map := reached_inv K hcreate hs
  have hput : PutOk text K (hashmapPut (V := V) text K) (2 * s.map.tableSize) :=
    fun m key len value a h _ => hashmapPut_spec K h key len value a
  obtain ⟨ret, m', b', rs, hrun, -, hrehash, -⟩ := rehash_spec K hinv hput b
  refine ⟨ret, m', b', hrun, ?_⟩
  cases hrehash with
  | moved _ _ hsame =>
    rw [hsame]
    exact ⟨LeftOf.refl _, fun _ => .inl rfl, fun _ => rfl⟩
  | refused hmade => exact ⟨LeftOf.refl _, fun _ => .inr hmade, fun _ => rfl⟩
  | lost hmade _ _ hleft hlost =>
    obtain ⟨k, hhad, hnone⟩ := hlost
    refine ⟨hleft, ?_, ?_⟩
    · intro hsame
      rw [hsame] at hnone
      exact absurd hnone hhad
    · rintro (hret | hrefused)
      · cases hret
      · rw [hmade] at hrefused
        cases hrefused

/-- Keys of two bytes: eight that fill the slots from 8 on in a table of 16, and
    one that goes to slot 0. -/
def collidingPuts : List (MapOp Nat Nat) :=
  [21, 48, 99, 127, 147, 148, 152, 161, 10].map (fun p => .put p 2 p)

/-- There is room for one table of 32 slots, but the keys would need more: of
    the nine entries one is left. -/
theorem rehash_keeps_iff_no_room :
    ∃ s m' b', Runs.exec (mapStep byteText countedKalloc) ⟨freeSlots 16, 0, []⟩ collidingPuts = some s ∧
      hashmapRehashHelper countedKalloc (hashmapPut byteText countedKalloc) s.map 1 = some (1, m', b') ∧
      s.map.size = 9 ∧ m'.size = 1 ∧ LeftOf (s.map.contents byteText) (m'.contents byteText) ∧
      m'.contents byteText ≠ s.map.contents byteText := by
  have hrun : (Runs.exec (mapStep byteText countedKalloc) ⟨freeSlots 16, 0, []⟩ collidingPuts).any (fun s =>
      s.map.size == 9 && newTableMade countedKalloc s.map 1 &&
        (hashmapRehashHelper countedKalloc (hashmapPut byteText countedKalloc) s.map 1).map
          (fun r => (r.1, r.2.1.size)) == some (1, 1)) = true := by
    decide +kernel
  obtain ⟨s, hs, hfields⟩ := (Option.any_eq_true _ _).mp hrun
  simp only [Bool.and_eq_true, beq_iff_eq] at hfields
  obtain ⟨⟨hsize, hmade⟩, hhelper⟩ := hfields
  obtain ⟨ret, m', b', hrehash, hleft, hkeeps⟩ := rehash_keeps_iff byteText countedKalloc 16#32
    unmade (freeSlots 16) 1 0 rfl collidingPuts s hs 1
  rw [hrehash, Option.map_some, Option.some.injEq, Prod.mk.injEq] at hhelper
  obtain ⟨rfl, hsize'⟩ := hhelper
  refine ⟨s, m', b', hs, hrehash, hsize, hsize', hleft, ?_⟩
  intro hsame
  rcases hkeeps.mp hsame with hret | hnone
  · exact absurd hret (by decide)
  · rw [hmade] at hnone
    cases hnone

/-- **No nine keys of one hash.** Once eight keys have the hash of a key that is
    not in the map, no put of it succeeds, whatever the allocator has left. -/
theorem ninth_collision_refused (text : P → Nat → Byte) (K : Kalloc A) (n : BitVec 32) (out m : HashmapS P V)
    (a a' : A) (hcreate : hashmapCreate K n.toNat out a = (0, m, a')) (ops : List (MapOp P V)) (s : MapSys A P V)
    (hs : Runs.exec (mapStep text K) ⟨m, a', []⟩ ops = some s) (key : P) (len : Nat) (ks : List (List Byte))
    (hcount : ks.length = 8) (hnodup : (keyBytes text key len :: ks).Nodup)
    (hhash : ∀ k ∈ ks, hashmapHome k = hashmapHome (keyBytes text key len))
    (hheld : ∀ k ∈ ks, s.map.contents text k ≠ none) (value : V) (b : A) :
    ∃ m' b', hashmapPut text K s.map key len value b = some (1, m', b') := by
  have hinv : HashmapInv text s.map := reached_inv K hcreate hs
  obtain ⟨ret, m', b', rs, hput, -, hdone⟩ := hashmapPut_spec K hinv key len value b
  rcases hdone.outcome with ⟨-, hcontents⟩ | ⟨rfl, -⟩
  · -- all nine would be in the new map, on a chain of eight slots
    have hnine : ∀ k ∈ keyBytes text key len :: ks, m'.contents text k ≠ none := by
      intro k hk
      rw [hcontents]
      rcases List.mem_cons.mp hk with rfl | hmem
      · rw [Function.update_self]
        exact Option.some_ne_none _
      · have hne : k ≠ keyBytes text key len := by
          rintro rfl
          exact (List.nodup_cons.mp hnodup).1 hmem
        rw [Function.update_of_ne hne]
        exact hheld k hmem
    have hfull := hdone.inv.placed.chain_full hnodup (hashmapHome (keyBytes text key len))
      (List.forall_mem_cons.mpr ⟨rfl, hhash⟩) hnine
    rw [List.length_cons, hcount] at hfull
    exact absurd hfull (by decide)
  · exact ⟨m', b', hput⟩

/-- Strings of zeros all have the hash 0. -/
def zeroPuts : List (MapOp Nat Nat) := (List.range 8).map (fun i => .put i i i)

theorem ninth_collision_refused_zeros :
    ∃ s, Runs.exec (mapStep zeroText countedKalloc) ⟨freeSlots 8, 0, []⟩ zeroPuts = some s ∧
      ∀ b, ∃ m' b', hashmapPut zeroText countedKalloc s.map 8 8 8 b = some (1, m', b') := by
  have hheld : (Runs.exec (mapStep zeroText countedKalloc) ⟨freeSlots 8, 0, []⟩ zeroPuts).map
        (fun s => (List.range 8).all (fun i => (s.map.contents zeroText (keyBytes zeroText 0 i)).isSome)) =
      some true := by decide +kernel
  obtain ⟨s, hs, hall⟩ := Option.map_eq_some_iff.mp hheld
  refine ⟨s, hs, ?_⟩
  intro b
  refine ninth_collision_refused zeroText countedKalloc 8#32 unmade (freeSlots 8) 1 0 rfl zeroPuts s hs 8 8
    ((List.range 8).map (keyBytes zeroText 0)) rfl (by decide) (by decide +kernel) ?_ 8 b
  intro k hk
  obtain ⟨i, hi, rfl⟩ := List.mem_map.mp hk
  exact Option.isSome_iff_ne_none.mp (List.all_eq_true.mp hall i hi)

end Qnixx
