import Mathlib.Data.List.Induction
import Qnixx.Lib.ByteMem
import Qnixx.Lib.Cyclic

/- The tail queue macros (`sys/queue.h`) on memory. A head and an entry are laid
   out alike: a link to an element, and eight bytes on the address of a link. So
   an entry can be read as a head, which is how `TAILQ_LAST` and `TAILQ_PREV` go
   back; both are a cell here. The link of each cell leads to the next element,
   its second word to the cell before it, and the head's to the last cell.

   `off` is the offset of the entry in an element. -/
namespace Qnixx
open ByteMem

def tailqFirst (m : Mem) (head : BitVec 64) : BitVec 64 := load64 m head

def tailqNext (m : Mem) (off elm : BitVec 64) : BitVec 64 := load64 m (elm + off)

def tailqLast (m : Mem) (head : BitVec 64) : BitVec 64 := load64 m (load64 m (load64 m (head + 8) + 8))

def tailqPrev (m : Mem) (off elm : BitVec 64) : BitVec 64 := load64 m (load64 m (load64 m (elm + off + 8) + 8))

def tailqEmpty (m : Mem) (head : BitVec 64) : Bool := tailqFirst m head == 0

def tailqInit (m : Mem) (head : BitVec 64) : Mem :=
  let m := store64 m head 0
  store64 m (head + 8) head

def tailqInsertHead (m : Mem) (off head elm : BitVec 64) : Mem :=
  let m := store64 m (elm + off) (load64 m head)
  let m :=
    if load64 m (elm + off) ≠ 0 then store64 m (load64 m head + off + 8) (elm + off)
    else store64 m (head + 8) (elm + off)
  let m := store64 m head elm
  store64 m (elm + off + 8) head

def tailqInsertTail (m : Mem) (off head elm : BitVec 64) : Mem :=
  let m := store64 m (elm + off) 0
  let m := store64 m (elm + off + 8) (load64 m (head + 8))
  let m := store64 m (load64 m (head + 8)) elm
  store64 m (head + 8) (elm + off)

/-- `TAILQ_FOREACH_SAFE` from `var` on, with a body that may change the memory:
    the elements it visits, and the memory after it. -/
def tailqForeachSafe (off : BitVec 64) (body : BitVec 64 → Mem → Mem) :
    Nat → Mem → BitVec 64 → Option (List (BitVec 64) × Mem)
  | 0, _, _ => none
  | fuel + 1, m, var =>
    if var = 0 then some ([], m)
    else
      let tvar := tailqNext m off var
      (tailqForeachSafe off body fuel (body var m) tvar).map (fun r => (var :: r.1, r.2))

/-- `TAILQ_FOREACH_REVERSE` from `var` on. -/
def tailqForeachReverse (m : Mem) (off : BitVec 64) : Nat → BitVec 64 → Option (List (BitVec 64))
  | 0, _ => none
  | fuel + 1, var =>
    if var = 0 then some [] else (tailqForeachReverse m off fuel (tailqPrev m off var)).map (var :: ·)

/-! The list a queue stands for. -/

/-- The links from the cell `c` on lead through the elements `es`, and each of
    these knows the cell before it. -/
def Linked (m : Mem) (off : BitVec 64) : BitVec 64 → List (BitVec 64) → Prop
  | c, [] => load64 m c = 0
  | c, e :: es => load64 m c = e ∧ load64 m (e + off + 8) = c ∧ Linked m off (e + off) es

/-- The last cell. -/
def lastCell (off : BitVec 64) : BitVec 64 → List (BitVec 64) → BitVec 64
  | c, [] => c
  | _, e :: es => lastCell off (e + off) es

structure Represents (m : Mem) (off head : BitVec 64) (es : List (BitVec 64)) : Prop where
  links : Linked m off head es
  last : load64 m (head + 8) = lastCell off head es

section
variable {m : Mem} {off : BitVec 64}

theorem lastCell_append (c : BitVec 64) (es : List (BitVec 64)) (e : BitVec 64) :
    lastCell off c (es ++ [e]) = e + off := by
  induction es generalizing c with
  | nil => rfl
  | cons f es ih => exact ih (f + off)

/-- The link of a cell is the element behind it. -/
theorem Linked.link {rest : List (BitVec 64)} (before : List (BitVec 64)) : ∀ {c : BitVec 64},
    Linked m off c (before ++ rest) → load64 m (lastCell off c before) = rest.head?.getD 0 := by
  induction before with
  | nil =>
    intro c h
    cases rest with
    | nil => exact h
    | cons e rest => exact h.1
  | cons f before ih => exact fun h => ih h.2.2

/-- The second word of an entry is the cell before it. -/
theorem Linked.back {e : BitVec 64} {rest : List (BitVec 64)} (before : List (BitVec 64)) : ∀ {c : BitVec 64},
    Linked m off c (before ++ e :: rest) → load64 m (e + off + 8) = lastCell off c before := by
  induction before with
  | nil => exact fun h => h.2.1
  | cons f before ih => exact fun h => ih h.2.2

/-- Read as a head, a cell gives the element it belongs to, the head's none. -/
theorem Represents.owner {head : BitVec 64} {es before rest : List (BitVec 64)} (h : Represents m off head es)
    (hes : es = before ++ rest) :
    load64 m (load64 m (lastCell off head before + 8)) = before.getLast?.getD 0 := by
  subst hes
  induction before using List.reverseRecOn with
  | nil =>
    have hend : load64 m (lastCell off head rest) = 0 := by
      have hlinks := h.links
      rw [List.nil_append, ← List.append_nil rest] at hlinks
      exact hlinks.link rest
    rw [lastCell, h.last, List.nil_append, hend]
    rfl
  | append_singleton before e _ =>
    have hlinks := h.links
    rw [List.append_assoc, List.singleton_append] at hlinks
    rw [lastCell_append, hlinks.back before, hlinks.link before, List.getLast?_concat]
    rfl

section
variable {head : BitVec 64} {es : List (BitVec 64)}

theorem Represents.first (h : Represents m off head es) : tailqFirst m head = es.head?.getD 0 :=
  h.links.link []

theorem Represents.next (h : Represents m off head es) {e : BitVec 64} {before rest : List (BitVec 64)}
    (hes : es = before ++ e :: rest) : tailqNext m off e = rest.head?.getD 0 := by
  have hlinks := h.links
  rw [hes, List.append_cons] at hlinks
  have hlink := hlinks.link (before ++ [e])
  rwa [lastCell_append] at hlink

theorem Represents.getLast (h : Represents m off head es) : tailqLast m head = es.getLast?.getD 0 := by
  rw [tailqLast, h.last]
  exact h.owner (List.append_nil es).symm

theorem Represents.prev (h : Represents m off head es) {e : BitVec 64} {before rest : List (BitVec 64)}
    (hes : es = before ++ e :: rest) : tailqPrev m off e = before.getLast?.getD 0 := by
  have hback : load64 m (e + off + 8) = lastCell off head before := by
    have hlinks := h.links
    rw [hes] at hlinks
    exact hlinks.back before
  rw [tailqPrev, hback]
  exact h.owner hes

theorem Represents.next_prev (h : Represents m off head es) (hpos : ∀ e ∈ es, e ≠ 0) {e f : BitVec 64}
    (he : e ∈ es) (hf : f ∈ es) : tailqNext m off e = f ↔ tailqPrev m off f = e := by
  refine ⟨?_, ?_⟩
  · intro hnext
    obtain ⟨before, rest, hes⟩ := List.append_of_mem he
    rw [h.next hes] at hnext
    cases rest with
    | nil => exact absurd hnext.symm (hpos f hf)
    | cons g rest =>
      have hg : g = f := hnext
      subst hg
      rw [List.append_cons] at hes
      rw [h.prev hes, List.getLast?_concat]
      rfl
  · intro hprev
    obtain ⟨before, rest, hes⟩ := List.append_of_mem hf
    rw [h.prev hes] at hprev
    rcases List.eq_nil_or_concat' before with hnil | ⟨init, g, hinit⟩
    · rw [hnil] at hprev
      exact absurd hprev.symm (hpos e he)
    · rw [hinit, List.getLast?_concat] at hprev
      have hg : g = e := hprev
      subst hg
      rw [hinit, ← List.append_cons] at hes
      exact h.next hes

/-- What the scheduler goes on with, the element behind this one or the first, is
    the next one of its list. -/
theorem Represents.advance (h : Represents m off head es) (hpos : ∀ e ∈ es, e ≠ 0) {e : BitVec 64} (he : e ∈ es) :
    (if tailqNext m off e = 0 then tailqFirst m head else tailqNext m off e) = (Cyclic.advance es e).getD 0 := by
  obtain ⟨before, rest, hes, hfresh⟩ := List.eq_append_cons_of_mem he
  have hnext : Cyclic.next es e = rest.head? := by rw [hes, Cyclic.next_append hfresh]
  rw [h.next hes, Cyclic.advance, hnext]
  cases rest with
  | nil => exact h.first
  | cons f rest =>
    have hf : f ≠ 0 := hpos f (by rw [hes]; simp)
    exact if_neg hf

end

/-! Walking through the queue. -/

/-- The body leaves the links of the elements it is not called for. -/
def BodyKeeps (off : BitVec 64) (body : BitVec 64 → Mem → Mem) (es : List (BitVec 64)) : Prop :=
  ∀ e ∈ es, ∀ f ∈ es, f ≠ e → ∀ m, tailqNext (body e m) off f = tailqNext m off f

theorem foreachSafe_turn (body : BitVec 64 → Mem → Mem) (fuel : Nat) (m : Mem) {var : BitVec 64} (hvar : var ≠ 0) :
    tailqForeachSafe off body (fuel + 1) m var =
      (tailqForeachSafe off body fuel (body var m) (tailqNext m off var)).map (fun r => (var :: r.1, r.2)) := by
  rw [tailqForeachSafe, if_neg hvar]

theorem foreachSafe_visits {body : BitVec 64 → Mem → Mem} (es : List (BitVec 64)) : ∀ {m : Mem},
    (∀ before e rest, es = before ++ e :: rest → tailqNext m off e = rest.head?.getD 0) →
    (∀ e ∈ es, e ≠ 0) → es.Nodup → BodyKeeps off body es →
    ∃ m', tailqForeachSafe off body (es.length + 1) m (es.head?.getD 0) = some (es, m') := by
  induction es with
  | nil => exact fun _ _ _ _ => ⟨_, rfl⟩
  | cons e es ih =>
    intro m hnext hpos hnodup hbody
    obtain ⟨hfresh, hnodup⟩ := List.nodup_cons.mp hnodup
    have hkept : ∀ before f rest, es = before ++ f :: rest → tailqNext (body e m) off f = rest.head?.getD 0 := by
      intro before f rest hes
      have hf : f ∈ es := by rw [hes]; exact List.mem_append_right _ List.mem_cons_self
      have hne : f ≠ e := fun heq => hfresh (heq ▸ hf)
      rw [hbody e List.mem_cons_self f (List.mem_cons_of_mem _ hf) hne]
      exact hnext (e :: before) f rest (by rw [hes]; rfl)
    obtain ⟨m', hrest⟩ := ih hkept (fun f hf => hpos f (List.mem_cons_of_mem _ hf)) hnodup
      (fun f hf g hg => hbody f (List.mem_cons_of_mem _ hf) g (List.mem_cons_of_mem _ hg))
    refine ⟨m', ?_⟩
    rw [List.head?_cons, Option.getD_some, List.length_cons, foreachSafe_turn _ _ _ (hpos e List.mem_cons_self),
      hnext [] e es rfl, hrest]
    rfl

theorem foreachReverse_visits (es : List (BitVec 64))
    (hprev : ∀ before e rest, es = before ++ e :: rest → tailqPrev m off e = before.getLast?.getD 0)
    (hpos : ∀ e ∈ es, e ≠ 0) :
    tailqForeachReverse m off (es.length + 1) (es.getLast?.getD 0) = some es.reverse := by
  induction es using List.reverseRecOn with
  | nil => rfl
  | append_singleton es e ih =>
    have hrest := ih (fun before f rest hes => hprev before f (rest ++ [e]) (by rw [hes]; simp))
      (fun f hf => hpos f (List.mem_append_left _ hf))
    rw [List.length_append, List.length_singleton, tailqForeachReverse, List.getLast?_concat, Option.getD_some,
      if_neg (hpos e (by simp)), hprev es e [] rfl, hrest, List.reverse_concat]
    rfl

end

/-! Cells. -/

/-- The sixteen bytes from `a` on and those from `b` on do not overlap. -/
def CellsApart (a b : BitVec 64) : Prop := 16 ≤ (a - b).toNat ∧ 16 ≤ (b - a).toNat

/-- The elements that may be in the queue: other objects than NULL, whose entries
    overlap neither each other nor the head. -/
structure Objects (off head : BitVec 64) (Obj : BitVec 64 → Prop) : Prop where
  nonnull : ∀ e, Obj e → e ≠ 0
  head : ∀ e, Obj e → CellsApart head (e + off)
  apart : ∀ e f, Obj e → Obj f → e ≠ f → CellsApart (e + off) (f + off)

/-- The head, or the entry of an element. -/
def IsCell (off head : BitVec 64) (Obj : BitVec 64 → Prop) (a : BitVec 64) : Prop :=
  a = head ∨ ∃ e, Obj e ∧ a = e + off

theorem CellsApart.symm {a b : BitVec 64} (h : CellsApart a b) : CellsApart b a := ⟨h.2, h.1⟩

section
variable {off head : BitVec 64} {Obj : BitVec 64 → Prop} {a b : BitVec 64}

theorem Objects.cells_apart (h : Objects off head Obj) (ha : IsCell off head Obj a) (hb : IsCell off head Obj b)
    (hne : a ≠ b) : CellsApart a b := by
  rcases ha with rfl | ⟨e, he, rfl⟩
  · rcases hb with rfl | ⟨f, hf, rfl⟩
    · exact absurd rfl hne
    · exact h.head f hf
  · rcases hb with rfl | ⟨f, hf, rfl⟩
    · exact (h.head e he).symm
    · exact h.apart e f he hf (fun heq => hne (by rw [heq]))

/-! What a store to a word of one cell does to the words of the cells. -/

theorem Objects.link_link (h : Objects off head Obj) (ha : IsCell off head Obj a) (hb : IsCell off head Obj b)
    (m : Mem) (v : BitVec 64) : load64 (store64 m a v) b = if b = a then v else load64 m b := by
  by_cases heq : b = a
  · rw [if_pos heq, heq, load64_store64]
  · have hapart := h.cells_apart ha hb (Ne.symm heq)
    rw [if_neg heq, load64_store64_apart]
    rw [CellsApart] at hapart
    exact ⟨by omega, by omega⟩

/-- The link of a cell and the second word of a cell, its own or another. -/
theorem Objects.link_apart_back (h : Objects off head Obj) (ha : IsCell off head Obj a)
    (hb : IsCell off head Obj b) : Apart a (b + 8) := by
  by_cases heq : b = a
  · subst heq
    refine ⟨?_, ?_⟩ <;> bv_omega
  · have hapart := h.cells_apart ha hb (Ne.symm heq)
    rw [CellsApart] at hapart
    refine ⟨?_, ?_⟩ <;> bv_omega

theorem Objects.link_back (h : Objects off head Obj) (ha : IsCell off head Obj a) (hb : IsCell off head Obj b)
    (m : Mem) (v : BitVec 64) : load64 (store64 m a v) (b + 8) = load64 m (b + 8) :=
  load64_store64_apart m v (h.link_apart_back ha hb)

theorem Objects.back_link (h : Objects off head Obj) (ha : IsCell off head Obj a) (hb : IsCell off head Obj b)
    (m : Mem) (v : BitVec 64) : load64 (store64 m (a + 8) v) b = load64 m b := by
  obtain ⟨hleft, hright⟩ := h.link_apart_back hb ha
  exact load64_store64_apart m v ⟨hright, hleft⟩

theorem Objects.back_back (h : Objects off head Obj) (ha : IsCell off head Obj a) (hb : IsCell off head Obj b)
    (m : Mem) (v : BitVec 64) : load64 (store64 m (a + 8) v) (b + 8) = if b = a then v else load64 m (b + 8) := by
  by_cases heq : b = a
  · rw [if_pos heq, heq, load64_store64]
  · have hapart := h.cells_apart ha hb (Ne.symm heq)
    rw [if_neg heq, load64_store64_apart]
    rw [CellsApart] at hapart
    refine ⟨?_, ?_⟩ <;> bv_omega

theorem IsCell.first : IsCell off head Obj head := .inl rfl

theorem IsCell.entry {e : BitVec 64} (he : Obj e) : IsCell off head Obj (e + off) := .inr ⟨e, he, rfl⟩

theorem Objects.entry_ne_head (h : Objects off head Obj) {e : BitVec 64} (he : Obj e) : e + off ≠ head := by
  intro heq
  have hapart := (h.head e he).1
  rw [heq, BitVec.sub_self] at hapart
  exact absurd hapart (by decide)

theorem entry_ne {e f : BitVec 64} (hne : e ≠ f) : e + off ≠ f + off :=
  fun heq => hne ((BitVec.add_left_inj off).mp heq)

/-! The insertions, by what they do to each cell. -/

/-- The cell whose second word `TAILQ_INSERT_HEAD` sets: the first entry, or the
    head of an empty queue. -/
def cellBehind (m : Mem) (off head : BitVec 64) : BitVec 64 :=
  if load64 m head = 0 then head else load64 m head + off

section
variable {m : Mem} {elm : BitVec 64}

theorem insertHead_eq (h : Objects off head Obj) (he : Obj elm) :
    tailqInsertHead m off head elm =
      store64 (store64 (store64 (store64 m (elm + off) (load64 m head)) (cellBehind m off head + 8) (elm + off))
        head elm) (elm + off + 8) head := by
  have hfirst : load64 (store64 m (elm + off) (load64 m head)) head = load64 m head := by
    rw [h.link_link (.entry he) .first, if_neg (Ne.symm (h.entry_ne_head he))]
  rw [tailqInsertHead, cellBehind]
  simp only [load64_store64, hfirst]
  by_cases hempty : load64 m head = 0
  · rw [if_neg (not_not.mpr hempty), if_pos hempty]
  · rw [if_pos hempty, if_neg hempty]

theorem insertTail_eq (h : Objects off head Obj) (he : Obj elm) :
    tailqInsertTail m off head elm =
      store64 (store64 (store64 (store64 m (elm + off) 0) (elm + off + 8) (load64 m (head + 8)))
        (load64 m (head + 8)) elm) (head + 8) (elm + off) := by
  have hlast : load64 (store64 m (elm + off) 0) (head + 8) = load64 m (head + 8) :=
    h.link_back (.entry he) .first m 0
  have hlast' : load64 (store64 (store64 m (elm + off) 0) (elm + off + 8) (load64 m (head + 8))) (head + 8) =
      load64 m (head + 8) := by
    rw [h.back_back (.entry he) .first, if_neg (Ne.symm (h.entry_ne_head he)), hlast]
  rw [tailqInsertTail]
  simp only [hlast, hlast']

theorem insertHead_link (h : Objects off head Obj) (he : Obj elm)
    (hcell : IsCell off head Obj (cellBehind m off head)) (ha : IsCell off head Obj a) :
    load64 (tailqInsertHead m off head elm) a =
      if a = head then elm else if a = elm + off then load64 m head else load64 m a := by
  rw [insertHead_eq h he, h.back_link (.entry he) ha, h.link_link .first ha, h.back_link hcell ha,
    h.link_link (.entry he) ha]

theorem insertHead_back (h : Objects off head Obj) (he : Obj elm)
    (hcell : IsCell off head Obj (cellBehind m off head)) (ha : IsCell off head Obj a) :
    load64 (tailqInsertHead m off head elm) (a + 8) =
      if a = elm + off then head else if a = cellBehind m off head then elm + off else load64 m (a + 8) := by
  rw [insertHead_eq h he, h.back_back (.entry he) ha, h.link_back .first ha, h.back_back hcell ha,
    h.link_back (.entry he) ha]

/-- The words of the other entries stay, but for the one behind the new one. -/
theorem insertHead_keeps (h : Objects off head Obj) (he : Obj elm)
    (hcell : IsCell off head Obj (cellBehind m off head)) {e : BitVec 64} (hobj : Obj e) (hne : e ≠ elm) :
    load64 (tailqInsertHead m off head elm) (e + off) = load64 m (e + off) ∧
      (e + off ≠ cellBehind m off head →
        load64 (tailqInsertHead m off head elm) (e + off + 8) = load64 m (e + off + 8)) := by
  refine ⟨?_, ?_⟩
  · rw [insertHead_link h he hcell (.entry hobj), if_neg (h.entry_ne_head hobj), if_neg (entry_ne hne)]
  · intro hbehind
    rw [insertHead_back h he hcell (.entry hobj), if_neg (entry_ne hne), if_neg hbehind]

theorem insertTail_link (h : Objects off head Obj) (he : Obj elm)
    (hcell : IsCell off head Obj (load64 m (head + 8))) (ha : IsCell off head Obj a) :
    load64 (tailqInsertTail m off head elm) a =
      if a = load64 m (head + 8) then elm else if a = elm + off then 0 else load64 m a := by
  rw [insertTail_eq h he, h.back_link .first ha, h.link_link hcell ha, h.back_link (.entry he) ha,
    h.link_link (.entry he) ha]

theorem insertTail_back (h : Objects off head Obj) (he : Obj elm)
    (hcell : IsCell off head Obj (load64 m (head + 8))) (ha : IsCell off head Obj a) :
    load64 (tailqInsertTail m off head elm) (a + 8) =
      if a = head then elm + off else if a = elm + off then load64 m (head + 8) else load64 m (a + 8) := by
  rw [insertTail_eq h he, h.back_back .first ha, h.link_back hcell ha, h.back_back (.entry he) ha,
    h.link_back (.entry he) ha]

end

/-! The list after them. -/

section
variable {m m' : Mem} {es : List (BitVec 64)}

theorem Linked.congr (h : ∀ e ∈ es, load64 m' (e + off) = load64 m (e + off) ∧
      load64 m' (e + off + 8) = load64 m (e + off + 8)) : ∀ {c : BitVec 64},
    load64 m' c = load64 m c → Linked m off c es → Linked m' off c es := by
  induction es with
  | nil => exact fun hc hl => hc.trans hl
  | cons e es ih =>
    rintro c hc ⟨hlink, hback, hl⟩
    obtain ⟨hnext, hprev⟩ := h e List.mem_cons_self
    exact ⟨hc.trans hlink, hprev.trans hback, ih (fun f hf => h f (List.mem_cons_of_mem _ hf)) hnext hl⟩

theorem lastCell_mem (es : List (BitVec 64)) : ∀ c : BitVec 64, lastCell off c es ∈ c :: es.map (· + off) := by
  induction es with
  | nil => exact fun c => List.mem_singleton_self c
  | cons e es ih => exact fun c => List.mem_cons_of_mem _ (ih (e + off))

/-- A new last element, when the other cells keep their words. -/
theorem Linked.snoc {elm : BitVec 64} (hend : load64 m' (elm + off) = 0)
    (hback : ∀ e ∈ es, load64 m' (e + off + 8) = load64 m (e + off + 8)) : ∀ {c : BitVec 64},
    (c :: es.map (· + off)).Nodup →
    (∀ a ∈ c :: es.map (· + off), a ≠ lastCell off c es → load64 m' a = load64 m a) →
    load64 m' (lastCell off c es) = elm → load64 m' (elm + off + 8) = lastCell off c es →
    Linked m off c es → Linked m' off c (es ++ [elm]) := by
  induction es with
  | nil => exact fun _ _ hlink hprev _ => ⟨hlink, hprev, hend⟩
  | cons e es ih =>
    intro c hnodup hkeep hlink hprev hl
    obtain ⟨hc, hnodup⟩ := List.nodup_cons.mp hnodup
    have hne : c ≠ lastCell off (e + off) es := fun heq => hc (heq ▸ lastCell_mem es (e + off))
    refine ⟨(hkeep c List.mem_cons_self hne).trans hl.1, (hback e List.mem_cons_self).trans hl.2.1, ?_⟩
    exact ih (fun f hf => hback f (List.mem_cons_of_mem _ hf)) hnodup
      (fun a ha => hkeep a (List.mem_cons_of_mem _ ha)) hlink hprev hl.2.2

theorem init_represents (h : Objects off head Obj) (m : Mem) : Represents (tailqInit m head) off head [] := by
  refine ⟨?_, ?_⟩
  · show load64 (store64 (store64 m head 0) (head + 8) head) head = 0
    rw [h.back_link .first .first, load64_store64]
  · exact load64_store64 _ _ _

theorem Represents.cellBehind_isCell (h : Represents m off head es) (hes : ∀ e ∈ es, Obj e) :
    IsCell off head Obj (cellBehind m off head) := by
  rw [cellBehind]
  split
  · exact .first
  · next hne =>
    apply IsCell.entry
    have hfirst : load64 m head = es.head?.getD 0 := h.first
    cases es with
    | nil => exact absurd hfirst hne
    | cons e es =>
      rw [hfirst]
      exact hes e List.mem_cons_self

theorem Represents.last_isCell (h : Represents m off head es) (hes : ∀ e ∈ es, Obj e) :
    IsCell off head Obj (load64 m (head + 8)) := by
  rw [h.last]
  rcases List.mem_cons.mp (lastCell_mem es head) with heq | hmem
  · rw [heq]
    exact .first
  · obtain ⟨e, he, heq⟩ := List.mem_map.mp hmem
    rw [← heq]
    exact .entry (hes e he)

section
variable {elm : BitVec 64}

theorem insertHead_represents (h : Objects off head Obj) (hrep : Represents m off head es)
    (hes : ∀ e ∈ es, Obj e) (hnodup : es.Nodup) (he : Obj elm) (hfresh : elm ∉ es) :
    Represents (tailqInsertHead m off head elm) off head (elm :: es) := by
  have hcell := hrep.cellBehind_isCell hes
  have hfirst : load64 m head = es.head?.getD 0 := hrep.first
  have hentry := h.entry_ne_head he
  have hlink : load64 (tailqInsertHead m off head elm) (elm + off) = load64 m head := by
    rw [insertHead_link h he hcell (.entry he), if_neg hentry, if_pos rfl]
  have hhead : load64 (tailqInsertHead m off head elm) head = elm := by
    rw [insertHead_link h he hcell .first, if_pos rfl]
  have hback : load64 (tailqInsertHead m off head elm) (elm + off + 8) = head := by
    rw [insertHead_back h he hcell (.entry he), if_pos rfl]
  have hlast := insertHead_back (m := m) h he hcell .first
  rw [if_neg (Ne.symm hentry)] at hlast
  cases es with
  | nil =>
    have hbehind : cellBehind m off head = head := if_pos hfirst
    rw [if_pos hbehind.symm] at hlast
    exact ⟨⟨hhead, hback, hlink.trans hfirst⟩, hlast⟩
  | cons f fs =>
    have hf := hes f List.mem_cons_self
    have hbehind : cellBehind m off head = f + off := by
      rw [cellBehind, hfirst]
      exact if_neg (h.nonnull f hf)
    have hfne : f ≠ elm := fun heq => hfresh (heq ▸ List.mem_cons_self)
    have hfback : load64 (tailqInsertHead m off head elm) (f + off + 8) = elm + off := by
      rw [insertHead_back h he hcell (.entry hf), if_neg (entry_ne hfne), if_pos hbehind.symm]
    have hrest : Linked (tailqInsertHead m off head elm) off (f + off) fs := by
      refine Linked.congr ?_ (insertHead_keeps h he hcell hf hfne).1 hrep.links.2.2
      intro g hg
      have hgne : g ≠ elm := fun heq => hfresh (heq ▸ List.mem_cons_of_mem _ hg)
      have hgf : g ≠ f := fun heq => (List.nodup_cons.mp hnodup).1 (heq ▸ hg)
      obtain ⟨hnext, hprev⟩ := insertHead_keeps h he hcell (hes g (List.mem_cons_of_mem _ hg)) hgne
      exact ⟨hnext, hprev (hbehind ▸ entry_ne hgf)⟩
    rw [hbehind, if_neg (Ne.symm (h.entry_ne_head hf))] at hlast
    exact ⟨⟨hhead, hback, hlink.trans hfirst, hfback, hrest⟩, hlast.trans hrep.last⟩

theorem insertTail_represents (h : Objects off head Obj) (hrep : Represents m off head es)
    (hes : ∀ e ∈ es, Obj e) (hnodup : es.Nodup) (he : Obj elm) (hfresh : elm ∉ es) :
    Represents (tailqInsertTail m off head elm) off head (es ++ [elm]) := by
  have hcell := hrep.last_isCell hes
  have hentry := h.entry_ne_head he
  have hcells : ∀ a ∈ head :: es.map (· + off), IsCell off head Obj a ∧ a ≠ elm + off := by
    intro a ha
    rcases List.mem_cons.mp ha with rfl | ha
    · exact ⟨.first, Ne.symm hentry⟩
    · obtain ⟨e, hmem, rfl⟩ := List.mem_map.mp ha
      exact ⟨.entry (hes e hmem), entry_ne (fun heq => hfresh (heq ▸ hmem))⟩
  have hlastNe := (hcells _ (lastCell_mem es head)).2
  rw [← hrep.last] at hlastNe
  refine ⟨?_, ?_⟩
  · apply Linked.snoc ?_ ?_ ?_ ?_ ?_ ?_ hrep.links
    · rw [insertTail_link h he hcell (.entry he), if_neg (Ne.symm hlastNe), if_pos rfl]
    · intro e hmem
      have hne : e ≠ elm := fun heq => hfresh (heq ▸ hmem)
      rw [insertTail_back h he hcell (.entry (hes e hmem)), if_neg (h.entry_ne_head (hes e hmem)),
        if_neg (entry_ne hne)]
    · refine List.nodup_cons.mpr ⟨?_, hnodup.map (fun e f heq => (BitVec.add_left_inj off).mp heq)⟩
      intro hmem
      obtain ⟨e, hmem, heq⟩ := List.mem_map.mp hmem
      exact h.entry_ne_head (hes e hmem) heq
    · intro a ha hne
      rw [← hrep.last] at hne
      rw [insertTail_link h he hcell (hcells a ha).1, if_neg hne, if_neg (hcells a ha).2]
    · rw [← hrep.last, insertTail_link h he hcell hcell, if_pos rfl]
    · rw [insertTail_back h he hcell (.entry he), if_neg hentry, if_pos rfl, hrep.last]
  · rw [insertTail_back h he hcell .first, if_pos rfl, lastCell_append]

end

end

/-! What the queue does not touch. -/

/-- A byte of no cell. -/
def Foreign (off head : BitVec 64) (Obj : BitVec 64 → Prop) (x : BitVec 64) : Prop :=
  ∀ a, IsCell off head Obj a → ¬ Inside a 16 x

theorem Foreign.link {x : BitVec 64} (h : Foreign off head Obj x) (ha : IsCell off head Obj a) (m : Mem)
    (v : BitVec 64) : store64 m a v x = m x := by
  apply store64_outside
  intro hin
  apply h a ha
  rw [Inside] at hin ⊢
  omega

theorem Foreign.back {x : BitVec 64} (h : Foreign off head Obj x) (ha : IsCell off head Obj a) (m : Mem)
    (v : BitVec 64) : store64 m (a + 8) v x = m x := by
  apply store64_outside
  intro hin
  apply h a ha
  rw [Inside] at hin ⊢
  bv_omega

section
variable {m : Mem} {es : List (BitVec 64)} {elm x : BitVec 64}

theorem init_foreign (hx : Foreign off head Obj x) : tailqInit m head x = m x := by
  rw [tailqInit, hx.back .first, hx.link .first]

theorem insertHead_foreign (h : Objects off head Obj) (hrep : Represents m off head es) (hes : ∀ e ∈ es, Obj e)
    (he : Obj elm) (hx : Foreign off head Obj x) : tailqInsertHead m off head elm x = m x := by
  rw [insertHead_eq h he, hx.back (.entry he), hx.link .first, hx.back (hrep.cellBehind_isCell hes),
    hx.link (.entry he)]

theorem insertTail_foreign (h : Objects off head Obj) (hrep : Represents m off head es) (hes : ∀ e ∈ es, Obj e)
    (he : Obj elm) (hx : Foreign off head Obj x) : tailqInsertTail m off head elm x = m x := by
  rw [insertTail_eq h he, hx.back .first, hx.link (hrep.last_isCell hes), hx.back (.entry he), hx.link (.entry he)]

end

/-- A queue stays when the bytes of its cells do. -/
theorem Represents.of_bytes {m m' : Mem} {es : List (BitVec 64)} (h : Represents m off head es)
    (hsame : ∀ a ∈ head :: es.map (· + off), ∀ x, Inside a 16 x → m' x = m x) : Represents m' off head es := by
  have hlink : ∀ a ∈ head :: es.map (· + off), load64 m' a = load64 m a := by
    intro a ha
    apply load64_congr
    intro k hk
    apply hsame a ha
    rw [Inside, sub_ofNat a (by omega)]
    omega
  have hback : ∀ a ∈ head :: es.map (· + off), load64 m' (a + 8) = load64 m (a + 8) := by
    intro a ha
    apply load64_congr
    intro k hk
    apply hsame a ha
    rw [Inside]
    bv_omega
  have hentry : ∀ e ∈ es, e + off ∈ head :: es.map (· + off) :=
    fun e he => List.mem_cons_of_mem _ (List.mem_map_of_mem he)
  refine ⟨?_, (hback head List.mem_cons_self).trans h.last⟩
  exact Linked.congr (fun e he => ⟨hlink _ (hentry e he), hback _ (hentry e he)⟩) (hlink head List.mem_cons_self)
    h.links

/-! Sequences of operations. -/

inductive TailqOp where
  | init
  | insertHead (elm : BitVec 64)
  | insertTail (elm : BitVec 64)

def tailqStep (off head : BitVec 64) (m : Mem) : TailqOp → Mem
  | .init => tailqInit m head
  | .insertHead elm => tailqInsertHead m off head elm
  | .insertTail elm => tailqInsertTail m off head elm

def listStep (es : List (BitVec 64)) : TailqOp → List (BitVec 64)
  | .init => []
  | .insertHead elm => elm :: es
  | .insertTail elm => es ++ [elm]

/-- The element is not yet in the queue. -/
def OpOk (Obj : BitVec 64 → Prop) (es : List (BitVec 64)) : TailqOp → Prop
  | .init => True
  | .insertHead elm | .insertTail elm => Obj elm ∧ elm ∉ es

def OpsOk (Obj : BitVec 64 → Prop) : List (BitVec 64) → List TailqOp → Prop
  | _, [] => True
  | es, op :: ops => OpOk Obj es op ∧ OpsOk Obj (listStep es op) ops

/-- The queue stands for the list, and no byte of another object has changed. -/
structure QueueInv (off head : BitVec 64) (Obj : BitVec 64 → Prop) (m₀ m : Mem) (es : List (BitVec 64)) : Prop where
  represents : Represents m off head es
  objects : ∀ e ∈ es, Obj e
  nodup : es.Nodup
  foreign : ∀ x, Foreign off head Obj x → m x = m₀ x

section
variable {m₀ m : Mem} {es : List (BitVec 64)}

theorem init_inv (h : Objects off head Obj) (hforeign : ∀ x, Foreign off head Obj x → m x = m₀ x) :
    QueueInv off head Obj m₀ (tailqInit m head) [] where
  represents := init_represents h m
  objects := nofun
  nodup := List.nodup_nil
  foreign := fun x hx => (init_foreign hx).trans (hforeign x hx)

theorem tailqStep_inv (h : Objects off head Obj) (hinv : QueueInv off head Obj m₀ m es) {op : TailqOp}
    (hop : OpOk Obj es op) : QueueInv off head Obj m₀ (tailqStep off head m op) (listStep es op) := by
  cases op with
  | init => exact init_inv h hinv.foreign
  | insertHead elm =>
    obtain ⟨he, hfresh⟩ := hop
    exact
      { represents := insertHead_represents h hinv.represents hinv.objects hinv.nodup he hfresh
        objects := List.forall_mem_cons.mpr ⟨he, hinv.objects⟩
        nodup := List.nodup_cons.mpr ⟨hfresh, hinv.nodup⟩
        foreign := fun x hx =>
          (insertHead_foreign h hinv.represents hinv.objects he hx).trans (hinv.foreign x hx) }
  | insertTail elm =>
    obtain ⟨he, hfresh⟩ := hop
    have hnodup := hinv.nodup.concat hfresh
    rw [List.concat_eq_append] at hnodup
    exact
      { represents := insertTail_represents h hinv.represents hinv.objects hinv.nodup he hfresh
        objects := List.forall_mem_append.mpr ⟨hinv.objects, List.forall_mem_singleton.mpr he⟩
        nodup := hnodup
        foreign := fun x hx =>
          (insertTail_foreign h hinv.represents hinv.objects he hx).trans (hinv.foreign x hx) }

theorem tailqRun_inv (h : Objects off head Obj) (ops : List TailqOp) : ∀ {m : Mem} {es : List (BitVec 64)},
    QueueInv off head Obj m₀ m es → OpsOk Obj es ops →
    QueueInv off head Obj m₀ (ops.foldl (tailqStep off head) m) (ops.foldl listStep es) := by
  induction ops with
  | nil => exact fun hinv _ => hinv
  | cons op ops ih => exact fun hinv hops => ih (tailqStep_inv h hinv hops.1) hops.2

end

/-- What the macros say about a queue that is a list. -/
structure ImplementsList (off head : BitVec 64) (m : Mem) (es : List (BitVec 64)) : Prop where
  represents : Represents m off head es
  first : tailqFirst m head = es.head?.getD 0
  empty : tailqEmpty m head = true ↔ es = []
  next : ∀ before e rest, es = before ++ e :: rest → tailqNext m off e = rest.head?.getD 0
  last : tailqLast m head = es.getLast?.getD 0
  prev : ∀ before e rest, es = before ++ e :: rest → tailqPrev m off e = before.getLast?.getD 0
  inverse : ∀ e ∈ es, ∀ f ∈ es, tailqNext m off e = f ↔ tailqPrev m off f = e
  foreachSafe : ∀ body : BitVec 64 → Mem → Mem, BodyKeeps off body es →
    ∃ fuel m', tailqForeachSafe off body fuel m (tailqFirst m head) = some (es, m')
  foreachReverse : ∃ fuel, tailqForeachReverse m off fuel (tailqLast m head) = some es.reverse

theorem QueueInv.implements {m₀ m : Mem} {es : List (BitVec 64)} (h : Objects off head Obj)
    (hinv : QueueInv off head Obj m₀ m es) : ImplementsList off head m es := by
  have hrep := hinv.represents
  have hpos : ∀ e ∈ es, e ≠ 0 := fun e he => h.nonnull e (hinv.objects e he)
  refine ⟨hrep, hrep.first, ?_, fun _ _ _ hes => hrep.next hes, hrep.getLast, fun _ _ _ hes => hrep.prev hes,
    fun e he f hf => hrep.next_prev hpos he hf, ?_, ?_⟩
  · rw [tailqEmpty, hrep.first, beq_iff_eq]
    cases es with
    | nil => exact iff_of_true rfl rfl
    | cons e es => exact iff_of_false (hpos e List.mem_cons_self) (List.cons_ne_nil e es)
  · intro body hbody
    rw [hrep.first]
    exact ⟨_, foreachSafe_visits es (fun _ _ _ hes => hrep.next hes) hpos hinv.nodup hbody⟩
  · rw [hrep.getLast]
    exact ⟨_, foreachReverse_visits es (fun _ _ _ hes => hrep.prev hes) hpos⟩

end

/-- Every sequence of `TAILQ_INIT`, `TAILQ_INSERT_HEAD` and `TAILQ_INSERT_TAIL`
    that starts with the first and inserts no element twice builds the list of
    nil, cons and snoc, in any memory; bytes that belong neither to the head nor
    to an entry keep their value, and so does every queue apart from this one. -/
theorem tailq_implements_list (off head : BitVec 64) (Obj : BitVec 64 → Prop) (h : Objects off head Obj)
    (m₀ : Mem) (ops : List TailqOp) (hops : OpsOk Obj [] ops) :
    ImplementsList off head ((.init :: ops).foldl (tailqStep off head) m₀) (ops.foldl listStep []) ∧
    (∀ x, Foreign off head Obj x → (.init :: ops).foldl (tailqStep off head) m₀ x = m₀ x) ∧
    ∀ off' head' es', (∀ a ∈ head' :: es'.map (· + off'), ∀ x, Inside a 16 x → Foreign off head Obj x) →
      Represents m₀ off' head' es' →
      Represents ((.init :: ops).foldl (tailqStep off head) m₀) off' head' es' := by
  have hinit : QueueInv off head Obj m₀ (tailqInit m₀ head) [] := init_inv h (fun _ _ => rfl)
  have hinv := tailqRun_inv h ops hinit hops
  refine ⟨hinv.implements h, hinv.foreign, ?_⟩
  intro off' head' es' hapart hother
  exact hother.of_bytes (fun a ha x hx => hinv.foreign x (hapart a ha x hx))

/-- Two elements, one inserted at each end. -/
theorem tailq_two :
    ImplementsList 0x10 0x1000
      ([.init, .insertTail 0x2000, .insertHead 0x3000].foldl (tailqStep 0x10 0x1000) (fun _ => 0xFF))
      [0x3000, 0x2000] := by
  have hobj : Objects 0x10 0x1000 (fun e => e = 0x2000 ∨ e = 0x3000) := by
    refine ⟨?_, ?_, ?_⟩
    · rintro e (rfl | rfl) <;> decide
    · rintro e (rfl | rfl) <;> exact ⟨by decide, by decide⟩
    · rintro e f (rfl | rfl) (rfl | rfl) hne
      · exact absurd rfl hne
      · exact ⟨by decide, by decide⟩
      · exact ⟨by decide, by decide⟩
      · exact absurd rfl hne
  exact (tailq_implements_list 0x10 0x1000 (fun e => e = 0x2000 ∨ e = 0x3000) hobj (fun _ => 0xFF)
    [.insertTail 0x2000, .insertHead 0x3000]
    ⟨⟨.inl rfl, by decide⟩, ⟨.inr rfl, by decide⟩, trivial⟩).1

end Qnixx
