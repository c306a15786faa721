import Mathlib.Logic.Function.Basic
import Mathlib.Tactic.Common

/- Doubly linked lists that end in a null node. The links are two functions,
   `next` and `prev`; a memory enters only through what it holds in the link
   fields of the nodes. `Linked next prev z p xs` says that the nodes `xs` are
   linked in this order, that the first one points back to `p` and that the
   last one points on to `z`. The null node's own links are not part of it:
   the two edits write them, and nothing reads them. -/
namespace Dlist

variable {α : Type}

/-- The nodes `xs` in order, the first one with `p` before it. -/
def Linked (next prev : α → α) (z : α) : α → List α → Prop
  | _, [] => True
  | p, x :: xs => prev x = p ∧ next x = xs.headD z ∧ Linked next prev z x xs

section
variable {next prev next' prev' : α → α} {z p x : α} {xs ys : List α}

/-- Only the links of the listed nodes count. -/
theorem Linked.congr (h : Linked next prev z p xs) (hnext : ∀ y ∈ xs, next' y = next y)
    (hprev : ∀ y ∈ xs, prev' y = prev y) : Linked next' prev' z p xs := by
  induction xs generalizing p with
  | nil => trivial
  | cons y ys ih =>
    obtain ⟨hp, hn, hrest⟩ := h
    refine ⟨?_, ?_, ?_⟩
    · rw [hprev y List.mem_cons_self, hp]
    · rw [hnext y List.mem_cons_self, hn]
    · exact ih hrest (fun w hw => hnext w (List.mem_cons_of_mem y hw))
        (fun w hw => hprev w (List.mem_cons_of_mem y hw))

/-- The node before the rest of a list whose first part is `xs`. -/
def before (p : α) (xs : List α) : α := xs.getLastD p

theorem linked_append :
    Linked next prev z p (xs ++ x :: ys) ↔
      Linked next prev x p xs ∧ Linked next prev z (before p xs) (x :: ys) := by
  induction xs generalizing p with
  | nil => exact ⟨fun h => ⟨trivial, h⟩, fun h => h.2⟩
  | cons y xs ih =>
    have hbefore : before p (y :: xs) = before y xs := List.getLastD_cons
    have hhead : (xs ++ x :: ys).headD z = xs.headD x := by cases xs <;> rfl
    rw [List.cons_append, Linked, hhead, ih, hbefore, Linked]
    refine ⟨?_, ?_⟩
    · rintro ⟨hp, hn, hxs, hys⟩
      exact ⟨⟨hp, hn, hxs⟩, hys⟩
    · rintro ⟨⟨hp, hn, hxs⟩, hys⟩
      exact ⟨hp, hn, hxs, hys⟩

theorem linked_snoc :
    Linked next prev z p (xs ++ [x]) ↔ Linked next prev x p xs ∧ prev x = before p xs ∧ next x = z := by
  rw [linked_append]
  refine ⟨?_, ?_⟩
  · rintro ⟨hxs, hp, hn, -⟩
    exact ⟨hxs, hp, hn⟩
  · rintro ⟨hxs, hp, hn⟩
    exact ⟨hxs, hp, hn, trivial⟩

/-- The node before the rest is the last one, or what stands before all. -/
theorem before_mem (p : α) (xs : List α) : before p xs = p ∧ xs = [] ∨ before p xs ∈ xs := by
  rcases List.eq_nil_or_concat xs with rfl | ⟨ys, y, rfl⟩
  · exact .inl ⟨rfl, rfl⟩
  · right
    rw [before, List.concat_eq_append, List.getLastD_concat]
    simp

theorem headD_mem (z : α) (ys : List α) : ys.headD z = z ∧ ys = [] ∨ ys.headD z ∈ ys := by
  cases ys with
  | nil => exact .inl ⟨rfl, rfl⟩
  | cons y ys => exact .inr List.mem_cons_self

end

section
variable [DecidableEq α] {next prev : α → α} {z p x : α} {xs ys : List α}

/-- Putting `x` in front: its own links, and the back link of what was first. -/
theorem Linked.push (h : Linked next prev z z xs) (hnew : x ∉ xs) (hdistinct : xs.Nodup) (hnull : x ≠ z) :
    Linked (Function.update next x (xs.headD z))
      (Function.update (Function.update prev x z) (xs.headD z) x) z z (x :: xs) := by
  refine ⟨?_, Function.update_self .., ?_⟩
  · have hne : x ≠ xs.headD z := by
      rcases headD_mem z xs with ⟨heq, -⟩ | hmem
      · rw [heq]
        exact hnull
      · exact fun heq => hnew (heq ▸ hmem)
    rw [Function.update_of_ne hne, Function.update_self]
  · cases xs with
    | nil => trivial
    | cons y xs =>
      obtain ⟨-, hn, hrest⟩ := h
      rw [List.mem_cons, not_or] at hnew
      obtain ⟨hxy, hxs⟩ := hnew
      obtain ⟨hy, -⟩ := List.nodup_cons.mp hdistinct
      refine ⟨Function.update_self .., ?_, ?_⟩
      · rw [Function.update_of_ne (Ne.symm hxy), hn]
      · apply hrest.congr
        · intro w hw
          rw [Function.update_of_ne]
          exact fun heq => hxs (heq ▸ hw)
        · intro w hw
          have hwy : w ≠ y := fun heq => hy (heq ▸ hw)
          have hwx : w ≠ x := fun heq => hxs (heq ▸ hw)
          rw [List.headD_cons, Function.update_of_ne hwy, Function.update_of_ne hwx]

/-- Taking `x` out: its neighbours are linked to each other. -/
theorem Linked.unlink (h : Linked next prev z z (xs ++ x :: ys)) (hdistinct : (xs ++ x :: ys).Nodup)
    (hnull : z ∉ xs ++ x :: ys) :
    Linked (Function.update next (prev x) (next x)) (Function.update prev (next x) (prev x)) z z (xs ++ ys) := by
  obtain ⟨hxs, hp, hn, hys⟩ := linked_append.mp h
  rw [hp, hn]
  have hparts := List.nodup_append.mp hdistinct
  obtain ⟨hxsd, hyd, hapart⟩ := hparts
  obtain ⟨hxys, hysd⟩ := List.nodup_cons.mp hyd
  rw [List.mem_append, not_or, List.mem_cons, not_or] at hnull
  obtain ⟨hzxs, hzx, hzys⟩ := hnull
  have hcross : ∀ w ∈ xs, w ∉ ys := fun w hw hw' => hapart w hw w (List.mem_cons_of_mem x hw') rfl
  -- the first part ends in the successor of `x`
  have hleft : Linked (Function.update next (before z xs) (ys.headD z)) (Function.update prev (ys.headD z) (before z xs))
      (ys.headD z) z xs := by
    rcases List.eq_nil_or_concat xs with rfl | ⟨front, w, rfl⟩
    · trivial
    · rw [List.concat_eq_append] at hxs hxsd hzxs hcross ⊢
      have hbefore : before z (front ++ [w]) = w := List.getLastD_concat
      rw [hbefore]
      obtain ⟨hfront, hwp, hwn⟩ := linked_snoc.mp hxs
      have hhead : ∀ v ∈ front ++ [w], v ≠ ys.headD z := by
        intro v hv heq
        rcases headD_mem z ys with ⟨hz, -⟩ | hmem
        · exact hzxs (hz ▸ heq ▸ hv)
        · exact hcross v hv (heq ▸ hmem)
      have hw : w ∉ front := by
        have := (List.nodup_append.mp hxsd).2.2
        intro hmem
        exact this w hmem w List.mem_cons_self rfl
      refine linked_snoc.mpr ⟨?_, ?_, Function.update_self ..⟩
      · have hfront' : Linked next prev w z front := hfront
        apply hfront'.congr
        · intro v hv
          rw [Function.update_of_ne]
          exact fun heq => hw (heq ▸ hv)
        · intro v hv
          rw [Function.update_of_ne (hhead v (List.mem_append_left _ hv))]
      · rw [Function.update_of_ne (hhead w (List.mem_append_right _ List.mem_cons_self)), hwp]
  cases ys with
  | nil =>
    rw [List.append_nil]
    exact hleft
  | cons y ys =>
    refine linked_append.mpr ⟨hleft, Function.update_self .., ?_, ?_⟩
    · have hne : y ≠ before z xs := by
        rcases before_mem z xs with ⟨heq, -⟩ | hmem
        · rw [heq]
          exact fun heq => hzys (heq ▸ List.mem_cons_self)
        · exact fun heq => hcross _ hmem (heq ▸ List.mem_cons_self)
      rw [Function.update_of_ne hne, hys.2.1]
    · have hrest := hys.2.2
      apply hrest.congr
      · intro v hv
        rw [Function.update_of_ne]
        intro heq
        rcases before_mem z xs with ⟨hz, -⟩ | hmem
        · exact hzys (List.mem_cons_of_mem y (hz ▸ heq ▸ hv))
        · exact hcross _ hmem (List.mem_cons_of_mem y (heq ▸ hv))
      · intro v hv
        rw [Function.update_of_ne]
        intro heq
        exact (List.nodup_cons.mp hysd).1 ((show v = y from heq) ▸ hv)

end

end Dlist
