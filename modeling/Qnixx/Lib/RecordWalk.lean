import Mathlib.Tactic.Common

/- Walks over a table of records, each of which gives its own length. A walk
   has a cursor into the table, a state, and fuel; it ends at the end of the
   table or at a record where it is done. It lists the offsets it reads. -/
namespace RecordWalk

structure Walk (σ : Type) where
  /-- Where the table ends. -/
  stop : Nat
  /-- The length a record gives itself. -/
  size : Nat → Nat
  /-- The state behind a record. -/
  visit : σ → Nat → σ
  done : Nat → Bool
  /-- What is read of a record. -/
  reads : Nat → List Nat

def run {σ : Type} (w : Walk σ) : Nat → Nat → σ → Option σ × List Nat
  | 0, _, _ => (none, [])
  | fuel + 1, off, st =>
    if off < w.stop then
      if w.done off then (some (w.visit st off), w.reads off)
      else
        let rest := run w fuel (off + w.size off) (w.visit st off)
        (rest.1, w.reads off ++ rest.2)
    else (some st, [])

/-- The walk from `start` gets to a record at `off`. -/
inductive Reached (stop : Nat) (size : Nat → Nat) (done : Nat → Bool) : Nat → Nat → Prop
  | here {start : Nat} : start < stop → Reached stop size done start start
  | there {start off : Nat} : start < stop → done start = false →
    Reached stop size done (start + size start) off → Reached stop size done start off

section
variable {stop : Nat} {size : Nat → Nat} {done : Nat → Bool} {start off : Nat}

theorem Reached.start_lt (h : Reached stop size done start off) : start < stop := by
  cases h with
  | here hlt => exact hlt
  | there hlt _ _ => exact hlt

/-- The walk gets to no other record when the first goes to the end. -/
theorem Reached.eq_start (h : Reached stop size done start off) (hlast : stop ≤ start + size start) :
    off = start := by
  cases h with
  | here _ => rfl
  | there _ _ hnext => exact absurd hnext.start_lt (Nat.not_lt.mpr hlast)

theorem Reached.start_le (h : Reached stop size done start off) : start ≤ off := by
  induction h with
  | here _ => exact Nat.le_refl _
  | there _ _ _ ih => omega

/-- A walk that can be done early gets to the records before which it is not. -/
theorem reached_iff : Reached stop size done start off ↔
    Reached stop size (fun _ => false) start off ∧
      ∀ before, before < off → Reached stop size (fun _ => false) start before → done before = false := by
  refine ⟨?_, ?_⟩
  · intro h
    induction h with
    | here hlt => exact ⟨.here hlt, fun before hlt' hb => absurd hb.start_le (Nat.not_le.mpr hlt')⟩
    | there hlt hdone hrest ih =>
      refine ⟨.there hlt rfl ih.1, ?_⟩
      intro before hbefore hreach
      cases hreach with
      | here _ => exact hdone
      | there _ _ hreach => exact ih.2 before hbefore hreach
  · intro h
    obtain ⟨hreach, hnot⟩ := h
    induction hreach with
    | here hlt => exact .here hlt
    | @there start off hlt _ hrest ih =>
      by_cases heq : start = off
      · exact heq ▸ .here hlt
      · have hle := hrest.start_le
        refine .there hlt (hnot start (by omega) (.here hlt)) (ih ?_)
        intro before hbefore hb
        exact hnot before hbefore (.there hlt rfl hb)

end

section
variable {σ : Type} (w : Walk σ)

theorem run_end {off : Nat} (h : ¬ off < w.stop) (fuel : Nat) (st : σ) :
    run w (fuel + 1) off st = (some st, []) := by
  rw [run, if_neg h]

theorem run_done {off : Nat} (h : off < w.stop) (hdone : w.done off = true) (fuel : Nat) (st : σ) :
    run w (fuel + 1) off st = (some (w.visit st off), w.reads off) := by
  rw [run, if_pos h, if_pos hdone]

theorem run_next {off : Nat} (h : off < w.stop) (hdone : w.done off = false) (fuel : Nat) (st : σ) :
    run w (fuel + 1) off st = ((run w fuel (off + w.size off) (w.visit st off)).1,
      w.reads off ++ (run w fuel (off + w.size off) (w.visit st off)).2) := by
  rw [run, if_pos h, if_neg (by rw [hdone]; exact Bool.false_ne_true)]

/-- What a walk reads is what it reads of the records it gets to. -/
theorem reads_iff (P : Nat → Prop) (start : Nat) (st : σ) :
    (∀ fuel, ∀ r ∈ (run w fuel start st).2, P r) ↔
      ∀ off, Reached w.stop w.size w.done start off → ∀ r ∈ w.reads off, P r := by
  refine ⟨?_, ?_⟩
  · intro h off hreach
    induction hreach generalizing st with
    | @here start hlt =>
      intro r hr
      apply h 1 r
      cases hdone : w.done start with
      | true => exact run_done w hlt hdone 0 st ▸ hr
      | false => exact run_next w hlt hdone 0 st ▸ List.mem_append_left _ hr
    | there hlt hdone _ ih =>
      apply ih (w.visit st _)
      intro fuel r hr
      apply h (fuel + 1) r
      rw [run_next w hlt hdone]
      exact List.mem_append_right _ hr
  · intro h fuel
    induction fuel generalizing start st with
    | zero => exact nofun
    | succ fuel ih =>
      by_cases hlt : start < w.stop
      · cases hdone : w.done start with
        | true =>
          rw [run_done w hlt hdone]
          exact h start (.here hlt)
        | false =>
          rw [run_next w hlt hdone]
          refine List.forall_mem_append.mpr ⟨h start (.here hlt), ih _ _ ?_⟩
          intro off hreach
          exact h off (.there hlt hdone hreach)
      · rw [run_end w hlt]
        exact nofun

/-- A record of length 0 holds the cursor. -/
theorem run_stuck {off : Nat} (hlt : off < w.stop) (hdone : w.done off = false) (hsize : w.size off = 0)
    (fuel : Nat) (st : σ) : (run w fuel off st).1 = none := by
  induction fuel generalizing st with
  | zero => rfl
  | succ fuel ih =>
    rw [run_next w hlt hdone, hsize]
    exact ih _

theorem run_none_of_reached {start off : Nat} (hreach : Reached w.stop w.size w.done start off)
    (hdone : w.done off = false) (hsize : w.size off = 0) (fuel : Nat) (st : σ) :
    (run w fuel start st).1 = none := by
  induction hreach generalizing fuel st with
  | here hlt => exact run_stuck w hlt hdone hsize fuel st
  | there hlt hgo _ ih =>
    cases fuel with
    | zero => rfl
    | succ fuel =>
      rw [run_next w hlt hgo]
      exact ih hdone hsize fuel _

/-- A walk ends exactly when no record it goes on from has length 0. The
    induction is on what is left of the table. -/
theorem returns_iff (start : Nat) (st : σ) : (∃ fuel, (run w fuel start st).1 ≠ none) ↔
    ∀ off, Reached w.stop w.size w.done start off → w.done off = false → w.size off ≠ 0 := by
  refine ⟨?_, ?_⟩
  · intro h off hreach hdone hsize
    obtain ⟨fuel, hfuel⟩ := h
    exact hfuel (run_none_of_reached w hreach hdone hsize fuel st)
  · intro h
    generalize hleft : w.stop - start = left
    induction left using Nat.strongRecOn generalizing start st with
    | ind left ih =>
      by_cases hlt : start < w.stop
      · cases hdone : w.done start with
        | true =>
          refine ⟨1, ?_⟩
          rw [run_done w hlt hdone]
          exact Option.some_ne_none _
        | false =>
          have hsize := h start (.here hlt) hdone
          obtain ⟨fuel, hfuel⟩ := ih (w.stop - (start + w.size start)) (by omega) (start + w.size start)
            (w.visit st start) (fun off hreach => h off (.there hlt hdone hreach)) rfl
          refine ⟨fuel + 1, ?_⟩
          rw [run_next w hlt hdone]
          exact hfuel
      · refine ⟨1, ?_⟩
        rw [run_end w hlt]
        exact Option.some_ne_none _

end
end RecordWalk
