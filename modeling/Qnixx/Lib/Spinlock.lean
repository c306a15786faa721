import Mathlib.Logic.Function.Iterate
import Mathlib.Tactic.Common
import Qnixx.Lib.Runs

/- Spinlocks on one processor. Routines are lists of atomic steps; the code
   runs one routine after the other, an interrupt handler cuts in between two
   steps and runs to its end, and a party that finds a lock taken stays where
   it is. `Closes` is the discipline of a routine that gives back the locks it
   takes; under it `waits_iff` says when a handler gets stuck on a lock of the
   code it interrupted, and `exec_not_waits` that runs whose interrupts come
   while the code has no lock never do. -/
namespace Spinlock

/-- An atomic step of a routine. -/
inductive Instr (L A : Type) where
  | acquire (l : L)
  | release (l : L)
  | act (a : A)

inductive Party where
  | code
  | handler
  deriving DecidableEq

/-- The locks and who has them, and what is left of the current routines. -/
structure Cpu (L A D : Type) where
  held : L → Option Party
  data : D
  code : List (Instr L A)
  handler : Option (List (Instr L A))

inductive Op (L A : Type) where
  | call (routine : List (Instr L A))
  | step
  | interrupt (handler : List (Instr L A))

/-- The lock the handler is about to take is one of the interrupted code's. -/
def Cpu.Waits {L A D : Type} (s : Cpu L A D) : Prop :=
  ∃ l rest, s.handler = some (.acquire l :: rest) ∧ s.held l = some .code

/-- A routine that has the locks `ls`, the last one first: it takes no lock
    twice, gives back the last one and ends with none. -/
def Closes {L A : Type} : List L → List (Instr L A) → Prop
  | ls, [] => ls = []
  | ls, .acquire l :: is => l ∉ ls ∧ Closes (l :: ls) is
  | ls, .release l :: is => ls.head? = some l ∧ Closes ls.tail is
  | ls, .act _ :: is => Closes ls is

/-- A closed routine inside another one, which has locks the first does not
    take. -/
theorem closes_append {L A : Type} {ls ls' : List L} {is is' : List (Instr L A)} (h : Closes ls is)
    (hnot : ∀ l ∈ ls', .acquire l ∉ is) (h' : Closes ls' is') : Closes (ls ++ ls') (is ++ is') := by
  induction is generalizing ls with
  | nil =>
    cases h
    exact h'
  | cons i is ih =>
    have hrest : ∀ l ∈ ls', Instr.acquire l ∉ is := fun l hl hmem => hnot l hl (List.mem_cons_of_mem _ hmem)
    cases i with
    | acquire l =>
      refine ⟨?_, ih h.2 hrest⟩
      intro hl
      rcases List.mem_append.mp hl with hl | hl
      · exact h.1 hl
      · exact hnot l hl (List.mem_cons_self ..)
    | release l =>
      obtain ⟨hhead, htail⟩ := h
      cases ls with
      | nil => cases hhead
      | cons k ls => exact ⟨hhead, ih htail hrest⟩
    | act a => exact ih h hrest

theorem closes_seq {L A : Type} {is is' : List (Instr L A)} (h : Closes [] is) (h' : Closes [] is') :
    Closes [] (is ++ is') :=
  closes_append h (fun _ hl => absurd hl (List.not_mem_nil)) h'

/-- A section under a lock that it does not take itself. -/
theorem closes_section {L A : Type} {l : L} {is : List (Instr L A)} (h : Closes [] is)
    (hnot : .acquire l ∉ is) : Closes [] (.acquire l :: (is ++ [.release l])) := by
  refine ⟨List.not_mem_nil, closes_append h ?_ ⟨rfl, rfl⟩⟩
  intro k hk
  rw [List.mem_singleton.mp hk]
  exact hnot

theorem closes_acts {L A B : Type} (f : B → A) (bs : List B) :
    Closes (L := L) [] (bs.map (fun b => .act (f b))) := by
  induction bs with
  | nil => rfl
  | cons b bs ih => exact ih

section
variable {L A D : Type}

/-- `p` has exactly the locks `ls`, and gives them back in `rest`. -/
structure Has (held : L → Option Party) (p : Party) (ls : List L) (rest : List (Instr L A)) : Prop where
  closes : Closes ls rest
  nodup : ls.Nodup
  iff : ∀ l, held l = some p ↔ l ∈ ls

structure Holds (s : Cpu L A D) (cs hs : List L) : Prop where
  code : Has s.held .code cs s.code
  handler : Has s.held .handler hs (s.handler.getD [])

/-- The routines that are called and the handlers that are started close. -/
def Op.Closed : Op L A → Prop
  | .call routine => Closes [] routine
  | .step => True
  | .interrupt handler => Closes [] handler

/-- No interrupt comes while the code has a lock. -/
def Unlocked (s : Cpu L A D) : Op L A → Prop
  | .interrupt _ => ∀ l, s.held l ≠ some .code
  | _ => True

/-- A processor before its first routine. -/
def Cpu.start (d : D) : Cpu L A D := { held := fun _ => none, data := d, code := [], handler := none }

theorem holds_start (d : D) : Holds (Cpu.start d : Cpu L A D) [] [] :=
  ⟨⟨rfl, List.nodup_nil, fun _ => by simp [Cpu.start]⟩, ⟨rfl, List.nodup_nil, fun _ => by simp [Cpu.start]⟩⟩

theorem holds_interrupt {s : Cpu L A D} {cs hs : List L} {is : List (Instr L A)} (h : Holds s cs hs) (hnone : s.handler = none)
    (hclosed : Closes [] is) : Holds { s with handler := some is } cs [] := by
  have hempty := h.handler
  rw [hnone, Option.getD_none] at hempty
  have hnil : hs = [] := hempty.closes
  subst hnil
  exact ⟨h.code, ⟨hclosed, List.nodup_nil, hempty.iff⟩⟩

/-- The code has no lock while a handler runs. -/
def Calm (s : Cpu L A D) : Prop := ∃ cs hs, Holds s cs hs ∧ (s.handler.isSome → cs = [])

theorem calm_not_waits {s : Cpu L A D} (h : Calm s) : ¬ s.Waits := by
  intro h
  obtain ⟨l, rest, hhandler, hheld⟩ := h
  obtain ⟨cs, hs, hholds, hcalm⟩ := h
  have hnil : cs = [] := hcalm (by rw [hhandler]; rfl)
  have hmem := (hholds.code.iff l).mp hheld
  rw [hnil] at hmem
  cases hmem

end

section
variable {L A D : Type} [DecidableEq L] (act : D → A → D)

/-- One step of `p`; `none` while it spins. -/
def Cpu.run (s : Cpu L A D) (p : Party) : Instr L A → Option (Cpu L A D)
  | .acquire l =>
    if (s.held l).isSome then none else some { s with held := Function.update s.held l (some p) }
  | .release l => some { s with held := Function.update s.held l none }
  | .act a => some { s with data := act s.data a }

/-- The processor's next step. -/
def Cpu.step (s : Cpu L A D) : Cpu L A D :=
  match s.handler with
  | some (i :: rest) => ((s.run act .handler i).map (fun t => { t with handler := some rest })).getD s
  | some [] => { s with handler := none }
  | none =>
    match s.code with
    | i :: rest => ((s.run act .code i).map (fun t => { t with code := rest })).getD s
    | [] => s

/-- A routine is called when the last one has returned; interrupts are off
    while the handler runs. -/
def Cpu.op (s : Cpu L A D) : Op L A → Option (Cpu L A D)
  | .call routine =>
    if s.handler.isNone ∧ s.code.isEmpty then some { s with code := routine } else none
  | .step => some (s.step act)
  | .interrupt handler => if s.handler.isNone then some { s with handler := some handler } else none

variable {act} {s t : Cpu L A D} {cs hs : List L} {i : Instr L A} {rest : List (Instr L A)}

/-- Who has the locks after one of them changed hands. -/
theorem held_update (held : L → Option Party) (k l : L) (o : Option Party) (p : Party) :
    Function.update held k o l = some p ↔ (l = k ∧ o = some p) ∨ (l ≠ k ∧ held l = some p) := by
  rw [Function.update_apply]
  by_cases hl : l = k
  · simp [hl]
  · simp [hl]

/-- A step of `p` leaves the locks of the other party as they are. -/
theorem run_has {p q : Party} {ps qs : List L} {is : List (Instr L A)} (hne : p ≠ q)
    (hp : Has s.held p ps (i :: rest)) (hq : Has s.held q qs is) (h : s.run act p i = some t) :
    ∃ ps', Has t.held p ps' rest ∧ Has t.held q qs is := by
  cases i with
  | acquire k =>
    simp only [Cpu.run] at h
    split at h
    · cases h
    · next hfree =>
      rw [Option.not_isSome_iff_eq_none] at hfree
      cases h
      refine ⟨k :: ps, ⟨hp.closes.2, List.nodup_cons.mpr ⟨hp.closes.1, hp.nodup⟩, ?_⟩,
        hq.closes, hq.nodup, ?_⟩
      · intro l
        rw [held_update, List.mem_cons, hp.iff l]
        grind
      · intro l
        rw [held_update, ← hq.iff l]
        grind
  | release k =>
    obtain ⟨hhead, htail⟩ := hp.closes
    obtain ⟨ls, rfl⟩ := List.head?_eq_some_iff.mp hhead
    obtain ⟨hk, hnodup⟩ := List.nodup_cons.mp hp.nodup
    have hmine : s.held k = some p := (hp.iff k).mpr (List.mem_cons_self ..)
    cases h
    refine ⟨ls, ⟨htail, hnodup, ?_⟩, hq.closes, hq.nodup, ?_⟩
    · intro l
      rw [held_update, hp.iff l, List.mem_cons]
      grind
    · intro l
      rw [held_update, ← hq.iff l]
      grind
  | act a =>
    cases h
    exact ⟨ps, ⟨hp.closes, hp.nodup, hp.iff⟩, hq⟩

theorem run_eq_none_iff {p : Party} :
    s.run act p i = none ↔ ∃ l, i = .acquire l ∧ (s.held l).isSome := by
  cases i with
  | acquire k => simp [Cpu.run, Option.isSome_iff_ne_none]
  | release k => simp [Cpu.run]
  | act a => simp [Cpu.run]

/-- A step does not touch the routines. -/
theorem run_routines {p : Party} (h : s.run act p i = some t) : t.code = s.code ∧ t.handler = s.handler := by
  cases i with
  | acquire k =>
    simp only [Cpu.run] at h
    split at h
    · cases h
    · cases h
      exact ⟨rfl, rfl⟩
  | release k =>
    cases h
    exact ⟨rfl, rfl⟩
  | act a =>
    cases h
    exact ⟨rfl, rfl⟩

/-- What a step of the processor can do. -/
theorem step_cases (act : D → A → D) (s : Cpu L A D) :
    (s.step act = s) ∨
    (∃ i rest t, s.handler = some (i :: rest) ∧ s.run act .handler i = some t ∧
      s.step act = { t with handler := some rest }) ∨
    (s.handler = some [] ∧ s.step act = { s with handler := none }) ∨
    (∃ i rest t, s.handler = none ∧ s.code = i :: rest ∧ s.run act .code i = some t ∧
      s.step act = { t with code := rest }) := by
  cases hhandler : s.handler with
  | some is =>
    cases is with
    | nil =>
      refine .inr (.inr (.inl ⟨rfl, ?_⟩))
      simp only [Cpu.step, hhandler]
    | cons i rest =>
      cases hrun : s.run act .handler i with
      | none =>
        refine .inl ?_
        simp [Cpu.step, hhandler, hrun]
      | some t =>
        refine .inr (.inl ⟨i, rest, t, rfl, hrun, ?_⟩)
        simp [Cpu.step, hhandler, hrun]
  | none =>
    cases hcode : s.code with
    | nil =>
      refine .inl ?_
      simp [Cpu.step, hhandler, hcode]
    | cons i rest =>
      cases hrun : s.run act .code i with
      | none =>
        refine .inl ?_
        simp [Cpu.step, hhandler, hcode, hrun]
      | some t =>
        refine .inr (.inr (.inr ⟨i, rest, t, rfl, rfl, hrun, ?_⟩))
        simp [Cpu.step, hhandler, hcode, hrun]

/-- The handler takes a step. -/
theorem holds_handler (h : Holds s cs hs) (hhandler : s.handler = some (i :: rest))
    (hrun : s.run act .handler i = some t) : ∃ hs', Holds { t with handler := some rest } cs hs' := by
  have hmine := h.handler
  rw [hhandler, Option.getD_some] at hmine
  obtain ⟨hs', hmine', hcode⟩ := run_has (by decide) hmine h.code hrun
  rw [← (run_routines hrun).1] at hcode
  exact ⟨hs', hcode, hmine'⟩

/-- While a handler runs, the code keeps its locks. -/
theorem holds_step (h : Holds s cs hs) :
    ∃ cs' hs', Holds (s.step act) cs' hs' ∧
      ((s.step act).handler.isSome → cs' = cs ∧ s.handler.isSome) := by
  rcases step_cases act s with heq | ⟨i, rest, t, hhandler, hrun, heq⟩ | ⟨hhandler, heq⟩ |
    ⟨i, rest, t, hhandler, hcode, hrun, heq⟩
  · rw [heq]
    exact ⟨cs, hs, h, fun hsome => ⟨rfl, hsome⟩⟩
  · rw [heq]
    obtain ⟨hs', h'⟩ := holds_handler h hhandler hrun
    exact ⟨cs, hs', h', fun _ => ⟨rfl, by rw [hhandler]; rfl⟩⟩
  · rw [heq]
    have hmine := h.handler
    rw [hhandler, Option.getD_some] at hmine
    exact ⟨cs, hs, ⟨h.code, hmine⟩, nofun⟩
  · rw [heq]
    have hmine := h.code
    rw [hcode] at hmine
    obtain ⟨cs', hmine', hhandler'⟩ := run_has (by decide) hmine h.handler hrun
    have hsame := (run_routines hrun).2
    rw [← hsame] at hhandler'
    refine ⟨cs', hs, ⟨hmine', hhandler'⟩, ?_⟩
    intro hsome
    rw [hsame, hhandler] at hsome
    cases hsome

/-! Runs. -/

theorem op_cases {o : Op L A} (h : s.op act o = some t) :
    (∃ routine, o = .call routine ∧ s.handler = none ∧ s.code = [] ∧ t = { s with code := routine }) ∨
    (o = .step ∧ t = s.step act) ∨
    (∃ is, o = .interrupt is ∧ s.handler = none ∧ t = { s with handler := some is }) := by
  cases o with
  | call routine =>
    simp only [Cpu.op] at h
    split at h
    · next hidle =>
      rw [Option.isNone_iff_eq_none, List.isEmpty_iff] at hidle
      exact .inl ⟨routine, rfl, hidle.1, hidle.2, (Option.some.inj h).symm⟩
    · cases h
  | step => exact .inr (.inl ⟨rfl, (Option.some.inj h).symm⟩)
  | interrupt is =>
    simp only [Cpu.op] at h
    split at h
    · next hidle =>
      rw [Option.isNone_iff_eq_none] at hidle
      exact .inr (.inr ⟨is, rfl, hidle, (Option.some.inj h).symm⟩)
    · cases h

theorem calm_op {o : Op L A} (h : Calm s) (hclosed : o.Closed) (hunlocked : Unlocked s o)
    (hop : s.op act o = some t) : Calm t := by
  obtain ⟨cs, hs, hholds, hcalm⟩ := h
  obtain ⟨routine, rfl, hnone, hcode, rfl⟩ | ⟨rfl, rfl⟩ | ⟨is, rfl, hnone, rfl⟩ := op_cases hop
  · have hempty := hholds.code
    rw [hcode] at hempty
    have hnil : cs = [] := hempty.closes
    subst hnil
    exact ⟨[], hs, ⟨⟨hclosed, List.nodup_nil, hempty.iff⟩, hholds.handler⟩, fun _ => rfl⟩
  · obtain ⟨cs', hs', hholds', hsame⟩ := holds_step hholds
    refine ⟨cs', hs', hholds', ?_⟩
    intro hsome
    obtain ⟨rfl, hbefore⟩ := hsame hsome
    exact hcalm hbefore
  · refine ⟨cs, [], holds_interrupt hholds hnone hclosed, ?_⟩
    intro _
    apply List.eq_nil_iff_forall_not_mem.mpr
    intro l hl
    exact hunlocked l ((hholds.code.iff l).mpr hl)

/-! A handler that waits. -/

theorem step_of_waits (h : s.Waits) : s.step act = s := by
  obtain ⟨l, rest, hhandler, hheld⟩ := h
  simp [Cpu.step, hhandler, Cpu.run, hheld]

/-- Without an interrupt no handler starts. -/
theorem not_waits_of_none (h : s.handler = none) (n : Nat) : ¬ ((Cpu.step act)^[n] s).Waits := by
  induction n generalizing s with
  | zero =>
    intro h
    obtain ⟨l, rest, hhandler, -⟩ := h
    rw [Function.iterate_zero, id_eq, h] at hhandler
    cases hhandler
  | succ n ih =>
    rw [Function.iterate_succ_apply]
    apply ih
    rcases step_cases act s with heq | ⟨i, rest, t, hhandler, -⟩ | ⟨-, heq⟩ | ⟨i, rest, t, -, -, hrun, heq⟩
    · rw [heq, h]
    · rw [h] at hhandler
      cases hhandler
    · rw [heq]
    · rw [heq]
      exact (run_routines hrun).2.trans h

/-- A handler that does not wait yet takes a step. -/
theorem waits_step (h : ¬ s.Waits) :
    (∃ n, ((Cpu.step act)^[n] s).Waits) ↔ ∃ n, ((Cpu.step act)^[n] (s.step act)).Waits := by
  rw [← Nat.or_exists_add_one, Function.iterate_zero, id_eq, or_iff_right h]
  simp only [Function.iterate_succ_apply]

/-- A lock that the handler waits for is not one of its own. -/
theorem held_of_run_none {i : Instr L A} {is : List (Instr L A)} (h : Holds s cs hs)
    (hhandler : s.handler = some (i :: is)) (hrun : s.run act .handler i = none) :
    ∃ l, i = .acquire l ∧ s.held l = some .code := by
  obtain ⟨l, rfl, htaken⟩ := run_eq_none_iff.mp hrun
  obtain ⟨p, hp⟩ := Option.isSome_iff_exists.mp htaken
  have hclose := h.handler
  rw [hhandler, Option.getD_some] at hclose
  refine ⟨l, rfl, ?_⟩
  cases p with
  | code => exact hp
  | handler => exact absurd ((hclose.iff l).mp hp) hclose.closes.1

/-- A handler ends up waiting iff it takes a lock that the code has. -/
theorem waits_iff {is : List (Instr L A)} (h : Holds s cs hs) (hhandler : s.handler = some is) :
    (∃ n, ((Cpu.step act)^[n] s).Waits) ↔ ∃ l ∈ cs, .acquire l ∈ is := by
  induction is generalizing s hs with
  | nil =>
    -- the handler returns
    have hnone : (s.step act).handler = none := by simp only [Cpu.step, hhandler]
    have hnot : ¬ s.Waits := by
      intro h
      obtain ⟨l, rest, hwaits, -⟩ := h
      rw [hhandler] at hwaits
      cases hwaits
    rw [waits_step hnot]
    refine ⟨?_, ?_⟩
    · intro h
      obtain ⟨n, hwaits⟩ := h
      exact absurd hwaits (not_waits_of_none hnone n)
    · intro h
      obtain ⟨l, -, hl⟩ := h
      cases hl
  | cons i is ih =>
    cases hrun : s.run act .handler i with
    | none =>
      obtain ⟨l, rfl, hcode⟩ := held_of_run_none h hhandler hrun
      refine ⟨?_, ?_⟩
      · intro _
        exact ⟨l, (h.code.iff l).mp hcode, List.mem_cons_self ..⟩
      · intro _
        exact ⟨0, l, is, hhandler, hcode⟩
    | some t =>
      have hstep : s.step act = { t with handler := some is } := by simp [Cpu.step, hhandler, hrun]
      obtain ⟨hs', h'⟩ := holds_handler h hhandler hrun
      have hfree : ∀ l ∈ cs, i ≠ .acquire l := by
        rintro l hl rfl
        have hnone : s.run act .handler (.acquire l) = none :=
          run_eq_none_iff.mpr ⟨l, rfl, by rw [(h.code.iff l).mpr hl]; rfl⟩
        rw [hnone] at hrun
        cases hrun
      have hnot : ¬ s.Waits := by
        intro h
        obtain ⟨l, rest, hwaits, hheld⟩ := h
        rw [hhandler] at hwaits
        cases hwaits
        exact hfree l ((h.code.iff l).mp hheld) rfl
      rw [waits_step hnot, hstep, ih h' rfl]
      refine ⟨?_, ?_⟩
      · intro h
        obtain ⟨l, hl, hmem⟩ := h
        exact ⟨l, hl, List.mem_cons_of_mem _ hmem⟩
      · intro h
        obtain ⟨l, hl, hmem⟩ := h
        rcases List.mem_cons.mp hmem with heq | hmem
        · exact absurd heq.symm (hfree l hl)
        · exact ⟨l, hl, hmem⟩

end

end Spinlock
