import Mathlib.Tactic.Common

/- Runs of a partial step function. `exec` plays a list of operations from a
   state and is `none` as soon as one step is refused; `Meets` says that every
   step of a run satisfies a condition on the state before it. A property of
   all runs is proved by one step lemma and `exec_inv` (or `exec_inv_of`, when
   the step lemma needs the condition); `exec_iff_meets` is for conditions that
   are exact. -/
namespace Runs

variable {S O : Type}

def exec (step : S → O → Option S) : S → List O → Option S
  | s, [] => some s
  | s, o :: os => (step s o).bind (fun t => exec step t os)

/-- Every step of the run satisfies `C` in the state it starts from. -/
def Meets (step : S → O → Option S) (C : S → O → Prop) : S → List O → Prop
  | _, [] => True
  | s, o :: os => C s o ∧ ∀ t, step s o = some t → Meets step C t os

section
variable {step : S → O → Option S}

instance decidableMeets {C : S → O → Prop} [∀ s o, Decidable (C s o)] :
    ∀ (os : List O) (s : S), Decidable (Meets step C s os)
  | [], _ => isTrue trivial
  | o :: os, s =>
    have (t : S) : Decidable (Meets step C t os) := decidableMeets os t
    inferInstanceAs (Decidable (C s o ∧ ∀ t ∈ step s o, Meets step C t os))

theorem exec_cons {s t : S} {o : O} {os : List O} :
    exec step s (o :: os) = some t ↔ ∃ u, step s o = some u ∧ exec step u os = some t := by
  simp only [exec, Option.bind_eq_some_iff]

theorem exec_append {os os' : List O} {s t : S} :
    exec step s (os ++ os') = some t ↔ ∃ u, exec step s os = some u ∧ exec step u os' = some t := by
  induction os generalizing s with
  | nil => simp [exec]
  | cons o os ih =>
    rw [List.cons_append, exec_cons]
    refine ⟨?_, ?_⟩
    · intro h
      obtain ⟨u, hu, h⟩ := h
      obtain ⟨v, hv, hv'⟩ := ih.mp h
      exact ⟨v, exec_cons.mpr ⟨u, hu, hv⟩, hv'⟩
    · intro h
      obtain ⟨v, h, hv'⟩ := h
      obtain ⟨u, hu, hv⟩ := exec_cons.mp h
      exact ⟨u, hu, ih.mpr ⟨v, hv, hv'⟩⟩

/-- What every step that meets `C` preserves holds at the end of every run
    whose steps meet `C`. -/
theorem exec_inv_of {P : S → Prop} {C : S → O → Prop}
    (hstep : ∀ s o t, P s → C s o → step s o = some t → P t) {os : List O} {s t : S}
    (hs : P s) (hc : Meets step C s os) (h : exec step s os = some t) : P t := by
  induction os generalizing s with
  | nil =>
    simp only [exec, Option.some.injEq] at h
    exact h ▸ hs
  | cons o os ih =>
    obtain ⟨u, hu, hrest⟩ := exec_cons.mp h
    exact ih (hstep s o u hs hc.1 hu) (hc.2 u hu) hrest

/-- The end of a run that meets `C` meets it too. -/
theorem meets_append {C : S → O → Prop} {os os' : List O} {s t : S}
    (h : Meets step C s (os ++ os')) (ht : exec step s os = some t) : Meets step C t os' := by
  induction os generalizing s with
  | nil =>
    simp only [exec, Option.some.injEq] at ht
    exact ht ▸ h
  | cons o os ih =>
    obtain ⟨u, hu, hrest⟩ := exec_cons.mp ht
    exact ih (h.2 u hu) hrest

theorem meets_cons {C : S → O → Prop} {s t : S} {o : O} {os : List O} (h : step s o = some t) :
    Meets step C s (o :: os) ↔ C s o ∧ Meets step C t os := by
  simp only [Meets, h, Option.some.injEq, forall_eq']

theorem meets_true (os : List O) (s : S) : Meets step (fun _ _ => True) s os := by
  induction os generalizing s with
  | nil => exact trivial
  | cons o os ih => exact ⟨trivial, fun t _ => ih t⟩

/-- A condition that follows from `C` under an invariant is met with `C`. -/
theorem meets_of_inv {P : S → Prop} {C C' : S → O → Prop}
    (hstep : ∀ s o t, P s → C s o → step s o = some t → P t) (himp : ∀ s o, P s → C s o → C' s o)
    {os : List O} {s : S} (hs : P s) (h : Meets step C s os) : Meets step C' s os := by
  induction os generalizing s with
  | nil => exact trivial
  | cons o os ih =>
    exact ⟨himp s o hs h.1, fun t ht => ih (hstep s o t hs h.1 ht) (h.2 t ht)⟩

/-- Conditions that are the same under an invariant are met by the same runs. -/
theorem meets_iff_of_inv {P : S → Prop} {C C' : S → O → Prop}
    (hstep : ∀ s o t, P s → C s o → step s o = some t → P t) (hiff : ∀ s o, P s → (C s o ↔ C' s o))
    {os : List O} {s : S} (hs : P s) : Meets step C s os ↔ Meets step C' s os := by
  refine ⟨?_, ?_⟩
  · exact meets_of_inv hstep (fun s o hp => (hiff s o hp).mp) hs
  · intro h
    refine meets_of_inv ?_ (fun s o hp => (hiff s o hp).mpr) hs h
    intro s o t hp hc
    exact hstep s o t hp ((hiff s o hp).mpr hc)

/-- A condition on the operations alone joins one on the steps. -/
theorem meets_mem {C : S → O → Prop} {D : O → Prop} {os : List O} {s : S} (h : Meets step C s os)
    (hd : ∀ o ∈ os, D o) : Meets step (fun s o => C s o ∧ D o) s os := by
  induction os generalizing s with
  | nil => exact trivial
  | cons o os ih =>
    refine ⟨⟨h.1, hd o (by simp)⟩, fun t ht => ih (h.2 t ht) ?_⟩
    intro o' ho'
    exact hd o' (List.mem_cons_of_mem _ ho')

theorem meets_and {C D : S → O → Prop} {os : List O} {s : S} (hc : Meets step C s os)
    (hd : Meets step D s os) : Meets step (fun s o => C s o ∧ D s o) s os := by
  induction os generalizing s with
  | nil => exact trivial
  | cons o os ih => exact ⟨⟨hc.1, hd.1⟩, fun t ht => ih (hc.2 t ht) (hd.2 t ht)⟩

/-- What every step preserves holds at the end of every run. -/
theorem exec_inv {P : S → Prop} (hstep : ∀ s o t, P s → step s o = some t → P t)
    {os : List O} {s t : S} (hs : P s) (h : exec step s os = some t) : P t :=
  exec_inv_of (fun s o t hp _ => hstep s o t hp) hs (meets_true os s) h

/-- When each step keeps `G` exactly if it meets `C`, a run keeps `G` exactly
    if all its steps meet `C`. The step lemma may use an invariant `P` and that
    the operation is one of a kind `D`. -/
theorem exec_iff_meets {P G : S → Prop} {D : O → Prop} {C : S → O → Prop}
    (hinv : ∀ s o t, P s → D o → step s o = some t → P t)
    (hstep : ∀ s o t, P s → D o → step s o = some t → (G t ↔ G s ∧ C s o)) {os : List O} {s t : S}
    (hs : P s) (hd : ∀ o ∈ os, D o) (h : exec step s os = some t) :
    G t ↔ G s ∧ Meets step C s os := by
  induction os generalizing s with
  | nil =>
    simp only [exec, Option.some.injEq] at h
    subst h
    simp only [Meets, and_true]
  | cons o os ih =>
    obtain ⟨u, hu, hrest⟩ := exec_cons.mp h
    have ho := hd o (by simp)
    have htail := ih (hinv s o u hs ho hu) (fun o' ho' => hd o' (List.mem_cons_of_mem _ ho')) hrest
    rw [htail, hstep s o u hs ho hu, meets_cons hu, and_assoc]

end

end Runs
