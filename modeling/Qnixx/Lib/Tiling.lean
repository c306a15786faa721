import Mathlib.Algebra.Group.Nat.Defs
import Mathlib.Data.List.Chain
import Mathlib.Tactic.Common

/- Areas cut into pieces without a gap. One list holds the pieces of all areas,
   each area in order and closed by a last piece; the area behind a last piece
   may start anywhere. Cutting a piece in two and joining two neighbours keep
   the areas: where they start, where they end and how long they are. -/
namespace Tiling

/-- The addresses from `start` on, below `stop`. -/
structure Piece where
  start : Nat
  stop : Nat
  last : Bool

def Piece.Has (p : Piece) (x : Nat) : Prop := p.start ≤ x ∧ x < p.stop

def Piece.Apart (p q : Piece) : Prop := p.stop ≤ q.start ∨ q.stop ≤ p.start

/-- `q` comes right behind `p`, unless `p` closes its area. -/
def Piece.Meets (p q : Piece) : Prop := p.last = false → q.start = p.stop

/-- How long the area is from the first piece on, without its last piece. -/
def span : List Piece → Nat
  | [] => 0
  | p :: ps => if p.last then 0 else p.stop - p.start + span ps

/-- Pieces that tile areas of at most `limit`. -/
structure Tiled (limit : Nat) (ps : List Piece) : Prop where
  pos : ∀ p ∈ ps, p.start < p.stop
  meets : ps.IsChain Piece.Meets
  closed : ∀ p ∈ ps.getLast?, p.last = true
  apart : ps.Pairwise Piece.Apart
  spans : ∀ s, s <:+ ps → span s ≤ limit

theorem Piece.Apart.symm {p q : Piece} (h : p.Apart q) : q.Apart p := Or.symm h

theorem span_append_mono {ps qs : List Piece} (h : span ps ≤ span qs) (pre : List Piece) :
    span (pre ++ ps) ≤ span (pre ++ qs) := by
  induction pre with
  | nil => exact h
  | cons p pre ih =>
    rw [List.cons_append, List.cons_append, span, span]
    split
    · exact Nat.le_refl _
    · omega

/-- A suffix of a concatenation is one of the second part, or reaches into the
    first. -/
theorem suffix_append_cases {α : Type} {s pre ps : List α} (h : s <:+ pre ++ ps) :
    s <:+ ps ∨ ∃ s', s' <:+ pre ∧ s = s' ++ ps := by
  obtain ⟨r, hr⟩ := h
  rcases List.append_eq_append_iff.mp hr with ⟨as, rfl, rfl⟩ | ⟨cs, rfl, rfl⟩
  · exact .inr ⟨as, ⟨r, rfl⟩, rfl⟩
  · exact .inl ⟨cs, rfl⟩

theorem spans_mono {limit : Nat} {pre ps qs : List Piece} (h : span qs ≤ span ps)
    (hps : ∀ s, s <:+ pre ++ ps → span s ≤ limit) (hqs : ∀ s, s <:+ qs → span s ≤ limit) :
    ∀ s, s <:+ pre ++ qs → span s ≤ limit := by
  intro s hs
  rcases suffix_append_cases hs with hq | ⟨s', ⟨r, rfl⟩, rfl⟩
  · exact hqs s hq
  · refine Nat.le_trans (span_append_mono h s') (hps _ ⟨r, ?_⟩)
    simp

section
variable {limit : Nat} {pre post : List Piece} {p q : Piece}

/-- A piece that is not last has the next one right behind it. -/
theorem Tiled.next (h : Tiled limit (pre ++ p :: post)) (hp : p.last = false) :
    ∃ n rest, post = n :: rest ∧ n.start = p.stop := by
  cases post with
  | nil =>
    have hlast := h.closed p (by simp)
    rw [hp] at hlast
    cases hlast
  | cons n rest =>
    have hchain := (List.isChain_append.mp h.meets).2.1
    exact ⟨n, rest, rfl, (List.isChain_cons_cons.mp hchain).1 hp⟩

theorem Tiled.length_le (h : Tiled limit (pre ++ p :: post)) (hp : p.last = false) : p.stop - p.start ≤ limit := by
  have hspan := h.spans (p :: post) ⟨pre, rfl⟩
  rw [span, if_neg (by rw [hp]; decide)] at hspan
  omega

/-- Every other piece is apart. -/
theorem Tiled.apart_of_mem (h : Tiled limit (pre ++ p :: post)) {r : Piece} (hr : r ∈ pre ++ post) : p.Apart r := by
  obtain ⟨-, hpost, hcross⟩ := List.pairwise_append.mp h.apart
  rcases List.mem_append.mp hr with hr | hr
  · exact (hcross r hr p List.mem_cons_self).symm
  · exact (List.pairwise_cons.mp hpost).1 r hr

/-- The second of two neighbours starts where the first stops. -/
theorem Tiled.start_eq (h : Tiled limit (pre ++ p :: q :: post)) (hp : p.last = false) : q.start = p.stop := by
  obtain ⟨n, rest, heq, hn⟩ := h.next hp
  obtain ⟨rfl, rfl⟩ := List.cons.inj heq
  exact hn

/-- A piece is cut in two; the first part may close an area. -/
theorem Tiled.cut (h : Tiled limit (pre ++ p :: post)) (hp : p.last = false) {k : Nat} (hlow : p.start < k)
    (hhigh : k < p.stop) (last : Bool) : Tiled limit (pre ++ ⟨p.start, k, last⟩ :: ⟨k, p.stop, false⟩ :: post) := by
  obtain ⟨n, rest, rfl, hn⟩ := h.next hp
  obtain ⟨hpre, hchain, hseam⟩ := List.isChain_append.mp h.meets
  obtain ⟨hprePair, hpair, hcross⟩ := List.pairwise_append.mp h.apart
  obtain ⟨hphead, hrest⟩ := List.pairwise_cons.mp hpair
  -- a piece apart from the whole is apart from both parts
  have hparts : ∀ r : Piece, p.Apart r → (Piece.mk p.start k last).Apart r ∧ (Piece.mk k p.stop false).Apart r := by
    intro r hr
    rcases hr with hr | hr
    · exact ⟨.inl (by show k ≤ _; omega), .inl hr⟩
    · exact ⟨.inr hr, .inr (by show _ ≤ k; omega)⟩
  have hspan : span (⟨p.start, k, last⟩ :: ⟨k, p.stop, false⟩ :: n :: rest) ≤ span (p :: n :: rest) := by
    cases last with
    | true => exact Nat.zero_le _
    | false =>
      simp only [span, hp, if_false, Bool.false_eq_true]
      omega
  refine ⟨?_, ?_, ?_, ?_, ?_⟩
  · intro r hr
    simp only [List.mem_append, List.mem_cons] at hr
    rcases hr with hr | rfl | rfl | hr
    · exact h.pos r (by simp [hr])
    · exact hlow
    · exact hhigh
    · exact h.pos r (by simp [hr])
  · refine List.isChain_append.mpr ⟨hpre, ?_, ?_⟩
    · exact List.isChain_cons_cons.mpr ⟨fun _ => rfl,
        List.isChain_cons_cons.mpr ⟨fun _ => hn, (List.isChain_cons_cons.mp hchain).2⟩⟩
    · intro x hx y hy hlast
      obtain rfl := Option.some.inj hy
      exact hseam x hx p rfl hlast
  · intro r hr
    apply h.closed r
    simpa [List.getLast?_cons_cons, List.getLast?_append] using hr
  · refine List.pairwise_append.mpr ⟨hprePair, ?_, ?_⟩
    · refine List.pairwise_cons.mpr ⟨?_, List.pairwise_cons.mpr ⟨?_, hrest⟩⟩
      · intro r hr
        rcases List.mem_cons.mp hr with rfl | hr
        · exact .inl (Nat.le_refl k)
        · exact (hparts r (hphead r hr)).1
      · intro r hr
        exact (hparts r (hphead r hr)).2
    · intro x hx y hy
      have hxp := (hcross x hx p List.mem_cons_self).symm
      simp only [List.mem_cons] at hy
      rcases hy with rfl | rfl | hy
      · exact (hparts x hxp).1.symm
      · exact (hparts x hxp).2.symm
      · exact hcross x hx y (by simp [hy])
  · refine spans_mono hspan h.spans ?_
    intro s hs
    have hwhole : span (p :: n :: rest) ≤ limit := h.spans _ ⟨pre, rfl⟩
    rcases List.suffix_cons_iff.mp hs with rfl | hs
    · exact Nat.le_trans hspan hwhole
    · rcases List.suffix_cons_iff.mp hs with rfl | hs
      · simp only [span, hp, if_false, Bool.false_eq_true] at hwhole ⊢
        omega
      · obtain ⟨r, hr⟩ := hs
        exact h.spans s ⟨pre ++ p :: r, by rw [← hr]; simp⟩

/-- Two neighbours are joined. -/
theorem Tiled.join (h : Tiled limit (pre ++ p :: q :: post)) (hp : p.last = false) (hq : q.last = false) :
    Tiled limit (pre ++ ⟨p.start, q.stop, false⟩ :: post) := by
  have hqstart := h.start_eq hp
  have hqnext : ∃ n rest, post = n :: rest ∧ n.start = q.stop := by
    have hassoc : pre ++ p :: q :: post = (pre ++ [p]) ++ q :: post := by simp
    rw [hassoc] at h
    exact h.next hq
  obtain ⟨n, rest, rfl, hn⟩ := hqnext
  have hppos := h.pos p (by simp)
  have hqpos := h.pos q (by simp)
  obtain ⟨hpre, hchain, hseam⟩ := List.isChain_append.mp h.meets
  obtain ⟨hprePair, hpair, hcross⟩ := List.pairwise_append.mp h.apart
  obtain ⟨hphead, hqpair⟩ := List.pairwise_cons.mp hpair
  obtain ⟨hqhead, hrest⟩ := List.pairwise_cons.mp hqpair
  -- a piece that fits between the two would be empty
  have hwhole : ∀ r : Piece, r.start < r.stop → p.Apart r → q.Apart r → (Piece.mk p.start q.stop false).Apart r := by
    intro r hr h1 h2
    simp only [Piece.Apart] at h1 h2 ⊢
    omega
  have hspan : span (⟨p.start, q.stop, false⟩ :: n :: rest) = span (p :: q :: n :: rest) := by
    simp only [span, hp, hq, if_false, Bool.false_eq_true]
    omega
  refine ⟨?_, ?_, ?_, ?_, ?_⟩
  · intro r hr
    simp only [List.mem_append, List.mem_cons] at hr
    rcases hr with hr | rfl | hr
    · exact h.pos r (by simp [hr])
    · show p.start < q.stop
      omega
    · exact h.pos r (by simp [hr])
  · refine List.isChain_append.mpr ⟨hpre, ?_, ?_⟩
    · have hrestChain := (List.isChain_cons_cons.mp (List.isChain_cons_cons.mp hchain).2).2
      exact List.isChain_cons_cons.mpr ⟨fun _ => hn, hrestChain⟩
    · intro x hx y hy hlast
      obtain rfl := Option.some.inj hy
      exact hseam x hx p rfl hlast
  · intro r hr
    apply h.closed r
    simpa [List.getLast?_cons_cons, List.getLast?_append] using hr
  · refine List.pairwise_append.mpr ⟨hprePair, List.pairwise_cons.mpr ⟨?_, hrest⟩, ?_⟩
    · intro r hr
      exact hwhole r (h.pos r (by simp [List.mem_cons.mp hr])) (hphead r (List.mem_cons_of_mem q hr)) (hqhead r hr)
    · intro x hx y hy
      rcases List.mem_cons.mp hy with rfl | hy
      · exact (hwhole x (h.pos x (by simp [hx])) (hcross x hx p (by simp)).symm (hcross x hx q (by simp)).symm).symm
      · exact hcross x hx y (by simp [List.mem_cons.mp hy])
  · refine spans_mono (Nat.le_of_eq hspan) h.spans ?_
    intro s hs
    rcases List.suffix_cons_iff.mp hs with rfl | ⟨r, hr⟩
    · rw [hspan]
      exact h.spans _ ⟨pre, rfl⟩
    · exact h.spans s ⟨pre ++ p :: q :: r, by rw [← hr]; simp⟩

/-- A new area: one piece and the last one behind it. -/
theorem Tiled.add {ps : List Piece} (h : Tiled limit ps) (hp : p.last = false) (hq : q.last = true)
    (hmeet : q.start = p.stop) (hppos : p.start < p.stop) (hqpos : q.start < q.stop) (hlimit : p.stop - p.start ≤ limit)
    (hapart : ∀ r ∈ ps, p.Apart r ∧ q.Apart r) : Tiled limit (p :: q :: ps) := by
  refine ⟨?_, ?_, ?_, ?_, ?_⟩
  · intro r hr
    simp only [List.mem_cons] at hr
    rcases hr with rfl | rfl | hr
    · exact hppos
    · exact hqpos
    · exact h.pos r hr
  · refine List.isChain_cons_cons.mpr ⟨fun _ => hmeet, ?_⟩
    refine List.isChain_cons.mpr ⟨?_, h.meets⟩
    intro y _ hlast
    rw [hq] at hlast
    cases hlast
  · intro r hr
    rw [List.getLast?_cons_cons, List.getLast?_cons] at hr
    cases hlast : ps.getLast? with
    | none =>
      rw [hlast] at hr
      obtain rfl := Option.some.inj hr
      exact hq
    | some z =>
      rw [hlast] at hr
      obtain rfl := Option.some.inj hr
      exact h.closed z hlast
  · refine List.pairwise_cons.mpr ⟨?_, List.pairwise_cons.mpr ⟨fun r hr => (hapart r hr).2, h.apart⟩⟩
    intro r hr
    rcases List.mem_cons.mp hr with rfl | hr
    · exact .inl (by omega)
    · exact (hapart r hr).1
  · intro s hs
    rcases List.suffix_cons_iff.mp hs with rfl | hs
    · simp only [span, hp, hq, if_true, if_false, Bool.false_eq_true]
      omega
    · rcases List.suffix_cons_iff.mp hs with rfl | hs
      · simp only [span, hq, if_true]
        exact Nat.zero_le _
      · exact h.spans s hs

/-! Where the areas are. -/

/-- Start and end of every area. -/
def areas : List Piece → List (Nat × Nat)
  | [] => []
  | p :: ps =>
    if p.last then (p.start, p.stop) :: areas ps
    else match areas ps with
      | [] => [(p.start, p.stop)]
      | (_, stop) :: rest => (p.start, stop) :: rest

theorem areas_append_congr {ps qs : List Piece} (h : areas ps = areas qs) (pre : List Piece) :
    areas (pre ++ ps) = areas (pre ++ qs) := by
  induction pre with
  | nil => exact h
  | cons p pre ih => rw [List.cons_append, List.cons_append, areas, areas, ih]

/-- Two neighbours are in one area. -/
theorem areas_join (hp : p.last = false) (hq : q.last = false) :
    areas (p :: q :: post) = areas (⟨p.start, q.stop, false⟩ :: post) := by
  rw [areas, areas, areas, hp, hq]
  cases areas post with
  | nil => rfl
  | cons a as => rfl

theorem tiled_nil : Tiled limit [] := by
  refine ⟨?_, List.isChain_nil, ?_, List.Pairwise.nil, ?_⟩
  · intro p hp
    cases hp
  · intro p hp
    cases hp
  · intro s hs
    rw [List.suffix_nil.mp hs]
    exact Nat.zero_le _

end

section
variable {limit : Nat} {p : Piece} {ps : List Piece}

/-- The piece behind the first one. -/
theorem Tiled.next_head (h : Tiled limit (p :: ps)) (hp : p.last = false) :
    ∃ n rest, ps = n :: rest ∧ n.start = p.stop := by
  have h' : Tiled limit ([] ++ p :: ps) := h
  exact h'.next hp

theorem Tiled.start_eq_head {q : Piece} (h : Tiled limit (p :: q :: ps)) (hp : p.last = false) : q.start = p.stop := by
  obtain ⟨n, rest, heq, hmeet⟩ := h.next_head hp
  obtain ⟨rfl, rfl⟩ := List.cons.inj heq
  exact hmeet

theorem Tiled.tail (h : Tiled limit (p :: ps)) : Tiled limit ps := by
  refine ⟨fun q hq => h.pos q (List.mem_cons_of_mem _ hq), ?_, ?_, (List.pairwise_cons.mp h.apart).2, ?_⟩
  · cases ps with
    | nil => exact List.isChain_nil
    | cons q ps => exact (List.isChain_cons_cons.mp h.meets).2
  · cases ps with
    | nil =>
      intro q hq
      cases hq
    | cons r ps =>
      intro q hq
      exact h.closed q (by rwa [List.getLast?_cons_cons])
  · intro s hs
    exact h.spans s (hs.trans (List.suffix_cons _ _))

/-- The first area starts with the first piece. -/
theorem areas_cons (p : Piece) (ps : List Piece) :
    ∃ z rest, areas (p :: ps) = (p.start, z) :: rest ∧ (p.last = true → z = p.stop) := by
  rw [areas]
  split
  · exact ⟨p.stop, areas ps, rfl, fun _ => rfl⟩
  · next hlast =>
    cases areas ps with
    | nil => exact ⟨p.stop, [], rfl, fun _ => rfl⟩
    | cons a as => exact ⟨a.2, as, rfl, fun hl => absurd hl hlast⟩

/-- With one more piece in front, that does not close its area, the first area
    starts earlier. -/
theorem areas_cons_open {q : Piece} (hp : p.last = false) {z : Nat} {rest : List (Nat × Nat)}
    (h : areas (q :: ps) = (q.start, z) :: rest) : areas (p :: q :: ps) = (p.start, z) :: rest := by
  rw [areas, hp, h]
  rfl

end

section
variable {α : Type} {f : α → Piece} {limit : Nat}

/-- Every place of an area is in one of its pieces. The piece, and the one behind
    it, end the area if they are the last. -/
theorem Tiled.find {bs : List α} (h : Tiled limit (bs.map f)) {a z x : Nat} (harea : (a, z) ∈ areas (bs.map f))
    (hlo : a ≤ x) (hhi : x < z) :
    ∃ pre b post, bs = pre ++ b :: post ∧ (f b).Has x ∧ ((f b).last = true → (f b).stop = z) ∧
      ((f b).last = false → ∃ n rest, post = n :: rest ∧ ((f n).last = true → (f n).stop = z)) := by
  induction bs generalizing a z with
  | nil => cases harea
  | cons b bs ih =>
    rw [List.map_cons] at h harea
    cases hlast : (f b).last with
    | true =>
      rw [areas, hlast, if_pos rfl, List.mem_cons, Prod.mk.injEq] at harea
      rcases harea with ⟨rfl, rfl⟩ | hmem
      · exact ⟨[], b, bs, rfl, ⟨hlo, hhi⟩, fun _ => rfl, fun hl => absurd (hlast.symm.trans hl) (by decide)⟩
      · obtain ⟨pre, c, post, rfl, hrest⟩ := ih h.tail hmem hlo hhi
        exact ⟨b :: pre, c, post, rfl, hrest⟩
    | false =>
      obtain ⟨n, rest, rfl⟩ : ∃ n rest, bs = n :: rest := by
        obtain ⟨n, rest, heq, -⟩ := h.next_head hlast
        obtain ⟨n', rest', rfl, -, -⟩ := List.map_eq_cons_iff.mp heq
        exact ⟨n', rest', rfl⟩
      have hmeet : (f n).start = (f b).stop := h.start_eq_head hlast
      obtain ⟨z', as, hareas, hnlast⟩ := areas_cons (f n) (rest.map f)
      rw [List.map_cons, areas_cons_open hlast hareas, List.mem_cons, Prod.mk.injEq] at harea
      rcases harea with ⟨rfl, rfl⟩ | hmem
      · by_cases hx : x < (f b).stop
        · exact ⟨[], b, n :: rest, rfl, ⟨hlo, hx⟩, fun hl => absurd (hlast.symm.trans hl) (by decide),
            fun _ => ⟨n, rest, rfl, fun hl => (hnlast hl).symm⟩⟩
        · have hfirst : ((f n).start, z) ∈ areas ((n :: rest).map f) := by
            rw [List.map_cons, hareas]
            exact List.mem_cons_self
          obtain ⟨pre, c, post, heq, hrest⟩ := ih h.tail hfirst (by omega) hhi
          exact ⟨b :: pre, c, post, by rw [heq]; rfl, hrest⟩
      · have hlater : (a, z) ∈ areas ((n :: rest).map f) := by
          rw [List.map_cons, hareas]
          exact List.mem_cons_of_mem _ hmem
        obtain ⟨pre, c, post, heq, hrest⟩ := ih h.tail hlater hlo hhi
        exact ⟨b :: pre, c, post, by rw [heq]; rfl, hrest⟩

/-- Every area but the first starts behind a piece that closes one. -/
theorem areas_tail {bs : List α} {a z : Nat} (h : (a, z) ∈ (areas (bs.map f)).tail) :
    ∃ pre l b post, bs = pre ++ l :: b :: post ∧ (f l).last = true ∧ (f b).start = a := by
  induction bs with
  | nil => cases h
  | cons b bs ih =>
    have hlater : (a, z) ∈ (areas (bs.map f)).tail → ∃ pre l c post, b :: bs = pre ++ l :: c :: post ∧
        (f l).last = true ∧ (f c).start = a := by
      intro hmem
      obtain ⟨pre, l, c, post, rfl, hrest⟩ := ih hmem
      exact ⟨b :: pre, l, c, post, rfl, hrest⟩
    rw [List.map_cons, areas] at h
    split at h
    · next hlast =>
      cases bs with
      | nil => cases h
      | cons n rest =>
        obtain ⟨z', as, hareas, -⟩ := areas_cons (f n) (rest.map f)
        rw [List.map_cons] at hlater
        rw [List.tail_cons, List.map_cons, hareas, List.mem_cons, Prod.mk.injEq] at h
        rcases h with ⟨rfl, -⟩ | hmem
        · exact ⟨[], b, n, rest, rfl, hlast, rfl⟩
        · exact hlater (by rw [hareas]; exact hmem)
    · cases hareas : areas (bs.map f) with
      | nil =>
        rw [hareas] at h
        cases h
      | cons c as =>
        rw [hareas] at h hlater
        exact hlater h

/-- The first area ends with a piece behind the first, or with the first. -/
theorem Tiled.first_area {p : Piece} {ps : List Piece} (h : Tiled limit (p :: ps)) :
    ∃ z rest l, areas (p :: ps) = (p.start, z) :: rest ∧ l ∈ p :: ps ∧ l.last = true ∧ l.stop = z ∧ p.start ≤ l.start ∧
      (p.last = false → p.stop ≤ l.start) ∧ (p.last = true → l = p) := by
  induction ps generalizing p with
  | nil =>
    have hlast : p.last = true := h.closed p rfl
    refine ⟨p.stop, [], p, ?_, List.mem_cons_self, hlast, rfl, Nat.le_refl _, fun hl => absurd (hlast.symm.trans hl) (by decide),
      fun _ => rfl⟩
    rw [areas, if_pos hlast]
    rfl
  | cons n rest ih =>
    obtain ⟨z, as, l, hareas, hl, hllast, hlstop, hlstart, -⟩ := ih h.tail
    cases hlast : p.last with
    | true =>
      refine ⟨p.stop, areas (n :: rest), p, ?_, List.mem_cons_self, hlast, rfl, Nat.le_refl _, fun hl => absurd hl (by decide),
        fun _ => rfl⟩
      rw [areas, if_pos hlast]
    | false =>
      have hmeet : n.start = p.stop := h.start_eq_head hlast
      have hpos := h.pos p List.mem_cons_self
      exact ⟨z, as, l, areas_cons_open hlast hareas, List.mem_cons_of_mem _ hl, hllast, hlstop, by omega, fun _ => by omega,
        fun hl => absurd hl (by decide)⟩

/-- A piece is in front of one that closes its area, or closes it. -/
theorem Tiled.inside {ps : List Piece} (h : Tiled limit ps) {p : Piece} (hp : p ∈ ps) :
    ∃ a z l, (a, z) ∈ areas ps ∧ a ≤ p.start ∧ l ∈ ps ∧ l.last = true ∧ l.stop = z ∧
      (p.last = false → p.stop ≤ l.start) ∧ (p.last = true → l = p) := by
  induction ps with
  | nil => cases hp
  | cons q ps ih =>
    rcases List.mem_cons.mp hp with rfl | hp
    · obtain ⟨z, as, l, hareas, hl, hllast, hlstop, -, hends⟩ := h.first_area
      refine ⟨p.start, z, l, ?_, Nat.le_refl _, hl, hllast, hlstop, hends⟩
      rw [hareas]
      exact List.mem_cons_self
    · obtain ⟨a, z, l, hmem, hstart, hl, hllast, hlstop, hends⟩ := ih h.tail hp
      cases hq : q.last with
      | true =>
        refine ⟨a, z, l, ?_, hstart, List.mem_cons_of_mem _ hl, hllast, hlstop, hends⟩
        rw [areas, if_pos hq]
        exact List.mem_cons_of_mem _ hmem
      | false =>
        obtain ⟨n, rest, rfl, hmeet⟩ := h.next_head hq
        have hpos := h.pos q List.mem_cons_self
        obtain ⟨z', as, hareas, -⟩ := areas_cons n rest
        rw [hareas, List.mem_cons, Prod.mk.injEq] at hmem
        rcases hmem with ⟨rfl, rfl⟩ | hmem
        · refine ⟨q.start, z, l, ?_, by omega, List.mem_cons_of_mem _ hl, hllast, hlstop, hends⟩
          rw [areas_cons_open hq hareas]
          exact List.mem_cons_self
        · refine ⟨a, z, l, ?_, hstart, List.mem_cons_of_mem _ hl, hllast, hlstop, hends⟩
          rw [areas_cons_open hq hareas]
          exact List.mem_cons_of_mem _ hmem

/-- Every piece is in an area. -/
theorem Tiled.covered {ps : List Piece} (h : Tiled limit ps) {p : Piece} (hp : p ∈ ps) :
    ∃ q ∈ areas ps, q.1 ≤ p.start ∧ p.stop ≤ q.2 := by
  obtain ⟨a, z, l, hmem, hstart, hl, -, hlstop, hopen, hclose⟩ := h.inside hp
  have hlpos := h.pos l hl
  refine ⟨(a, z), hmem, hstart, ?_⟩
  show p.stop ≤ z
  cases hlast : p.last with
  | true =>
    rw [← hlstop, hclose hlast]
  | false =>
    have := hopen hlast
    omega

end

end Tiling
