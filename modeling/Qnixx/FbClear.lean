import Mathlib.Algebra.Group.Nat.Defs
import Qnixx.Console

/- Clearing the screen (`dev/video/fb.c`). `framebuffer_putpix` finds a pixel by
   the pitch of the framebuffer, `framebuffer_clear` writes as many words as
   there are pixels, one after another. Where the rows are padded these are not
   the same words: the end of the screen is not cleared. -/
namespace Qnixx

/-- The words of the framebuffer, and which of them were written. -/
structure FbWords where
  word : Nat → BitVec 32
  written : List Nat

/-- `ptr[i] = color`. -/
def FbWords.store (w : FbWords) (i : Nat) (color : BitVec 32) : FbWords where
  word := fun j => if j = i then color else w.word j
  written := w.written ++ [i]

@[simp] theorem FbWords.store_word (w : FbWords) (i : Nat) (color : BitVec 32) (j : Nat) :
    (w.store i color).word j = if j = i then color else w.word j := rfl

@[simp] theorem FbWords.store_written (w : FbWords) (i : Nat) (color : BitVec 32) :
    (w.store i color).written = w.written ++ [i] := rfl

def framebufferPutpix (fb : Framebuffer) (x y : Nat) (color : BitVec 32) (w : FbWords) : FbWords :=
  w.store (framebufferGetIndex fb x y) color

/-- The loop of `framebuffer_clear` with so many turns to go. -/
def clearLoop (color : BitVec 32) : Nat → Nat → FbWords → FbWords
  | 0, _, w => w
  | turns + 1, i, w => clearLoop color turns (i + 1) (w.store i color)

def framebufferClear (fb : Framebuffer) (color : BitVec 32) (w : FbWords) : FbWords :=
  clearLoop color (fb.width * fb.height % 2^64) 0 w

theorem clearLoop_word (color : BitVec 32) (turns : Nat) : ∀ (i : Nat) (w : FbWords) (j : Nat),
    (clearLoop color turns i w).word j = if i ≤ j ∧ j < i + turns then color else w.word j := by
  induction turns with
  | zero =>
    intro i w j
    rw [clearLoop, if_neg (by omega)]
  | succ turns ih =>
    intro i w j
    rw [clearLoop, ih, FbWords.store_word]
    by_cases hrest : i + 1 ≤ j ∧ j < i + 1 + turns
    · rw [if_pos hrest, if_pos (by omega)]
    · rw [if_neg hrest]
      by_cases hj : j = i
      · rw [if_pos hj, if_pos (by omega)]
      · rw [if_neg hj, if_neg (by omega)]

theorem clearLoop_written (color : BitVec 32) (turns : Nat) : ∀ (i : Nat) (w : FbWords) (j : Nat),
    j ∈ (clearLoop color turns i w).written ↔ j ∈ w.written ∨ (i ≤ j ∧ j < i + turns) := by
  induction turns with
  | zero =>
    intro i w j
    exact (or_iff_left (by omega)).symm
  | succ turns ih =>
    intro i w j
    rw [clearLoop, ih, FbWords.store_written, List.mem_append, List.mem_singleton, or_assoc]
    exact or_congr Iff.rfl (by omega)

section
variable {fb : Framebuffer}

/-- The pixels are fewer than the words of the framebuffer. -/
theorem pixels_le (hpitch : 4 * fb.width ≤ fb.pitch) : fb.width * fb.height ≤ fb.pitch / 4 * fb.height :=
  Nat.mul_le_mul_right _ (by omega)

theorem words_lt (hsize : fb.pitch * fb.height < 2^32) : fb.pitch / 4 * fb.height < 2^32 :=
  Nat.lt_of_le_of_lt (Nat.mul_le_mul_right _ (Nat.div_le_self _ _)) hsize

/-- A pixel of the screen is one of these words. -/
theorem index_lt (hpitch : 4 * fb.width ≤ fb.pitch) {x y : Nat} (hx : x < fb.width) (hy : y < fb.height) :
    x + y * (fb.pitch / 4) < fb.pitch / 4 * fb.height := by
  have hrow : x < fb.pitch / 4 := by omega
  calc x + y * (fb.pitch / 4) < fb.pitch / 4 + y * (fb.pitch / 4) := Nat.add_lt_add_right hrow _
    _ = fb.pitch / 4 * (y + 1) := by rw [Nat.mul_succ, Nat.mul_comm, Nat.add_comm]
    _ ≤ fb.pitch / 4 * fb.height := Nat.mul_le_mul_left _ hy

theorem getIndex_eq (hpitch : 4 * fb.width ≤ fb.pitch) (hsize : fb.pitch * fb.height < 2^32) {x y : Nat}
    (hx : x < fb.width) (hy : y < fb.height) : framebufferGetIndex fb x y = x + y * (fb.pitch / 4) :=
  Nat.mod_eq_of_lt (Nat.lt_trans (index_lt hpitch hx hy) (words_lt hsize))

theorem clear_turns (hpitch : 4 * fb.width ≤ fb.pitch) (hsize : fb.pitch * fb.height < 2^32) :
    fb.width * fb.height % 2^64 = fb.width * fb.height := by
  have hle := pixels_le hpitch
  have hlt := words_lt hsize
  omega

/-- Which words a clear writes. -/
theorem framebufferClear_word (hpitch : 4 * fb.width ≤ fb.pitch) (hsize : fb.pitch * fb.height < 2^32)
    (color : BitVec 32) (w : FbWords) (j : Nat) :
    (framebufferClear fb color w).word j = if j < fb.width * fb.height then color else w.word j := by
  rw [framebufferClear, clear_turns hpitch hsize, clearLoop_word]
  simp only [Nat.zero_le, Nat.zero_add, true_and]

/-- All words that were written are of the framebuffer. -/
def FbWords.Inside (w : FbWords) (fb : Framebuffer) : Prop := ∀ i ∈ w.written, i < fb.pitch / 4 * fb.height

theorem clear_inside (hpitch : 4 * fb.width ≤ fb.pitch) (hsize : fb.pitch * fb.height < 2^32)
    (color : BitVec 32) {w : FbWords} (h : w.Inside fb) : (framebufferClear fb color w).Inside fb := by
  intro i hi
  rw [framebufferClear, clear_turns hpitch hsize, clearLoop_written] at hi
  have hle := pixels_le hpitch
  rcases hi with hi | hi
  · exact h i hi
  · omega

theorem putpix_inside (hpitch : 4 * fb.width ≤ fb.pitch) (hsize : fb.pitch * fb.height < 2^32) {x y : Nat}
    (hx : x < fb.width) (hy : y < fb.height) (color : BitVec 32) {w : FbWords} (h : w.Inside fb) :
    (framebufferPutpix fb x y color w).Inside fb := by
  intro i hi
  rw [framebufferPutpix, FbWords.store_written, List.mem_append, List.mem_singleton,
    getIndex_eq hpitch hsize hx hy] at hi
  rcases hi with hi | rfl
  · exact h i hi
  · exact index_lt hpitch hx hy

/-- A write of the console. -/
def FbWrite.apply (fb : Framebuffer) : FbWords → FbWrite → FbWords
  | w, putpix x y color => framebufferPutpix fb x y color w
  | w, clear color => framebufferClear fb color w

/-- What the console writes stays in the framebuffer when it is on the screen. -/
theorem writes_inside (hpitch : 4 * fb.width ≤ fb.pitch) (hsize : fb.pitch * fb.height < 2^32)
    (writes : List FbWrite) : ∀ {w : FbWords}, OnScreen fb writes → w.Inside fb →
    (writes.foldl (FbWrite.apply fb) w).Inside fb := by
  induction writes with
  | nil => exact fun _ h => h
  | cons write writes ih =>
    intro w hon h
    have hrest : OnScreen fb writes := fun x y color hw => hon x y color (List.mem_cons_of_mem _ hw)
    rw [List.foldl_cons]
    apply ih hrest
    cases write with
    | putpix x y color =>
      obtain ⟨hx, hy⟩ := hon x y color List.mem_cons_self
      exact putpix_inside hpitch hsize hx hy color h
    | clear color => exact clear_inside hpitch hsize color h

/-- In a padded framebuffer the last pixel is behind what is cleared. -/
theorem last_pixel_behind (hpitch : 4 * fb.width < fb.pitch) (h4 : fb.pitch % 4 = 0) (hheight : 1 < fb.height) :
    fb.width * fb.height ≤ fb.width - 1 + (fb.height - 1) * (fb.pitch / 4) := by
  obtain ⟨rows, hrows⟩ : ∃ rows, fb.height = rows + 1 := ⟨fb.height - 1, by omega⟩
  have hrow : rows * (fb.width + 1) ≤ rows * (fb.pitch / 4) := Nat.mul_le_mul_left _ (by omega)
  rw [Nat.mul_succ] at hrow
  rw [hrows, Nat.mul_succ, Nat.add_sub_cancel, Nat.mul_comm fb.width]
  omega

end

/-- The property of one geometry: every visible pixel is cleared, whatever it
    was, and nothing behind the framebuffer is written. -/
def ClearsScreen (fb : Framebuffer) : Prop :=
  ∀ (color : BitVec 32) (word : Nat → BitVec 32),
    (∀ x y, x < fb.width → y < fb.height →
      (framebufferClear fb color ⟨word, []⟩).word (framebufferGetIndex fb x y) = color) ∧
    (framebufferClear fb color ⟨word, []⟩).Inside fb

/-- The screen is cleared just when it has no rows of pixels to skip padding
    between. -/
theorem framebufferClear_iff (fb : Framebuffer) (h4 : fb.pitch % 4 = 0) (hpitch : 4 * fb.width ≤ fb.pitch)
    (hsize : fb.pitch * fb.height < 2^32) :
    ClearsScreen fb ↔ fb.width = 0 ∨ fb.height ≤ 1 ∨ fb.pitch = 4 * fb.width := by
  refine ⟨?_, ?_⟩
  · intro h
    apply Classical.byContradiction
    intro hpadded
    have hx : fb.width - 1 < fb.width := by omega
    have hy : fb.height - 1 < fb.height := by omega
    have hlast := (h 0 (fun _ => 1)).1 _ _ hx hy
    have hbehind := last_pixel_behind (by omega) h4 (by omega : 1 < fb.height)
    rw [framebufferClear_word hpitch hsize, getIndex_eq hpitch hsize hx hy, if_neg (by omega)] at hlast
    exact absurd hlast (show (1 : BitVec 32) ≠ 0 by decide)
  · intro hgeometry color word
    refine ⟨?_, clear_inside hpitch hsize color nofun⟩
    intro x y hx hy
    rw [framebufferClear_word hpitch hsize, getIndex_eq hpitch hsize hx hy, if_pos]
    rcases hgeometry with hwidth | hheight | hfull
    · omega
    · have hfirst : y = 0 := by omega
      have hone : fb.height = 1 := by omega
      rw [hfirst, hone]
      omega
    · have hwords : fb.pitch / 4 = fb.width := by omega
      have hlt := index_lt hpitch hx hy
      rwa [hwords] at hlt ⊢

theorem framebufferClear_vga : ClearsScreen ⟨640, 480, 2560⟩ :=
  (framebufferClear_iff ⟨640, 480, 2560⟩ (by decide) (by decide) (by decide)).mpr (.inr (.inr rfl))

/-- One pixel a row and one word of padding: the second row stays. -/
theorem framebufferClear_padded : ¬ ClearsScreen ⟨1, 2, 8⟩ := by
  intro h
  exact absurd ((h 0 (fun _ => 1)).1 0 1 (by decide) (by decide)) (by decide)

end Qnixx
