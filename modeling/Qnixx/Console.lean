import Mathlib.Tactic.Common
import Qnixx.LibKern

/- The console (`tty/console.c`) on the framebuffer (`dev/video/fb.c`). Text goes
   from the cursor to the right until a newline; nothing looks at the width of
   the screen, and a newline looks at its height with room for five rows of
   pixels, where a glyph has sixteen.

   Widths, heights and the pitch are 64-bit numbers of the bootloader; the
   coordinates are `uint32_t`. -/
namespace Qnixx

structure Framebuffer where
  width : Nat
  height : Nat
  pitch : Nat

def fontWidth : Nat := 9
def fontHeight : Nat := 16

def framebufferGetIndex (fb : Framebuffer) (x y : Nat) : Nat := (x + y * (fb.pitch / 4)) % 2^32

def framebufferGetHeight (fb : Framebuffer) : Nat := fb.height % 2^32

/-- What is written to the framebuffer. -/
inductive FbWrite where
  | putpix (x y : Nat) (color : BitVec 32)
  | clear (color : BitVec 32)

structure Console where
  cx : Nat
  cy : Nat
  /-- The writes so far. -/
  writes : List FbWrite

def defaultBg : BitVec 32 := 0x000000
def defaultFg : BitVec 32 := 0x899499

/-- `MAKE_FG_BG`. -/
def makeFgBg (fg bg : BitVec 32) : BitVec 64 := fg ++ bg

/-- `EXTRACT_FG`. -/
def extractFg (color : BitVec 64) : BitVec 32 := (color >>> 32).setWidth 32

/-- `EXTRACT_BG`. -/
def extractBg (color : BitVec 64) : BitVec 32 := color.setWidth 32

/-- The writes of `putch`; `font` is the table of glyphs, one word a column. -/
def putch (font : BitVec 64 → BitVec 16) (x y : Nat) (c : Byte) (bg fg : BitVec 32) : List FbWrite :=
  (List.range fontWidth).flatMap (fun cx => (List.range fontHeight).map (fun cy =>
    let glyph := (c - 32).signExtend 64 * BitVec.ofNat 64 fontWidth + BitVec.ofNat 64 cx
    .putpix ((x + cx) % 2^32) ((y + cy) % 2^32) (if (font glyph).getLsbD cy then fg else bg)))

def moveCursor (con : Console) (x y : Nat) : Console := { con with cx := x % 2^32, cy := y % 2^32 }

def newline (fb : Framebuffer) (con : Console) : Console :=
  if con.cy ≥ (framebufferGetHeight fb + 2^32 - 5) % 2^32 then
    moveCursor { con with writes := con.writes ++ [.clear defaultBg] } 0 0
  else moveCursor con 0 (con.cy + (fontHeight + 4))

/-- One turn of the loop of `putstr`. -/
def putstrChar (font : BitVec 64 → BitVec 16) (fb : Framebuffer) (color : BitVec 64) (con : Console)
    (c : Byte) : Console :=
  if c = 0x0A then newline fb con
  else
    let glyph := putch font (con.cx % 2^32) (con.cy % 2^32) c (extractBg color) (extractFg color)
    moveCursor { con with writes := con.writes ++ glyph } (con.cx + fontWidth) con.cy

def putstr (font : BitVec 64 → BitVec 16) (fb : Framebuffer) (con : Console) (str : List Byte)
    (color : BitVec 64) : Console :=
  str.foldl (putstrChar font fb color) con

/-- An argument of `printk`: a string, or a number. -/
inductive PrintkArg where
  | str (str : List Byte)
  | num (number : BitVec 64)

/-- The string for the conversion `c`, and the arguments left. -/
def printkConvert (c : Byte) (args : List PrintkArg) : Option (List Byte × List PrintkArg) :=
  if c = 0x73 then
    match args with
    | .str str :: args => some (str, args)
    | .num _ :: _ | [] => none
  else if c = 0x64 ∨ c = 0x75 ∨ c = 0x6C then
    match args with
    | .num number :: args => some (dec2str number, args)
    | .str _ :: _ | [] => none
  else if c = 0x78 ∨ c = 0x70 then
    match args with
    | .num number :: args => some (hex2str number, args)
    | .str _ :: _ | [] => none
  else if c = 0x58 then
    match args with
    | .num number :: args => some ((hex2str number).drop 2, args)
    | .str _ :: _ | [] => none
  else if c = 0x63 then
    match args with
    | .num number :: args =>
      some (if number.setWidth 8 = 0#8 then [] else [number.setWidth 8], args)
    | .str _ :: _ | [] => none
  else some ([], args)

/-- The color after `\033` and the character `c`. -/
def printkColor (color : BitVec 64) (c : Byte) : BitVec 64 :=
  if c = 0x30 then makeFgBg defaultFg defaultBg
  else if c = 0x31 then makeFgBg 0xB2BEB5 defaultBg
  else if c = 0x32 then makeFgBg 0xFF0000 defaultBg
  else if c = 0x33 then makeFgBg 0x00CED1 defaultBg
  else if c = 0x34 then makeFgBg 0x9370DB defaultBg
  else color

/-- The strings `printk` hands to `putstr`, each with its color. `none` is a
    format that ends in `%` or `\033`, behind whose end the loop goes on, or an
    argument that is missing or of another type. -/
def printkStrings : List Byte → List PrintkArg → BitVec 64 → Option (List (BitVec 64 × List Byte))
  | [], _, _ => some []
  | [c], _, color => if c = 0x25 ∨ c = 0x1B then none else some [(color, [c])]
  | c :: d :: fmt, args, color =>
    if c = 0x25 then do
      let (str, args) ← printkConvert d args
      let rest ← printkStrings fmt args color
      some ((color, str) :: rest)
    else if c = 0x1B then printkStrings fmt args (printkColor color d)
    else do
      let rest ← printkStrings (d :: fmt) args color
      some ((color, [c]) :: rest)

def printk (font : BitVec 64 → BitVec 16) (fb : Framebuffer) (con : Console) (fmt : List Byte)
    (args : List PrintkArg) : Option Console :=
  (printkStrings fmt args (makeFgBg defaultFg defaultBg)).map
    (fun strs => strs.foldl (fun con str => putstr font fb con str.2 str.1) con)

/-- A sequence of calls, each a format and its arguments. -/
def printkAll (font : BitVec 64 → BitVec 16) (fb : Framebuffer) :
    List (List Byte × List PrintkArg) → Console → Option Console
  | [], con => some con
  | call :: calls, con => (printk font fb con call.1 call.2).bind (printkAll font fb calls)

/-- The strings of all the calls. -/
def allStrings : List (List Byte × List PrintkArg) → Option (List (BitVec 64 × List Byte))
  | [] => some []
  | call :: calls => do
    let strs ← printkStrings call.1 call.2 (makeFgBg defaultFg defaultBg)
    let rest ← allStrings calls
    some (strs ++ rest)

/-- The text a sequence of calls renders. -/
def renderedText (calls : List (List Byte × List PrintkArg)) : Option (List Byte) :=
  (allStrings calls).map (fun strs => strs.flatMap Prod.snd)

/-- The lines of a text; the last one may be empty. -/
def linesOf : List Byte → List (List Byte)
  | [] => [[]]
  | c :: text =>
    if c = 0x0A then [] :: linesOf text
    else match linesOf text with
      | [] => [[c]]
      | line :: lines => (c :: line) :: lines

/-- Where the line of this number is put: 20 rows below the one before, or at
    the top again once that one is at most five rows above the end of the
    screen or behind it. -/
def lineTop (height : Nat) : Nat → Nat
  | 0 => 0
  | n + 1 =>
    if lineTop height n ≥ (height % 2^32 + 2^32 - 5) % 2^32 then 0
    else (lineTop height n + (fontHeight + 4)) % 2^32

/-! Which pixels are on the screen. -/

def OnScreen (fb : Framebuffer) (writes : List FbWrite) : Prop :=
  ∀ x y color, .putpix x y color ∈ writes → x < fb.width ∧ y < fb.height

/-- A glyph at this place is on the screen. -/
def GlyphOn (fb : Framebuffer) (x y : Nat) : Prop :=
  ∀ i < fontWidth, ∀ j < fontHeight, (x + i) % 2^32 < fb.width ∧ (y + j) % 2^32 < fb.height

/-- So are `len` of them, from column `k` on. -/
def LineOn (fb : Framebuffer) (k y len : Nat) : Prop :=
  ∀ c < len, GlyphOn fb (fontWidth * (k + c) % 2^32) y

/-- And all of a text whose first line is line `n` from column `k` on. -/
def TextOn (fb : Framebuffer) (k n : Nat) : List (List Byte) → Prop
  | [] => True
  | line :: lines => LineOn fb k (lineTop fb.height n) line.length ∧ TextOn fb 0 (n + 1) lines

theorem lineTop_lt (height n : Nat) : lineTop height n < 2^32 := by
  cases n with
  | zero => exact Nat.two_pow_pos 32
  | succ n =>
    rw [lineTop]
    split
    · exact Nat.two_pow_pos 32
    · exact Nat.mod_lt _ (Nat.two_pow_pos 32)

section
variable {font : BitVec 64 → BitVec 16} {fb : Framebuffer}

theorem onScreen_append {writes more : List FbWrite} :
    OnScreen fb (writes ++ more) ↔ OnScreen fb writes ∧ OnScreen fb more := by
  refine ⟨?_, ?_⟩
  · intro h
    exact ⟨fun x y color hw => h x y color (List.mem_append_left _ hw),
      fun x y color hw => h x y color (List.mem_append_right _ hw)⟩
  · rintro ⟨h, hmore⟩ x y color hw
    rcases List.mem_append.mp hw with hw | hw
    · exact h x y color hw
    · exact hmore x y color hw

theorem onScreen_putch (x y : Nat) (c : Byte) (bg fg : BitVec 32) :
    OnScreen fb (putch font x y c bg fg) ↔ GlyphOn fb x y := by
  refine ⟨?_, ?_⟩
  · intro h i hi j hj
    apply h
    rw [putch, List.mem_flatMap]
    exact ⟨i, List.mem_range.mpr hi, List.mem_map.mpr ⟨j, List.mem_range.mpr hj, rfl⟩⟩
  · intro h x' y' color hw
    rw [putch, List.mem_flatMap] at hw
    obtain ⟨i, hi, hw⟩ := hw
    obtain ⟨j, hj, heq⟩ := List.mem_map.mp hw
    cases heq
    exact h i (List.mem_range.mp hi) j (List.mem_range.mp hj)

/-- The cursor is at column `k` of line `n`. -/
structure AtPlace (fb : Framebuffer) (con : Console) (k n : Nat) : Prop where
  cx : con.cx = fontWidth * k % 2^32
  cy : con.cy = lineTop fb.height n

theorem newline_place {con : Console} {k n : Nat} (h : AtPlace fb con k n) :
    AtPlace fb (newline fb con) 0 (n + 1) ∧
      (OnScreen fb (newline fb con).writes ↔ OnScreen fb con.writes) := by
  have hclear : OnScreen fb (con.writes ++ [.clear defaultBg]) ↔ OnScreen fb con.writes := by
    rw [onScreen_append, and_iff_left]
    intro x y color hw
    cases List.mem_singleton.mp hw
  rw [newline, framebufferGetHeight, h.cy]
  split
  · next hend =>
    refine ⟨⟨rfl, ?_⟩, hclear⟩
    rw [lineTop, if_pos hend]
    rfl
  · next hend =>
    refine ⟨⟨rfl, ?_⟩, Iff.rfl⟩
    rw [lineTop, if_neg hend]
    rfl

theorem glyph_place (font : BitVec 64 → BitVec 16) {con : Console} {k n : Nat} (h : AtPlace fb con k n)
    {c : Byte} (hc : c ≠ 0x0A) (color : BitVec 64) :
    AtPlace fb (putstrChar font fb color con c) (k + 1) n ∧
      (OnScreen fb (putstrChar font fb color con c).writes ↔
        OnScreen fb con.writes ∧ GlyphOn fb (fontWidth * k % 2^32) (lineTop fb.height n)) := by
  have hlt := lineTop_lt fb.height n
  rw [putstrChar, if_neg hc]
  refine ⟨⟨?_, ?_⟩, ?_⟩
  · show (con.cx + fontWidth) % 2^32 = fontWidth * (k + 1) % 2^32
    rw [h.cx, Nat.mod_add_mod, Nat.mul_succ]
  · show con.cy % 2^32 = lineTop fb.height n
    rw [h.cy, Nat.mod_eq_of_lt hlt]
  · show OnScreen fb (con.writes ++ putch font (con.cx % 2^32) (con.cy % 2^32) c _ _) ↔ _
    rw [onScreen_append, onScreen_putch, h.cx, h.cy, Nat.mod_mod, Nat.mod_eq_of_lt hlt]

theorem linesOf_ne_nil (text : List Byte) : linesOf text ≠ [] := by
  cases text with
  | nil => exact nofun
  | cons c text =>
    rw [linesOf]
    split
    · exact nofun
    · split <;> exact nofun

theorem lineOn_succ (k y len : Nat) :
    LineOn fb k y (len + 1) ↔ GlyphOn fb (fontWidth * k % 2^32) y ∧ LineOn fb (k + 1) y len := by
  refine ⟨?_, ?_⟩
  · intro h
    refine ⟨h 0 (Nat.succ_pos len), ?_⟩
    intro c hc
    have hnext := h (c + 1) (Nat.succ_lt_succ hc)
    rwa [← Nat.add_assoc, Nat.add_right_comm] at hnext
  · rintro ⟨hfirst, hrest⟩ c hc
    cases c with
    | zero => exact hfirst
    | succ c =>
      have hnext := hrest c (Nat.lt_of_succ_lt_succ hc)
      rwa [Nat.add_right_comm, Nat.add_assoc] at hnext

/-- What characters, each with its color, put on the screen from a place on. -/
theorem chars_onScreen (chars : List (BitVec 64 × Byte)) : ∀ {con : Console} {k n : Nat},
    AtPlace fb con k n →
    (OnScreen fb (chars.foldl (fun con c => putstrChar font fb c.1 con c.2) con).writes ↔
      OnScreen fb con.writes ∧ TextOn fb k n (linesOf (chars.map Prod.snd))) := by
  induction chars with
  | nil =>
    intro con k n _
    have hnone : TextOn fb k n [[]] := ⟨nofun, trivial⟩
    exact (and_iff_left hnone).symm
  | cons c chars ih =>
    intro con k n h
    rw [List.foldl_cons, List.map_cons, linesOf]
    by_cases hc : c.2 = 0x0A
    · obtain ⟨hplace, hwrites⟩ := newline_place h
      have hstep : putstrChar font fb c.1 con c.2 = newline fb con := by rw [putstrChar, if_pos hc]
      have hempty : LineOn fb k (lineTop fb.height n) 0 := nofun
      rw [if_pos hc, hstep, ih hplace, hwrites, TextOn, List.length_nil, and_iff_right hempty]
    · obtain ⟨hplace, hwrites⟩ := glyph_place font h hc c.1
      obtain ⟨line, lines, hlines⟩ := List.exists_cons_of_ne_nil (linesOf_ne_nil (chars.map Prod.snd))
      rw [if_neg hc, ih hplace, hwrites, hlines, TextOn, TextOn, List.length_cons, lineOn_succ]
      simp only [and_assoc]

/-- Strings are written character by character. -/
theorem putstr_chars (strs : List (BitVec 64 × List Byte)) : ∀ con : Console,
    strs.foldl (fun con str => putstr font fb con str.2 str.1) con =
      (strs.flatMap (fun str => str.2.map (fun c => (str.1, c)))).foldl
        (fun con c => putstrChar font fb c.1 con c.2) con := by
  induction strs with
  | nil => exact fun _ => rfl
  | cons str strs ih =>
    intro con
    rw [List.foldl_cons, ih, List.flatMap_cons, List.foldl_append, List.foldl_map]
    rfl

/-- The calls write the characters of their strings one after another. -/
theorem printkAll_chars (calls : List (List Byte × List PrintkArg)) :
    ∀ {strs : List (BitVec 64 × List Byte)} (con : Console), allStrings calls = some strs →
    printkAll font fb calls con = some ((strs.flatMap (fun str => str.2.map (fun c => (str.1, c)))).foldl
      (fun con c => putstrChar font fb c.1 con c.2) con) := by
  induction calls with
  | nil =>
    intro strs con h
    cases h
    rfl
  | cons call calls ih =>
    intro strs con h
    obtain ⟨first, hfirst, h⟩ := Option.bind_eq_some_iff.mp h
    obtain ⟨rest, hrest, h⟩ := Option.bind_eq_some_iff.mp h
    cases h
    rw [printkAll, printk, hfirst, Option.map_some, Option.bind_some, ih _ hrest, putstr_chars,
      List.flatMap_append, List.foldl_append]

/-- A line is on the screen when it is not wider, and its glyphs end above the
    bottom. Coordinates wrap at `2^32`, so larger screens have room for all. -/
theorem lineOn_iff {y len : Nat} (hy : y < 2^32) (hlen : 0 < len) :
    LineOn fb 0 y len ↔ (fb.width < 2^32 → fontWidth * len ≤ fb.width) ∧
      (fb.height < 2^32 → y + fontHeight ≤ fb.height) := by
  simp only [LineOn, GlyphOn, fontWidth, fontHeight, Nat.zero_add]
  refine ⟨?_, ?_⟩
  · intro h
    refine ⟨?_, ?_⟩
    · -- the column just behind the screen is one of the line
      intro hw
      apply Classical.byContradiction
      intro hlong
      have hpix := (h (fb.width / 9) (by omega) (fb.width % 9) (by omega) 0 (by decide)).1
      omega
    · intro hh
      apply Classical.byContradiction
      intro hlow
      by_cases hbelow : fb.height ≤ y
      · have hpix := (h 0 hlen 0 (by decide) 0 (by decide)).2
        omega
      · have hpix := (h 0 hlen 0 (by decide) (fb.height - y) (by omega)).2
        omega
  · rintro ⟨hw, hh⟩ c hc i hi j hj
    refine ⟨?_, ?_⟩
    · by_cases hlarge : fb.width < 2^32
      · have hfit := hw hlarge
        omega
      · omega
    · by_cases hlarge : fb.height < 2^32
      · have hfit := hh hlarge
        omega
      · omega

theorem textOn_iff (lines : List (List Byte)) : ∀ n : Nat, TextOn fb 0 n lines ↔
    ∀ (m : Nat) (line : List Byte), lines[m]? = some line → line ≠ [] →
      (fb.width < 2^32 → fontWidth * line.length ≤ fb.width) ∧
        (fb.height < 2^32 → lineTop fb.height (n + m) + fontHeight ≤ fb.height) := by
  induction lines with
  | nil =>
    intro n
    exact ⟨fun _ m line hm => by simp at hm, fun _ => trivial⟩
  | cons first lines ih =>
    intro n
    rw [TextOn, ih]
    refine ⟨?_, ?_⟩
    · rintro ⟨hfirst, hrest⟩ m line hm hne
      cases m with
      | zero =>
        cases hm
        exact (lineOn_iff (lineTop_lt _ _) (List.length_pos_iff.mpr hne)).mp hfirst
      | succ m =>
        have hline := hrest m line hm hne
        rwa [Nat.add_right_comm, Nat.add_assoc] at hline
    · intro h
      refine ⟨?_, ?_⟩
      · by_cases hne : first = []
        · rw [hne]
          exact nofun
        · exact (lineOn_iff (lineTop_lt _ _) (List.length_pos_iff.mpr hne)).mpr (h 0 first rfl hne)
      · intro m line hm hne
        have hline := h (m + 1) line hm hne
        rwa [← Nat.add_assoc, Nat.add_right_comm] at hline

end

/-- Every byte of the write is one of the framebuffer's. -/
def InsideFb (fb : Framebuffer) : FbWrite → Prop
  | .putpix x y _ => 4 * framebufferGetIndex fb x y + 4 ≤ fb.pitch * fb.height
  | .clear _ => ∀ i < fb.width * fb.height % 2^64, 4 * i + 4 ≤ fb.pitch * fb.height

theorem insideFb_of_onScreen {fb : Framebuffer} (hp : 4 * fb.width ≤ fb.pitch) {writes : List FbWrite}
    (h : OnScreen fb writes) : ∀ w ∈ writes, InsideFb fb w := by
  intro w hw
  cases w with
  | putpix x y color =>
    obtain ⟨hx, hy⟩ := h x y color hw
    -- pixel `x` of row `y` is in the first `y + 1` rows
    have hrow : (y + 1) * (fb.pitch / 4) ≤ fb.height * (fb.pitch / 4) := Nat.mul_le_mul_right _ hy
    have hall : fb.height * (4 * (fb.pitch / 4)) ≤ fb.height * fb.pitch :=
      Nat.mul_le_mul_left _ (Nat.mul_div_le _ _)
    have hmod : framebufferGetIndex fb x y ≤ x + y * (fb.pitch / 4) := Nat.mod_le _ _
    rw [Nat.succ_mul] at hrow
    rw [Nat.mul_left_comm] at hall
    rw [InsideFb, Nat.mul_comm fb.pitch]
    omega
  | clear color =>
    intro i hi
    have hmod : fb.width * fb.height % 2^64 ≤ fb.width * fb.height := Nat.mod_le _ _
    have hall : 4 * fb.width * fb.height ≤ fb.pitch * fb.height := Nat.mul_le_mul_right _ hp
    rw [Nat.mul_assoc] at hall
    omega

/-- The console before anything is written. -/
def startConsole : Console := ⟨0, 0, []⟩

/-- The pixels alone. -/
theorem printkAll_onScreen (font : BitVec 64 → BitVec 16) (fb : Framebuffer)
    {calls : List (List Byte × List PrintkArg)} {text : List Byte} (htext : renderedText calls = some text) :
    ∃ con, printkAll font fb calls startConsole = some con ∧
      (OnScreen fb con.writes ↔ TextOn fb 0 0 (linesOf text)) := by
  obtain ⟨strs, hstrs, htext⟩ := Option.map_eq_some_iff.mp htext
  have hchars : (strs.flatMap (fun str => str.2.map (fun c => (str.1, c)))).map Prod.snd = text := by
    rw [List.map_flatMap, ← htext]
    simp only [List.map_map, Function.comp_def, List.map_id']
  refine ⟨_, printkAll_chars calls startConsole hstrs, ?_⟩
  rw [chars_onScreen _ (show AtPlace fb startConsole 0 0 from ⟨rfl, rfl⟩), hchars, and_iff_right]
  exact nofun

/-- **When the console stays on the screen.** For every framebuffer, every font
    and every sequence of `printk` calls: all pixels written are on the screen,
    and no write is outside the framebuffer, iff for each line of the text that
    is not empty
    - the line is no wider than the screen, at 9 pixels a character, and
    - its 16 rows, from where `newline` put it, end on the screen;
    coordinates have 32 bits, and a side of `2^32` pixels or more has room for
    everything. -/
theorem console_on_screen_iff (font : BitVec 64 → BitVec 16) (fb : Framebuffer)
    (hpitch : 4 * fb.width ≤ fb.pitch) (calls : List (List Byte × List PrintkArg)) (text : List Byte)
    (htext : renderedText calls = some text) :
    ∃ con, printkAll font fb calls startConsole = some con ∧
      (OnScreen fb con.writes ∧ (∀ w ∈ con.writes, InsideFb fb w) ↔
        ∀ (n : Nat) (line : List Byte), (linesOf text)[n]? = some line → line ≠ [] →
          (fb.width < 2^32 → fontWidth * line.length ≤ fb.width) ∧
            (fb.height < 2^32 → lineTop fb.height n + fontHeight ≤ fb.height)) := by
  obtain ⟨con, hcon, hon⟩ := printkAll_onScreen font fb htext
  refine ⟨con, hcon, ?_⟩
  have hlines := @textOn_iff fb (linesOf text) 0
  simp only [Nat.zero_add] at hlines
  rw [← hlines, ← hon]
  exact ⟨fun h => h.1, fun h => ⟨h, insideFb_of_onScreen hpitch h⟩⟩

def vga : Framebuffer := ⟨640, 480, 2560⟩

/-- `Hi`, a newline and `you`. -/
theorem console_on_screen_hi :
    ∃ con, printkAll (fun _ => 0) vga [([0x48, 0x69, 0x0A], []), ([0x25, 0x73], [.str [0x79, 0x6F, 0x75]])]
        startConsole = some con ∧ OnScreen vga con.writes ∧ ∀ w ∈ con.writes, InsideFb vga w := by
  obtain ⟨con, hcon, hiff⟩ := console_on_screen_iff (fun _ => 0) vga (by decide)
    [([0x48, 0x69, 0x0A], []), ([0x25, 0x73], [.str [0x79, 0x6F, 0x75]])] [0x48, 0x69, 0x0A, 0x79, 0x6F, 0x75]
    (by decide)
  refine ⟨con, hcon, hiff.mpr ?_⟩
  have hlines : linesOf [0x48, 0x69, 0x0A, 0x79, 0x6F, 0x75] = [[0x48, 0x69], [0x79, 0x6F, 0x75]] := by
    decide
  intro n line hline _
  rw [hlines] at hline
  rcases n with _ | _ | n
  · cases hline
    decide
  · cases hline
    decide
  · cases hline

/-- The lines go down the screen in steps of 20 rows, one line further than
    there is room for, and start at the top again. -/
theorem lineTop_eq {height : Nat} (hlow : 20 ≤ height) (hhigh : height + 14 < 2^32) (n : Nat) :
    lineTop height n = 20 * (n % ((height + 14) / 20 + 1)) := by
  induction n with
  | zero => rw [lineTop, Nat.zero_mod]
  | succ n ih =>
    have hend : (height % 2^32 + 2^32 - 5) % 2^32 = height - 5 := by omega
    have hmod := Nat.mod_lt n (Nat.succ_pos ((height + 14) / 20))
    have hnext : (n + 1) % ((height + 14) / 20 + 1) =
        (n % ((height + 14) / 20 + 1) + 1) % ((height + 14) / 20 + 1) := (Nat.mod_add_mod n _ 1).symm
    rw [lineTop, ih, hend, fontHeight, hnext]
    generalize n % ((height + 14) / 20 + 1) = r at hmod ⊢
    -- `r` is the last line when `20 * r` is at most five rows above the end
    by_cases hlast : r = (height + 14) / 20
    · rw [if_pos (by omega), hlast, Nat.mod_self]
    · rw [if_neg (by omega), Nat.mod_eq_of_lt (by omega), Nat.mod_eq_of_lt (by omega)]
      omega

/-- On a screen of 640 by 480 pixels, the last of 72 characters is cut off, and
    the 25th line is below the screen. -/
theorem console_off_screen :
    (∃ con, printkAll (fun _ => 0) vga [([0x25, 0x73], [.str (List.replicate 72 0x41)])] startConsole =
        some con ∧ ¬ OnScreen vga con.writes) ∧
      ∃ con, printkAll (fun _ => 0) vga [([0x25, 0x73], [.str (List.replicate 24 0x0A)]), ([0x41], [])]
        startConsole = some con ∧ ¬ OnScreen vga con.writes := by
  refine ⟨?_, ?_⟩
  · obtain ⟨con, hcon, hon⟩ := printkAll_onScreen (fun _ => 0) vga
      (show renderedText [([0x25, 0x73], [.str (List.replicate 72 0x41)])] = some (List.replicate 72 0x41)
        by decide)
    refine ⟨con, hcon, ?_⟩
    rw [hon, textOn_iff]
    intro h
    have hfirst := h 0 (List.replicate 72 0x41) (by decide) (by decide)
    exact absurd (hfirst.1 (by decide)) (by decide)
  · obtain ⟨con, hcon, hon⟩ := printkAll_onScreen (fun _ => 0) vga
      (show renderedText [([0x25, 0x73], [.str (List.replicate 24 0x0A)]), ([0x41], [])] =
        some (List.replicate 24 0x0A ++ [0x41]) by decide)
    refine ⟨con, hcon, ?_⟩
    rw [hon, textOn_iff]
    intro h
    have hlast := h 24 [0x41] (by decide) (by decide)
    rw [lineTop_eq (by decide) (by decide)] at hlast
    exact absurd (hlast.2 (by decide)) (by decide)

end Qnixx
