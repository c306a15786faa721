import Mathlib.Data.List.TakeWhile
import Qnixx.Console
import Qnixx.NumberStrings

/- `printk` (`tty/console.c`) as it works: a cursor into the format, an argument
   cursor, a color, and the static buffers of `hex2str` and `dec2str`. It is
   compared with what a format means: directives, each with its text, and a
   color that holds until the next one. The cursor is advanced in the header of
   the loop and again behind `%` and `\033`, so the last of these can take it
   over the end of the format. -/
namespace Qnixx

/-- `hex_string` and `dec_string`. -/
structure NumBufs where
  hexString : List Byte
  decString : List Byte

structure NumBufs.Wf (bufs : NumBufs) : Prop where
  hexSize : bufs.hexString.length = staticSize
  decSize : bufs.decString.length = staticSize

/-- A call of `putch`, without its place, or of `newline`. -/
inductive PutCall where
  | putch (c : Byte) (bg fg : BitVec 32)
  | newline
  deriving DecidableEq

/-- One turn of the loop of `putstr`. -/
def putstrCall (color : BitVec 64) (c : Byte) : PutCall :=
  if c = 0x0A then .newline else .putch c (extractBg color) (extractFg color)

/-- The calls of `putstr`; `str` is the bytes from the pointer to the end of its
    buffer, and `none` a buffer without an end of string. -/
def putstrCalls (str : List Byte) (color : BitVec 64) : Option (List PutCall) :=
  (strlen str).map (fun len => (str.take len).map (putstrCall color))

/-- `putstr` on what a converter has left in its buffer. -/
def putNumber (str : Option (List Byte)) (skip : Nat) (color : BitVec 64) :
    Option (List Byte × List PutCall) := do
  let buf ← str
  let calls ← putstrCalls (buf.drop skip) color
  some (buf, calls)

/-- The `switch` behind a `%`: the buffers and the arguments after it, and the
    calls. `none` is an argument that is missing or of another type. -/
def printkSwitch (bufs : NumBufs) (args : List PrintkArg) (color : BitVec 64) (c : Byte) :
    Option (NumBufs × List PrintkArg × List PutCall) :=
  if c = 0x73 then
    match args with
    | .str str :: args => (putstrCalls (str ++ [0]) color).map (fun calls => (bufs, args, calls))
    | .num _ :: _ | [] => none
  else if c = 0x64 ∨ c = 0x75 ∨ c = 0x6C then
    match args with
    | .num number :: args =>
      (putNumber (dec2strStatic bufs.decString number) 0 color).map (fun r =>
        ({ bufs with decString := r.1 }, args, r.2))
    | .str _ :: _ | [] => none
  else if c = 0x78 ∨ c = 0x70 then
    match args with
    | .num number :: args =>
      (putNumber (hex2strStatic bufs.hexString number) 0 color).map (fun r =>
        ({ bufs with hexString := r.1 }, args, r.2))
    | .str _ :: _ | [] => none
  else if c = 0x58 then
    match args with
    | .num number :: args =>
      (putNumber (hex2strStatic bufs.hexString number) 2 color).map (fun r =>
        ({ bufs with hexString := r.1 }, args, r.2))
    | .str _ :: _ | [] => none
  else if c = 0x63 then
    match args with
    | .num number :: args => (putstrCalls [number.setWidth 8, 0] color).map (fun calls => (bufs, args, calls))
    | .str _ :: _ | [] => none
  else some (bufs, args, [])

/-- The loop of `printk` from the character at `ptr` on, which is character `pos`
    of the format: the buffers and the calls, and the characters that are read.
    `none` is a read behind the memory that is known, or an argument that does
    not fit. -/
def printkLoop : List Byte → Nat → BitVec 64 → NumBufs → List PrintkArg →
    Option (NumBufs × List PutCall) × List Nat
  | [], pos, _, _, _ => (none, [pos])
  | [c], pos, _, bufs, _ => if c = 0 then (some (bufs, []), [pos]) else (none, [pos, pos + 1])
  | c :: d :: ptr, pos, color, bufs, args =>
    if c = 0 then (some (bufs, []), [pos])
    else if c = 0x25 then
      match printkSwitch bufs args color d with
      | none => (none, [pos, pos + 1])
      | some (bufs, args, calls) =>
        let rest := printkLoop ptr (pos + 2) color bufs args
        (rest.1.map (fun r => (r.1, calls ++ r.2)), [pos, pos + 1] ++ rest.2)
    else if c = 0x1B then
      let rest := printkLoop ptr (pos + 2) (printkColor color d) bufs args
      (rest.1, [pos, pos + 1] ++ rest.2)
    else
      match putstrCalls [c, 0] color with
      | none => (none, [pos])
      | some calls =>
        let rest := printkLoop (d :: ptr) (pos + 1) color bufs args
        (rest.1.map (fun r => (r.1, calls ++ r.2)), pos :: rest.2)

/-- `printk` with the memory from `fmt` on. -/
def printkCalls (fmt : List Byte) (bufs : NumBufs) (args : List PrintkArg) :
    Option (NumBufs × List PutCall) × List Nat :=
  printkLoop fmt 0 (makeFgBg defaultFg defaultBg) bufs args

/-! What a format means. -/

inductive Directive where
  | plain (c : Byte)
  | convert (letter : Byte)
  | color (code : Byte)
  deriving DecidableEq

/-- `%` and `\033`, which take the next character with them. -/
def opens (c : Byte) : Bool := c == 0x25 || c == 0x1B

/-- The directives of a format; a last `%` or `\033` with nothing behind it is
    none. -/
def directives : List Byte → List Directive
  | [] => []
  | [c] => if opens c then [] else [.plain c]
  | c :: d :: fmt =>
    if c = 0x25 then .convert d :: directives fmt
    else if c = 0x1B then .color d :: directives fmt
    else .plain c :: directives (d :: fmt)

/-- The run of `%` and `\033` at the end of the format is even: each of them that
    opens a directive has a character behind it. -/
def Complete (fmt : List Byte) : Prop := (fmt.reverse.takeWhile opens).length % 2 = 0

instance (fmt : List Byte) : Decidable (Complete fmt) := inferInstanceAs (Decidable (_ = 0))

inductive Conversion where
  | string
  | decimal
  | hex
  | hexDigits
  | char
  | nothing
  deriving DecidableEq

def conversionOf (letter : Byte) : Conversion :=
  if letter = 0x73 then .string
  else if letter = 0x64 ∨ letter = 0x75 ∨ letter = 0x6C then .decimal
  else if letter = 0x78 ∨ letter = 0x70 then .hex
  else if letter = 0x58 then .hexDigits
  else if letter = 0x63 then .char
  else .nothing

inductive ArgKind where
  | str
  | num
  deriving DecidableEq

def PrintkArg.kind : PrintkArg → ArgKind
  | str _ => .str
  | num _ => .num

/-- The kind of argument a conversion takes. -/
def Conversion.takes : Conversion → Option ArgKind
  | string => some .str
  | decimal | hex | hexDigits | char => some .num
  | nothing => none

def Directive.takes : Directive → Option ArgKind
  | plain _ | color _ => none
  | convert letter => (conversionOf letter).takes

/-- The text of a number. -/
def Conversion.numberText (number : BitVec 64) : Conversion → List Byte
  | decimal => decText number.toNat
  | hex => hexText number.toNat
  | hexDigits => (hexText number.toNat).drop 2
  | char => if number.setWidth 8 = 0#8 then [] else [number.setWidth 8]
  | string | nothing => []

/-- The text of a conversion with its argument; the bytes of a string end before
    the first 0. -/
def Conversion.text (k : Conversion) : PrintkArg → List Byte
  | .str str => str.takeWhile (fun c => decide (c ≠ 0))
  | .num number => k.numberText number

/-- The arguments start with what the directives take. -/
def Fits (ds : List Directive) (args : List PrintkArg) : Prop :=
  ds.filterMap Directive.takes <+: args.map PrintkArg.kind

instance (ds : List Directive) (args : List PrintkArg) : Decidable (Fits ds args) :=
  inferInstanceAs (Decidable (_ <+: _))

structure Colors where
  fg : BitVec 32
  bg : BitVec 32
  deriving DecidableEq

/-- The colors of the codes 0 to 4; any other code changes nothing. -/
def Colors.switch (colors : Colors) (code : Byte) : Colors :=
  if code = 0x30 then ⟨0x899499, 0x000000⟩
  else if code = 0x31 then ⟨0xB2BEB5, 0x000000⟩
  else if code = 0x32 then ⟨0xFF0000, 0x000000⟩
  else if code = 0x33 then ⟨0x00CED1, 0x000000⟩
  else if code = 0x34 then ⟨0x9370DB, 0x000000⟩
  else colors

/-- The characters directives stand for, each with its colors. -/
def denote : List Directive → List PrintkArg → Colors → List (Byte × Colors)
  | [], _, _ => []
  | .plain c :: ds, args, colors => (c, colors) :: denote ds args colors
  | .color code :: ds, args, colors => denote ds args (colors.switch code)
  | .convert letter :: ds, args, colors =>
    if conversionOf letter = .nothing then denote ds args colors
    else match args with
      | [] => []
      | arg :: args => ((conversionOf letter).text arg).map (fun c => (c, colors)) ++ denote ds args colors

/-- The call for a character: a newline has its own. -/
def charCall (c : Byte × Colors) : PutCall := if c.1 = 0x0A then .newline else .putch c.1 c.2.bg c.2.fg

/-! Strings. -/

theorem putstrCalls_text {text : List Byte} (h : ∀ c ∈ text, c ≠ 0) (rest : List Byte) (color : BitVec 64) :
    putstrCalls (text ++ 0 :: rest) color = some (text.map (putstrCall color)) := by
  rw [putstrCalls, strlen_cstr h, Option.map_some, List.take_left]

/-- A string ends before the first 0. -/
theorem exists_text (str : List Byte) :
    ∃ rest, str ++ [0] = str.takeWhile (fun c => decide (c ≠ 0)) ++ 0 :: rest := by
  induction str with
  | nil => exact ⟨[], rfl⟩
  | cons c str ih =>
    by_cases hc : c = 0
    · refine ⟨str ++ [0], ?_⟩
      rw [List.takeWhile_cons_of_neg (by simp [hc]), hc]
      rfl
    · obtain ⟨rest, hrest⟩ := ih
      refine ⟨rest, ?_⟩
      rw [List.takeWhile_cons, if_pos (decide_eq_true hc), List.cons_append, hrest, List.cons_append]

theorem putstrCalls_string (str : List Byte) (color : BitVec 64) :
    putstrCalls (str ++ [0]) color =
      some ((str.takeWhile (fun c => decide (c ≠ 0))).map (putstrCall color)) := by
  obtain ⟨rest, hrest⟩ := exists_text str
  rw [hrest]
  apply putstrCalls_text
  intro c hc
  have hne := List.mem_takeWhile_imp hc
  exact of_decide_eq_true hne

/-- The string of one character, which is empty for 0. -/
theorem putstrCalls_char (c : Byte) (color : BitVec 64) :
    putstrCalls [c, 0] color = some ((if c = 0 then [] else [c]).map (putstrCall color)) := by
  have hstring := putstrCalls_string [c] color
  by_cases hc : c = 0
  · rw [if_pos hc]
    rwa [List.takeWhile_cons_of_neg (by simp [hc])] at hstring
  · rw [if_neg hc]
    rwa [List.takeWhile_cons, if_pos (decide_eq_true hc)] at hstring

theorem putNumber_text {text : List Byte} (h : ∀ c ∈ text, c ≠ 0) (rest : List Byte) {skip : Nat}
    (hskip : skip ≤ text.length) (color : BitVec 64) :
    putNumber (some (text ++ 0 :: rest)) skip color =
      some (text ++ 0 :: rest, (text.drop skip).map (putstrCall color)) := by
  have hdrop : (text ++ 0 :: rest).drop skip = text.drop skip ++ 0 :: rest := List.drop_append_of_le_length hskip
  have hcalls : putstrCalls (text.drop skip ++ 0 :: rest) color = some ((text.drop skip).map (putstrCall color)) :=
    putstrCalls_text (fun c hc => h c (List.mem_of_mem_drop hc)) rest color
  rw [putNumber, Option.bind_eq_bind, Option.bind_some, hdrop, hcalls]
  rfl

/-! One directive. -/

section
variable {bufs : NumBufs} {args : List PrintkArg} {color : BitVec 64} {letter : Byte}

theorem putDecimal (h : bufs.Wf) (number : BitVec 64) (color : BitVec 64) :
    ∃ buf, buf.length = staticSize ∧ putNumber (dec2strStatic bufs.decString number) 0 color =
      some (buf, (decText number.toNat).map (putstrCall color)) := by
  obtain ⟨rest, hdec, hsize⟩ := dec2strStatic_text h.decSize number
  refine ⟨_, hsize, ?_⟩
  rw [hdec]
  exact putNumber_text (numeral_chars (by decide) (by decide) _) rest (Nat.zero_le _) color

theorem putHex (h : bufs.Wf) (number : BitVec 64) {skip : Nat} (hskip : skip ≤ 2) (color : BitVec 64) :
    ∃ buf, buf.length = staticSize ∧ putNumber (hex2strStatic bufs.hexString number) skip color =
      some (buf, ((hexText number.toNat).drop skip).map (putstrCall color)) := by
  obtain ⟨rest, hhex, hsize⟩ := hex2strStatic_text h.hexSize number
  refine ⟨_, hsize, ?_⟩
  rw [hhex]
  refine putNumber_text (hexText_chars _) rest ?_ color
  rw [hexText, List.length_append, List.length_cons, List.length_singleton]
  omega

/-- A conversion that takes an argument of this kind prints its text. -/
theorem printkSwitch_takes (h : bufs.Wf) {arg : PrintkArg} (hkind : (conversionOf letter).takes = some arg.kind) :
    ∃ bufs' : NumBufs, bufs'.Wf ∧ printkSwitch bufs (arg :: args) color letter =
      some (bufs', args, ((conversionOf letter).text arg).map (putstrCall color)) := by
  unfold printkSwitch
  by_cases hs : letter = 0x73
  · rw [conversionOf, if_pos hs] at hkind ⊢
    cases arg with
    | num number => cases hkind
    | str str =>
      refine ⟨bufs, h, ?_⟩
      simp only [if_pos hs, putstrCalls_string]
      rfl
  by_cases hd : letter = 0x64 ∨ letter = 0x75 ∨ letter = 0x6C
  · rw [conversionOf, if_neg hs, if_pos hd] at hkind ⊢
    cases arg with
    | str str => cases hkind
    | num number =>
      obtain ⟨buf, hsize, hput⟩ := putDecimal h number color
      refine ⟨{ bufs with decString := buf }, ⟨h.hexSize, hsize⟩, ?_⟩
      simp only [if_neg hs, if_pos hd, hput]
      rfl
  by_cases hx : letter = 0x78 ∨ letter = 0x70
  · rw [conversionOf, if_neg hs, if_neg hd, if_pos hx] at hkind ⊢
    cases arg with
    | str str => cases hkind
    | num number =>
      obtain ⟨buf, hsize, hput⟩ := putHex h number (Nat.zero_le 2) color
      refine ⟨{ bufs with hexString := buf }, ⟨hsize, h.decSize⟩, ?_⟩
      simp only [if_neg hs, if_neg hd, if_pos hx, hput]
      rfl
  by_cases hX : letter = 0x58
  · rw [conversionOf, if_neg hs, if_neg hd, if_neg hx, if_pos hX] at hkind ⊢
    cases arg with
    | str str => cases hkind
    | num number =>
      obtain ⟨buf, hsize, hput⟩ := putHex h number (Nat.le_refl 2) color
      refine ⟨{ bufs with hexString := buf }, ⟨hsize, h.decSize⟩, ?_⟩
      simp only [if_neg hs, if_neg hd, if_neg hx, if_pos hX, hput]
      rfl
  by_cases hc : letter = 0x63
  · rw [conversionOf, if_neg hs, if_neg hd, if_neg hx, if_neg hX, if_pos hc] at hkind ⊢
    cases arg with
    | str str => cases hkind
    | num number =>
      refine ⟨bufs, h, ?_⟩
      simp only [if_neg hs, if_neg hd, if_neg hx, if_neg hX, if_pos hc, putstrCalls_char]
      rfl
  rw [conversionOf, if_neg hs, if_neg hd, if_neg hx, if_neg hX, if_neg hc] at hkind
  cases hkind

theorem printkSwitch_nothing (h : conversionOf letter = .nothing) :
    printkSwitch bufs args color letter = some (bufs, args, []) := by
  rw [conversionOf] at h
  split_ifs at h with hs hd hx hX hc
  unfold printkSwitch
  rw [if_neg hs, if_neg hd, if_neg hx, if_neg hX, if_neg hc]

theorem takes_eq_none (k : Conversion) : k.takes = none ↔ k = .nothing := by
  cases k <;> decide

end

/-! The end of the format. -/

theorem complete_plain {c : Byte} (hc : opens c = false) (fmt : List Byte) :
    Complete (c :: fmt) ↔ Complete fmt := by
  have hlast : List.takeWhile opens [c] = [] := by rw [List.takeWhile_cons, hc]; rfl
  rw [Complete, List.reverse_cons, List.takeWhile_append, hlast, List.append_nil, Complete]
  split
  · next hall => rw [← hall]
  · exact Iff.rfl

/-- Behind a directive of two characters the format is as complete as before. -/
theorem complete_pair {c : Byte} (hc : opens c = true) (d : Byte) (fmt : List Byte) :
    Complete (c :: d :: fmt) ↔ Complete fmt := by
  rw [Complete, List.reverse_cons, List.reverse_cons, List.append_assoc, List.singleton_append,
    List.takeWhile_append, Complete]
  split
  · next hall =>
    rw [List.length_append, ← hall]
    cases hd : opens d with
    | false => rw [List.takeWhile_cons, hd]; rfl
    | true =>
      have hboth : (List.takeWhile opens [d, c]).length = 2 := by
        rw [List.takeWhile_cons, hd, if_pos rfl, List.takeWhile_cons, hc]
        rfl
      rw [hboth, Nat.add_mod_right]
  · exact Iff.rfl

theorem complete_single (c : Byte) : Complete [c] ↔ opens c = false := by
  rw [Complete, List.reverse_singleton, List.takeWhile_cons]
  cases opens c <;> simp

/-! One turn of the loop. -/

section
variable {bufs : NumBufs} {args : List PrintkArg} {color : BitVec 64} {pos : Nat}

theorem printkLoop_end (rest : List Byte) :
    printkLoop (0 :: rest) pos color bufs args = (some (bufs, []), [pos]) := by
  cases rest with
  | nil => rfl
  | cons d rest => rfl

/-- The loop reads the character it is at. -/
theorem printkLoop_reads (ptr : List Byte) : pos ∈ (printkLoop ptr pos color bufs args).2 := by
  unfold printkLoop
  split
  · exact List.mem_singleton_self _
  · split <;> exact List.mem_cons_self
  · split
    · exact List.mem_cons_self
    · split
      · split <;> exact List.mem_cons_self
      · split
        · exact List.mem_cons_self
        · split <;> exact List.mem_cons_self

theorem printkLoop_convert {d : Byte} {bufs' : NumBufs} {args' : List PrintkArg} {calls : List PutCall}
    (h : printkSwitch bufs args color d = some (bufs', args', calls)) (ptr : List Byte) :
    printkLoop (0x25 :: d :: ptr) pos color bufs args =
      ((printkLoop ptr (pos + 2) color bufs' args').1.map (fun r => (r.1, calls ++ r.2)),
        [pos, pos + 1] ++ (printkLoop ptr (pos + 2) color bufs' args').2) := by
  rw [printkLoop, if_neg (by decide), if_pos rfl, h]

theorem printkLoop_color (d : Byte) (ptr : List Byte) :
    printkLoop (0x1B :: d :: ptr) pos color bufs args =
      ((printkLoop ptr (pos + 2) (printkColor color d) bufs args).1,
        [pos, pos + 1] ++ (printkLoop ptr (pos + 2) (printkColor color d) bufs args).2) := by
  rw [printkLoop, if_neg (by decide), if_neg (by decide), if_pos rfl]

theorem printkLoop_plain {c : Byte} (h0 : c ≠ 0) (hc : opens c = false) {ptr : List Byte} (hptr : ptr ≠ []) :
    printkLoop (c :: ptr) pos color bufs args =
      ((printkLoop ptr (pos + 1) color bufs args).1.map (fun r => (r.1, putstrCall color c :: r.2)),
        pos :: (printkLoop ptr (pos + 1) color bufs args).2) := by
  obtain ⟨d, ptr, rfl⟩ := List.exists_cons_of_ne_nil hptr
  have hpercent : c ≠ 0x25 := by rintro rfl; cases hc
  have hescape : c ≠ 0x1B := by rintro rfl; cases hc
  rw [printkLoop, if_neg h0, if_neg hpercent, if_neg hescape, putstrCalls_char, if_neg h0]
  rfl

end

/-! Colors and arguments. -/

/-- The color word of a pair of colors. -/
def Colors.word (colors : Colors) : BitVec 64 := makeFgBg colors.fg colors.bg

theorem makeFgBg_toNat (fg bg : BitVec 32) : (makeFgBg fg bg).toNat = fg.toNat * 2^32 + bg.toNat := by
  have happend : (makeFgBg fg bg).toNat = fg.toNat <<< 32 ||| bg.toNat := BitVec.toNat_append fg bg
  rw [happend, ← Nat.shiftLeft_add_eq_or_of_lt bg.isLt, Nat.shiftLeft_eq]

theorem putstrCall_word (colors : Colors) (c : Byte) : putstrCall colors.word c = charCall (c, colors) := by
  have hfg : extractFg colors.word = colors.fg := by
    apply BitVec.eq_of_toNat_eq
    rw [extractFg, BitVec.toNat_setWidth, BitVec.toNat_ushiftRight, Colors.word, makeFgBg_toNat,
      Nat.shiftRight_eq_div_pow]
    omega
  have hbg : extractBg colors.word = colors.bg := by
    apply BitVec.eq_of_toNat_eq
    rw [extractBg, BitVec.toNat_setWidth, Colors.word, makeFgBg_toNat]
    omega
  rw [putstrCall, hfg, hbg]
  rfl

theorem text_calls (text : List Byte) (colors : Colors) :
    text.map (putstrCall colors.word) = (text.map (fun c => (c, colors))).map charCall := by
  rw [List.map_map]
  exact List.map_congr_left (fun c _ => putstrCall_word colors c)

theorem printkColor_word (colors : Colors) (code : Byte) :
    printkColor colors.word code = (colors.switch code).word := by
  unfold printkColor Colors.switch
  split_ifs <;> rfl

section
variable {ds : List Directive} {args : List PrintkArg}

theorem fits_takes {d : Directive} {kind : ArgKind} (hd : d.takes = some kind) (h : Fits (d :: ds) args) :
    ∃ arg rest, args = arg :: rest ∧ arg.kind = kind ∧ Fits ds rest := by
  rw [Fits, List.filterMap_cons_some hd] at h
  cases args with
  | nil => exact absurd h (by simp)
  | cons arg rest =>
    obtain ⟨hkind, hrest⟩ := List.cons_prefix_cons.mp h
    exact ⟨arg, rest, rfl, hkind.symm, hrest⟩

theorem fits_none {d : Directive} (hd : d.takes = none) (h : Fits (d :: ds) args) : Fits ds args := by
  rwa [Fits, List.filterMap_cons_none hd] at h

end

theorem opens_eq_false {c : Byte} (hpercent : c ≠ 0x25) (hescape : c ≠ 0x1B) : opens c = false := by
  rw [opens, beq_false_of_ne hpercent, beq_false_of_ne hescape]
  rfl

theorem denote_nothing {letter : Byte} (h : conversionOf letter = .nothing) (ds : List Directive)
    (args : List PrintkArg) (colors : Colors) :
    denote (.convert letter :: ds) args colors = denote ds args colors := by
  cases args <;> rw [denote, if_pos h]

theorem denote_takes {letter : Byte} {kind : ArgKind} (h : (conversionOf letter).takes = some kind)
    (ds : List Directive) (arg : PrintkArg) (args : List PrintkArg) (colors : Colors) :
    denote (.convert letter :: ds) (arg :: args) colors =
      ((conversionOf letter).text arg).map (fun c => (c, colors)) ++ denote ds args colors := by
  have hsome : conversionOf letter ≠ .nothing := by
    intro hnothing
    rw [hnothing] at h
    cases h
  rw [denote, if_neg hsome]

/-- The `switch` on arguments that fit: it prints the text of the conversion and
    leaves arguments that fit the rest. -/
theorem printkSwitch_fits {bufs : NumBufs} {args : List PrintkArg} {letter : Byte} {ds : List Directive}
    (hwf : bufs.Wf) (hfits : Fits (.convert letter :: ds) args) (colors : Colors) :
    ∃ (bufs' : NumBufs) (args' : List PrintkArg) (text : List Byte), bufs'.Wf ∧ Fits ds args' ∧
      printkSwitch bufs args colors.word letter = some (bufs', args', text.map (putstrCall colors.word)) ∧
      denote (.convert letter :: ds) args colors = text.map (fun c => (c, colors)) ++ denote ds args' colors := by
  cases htakes : (conversionOf letter).takes with
  | none =>
    have hnothing := (takes_eq_none _).mp htakes
    exact ⟨bufs, args, [], hwf, fits_none (d := .convert letter) htakes hfits, printkSwitch_nothing hnothing,
      denote_nothing hnothing ds args colors⟩
  | some kind =>
    obtain ⟨arg, args, rfl, rfl, hfits⟩ := fits_takes (d := .convert letter) htakes hfits
    obtain ⟨bufs', hwf', hswitch⟩ := printkSwitch_takes hwf htakes
    exact ⟨bufs', args, _, hwf', hfits, hswitch, denote_takes htakes ds arg args colors⟩

/-! The whole loop, by the directives. -/

theorem chars_behind {c d : Byte} {fmt : List Byte} (h0 : ∀ x ∈ c :: d :: fmt, x ≠ 0) : ∀ x ∈ fmt, x ≠ 0 :=
  fun x hx => h0 x (List.mem_cons_of_mem _ (List.mem_cons_of_mem _ hx))

theorem length_next (pos : Nat) (c : Byte) (fmt : List Byte) : pos + (c :: fmt).length = pos + 1 + fmt.length := by
  rw [List.length_cons]
  omega

theorem length_behind (pos : Nat) (c d : Byte) (fmt : List Byte) :
    pos + (c :: d :: fmt).length = pos + 2 + fmt.length := by
  rw [length_next, length_next]

theorem reads_pair (pos n : Nat) : ∀ i ∈ [pos, pos + 1], i ≤ pos + 2 + n := by
  simp only [List.mem_cons, List.not_mem_nil, or_false]
  omega

/-- The run ends with these calls, and has read nothing behind `last`. -/
def Renders (run : Option (NumBufs × List PutCall) × List Nat) (calls : List PutCall) (last : Nat) : Prop :=
  (∃ bufs : NumBufs, bufs.Wf ∧ run.1 = some (bufs, calls)) ∧ ∀ i ∈ run.2, i ≤ last

theorem Renders.stop {bufs : NumBufs} (hwf : bufs.Wf) (pos : Nat) : Renders (some (bufs, []), [pos]) [] pos :=
  ⟨⟨bufs, hwf, rfl⟩, fun _ hi => Nat.le_of_eq (List.mem_singleton.mp hi)⟩

theorem Renders.more {run : Option (NumBufs × List PutCall) × List Nat} {calls : List PutCall} {last : Nat}
    (h : Renders run calls last) (first : List PutCall) (reads : List Nat) (hreads : ∀ i ∈ reads, i ≤ last) :
    Renders (run.1.map (fun r => (r.1, first ++ r.2)), reads ++ run.2) (first ++ calls) last := by
  obtain ⟨⟨bufs, hwf, hrun⟩, hread⟩ := h
  refine ⟨⟨bufs, hwf, ?_⟩, ?_⟩
  · rw [hrun]
    rfl
  · intro i hi
    rcases List.mem_append.mp hi with hi | hi
    · exact hreads i hi
    · exact hread i hi

theorem Renders.reads {run : Option (NumBufs × List PutCall) × List Nat} {calls : List PutCall} {last : Nat}
    (h : Renders run calls last) (reads : List Nat) (hreads : ∀ i ∈ reads, i ≤ last) :
    Renders (run.1, reads ++ run.2) calls last := by
  have hmore := h.more [] reads hreads
  have hsame : (fun r : NumBufs × List PutCall => (r.1, [] ++ r.2)) = id := rfl
  rwa [hsame, Option.map_id, List.nil_append] at hmore

/-- A complete format is rendered as it is read, up to its end. -/
theorem printkLoop_renders (rest fmt : List Byte) : ∀ (pos : Nat) (colors : Colors) {bufs : NumBufs}
    {args : List PrintkArg}, (∀ c ∈ fmt, c ≠ 0) → Complete fmt → Fits (directives fmt) args → bufs.Wf →
    Renders (printkLoop (fmt ++ 0 :: rest) pos colors.word bufs args)
      ((denote (directives fmt) args colors).map charCall) (pos + fmt.length) := by
  induction fmt using directives.induct with
  | case1 =>
    intro pos colors bufs args _ _ _ hwf
    rw [List.nil_append, printkLoop_end]
    exact Renders.stop hwf pos
  | case2 c hc =>
    intro pos colors bufs args _ hcomplete
    rw [complete_single, hc] at hcomplete
    cases hcomplete
  | case3 c hc =>
    intro pos colors bufs args h0 _ _ hwf
    have hplain : opens c = false := by simpa using hc
    rw [List.singleton_append, printkLoop_plain (h0 c List.mem_cons_self) hplain (by simp), printkLoop_end,
      directives, if_neg hc, putstrCall_word]
    exact (Renders.stop hwf (pos + 1)).more [charCall (c, colors)] [pos] (by simp)
  | case4 d fmt ih =>
    intro pos colors bufs args h0 hcomplete hfits hwf
    rw [complete_pair rfl] at hcomplete
    rw [directives, if_pos rfl] at hfits ⊢
    obtain ⟨bufs', args', text, hwf', hfits, hswitch, hdenote⟩ := printkSwitch_fits hwf hfits colors
    rw [length_behind, List.cons_append, List.cons_append, printkLoop_convert hswitch, hdenote, List.map_append,
      text_calls]
    exact (ih _ _ (chars_behind h0) hcomplete hfits hwf').more _ [pos, pos + 1] (reads_pair pos _)
  | case5 d fmt hne ih =>
    intro pos colors bufs args h0 hcomplete hfits hwf
    rw [complete_pair rfl] at hcomplete
    rw [directives, if_neg hne, if_pos rfl] at hfits ⊢
    rw [length_behind, List.cons_append, List.cons_append, printkLoop_color, printkColor_word, denote]
    exact (ih _ _ (chars_behind h0) hcomplete (fits_none rfl hfits) hwf).reads [pos, pos + 1] (reads_pair pos _)
  | case6 c d fmt hpercent hescape ih =>
    intro pos colors bufs args h0 hcomplete hfits hwf
    have hplain := opens_eq_false hpercent hescape
    rw [complete_plain hplain] at hcomplete
    rw [directives, if_neg hpercent, if_neg hescape] at hfits ⊢
    rw [length_next, List.cons_append, printkLoop_plain (h0 c List.mem_cons_self) hplain (by simp), denote, List.map_cons,
      putstrCall_word]
    exact (ih _ _ (fun c hc => h0 c (List.mem_cons_of_mem _ hc)) hcomplete (fits_none rfl hfits) hwf).more
      [charCall (c, colors)] [pos] (by simp; omega)

/-- The character behind the end is read when the format is not complete. -/
theorem printkLoop_over (rest fmt : List Byte) : ∀ (pos : Nat) (colors : Colors) {bufs : NumBufs}
    {args : List PrintkArg}, (∀ c ∈ fmt, c ≠ 0) → ¬ Complete fmt → Fits (directives fmt) args → bufs.Wf →
    pos + fmt.length + 1 ∈ (printkLoop (fmt ++ 0 :: rest) pos colors.word bufs args).2 := by
  induction fmt using directives.induct with
  | case1 =>
    intro pos colors bufs args _ hcomplete
    exact absurd (by decide) hcomplete
  | case2 c hc =>
    -- the end of the format is the letter of its last directive
    intro pos colors bufs args _ _ _ _
    by_cases hpercent : c = 0x25
    · subst hpercent
      rw [List.singleton_append, printkLoop_convert (printkSwitch_nothing (by decide))]
      exact List.mem_append_right _ (printkLoop_reads rest)
    · have hescape : c = 0x1B := by
        apply Classical.byContradiction
        intro hescape
        rw [opens_eq_false hpercent hescape] at hc
        cases hc
      subst hescape
      rw [List.singleton_append, printkLoop_color]
      exact List.mem_append_right _ (printkLoop_reads rest)
  | case3 c hc =>
    intro pos colors bufs args _ hcomplete
    rw [complete_single, Bool.not_eq_false] at hcomplete
    exact absurd hcomplete hc
  | case4 d fmt ih =>
    intro pos colors bufs args h0 hcomplete hfits hwf
    rw [complete_pair rfl] at hcomplete
    rw [directives, if_pos rfl] at hfits
    obtain ⟨bufs', args', text, hwf', hfits, hswitch, _⟩ := printkSwitch_fits hwf hfits colors
    rw [length_behind, List.cons_append, List.cons_append, printkLoop_convert hswitch]
    exact List.mem_append_right _ (ih _ _ (chars_behind h0) hcomplete hfits hwf')
  | case5 d fmt hne ih =>
    intro pos colors bufs args h0 hcomplete hfits hwf
    rw [complete_pair rfl] at hcomplete
    rw [directives, if_neg hne, if_pos rfl] at hfits
    rw [length_behind, List.cons_append, List.cons_append, printkLoop_color, printkColor_word]
    exact List.mem_append_right _ (ih _ _ (chars_behind h0) hcomplete (fits_none rfl hfits) hwf)
  | case6 c d fmt hpercent hescape ih =>
    intro pos colors bufs args h0 hcomplete hfits hwf
    have hplain := opens_eq_false hpercent hescape
    rw [complete_plain hplain] at hcomplete
    rw [directives, if_neg hpercent, if_neg hescape] at hfits
    rw [length_next, List.cons_append, printkLoop_plain (h0 c List.mem_cons_self) hplain (by simp)]
    exact List.mem_cons_of_mem _
      (ih _ _ (fun c hc => h0 c (List.mem_cons_of_mem _ hc)) hcomplete (fits_none rfl hfits) hwf)

/-! The same format through the console's strings, for strings without a 0. -/

/-- What a call does to the console. -/
def putCall (font : BitVec 64 → BitVec 16) (fb : Framebuffer) (con : Console) : PutCall → Console
  | .newline => newline fb con
  | .putch c bg fg =>
    moveCursor { con with writes := con.writes ++ putch font (con.cx % 2^32) (con.cy % 2^32) c bg fg }
      (con.cx + fontWidth) con.cy

theorem putstrChar_eq (font : BitVec 64 → BitVec 16) (fb : Framebuffer) (color : BitVec 64) (con : Console)
    (c : Byte) : putstrChar font fb color con c = putCall font fb con (putstrCall color c) := by
  rw [putstrChar, putstrCall]
  split <;> rfl

/-- No string among the arguments has a 0. -/
def NoNul (args : List PrintkArg) : Prop := ∀ str, .str str ∈ args → ∀ c ∈ str, c ≠ 0

section
variable {args : List PrintkArg} {letter : Byte}

theorem printkConvert_takes {arg : PrintkArg} (h0 : NoNul (arg :: args))
    (hkind : (conversionOf letter).takes = some arg.kind) :
    printkConvert letter (arg :: args) = some ((conversionOf letter).text arg, args) := by
  unfold printkConvert
  rw [conversionOf] at hkind ⊢
  cases arg with
  | str str =>
    have hall : str.takeWhile (fun c => decide (c ≠ 0)) = str :=
      List.takeWhile_eq_self_iff.mpr (fun c hc => decide_eq_true (h0 str List.mem_cons_self c hc))
    split_ifs at hkind ⊢ with hs hd hx hX hc <;> try cases hkind
    rw [Conversion.text, hall]
  | num number =>
    split_ifs at hkind ⊢ with hs hd hx hX hc <;> try cases hkind
    all_goals simp only [Conversion.text, Conversion.numberText, dec2str_eq, hex2str_eq]

theorem printkConvert_nothing (h : conversionOf letter = .nothing) :
    printkConvert letter args = some ([], args) := by
  rw [conversionOf] at h
  split_ifs at h with hs hd hx hX hc
  unfold printkConvert
  rw [if_neg hs, if_neg hd, if_neg hx, if_neg hX, if_neg hc]

end

theorem printkStrings_convert {d : Byte} {fmt str : List Byte} {args args' : List PrintkArg} {color : BitVec 64}
    {strs : List (BitVec 64 × List Byte)} (h : printkConvert d args = some (str, args'))
    (hrest : printkStrings fmt args' color = some strs) :
    printkStrings (0x25 :: d :: fmt) args color = some ((color, str) :: strs) := by
  rw [printkStrings, if_pos rfl, h]
  exact congrArg (Option.bind · (fun rest => some ((color, str) :: rest))) hrest

/-- The same for the console's strings. -/
theorem printkConvert_fits {args : List PrintkArg} {letter : Byte} {ds : List Directive}
    (hfits : Fits (.convert letter :: ds) args) (h0 : NoNul args) (colors : Colors) :
    ∃ (args' : List PrintkArg) (text : List Byte), NoNul args' ∧ Fits ds args' ∧
      printkConvert letter args = some (text, args') ∧
      denote (.convert letter :: ds) args colors = text.map (fun c => (c, colors)) ++ denote ds args' colors := by
  cases htakes : (conversionOf letter).takes with
  | none =>
    have hnothing := (takes_eq_none _).mp htakes
    exact ⟨args, [], h0, fits_none (d := .convert letter) htakes hfits, printkConvert_nothing hnothing,
      denote_nothing hnothing ds args colors⟩
  | some kind =>
    obtain ⟨arg, args, rfl, rfl, hfits⟩ := fits_takes (d := .convert letter) htakes hfits
    exact ⟨args, _, fun str hstr => h0 str (List.mem_cons_of_mem _ hstr), hfits, printkConvert_takes h0 htakes,
      denote_takes htakes ds arg args colors⟩

/-- The characters of the strings are those the directives stand for. -/
theorem printkStrings_denote (fmt : List Byte) : ∀ (colors : Colors) {args : List PrintkArg}, Complete fmt →
    Fits (directives fmt) args → NoNul args → ∃ strs, printkStrings fmt args colors.word = some strs ∧
      strs.flatMap (fun str => str.2.map (putstrCall str.1)) = (denote (directives fmt) args colors).map charCall := by
  induction fmt using directives.induct with
  | case1 => exact fun _ _ _ _ _ => ⟨[], rfl, rfl⟩
  | case2 c hc =>
    intro colors args hcomplete
    rw [complete_single, hc] at hcomplete
    cases hcomplete
  | case3 c hc =>
    intro colors args _ _ _
    have hplain : ¬ (c = 0x25 ∨ c = 0x1B) := by
      rintro (rfl | rfl)
      · exact hc rfl
      · exact hc rfl
    refine ⟨[(colors.word, [c])], by rw [printkStrings, if_neg hplain], ?_⟩
    rw [directives, if_neg hc, denote, List.flatMap_singleton, List.map_singleton, putstrCall_word]
    rfl
  | case4 d fmt ih =>
    intro colors args hcomplete hfits h0
    rw [complete_pair rfl] at hcomplete
    rw [directives, if_pos rfl] at hfits ⊢
    obtain ⟨args', text, h0', hfits, hconvert, hdenote⟩ := printkConvert_fits hfits h0 colors
    obtain ⟨strs, hstrs, hchars⟩ := ih colors hcomplete hfits h0'
    refine ⟨_, printkStrings_convert hconvert hstrs, ?_⟩
    rw [List.flatMap_cons, hchars, hdenote, List.map_append, text_calls]
  | case5 d fmt hne ih =>
    intro colors args hcomplete hfits h0
    rw [complete_pair rfl] at hcomplete
    rw [directives, if_neg hne, if_pos rfl] at hfits ⊢
    rw [printkStrings, if_neg hne, if_pos rfl, printkColor_word, denote]
    exact ih _ hcomplete (fits_none rfl hfits) h0
  | case6 c d fmt hpercent hescape ih =>
    intro colors args hcomplete hfits h0
    rw [complete_plain (opens_eq_false hpercent hescape)] at hcomplete
    rw [directives, if_neg hpercent, if_neg hescape] at hfits ⊢
    obtain ⟨strs, hstrs, hchars⟩ := ih colors hcomplete (fits_none rfl hfits) h0
    refine ⟨(colors.word, [c]) :: strs, ?_, ?_⟩
    · rw [printkStrings, if_neg hpercent, if_neg hescape, hstrs]
      rfl
    · rw [List.flatMap_cons, hchars, denote, List.map_singleton, putstrCall_word]
      rfl

/-- What `printk` draws on the console are its calls. -/
theorem printk_draws (font : BitVec 64 → BitVec 16) (fb : Framebuffer) (con : Console) {fmt : List Byte}
    {args : List PrintkArg} (hcomplete : Complete fmt) (hfits : Fits (directives fmt) args) (h0 : NoNul args) :
    printk font fb con fmt args =
      some (((denote (directives fmt) args ⟨defaultFg, defaultBg⟩).map charCall).foldl (putCall font fb) con) := by
  obtain ⟨strs, hstrs, hchars⟩ := printkStrings_denote fmt ⟨defaultFg, defaultBg⟩ hcomplete hfits h0
  have hstep : (fun con (c : BitVec 64 × Byte) => putstrChar font fb c.1 con c.2) =
      fun con c => putCall font fb con (putstrCall c.1 c.2) := by
    funext con c
    exact putstrChar_eq font fb c.1 con c.2
  have hflat : (strs.flatMap (fun str => str.2.map (fun c => (str.1, c)))).map (fun c => putstrCall c.1 c.2) =
      strs.flatMap (fun str => str.2.map (putstrCall str.1)) := by
    rw [List.map_flatMap]
    simp only [List.map_map]
    rfl
  have hword : makeFgBg defaultFg defaultBg = Colors.word ⟨defaultFg, defaultBg⟩ := rfl
  rw [printk, hword, hstrs, Option.map_some, putstr_chars, hstep, ← hchars, ← hflat, List.foldl_map]

/-- The reference interpretation of a complete format, whatever was in the static
    buffers and is behind the format. -/
theorem printk_denote (fmt rest : List Byte) (bufs : NumBufs) (args : List PrintkArg) (h0 : ∀ c ∈ fmt, c ≠ 0)
    (hcomplete : Complete fmt) (hfits : Fits (directives fmt) args) (hwf : bufs.Wf) :
    ∃ bufs' : NumBufs, bufs'.Wf ∧ (printkCalls (fmt ++ 0 :: rest) bufs args).1 =
      some (bufs', (denote (directives fmt) args ⟨0x899499, 0x000000⟩).map charCall) :=
  (printkLoop_renders rest fmt 0 ⟨defaultFg, defaultBg⟩ h0 hcomplete hfits hwf).1

/-- `\0332n=%X\n` with 10 is a red `n=0A` and a new line. -/
theorem printk_denote_panic :
    ∃ bufs' : NumBufs, bufs'.Wf ∧
      (printkCalls ([0x1B, 0x32, 0x6E, 0x3D, 0x25, 0x58, 0x0A] ++ 0 :: [])
        ⟨List.replicate 80 0, List.replicate 80 0⟩ [.num 10]).1 =
      some (bufs', [.putch 0x6E 0 0xFF0000, .putch 0x3D 0 0xFF0000, .putch 0x30 0 0xFF0000,
        .putch 0x41 0 0xFF0000, .newline]) :=
  printk_denote [0x1B, 0x32, 0x6E, 0x3D, 0x25, 0x58, 0x0A] [] ⟨List.replicate 80 0, List.replicate 80 0⟩ [.num 10]
    (by decide) (by decide) (by decide) ⟨List.length_replicate, List.length_replicate⟩

/-- `printk` stops at the end of the format just when the format is complete. -/
theorem printk_stops_iff (fmt rest : List Byte) (bufs : NumBufs) (args : List PrintkArg) (h0 : ∀ c ∈ fmt, c ≠ 0)
    (hfits : Fits (directives fmt) args) (hwf : bufs.Wf) :
    ((printkCalls (fmt ++ 0 :: rest) bufs args).1 ≠ none ∧
      ∀ i ∈ (printkCalls (fmt ++ 0 :: rest) bufs args).2, i ≤ fmt.length) ↔ Complete fmt := by
  refine ⟨?_, ?_⟩
  · rintro ⟨_, hreads⟩
    apply Classical.byContradiction
    intro hcomplete
    have hover := hreads _ (printkLoop_over rest fmt 0 ⟨defaultFg, defaultBg⟩ h0 hcomplete hfits hwf)
    omega
  · intro hcomplete
    obtain ⟨⟨bufs', _, hrun⟩, hreads⟩ :=
      printkLoop_renders rest fmt 0 ⟨defaultFg, defaultBg⟩ h0 hcomplete hfits hwf
    refine ⟨?_, ?_⟩
    · intro hnone
      cases hrun.symm.trans hnone
    · intro i hi
      simpa using hreads i hi

theorem printk_stops_hundred :
    (printkCalls ([0x31, 0x30, 0x30, 0x25, 0x25] ++ 0 :: []) ⟨List.replicate 80 0, List.replicate 80 0⟩ []).1 ≠ none ∧
      ∀ i ∈ (printkCalls ([0x31, 0x30, 0x30, 0x25, 0x25] ++ 0 :: [])
        ⟨List.replicate 80 0, List.replicate 80 0⟩ []).2, i ≤ 5 :=
  (printk_stops_iff [0x31, 0x30, 0x30, 0x25, 0x25] [] ⟨List.replicate 80 0, List.replicate 80 0⟩ []
    (by decide) (by decide) ⟨List.length_replicate, List.length_replicate⟩).mpr (by decide)

/-- `100%` is read on behind its end. -/
theorem printk_percent_over :
    ¬ ((printkCalls ([0x31, 0x30, 0x30, 0x25] ++ 0 :: []) ⟨List.replicate 80 0, List.replicate 80 0⟩ []).1 ≠ none ∧
      ∀ i ∈ (printkCalls ([0x31, 0x30, 0x30, 0x25] ++ 0 :: [])
        ⟨List.replicate 80 0, List.replicate 80 0⟩ []).2, i ≤ 4) := by
  rintro ⟨_, hreads⟩
  exact absurd (hreads 5 (by decide)) (by decide)

end Qnixx
