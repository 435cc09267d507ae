import Sustemu.Lib.Update
import Mathlib.Data.List.Basic
import Mathlib.Data.Nat.Digits.Defs

/-!
# `printf` and `sprintf`

`lib/stdio.c`, the output functions of the guest's runtime. A C string is the
list of its characters before the terminator; `putchar` appends to what the
serial port has received, and `sprintf` writes a buffer.
-/

set_option autoImplicit false

namespace Sustemu.Runtime

/-! ## Numbers -/

/-- The loop over the digits of `int2str`; an `int` has at most ten. -/
def int2strDigits (isNeg : Bool) : Nat → Int → Nat → (Nat → Char) → Nat × (Nat → Char)
  | 0, _, index, str => (index, str)
  | turns + 1, num, index, str =>
      if num = 0 then (index, str)
      else
        let digit := if isNeg then -(num.tmod 10) else num.tmod 10
        int2strDigits isNeg turns (num.tdiv 10) (index + 1) (Lib.setAt str index (Char.ofNat (digit + 0x30).toNat))

/-- The loop that swaps the ends, from `i` on. -/
def swapEnds (index appendix : Nat) : Nat → Nat → (Nat → Char) → Nat → Char
  | 0, _, str => str
  | turns + 1, i, str =>
      let tmp := str (index - i - appendix)
      let str := Lib.setAt str (index - i - appendix) (str i)
      swapEnds index appendix turns (i + 1) (Lib.setAt str i tmp)

/-- `int2str`: the length and the buffer. -/
def int2str (num : Int) (str : Nat → Char) : Nat × (Nat → Char) :=
  let (index, str) := if num = 0 then (1, Lib.setAt str 0 '0') else (0, str)
  let isNeg := decide (num < 0)
  let (index, str) := if isNeg then (index + 1, Lib.setAt str index '-') else (index, str)
  let appendix := if isNeg then 0 else 1
  let (index, str) := int2strDigits isNeg 10 num index str
  let str := swapEnds index appendix ((index + isNeg.toNat) / 2 - isNeg.toNat) isNeg.toNat str
  (index, Lib.setAt str index '\x00')

/-- The loop over the digits of `int2str_hex`; a `uint32_t` has at most eight. -/
def int2strHexDigits : Nat → BitVec 32 → Nat → (Nat → Char) → Nat × (Nat → Char)
  | 0, _, index, str => (index, str)
  | turns + 1, num, index, str =>
      if num = 0 then (index, str)
      else
        let tmp := (num % 16).toNat
        let c := if tmp < 10 then Char.ofNat (tmp + 0x30) else Char.ofNat (tmp + 'a'.toNat - 10)
        int2strHexDigits turns (num / 16) (index + 1) (Lib.setAt str index c)

/-- `int2str_hex`. -/
def int2strHex (numSigned : Int) (str : Nat → Char) : Nat × (Nat → Char) :=
  let num := BitVec.ofInt 32 numSigned
  let (index, str) := if num = 0 then (1, Lib.setAt str 0 '0') else (0, str)
  let (index, str) := int2strHexDigits 8 num index str
  let str := swapEnds index 1 (index / 2) 0 str
  (index, Lib.setAt str index '\x00')

/-- The characters that the callers copy from the buffer. -/
def written (text : Nat × (Nat → Char)) : List Char := (List.range text.1).map text.2

/-- `char tmp2[500]`. -/
def tmp2 (_ : Nat) : Char := '\x00'

/-! ## The format loops -/

/-- A string in memory, before its terminator. -/
structure CString where
  text : List Char
  terminated : '\x00' ∉ text

/-- An argument of a variadic call. -/
inductive Arg where
  | int (num : BitVec 32)
  | str (s : CString)

/-- Where the loop of `printf` stands. -/
structure Printed where
  serial : List Char
  index : Int

def Printed.putchar (p : Printed) (c : Char) : Printed := { p with serial := p.serial ++ [c] }

/-- `putchar(c); index++`. -/
def Printed.emit (p : Printed) (c : Char) : Printed := { p.putchar c with index := p.index + 1 }

/-- The loop of `printf` on what is left of the format. There is no result where an argument is missing or of another type. -/
def printfLoop : List Char → List Arg → Printed → Option (Printed × Int)
  | [], _, p => some (p, p.index)
  | '%' :: c :: fmt, args, p =>
      if c = 'd' then
        match args with
        | .int num :: args => printfLoop fmt args ((written (int2str num.toInt tmp2)).foldl Printed.emit p)
        | _ => none
      else if c = 'x' then
        match args with
        | .int num :: args => printfLoop fmt args ((written (int2strHex num.toInt tmp2)).foldl Printed.emit p)
        | _ => none
      else if c = 's' then
        match args with
        | .str s :: args => printfLoop fmt args (s.text.foldl Printed.emit p)
        | _ => none
      else if c = '%' then printfLoop fmt args (p.putchar '%')
      else some (p, -1)
  | c :: fmt, args, p => printfLoop fmt args (p.emit c)

/-- `printf`: what the serial port receives, and the value returned. -/
def printf (fmt : List Char) (args : List Arg) : Option (List Char × Int) :=
  (printfLoop fmt args ⟨[], 0⟩).map fun (p, result) => (p.serial, result)

/-- Where the loop of `sprintf` stands. -/
structure Stored where
  out : Nat → Char
  index : Nat

/-- `out[index] = c; index++`. -/
def Stored.emit (b : Stored) (c : Char) : Stored := ⟨Lib.setAt b.out b.index c, b.index + 1⟩

def sprintfLoop : List Char → List Arg → Stored → Option (Stored × Int)
  | [], _, b => some (⟨Lib.setAt b.out b.index '\x00', b.index⟩, b.index)
  | '%' :: c :: fmt, args, b =>
      if c = 'd' then
        match args with
        | .int num :: args => sprintfLoop fmt args ((written (int2str num.toInt tmp2)).foldl Stored.emit b)
        | _ => none
      else if c = 's' then
        match args with
        | .str s :: args => sprintfLoop fmt args (s.text.foldl Stored.emit b)
        | _ => none
      else if c = '%' then sprintfLoop fmt args (b.emit '%')
      else some (b, -1)
  | c :: fmt, args, b => sprintfLoop fmt args (b.emit c)

/-- `sprintf`: the buffer and the value returned. -/
def sprintf (out : Nat → Char) (fmt : List Char) (args : List Arg) : Option ((Nat → Char) × Int) :=
  (sprintfLoop fmt args ⟨out, 0⟩).map fun (b, result) => (b.out, result)

/-! ## What the numbers look like -/

def digitChar (digit : Nat) : Char := Char.ofNat (digit + 0x30)

/-- The decimal numeral. -/
def decimal (num : Int) : List Char :=
  if num = 0 then ['0']
  else (if num < 0 then ['-'] else []) ++ (Nat.digits 10 num.natAbs).reverse.map digitChar

theorem range_map_update {α : Type} (str : Nat → α) (index : Nat) (c : α) :
    (List.range (index + 1)).map (Lib.setAt str index c) = (List.range index).map str ++ [c] := by
  rw [List.range_succ, List.map_append, List.map_singleton, Lib.setAt_self]
  refine congrArg (· ++ [c]) (List.map_congr_left fun i member => ?_)
  exact Lib.setAt_of_ne (Nat.ne_of_lt (List.mem_range.mp member)) _ _

/-- With the sign of the number removed, C's division is the one of the natural numbers. -/
theorem digit_eq {isNeg : Bool} {num : Int} (sign : if isNeg then num ≤ 0 else 0 ≤ num) :
    (if isNeg then -(num.tmod 10) else num.tmod 10) = ((num.natAbs % 10 : Nat) : Int) ∧
      if isNeg then num.tdiv 10 ≤ 0 else 0 ≤ num.tdiv 10 := by
  cases isNeg with
  | true =>
      obtain ⟨n, rfl⟩ := Int.exists_eq_neg_ofNat sign
      simp only [if_true, Int.neg_tmod, Int.neg_tdiv, Int.natAbs_neg, Int.natAbs_natCast, neg_neg]
      exact ⟨rfl, Int.neg_nonpos_of_nonneg (Int.natCast_nonneg (n / 10))⟩
  | false =>
      obtain ⟨n, rfl⟩ := Int.eq_ofNat_of_zero_le sign
      exact ⟨rfl, Int.natCast_nonneg (n / 10)⟩

theorem int2strDigits_eq (isNeg : Bool) (turns : Nat) (num : Int) (index : Nat) (str : Nat → Char)
    (sign : if isNeg then num ≤ 0 else 0 ≤ num) (small : num.natAbs < 10 ^ turns) :
    (int2strDigits isNeg turns num index str).1 = index + (Nat.digits 10 num.natAbs).length ∧
      written (int2strDigits isNeg turns num index str) =
        (List.range index).map str ++ (Nat.digits 10 num.natAbs).map digitChar := by
  induction turns generalizing num index str with
  | zero =>
      have zero : num.natAbs = 0 := by simpa using small
      simp [int2strDigits, written, zero]
  | succ turns ih =>
      unfold int2strDigits
      by_cases zero : num = 0
      · simp [zero, written]
      · rw [if_neg zero]
        have positive : 0 < num.natAbs := Int.natAbs_pos.mpr zero
        have quotient : (num.tdiv 10).natAbs = num.natAbs / 10 := Int.natAbs_tdiv num 10
        obtain ⟨digit, sign'⟩ := digit_eq sign
        have small' : (num.tdiv 10).natAbs < 10 ^ turns := by
          rw [quotient]
          exact Nat.div_lt_of_lt_mul (by rwa [← Nat.pow_succ'])
        obtain ⟨length, text⟩ := ih (num.tdiv 10) (index + 1)
          (Lib.setAt str index (Char.ofNat ((if isNeg then -(num.tmod 10) else num.tmod 10) + 0x30).toNat)) sign' small'
        dsimp only
        rw [length, text, range_map_update, quotient, Nat.digits_def' (by decide) positive, digit]
        refine ⟨by rw [List.length_cons]; omega, ?_⟩
        rw [List.map_cons, List.append_assoc]
        rfl

/-- The swaps mirror the cells around the middle. -/
theorem swapEnds_eq (index appendix turns i : Nat) (str : Nat → Char) (meet : 2 * (i + turns) ≤ index - appendix + 1) (j : Nat) :
    swapEnds index appendix turns i str j =
      if i ≤ j ∧ i + j ≤ index - appendix ∧ (j < i + turns ∨ index - appendix < i + turns + j) then str (index - appendix - j)
      else str j := by
  induction turns generalizing i str with
  | zero =>
      unfold swapEnds
      split
      · next inside => exact congrArg str (by omega)
      · rfl
  | succ turns ih =>
      unfold swapEnds
      dsimp only
      rw [ih (i + 1) _ (by omega)]
      simp only [Lib.setAt_apply]
      grind

/-- The text between the sign and the end is reversed. -/
theorem written_swapEnds (low index : Nat) (str : Nat → Char) (sign : low ≤ 1) (inside : low ≤ index) :
    (List.range index).map (swapEnds index (1 - low) ((index + low) / 2 - low) low str) =
      (List.range low).map str ++ (((List.range index).map str).drop low).reverse := by
  refine List.ext_getElem (by simp; omega) fun j left _ => ?_
  rw [List.length_map, List.length_range] at left
  rw [List.getElem_map, List.getElem_range, swapEnds_eq _ _ _ _ _ (by omega)]
  simp only [List.getElem_append, List.length_map, List.length_range, List.getElem_reverse, List.getElem_drop, List.getElem_map,
    List.getElem_range, List.length_drop]
  by_cases before : j < low
  · rw [dif_pos before, if_neg (by omega)]
  · rw [dif_neg before]
    split <;> exact congrArg str (by omega)

theorem written_end (index : Nat) (str : Nat → Char) (c : Char) :
    written (index, Lib.setAt str index c) = (List.range index).map str :=
  List.map_congr_left fun _ member => Lib.setAt_of_ne (Nat.ne_of_lt (List.mem_range.mp member)) _ _

theorem written_mirrored {low : Nat} (text : Nat × (Nat → Char)) (sign : low ≤ 1) (inside : low ≤ text.1) :
    written (text.1, Lib.setAt (swapEnds text.1 (1 - low) ((text.1 + low) / 2 - low) low text.2) text.1 '\x00') =
      (written text).take low ++ ((written text).drop low).reverse := by
  rw [written_end, written_swapEnds low text.1 text.2 sign inside]
  unfold written
  rw [← List.map_take, List.take_range, Nat.min_eq_left inside]

/-- `int2str` writes the decimal numeral. -/
theorem int2str_decimal (num : BitVec 32) (str : Nat → Char) : written (int2str num.toInt str) = decimal num.toInt := by
  have small : num.toInt.natAbs < 10 ^ 10 := by
    have low := BitVec.le_toInt num
    have high := BitVec.toInt_lt (x := num)
    omega
  generalize num.toInt = num at small
  by_cases zero : num = 0
  · subst zero
    exact written_mirrored (1, Lib.setAt str 0 '0') (Nat.zero_le 1) (Nat.zero_le _)
  · unfold int2str decimal
    rw [if_neg zero, if_neg zero]
    by_cases negative : num < 0
    · have sign : if true then num ≤ 0 else 0 ≤ num := Int.le_of_lt negative
      obtain ⟨length, text⟩ := int2strDigits_eq true 10 num 1 (Lib.setAt str 0 '-') sign small
      rw [if_pos negative]
      simp only [negative, decide_true, if_true, Bool.toNat_true]
      refine (written_mirrored _ (Nat.le_refl 1) (length ▸ Nat.le_add_right 1 _)).trans ?_
      rw [text]
      simp [List.map_reverse]
    · have sign : if false then num ≤ 0 else 0 ≤ num := Int.not_lt.mp negative
      obtain ⟨length, text⟩ := int2strDigits_eq false 10 num 0 str sign small
      rw [if_neg negative]
      simp only [negative, decide_false, if_false, Bool.toNat_false, Bool.false_eq_true]
      refine (written_mirrored _ (Nat.zero_le 1) (Nat.zero_le _)).trans ?_
      rw [text]
      simp [List.map_reverse]

theorem decimal_terminated (num : Int) : '\x00' ∉ decimal num := by
  unfold decimal
  split
  · decide
  · intro member
    rcases List.mem_append.mp member with sign | digits
    · split at sign <;> simp at sign
    · obtain ⟨digit, from_, zero⟩ := List.mem_map.mp digits
      have small : digit < 10 := Nat.digits_lt_base (by decide) (List.mem_reverse.mp from_)
      have shown : ∀ digit < 10, digitChar digit ≠ '\x00' := by decide
      exact shown digit small zero

/-! ## Formats -/

/-- A part of a format string. -/
inductive Piece where
  | literal (c : { c : Char // c ≠ '%' ∧ c ≠ '\x00' })
  | int
  | str
  | percent
  deriving DecidableEq

def Piece.text : Piece → List Char
  | literal c => [c.val]
  | int => ['%', 'd']
  | str => ['%', 's']
  | percent => ['%', '%']

def format (pieces : List Piece) : List Char := pieces.flatMap Piece.text

/-- The characters of a part, and the arguments it leaves. -/
def Piece.render : Piece → List Arg → Option (List Char × List Arg)
  | literal c, args => some ([c.val], args)
  | int, .int num :: args => some (decimal num.toInt, args)
  | str, .str s :: args => some (s.text, args)
  | percent, args => some (['%'], args)
  | _, _ => none

/-- The characters of a format with its arguments, if they match. -/
def render : List Piece → List Arg → Option (List Char)
  | [], [] => some []
  | [], _ :: _ => none
  | piece :: rest, args => do
      let (chars, args) ← piece.render args
      let text ← render rest args
      return chars ++ text

variable {piece : Piece} {pieces : List Piece} {args args' : List Arg} {chars text : List Char}

theorem render_cons (rendered : render (piece :: pieces) args = some text) : ∃ chars args' tail,
    piece.render args = some (chars, args') ∧ render pieces args' = some tail ∧ text = chars ++ tail := by
  simp only [render, Option.bind_eq_bind, Option.bind_eq_some_iff] at rendered
  obtain ⟨⟨chars, args'⟩, first, tail, later, whole⟩ := rendered
  exact ⟨chars, args', tail, first, later, (Option.some.inj whole).symm⟩

theorem Piece.render_terminated (rendered : piece.render args = some (chars, args')) : '\x00' ∉ chars := by
  revert rendered
  fun_cases Piece.render piece args <;> intro rendered <;> cases rendered
  · simp [(‹{ c : Char // c ≠ '%' ∧ c ≠ '\x00' }›).property.2.symm]
  · exact decimal_terminated _
  · exact CString.terminated _
  · decide

theorem render_terminated (rendered : render pieces args = some text) : '\x00' ∉ text := by
  induction pieces generalizing args text with
  | nil =>
      cases args <;> cases rendered
      simp
  | cons piece pieces ih =>
      obtain ⟨chars, args', tail, first, later, rfl⟩ := render_cons rendered
      intro member
      rcases List.mem_append.mp member with here | there
      · exact Piece.render_terminated first here
      · exact ih later there

/-! ## The two loops -/

theorem Printed.foldl_emit (text : List Char) (p : Printed) : text.foldl Printed.emit p = ⟨p.serial ++ text, p.index + text.length⟩ := by
  induction text generalizing p with
  | nil => simp
  | cons c text ih =>
      rw [List.foldl_cons, ih]
      simp [Printed.emit, Printed.putchar, Int.add_assoc, Int.add_comm 1]

/-- The characters in the buffer up to the index. -/
def Stored.content (b : Stored) : List Char := (List.range b.index).map b.out

theorem Stored.foldl_emit (text : List Char) (b : Stored) : (text.foldl Stored.emit b).content = b.content ++ text ∧
    (text.foldl Stored.emit b).index = b.index + text.length := by
  induction text generalizing b with
  | nil => simp
  | cons c text ih =>
      obtain ⟨stored, index⟩ := ih (b.emit c)
      have first : (b.emit c).content = b.content ++ [c] := range_map_update b.out b.index c
      rw [List.foldl_cons, stored, index, first, List.append_assoc, List.length_cons]
      exact ⟨rfl, Nat.add_right_comm _ _ _⟩

theorem printfLoop_literal {c : Char} (plain : c ≠ '%') (fmt : List Char) (args : List Arg) (p : Printed) :
    printfLoop (c :: fmt) args p = printfLoop fmt args (p.emit c) := by
  cases fmt <;> simp [printfLoop, plain]

theorem sprintfLoop_literal {c : Char} (plain : c ≠ '%') (fmt : List Char) (args : List Arg) (b : Stored) :
    sprintfLoop (c :: fmt) args b = sprintfLoop fmt args (b.emit c) := by
  cases fmt <;> simp [sprintfLoop, plain]

/-- What a part does to `printf`: the characters of `%%` are not counted. -/
theorem printfLoop_piece (rendered : piece.render args = some (chars, args')) (fmt : List Char) (p : Printed) :
    printfLoop (piece.text ++ fmt) args p = printfLoop fmt args'
      ⟨p.serial ++ chars, p.index + chars.length - if piece = .percent then 1 else 0⟩ := by
  cases piece with
  | literal c =>
      cases rendered
      refine (printfLoop_literal c.property.1 fmt args p).trans ?_
      simp [Printed.emit, Printed.putchar]
  | int =>
      rcases args with - | ⟨num | s, args⟩ <;> cases rendered
      simp [Piece.text, printfLoop, int2str_decimal, Printed.foldl_emit]
  | str =>
      rcases args with - | ⟨num | s, args⟩ <;> cases rendered
      simp [Piece.text, printfLoop, Printed.foldl_emit]
  | percent =>
      cases rendered
      simp only [List.length_singleton, if_true, Int.natCast_one, Int.add_sub_cancel]
      rfl

theorem sprintfLoop_piece (rendered : piece.render args = some (chars, args')) (fmt : List Char) (b : Stored) :
    sprintfLoop (piece.text ++ fmt) args b = sprintfLoop fmt args' (chars.foldl Stored.emit b) := by
  cases piece with
  | literal c =>
      cases rendered
      exact sprintfLoop_literal c.property.1 fmt args b
  | int =>
      rcases args with - | ⟨num | s, args⟩ <;> cases rendered
      simp [Piece.text, sprintfLoop, int2str_decimal]
  | str =>
      rcases args with - | ⟨num | s, args⟩ <;> cases rendered
      simp [Piece.text, sprintfLoop]
  | percent =>
      cases rendered
      rfl

theorem printfLoop_spec (rendered : render pieces args = some text) (p : Printed) :
    printfLoop (format pieces) args p =
      some (⟨p.serial ++ text, p.index + text.length - pieces.count .percent⟩, p.index + text.length - pieces.count .percent) := by
  induction pieces generalizing args text p with
  | nil =>
      cases args <;> cases rendered
      simp [format, printfLoop]
  | cons piece pieces ih =>
      obtain ⟨chars, args', tail, first, later, rfl⟩ := render_cons rendered
      have cut : format (piece :: pieces) = piece.text ++ format pieces := List.flatMap_cons
      rw [cut, printfLoop_piece first, ih later, List.append_assoc, List.length_append, List.count_cons]
      have index : p.index + chars.length - (if piece = .percent then 1 else 0) + tail.length - pieces.count .percent =
          p.index + (chars.length + tail.length : Nat) - (pieces.count .percent + if piece == .percent then 1 else 0 : Nat) := by
        by_cases own : piece = .percent <;> simp [own] <;> omega
      rw [index]

theorem sprintfLoop_spec (rendered : render pieces args = some text) (b : Stored) : ∃ b' : Stored,
    sprintfLoop (format pieces) args b = some (b', (b'.index : Int)) ∧ b'.content = b.content ++ text ∧
      b'.index = b.index + text.length ∧ b'.out b'.index = '\x00' := by
  induction pieces generalizing args text b with
  | nil =>
      cases args <;> cases rendered
      refine ⟨_, rfl, ?_, rfl, Lib.setAt_self ..⟩
      rw [List.append_nil]
      exact written_end ..
  | cons piece pieces ih =>
      obtain ⟨chars, args', tail, first, later, rfl⟩ := render_cons rendered
      have cut : format (piece :: pieces) = piece.text ++ format pieces := List.flatMap_cons
      obtain ⟨b', done, content, index, terminated⟩ := ih later (chars.foldl Stored.emit b)
      obtain ⟨stored, moved⟩ := Stored.foldl_emit chars b
      refine ⟨b', ?_, ?_, ?_, terminated⟩
      · rw [cut, sprintfLoop_piece first, done]
      · rw [content, stored, List.append_assoc]
      · rw [index, moved, List.length_append, Nat.add_assoc]

/-! ## Agreement -/

/-- Both functions return, the buffer holds what was printed before its first terminator, and both count it. -/
def Agree (out : Nat → Char) (fmt : List Char) (args : List Arg) : Prop := ∃ serial result out' result',
  printf fmt args = some (serial, result) ∧ sprintf out fmt args = some (out', result') ∧
    (List.range serial.length).map out' = serial ∧ '\x00' ∉ serial ∧ out' serial.length = '\x00' ∧
    result = serial.length ∧ result' = serial.length

/-- With matching arguments they agree exactly on the formats without `%%`. -/
theorem printf_agrees (out : Nat → Char) {pieces : List Piece} {args : List Arg} (matching : (render pieces args).isSome) :
    Agree out (format pieces) args ↔ .percent ∉ pieces := by
  obtain ⟨text, rendered⟩ := Option.isSome_iff_exists.mp matching
  obtain ⟨b, done, content, index, terminated⟩ := sprintfLoop_spec rendered ⟨out, 0⟩
  have printed : printf (format pieces) args = some (text, (text.length : Int) - pieces.count .percent) := by
    unfold printf
    rw [printfLoop_spec rendered, Option.map_some]
    simp
  have stored : sprintf out (format pieces) args = some (b.out, (b.index : Int)) := by
    unfold sprintf
    rw [done, Option.map_some]
  simp only [Nat.zero_add] at index
  have holds : (List.range text.length).map b.out = text := by
    rw [← index]
    exact content
  constructor
  · rintro ⟨serial, result, out', result', ran, -, -, -, -, count, -⟩
    rw [printed, Option.some.injEq, Prod.mk.injEq] at ran
    rw [← ran.1, ← ran.2] at count
    exact List.count_eq_zero.mp (by omega)
  · intro without
    refine ⟨text, _, b.out, _, printed, stored, holds, render_terminated rendered, index ▸ terminated, ?_, by rw [index]⟩
    rw [List.count_eq_zero.mpr without]
    exact Int.sub_zero _

/-- A decimal and a string. -/
def greeting : List Piece := [.literal ⟨'n', by decide⟩, .literal ⟨'=', by decide⟩, .int, .literal ⟨' ', by decide⟩, .str]

theorem printf_agrees_greeting : Agree (fun _ => '\x00') (format greeting) [.int (-42), .str ⟨['o', 'k'], by decide⟩] :=
  (printf_agrees _ (by decide)).mpr (by decide)

/-- `printf` returns 1 for the two characters of `%%a`. -/
theorem printf_miscounts : ¬ Agree (fun _ => '\x00') (format [.percent, .literal ⟨'a', by decide⟩]) [] := by
  rintro ⟨serial, result, out', result', ran, -, -, -, -, count, -⟩
  have printed : printf (format [.percent, .literal ⟨'a', by decide⟩]) [] = some (['%', 'a'], 1) := by decide
  rw [printed, Option.some.injEq, Prod.mk.injEq] at ran
  rw [← ran.1, ← ran.2] at count
  exact absurd count (by decide)

end Sustemu.Runtime
