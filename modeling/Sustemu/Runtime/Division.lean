import Mathlib.Data.BitVec

/-!
# 64-bit division

The division routines of `int64.c`, which work on 32-bit halves. Shifts by the
width or more, divisions by zero and overflows of signed numbers are undefined
in C and give `none`. The count of leading or trailing zeros that the compiler
provides as a builtin is the one the file defines for it.
-/

set_option autoImplicit false

namespace Sustemu.Runtime

/-! ## Counting zeros -/

/-- One halving of `__clzsi2`: if no bit of the mask is set, the `w` bits above do not matter. -/
def clzHalf (mask : BitVec 32) (w : Nat) (x : BitVec 32) : Nat × BitVec 32 :=
  let t := if x &&& mask = 0 then w else 0
  (t, x >>> (w - t))

/-- `__clzsi2`. -/
def clzsi2 (a : BitVec 32) : Nat :=
  let (t₁, x) := clzHalf 0xFFFF0000 16 a
  let (t₂, x) := clzHalf 0xFF00 8 x
  let (t₃, x) := clzHalf 0xF0 4 x
  let (t₄, x) := clzHalf 0xC 2 x
  t₁ + t₂ + t₃ + t₄ + if x &&& 2 = 0 then 2 - x.toNat else 0

/-- One halving of `__ctzsi2`. -/
def ctzHalf (mask : BitVec 32) (w : Nat) (x : BitVec 32) : Nat × BitVec 32 :=
  let t := if x &&& mask = 0 then w else 0
  (t, x >>> t)

/-- `__ctzsi2`. -/
def ctzsi2 (a : BitVec 32) : Nat :=
  let (t₁, x) := ctzHalf 0x0000FFFF 16 a
  let (t₂, x) := ctzHalf 0x00FF 8 x
  let (t₃, x) := ctzHalf 0x0F 4 x
  let (t₄, x) := ctzHalf 0x3 2 x
  let x := x &&& 3
  t₁ + t₂ + t₃ + t₄ + if x &&& 1 = 0 then 2 - (x >>> 1).toNat else 0

/-! ## Halves -/

/-- `udwords`. -/
structure UDWords where
  high : BitVec 32
  low : BitVec 32

def UDWords.all (x : UDWords) : BitVec 64 := x.high ++ x.low

def UDWords.ofAll (x : BitVec 64) : UDWords := ⟨x.extractLsb' 32 32, x.extractLsb' 0 32⟩

/-- `__clzdi2`. -/
def clzdi2 (a : BitVec 64) : Nat :=
  let x := UDWords.ofAll a
  if x.high = 0 then clzsi2 x.low + 32 else clzsi2 x.high

/-- `__ctzdi2`. -/
def ctzdi2 (a : BitVec 64) : Nat :=
  let x := UDWords.ofAll a
  if x.low = 0 then ctzsi2 x.high + 32 else ctzsi2 x.low

/-- A left shift of a 32-bit word. -/
def shl (x : BitVec 32) (k : Nat) : Option (BitVec 32) := if k < 32 then some (x <<< k) else none

/-- A right shift of a 32-bit word. -/
def shr (x : BitVec 32) (k : Nat) : Option (BitVec 32) := if k < 32 then some (x >>> k) else none

/-- A division of 32-bit words. -/
def divWord (x y : BitVec 32) : Option (BitVec 32) := if y = 0 then none else some (x / y)

/-- The remainder of a division of 32-bit words. -/
def modWord (x y : BitVec 32) : Option (BitVec 32) := if y = 0 then none else some (x % y)

/-! ## `__udivmoddi4` -/

/-- The variables of the division loop. -/
structure DivState where
  r : UDWords
  q : UDWords
  carry : BitVec 32

/-- One pass of the loop. -/
def divStep (d : UDWords) (s : DivState) : DivState :=
  let r : UDWords := ⟨(s.r.high <<< 1) ||| (s.r.low >>> 31), (s.r.low <<< 1) ||| (s.q.high >>> 31)⟩
  let q : UDWords := ⟨(s.q.high <<< 1) ||| (s.q.low >>> 31), (s.q.low <<< 1) ||| s.carry⟩
  let m := (d.all - r.all - 1).sshiftRight 63
  ⟨.ofAll (r.all - (d.all &&& m)), q, (m &&& 1).setWidth 32⟩

/-- `for (; sr > 0; --sr)`. -/
def divLoop (d : UDWords) : Nat → DivState → DivState
  | 0, s => s
  | sr + 1, s => divLoop d sr (divStep d s)

/-- From the loop to the end of the function: quotient and remainder. -/
def finish (d : UDWords) (sr : Nat) (q r : UDWords) : BitVec 64 × BitVec 64 :=
  let s := divLoop d sr ⟨r, q, 0⟩
  ((s.q.all <<< 1) ||| s.carry.setWidth 64, s.r.all)

/-- `q.all = n.all << (64 - sr)` and `r.all = n.all >> sr` for `sr < 32`. -/
def splitBelow (n : UDWords) (sr : Nat) : Option (UDWords × UDWords) := do
  let qHigh ← shl n.low (32 - sr)
  let rHigh ← shr n.high sr
  let rLow ← shl n.high (32 - sr)
  let rLow' ← shr n.low sr
  some (⟨qHigh, 0⟩, ⟨rHigh, rLow ||| rLow'⟩)

/-- The same for `sr = 32`. -/
def splitAt32 (n : UDWords) : UDWords × UDWords := (⟨n.low, 0⟩, ⟨0, n.high⟩)

/-- The same for `sr > 32`. -/
def splitAbove (n : UDWords) (sr : Nat) : Option (UDWords × UDWords) := do
  let qLow ← shl n.low (64 - sr)
  let qHigh ← shl n.high (64 - sr)
  let qHigh' ← shr n.low (sr - 32)
  let rLow ← shr n.high (sr - 32)
  some (⟨qHigh ||| qHigh', qLow⟩, ⟨0, rLow⟩)

/-- The difference of two counts of zeros, as an unsigned word. -/
def clzDiff (x y : BitVec 32) : Nat := (BitVec.ofNat 32 (clzsi2 x) - BitVec.ofNat 32 (clzsi2 y)).toNat

/-- `__udivmoddi4`: quotient and remainder. -/
def udivmoddi4 (a b : BitVec 64) : Option (BitVec 64 × BitVec 64) := do
  let n := UDWords.ofAll a
  let d := UDWords.ofAll b
  if n.high = 0 then
    if d.high = 0 then
      let r ← modWord n.low d.low
      let q ← divWord n.low d.low
      some (q.setWidth 64, r.setWidth 64)
    else some (0, n.low.setWidth 64)
  else if d.low = 0 then
    if d.high = 0 then
      let r ← modWord n.high d.low
      let q ← divWord n.high d.low
      some (q.setWidth 64, r.setWidth 64)
    else if n.low = 0 then
      let r ← modWord n.high d.high
      let q ← divWord n.high d.high
      some (q.setWidth 64, UDWords.all ⟨r, 0⟩)
    else if d.high &&& (d.high - 1) = 0 then
      let q ← shr n.high (ctzsi2 d.high)
      some (q.setWidth 64, UDWords.all ⟨n.high &&& (d.high - 1), n.low⟩)
    else
      let sr := clzDiff d.high n.high
      if sr > 32 - 2 then some (0, a)
      else
        let (q, r) ← splitBelow n (sr + 1)
        some (finish d (sr + 1) q r)
  else if d.high = 0 then
    if d.low &&& (d.low - 1) = 0 then
      let rem := (n.low &&& (d.low - 1)).setWidth 64
      if d.low = 1 then some (a, rem)
      else
        let sr := ctzsi2 d.low
        let high ← shr n.high sr
        let low ← shl n.high (32 - sr)
        let low' ← shr n.low sr
        some (UDWords.all ⟨high, low ||| low'⟩, rem)
    else
      let sr := (1 + 32 + BitVec.ofNat 32 (clzsi2 d.low) - BitVec.ofNat 32 (clzsi2 n.high)).toNat
      if sr = 32 then
        let (q, r) := splitAt32 n
        some (finish d sr q r)
      else if sr < 32 then
        let (q, r) ← splitBelow n sr
        some (finish d sr q r)
      else
        let (q, r) ← splitAbove n sr
        some (finish d sr q r)
  else
    let sr := clzDiff d.high n.high
    if sr > 32 - 1 then some (0, a)
    else
      let sr := sr + 1
      if sr = 32 then
        let (q, r) := splitAt32 n
        some (finish d sr q r)
      else
        let (q, r) ← splitBelow n sr
        some (finish d sr q r)

/-! ## The other routines -/

/-- `__udivdi3`. -/
def udivdi3 (a b : BitVec 64) : Option (BitVec 64) := (udivmoddi4 a b).map Prod.fst

/-- `__umoddi3`. -/
def umoddi3 (a b : BitVec 64) : Option (BitVec 64) := (udivmoddi4 a b).map Prod.snd

/-- A difference of signed numbers. -/
def subSigned (x y : BitVec 64) : Option (BitVec 64) := if x.ssubOverflow y then none else some (x - y)

/-- A product of signed numbers. -/
def mulSigned (x y : BitVec 64) : Option (BitVec 64) := if x.smulOverflow y then none else some (x * y)

/-- `(x ^ s) - s`, which negates if `s` is `-1`. -/
def negateIf (s x : BitVec 64) : Option (BitVec 64) := subSigned (x ^^^ s) s

/-- `__divdi3`. -/
def divdi3 (a b : BitVec 64) : Option (BitVec 64) := do
  let signA := a.sshiftRight 63
  let signB := b.sshiftRight 63
  let a ← negateIf signA a
  let b ← negateIf signB b
  let sign := signA ^^^ signB
  let (q, _) ← udivmoddi4 a b
  -- The quotient is unsigned, and its difference wraps around.
  some ((q ^^^ sign) - sign)

/-- `__moddi3`. -/
def moddi3 (a b : BitVec 64) : Option (BitVec 64) := do
  let s := b.sshiftRight 63
  let b ← negateIf s b
  let s := a.sshiftRight 63
  let a ← negateIf s a
  let (_, r) ← udivmoddi4 a b
  negateIf s r

/-- `__divmoddi4`: quotient and remainder. -/
def divmoddi4 (a b : BitVec 64) : Option (BitVec 64 × BitVec 64) := do
  let d ← divdi3 a b
  let product ← mulSigned d b
  let rem ← subSigned a product
  some (d, rem)

end Sustemu.Runtime
