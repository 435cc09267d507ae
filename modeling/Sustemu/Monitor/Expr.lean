import Sustemu.Monitor.Token
import Sustemu.Memory.Vmem

/-!
# The debugger's expression evaluator

`eval` works on a range of the token array. It reads the array through
`tokenAt`, which answers with an error outside the tokens of the expression, so
that every index the source computes is checked. The last argument but two of
`eval` counts the levels of recursion that are left.
-/

set_option autoImplicit false

namespace Sustemu.Monitor

/-! ## Registers and numbers -/

def regs : List (List Char) :=
  [['$', '0'], ['r', 'a'], ['s', 'p'], ['g', 'p'], ['t', 'p'], ['t', '0'], ['t', '1'], ['t', '2'], ['s', '0'],
   ['s', '1'], ['a', '0'], ['a', '1'], ['a', '2'], ['a', '3'], ['a', '4'], ['a', '5'], ['a', '6'], ['a', '7'],
   ['s', '2'], ['s', '3'], ['s', '4'], ['s', '5'], ['s', '6'], ['s', '7'], ['s', '8'], ['s', '9'], ['s', '1', '0'],
   ['s', '1', '1'], ['t', '3'], ['t', '4'], ['t', '5'], ['t', '6']]

/-- `reg_str2val`; `none` clears `*success`. -/
def regStr2val (cpu : CPUState) (s : List Char) : Option Word :=
  match regs.idxOf? s with
  | some i => some (cpu.gpr.get (Fin.ofNat 32 i))
  | none => if s = ['p', 'c'] then some cpu.pc else none

def digitValue (c : Char) : Nat :=
  if c ≤ '9' then c.toNat - '0'.toNat else if c ≤ 'F' then c.toNat - 'A'.toNat + 10 else c.toNat - 'a'.toNat + 10

/-- The number that digits denote. -/
def numeral (base : Nat) (text : List Char) : Nat := text.foldl (fun n c => n * base + digitValue c) 0

/-- The conversion of `sscanf`, which saturates. -/
def strtoul (base : Nat) (text : List Char) : Word := BitVec.ofNat 64 (min (numeral base text) (2 ^ 64 - 1))

/-- `sscanf(str, "0x%lx", &result)`: where the literal prefix differs, `result` stays uninitialised. -/
def scanHex (stack : Word) : List Char → Word
  | '0' :: 'x' :: text => strtoul 16 text
  | _ => stack

/-! ## Priorities -/

def priorArr : List (TokenType × Nat) :=
  [(.char '+', 4), (.char '-', 4), (.eq, 7), (.neq, 7), (.char '*', 3), (.char '/', 3), (.char '%', 3), (.ls, 5),
   (.rs, 5), (.ng, 6), (.nl, 6), (.char '<', 6), (.char '>', 6), (.and, 11), (.or, 12), (.char '&', 8),
   (.char '^', 9), (.char '|', 10), (.char '!', 2), (.char '~', 2), (.deref, 2)]

def maxPrior : Nat := 15

/-- `find_prior`; `none` is `-1`. -/
def findPrior (type : TokenType) : Option Nat := priorArr.lookup type

/-! ## Scans over a range -/

/-- What ends the process or leaves the tokens of the expression. -/
inductive Stop where
  | outside (i : Int)
  | assertion
  | memory
  | overflow (error : LexError)
  deriving DecidableEq, Repr

variable (tokens : List Token)

def tokenAt : Int → Except Stop Token
  | .ofNat i => match tokens[i]? with
      | some t => .ok t
      | none => .error (.outside i)
  | .negSucc i => .error (.outside (.negSucc i))

/-- The loop of `check_parentheses`: `turns` tokens from `i` downwards. -/
def countOpen : Nat → Int → Nat → Except Stop Nat
  | 0, _, found => .ok found
  | turns + 1, i, found => do
      let t ← tokenAt tokens i
      countOpen turns (i - 1)
        (if t.type = .char ')' then found + 1 else if t.type = .char '(' ∧ found > 0 then found - 1 else found)

/-- `check_parentheses`. -/
def checkParentheses (p q : Int) : Except Stop Bool := do
  let first ← tokenAt tokens p
  let last ← tokenAt tokens q
  if first.type = .char '(' ∧ last.type = .char ')' then
    let found ← countOpen tokens (q - 1 - p).toNat (q - 1) 0
    return found == 0
  else return false

/-- The loop over `j`: the bracket that closes `depth` open ones, among `turns` tokens from `j` downwards. -/
def opening : Nat → Int → Nat → Except Stop (Option Int)
  | 0, _, _ => .ok none
  | turns + 1, j, depth => do
      let t ← tokenAt tokens j
      if t.type = .char ')' then opening turns (j - 1) (depth + 1)
      else if t.type = .char '(' then
        if depth - 1 = 0 then return some j else opening turns (j - 1) (depth - 1)
      else opening turns (j - 1) depth

/-- The loop over `i` from `i` down to `p`: the rightmost token of a priority outside brackets. -/
def searchPrior (p : Int) (prior : Nat) : Nat → Int → Except Stop (Option Int)
  | 0, _ => .ok none
  | turns + 1, i =>
      if i < p then .ok none
      else do
        let t ← tokenAt tokens i
        if t.type = .char ')' then
          match ← opening tokens (i - p).toNat (i - 1) 1 with
          | some j => searchPrior p prior turns (j - 1)
          | none => searchPrior p prior turns (i - 1)
        else if findPrior t.type = some prior then return some i
        else searchPrior p prior turns (i - 1)

/-- The loop over `prior`, from the given one down to 1; `-1` where no operator is found. -/
def findOp (p q : Int) : Nat → Except Stop Int
  | 0 => .ok (-1)
  | prior + 1 => do
      match ← searchPrior tokens p (prior + 1) (q + 1 - p).toNat q with
      | some i => return i
      | none => findOp p q prior

/-! ## Evaluation -/

def ofBool (b : Bool) : Word := if b then 1 else 0

/-- The operators of the switch that compute; the machine masks a shift count. -/
def operation : TokenType → Option (Word → Word → Word)
  | .char '+' => some fun a b => a + b
  | .char '-' => some fun a b => a - b
  | .char '*' => some fun a b => a * b
  | .char '/' => some fun a b => a / b
  | .char '%' => some fun a b => a % b
  | .char '&' => some fun a b => a &&& b
  | .char '^' => some fun a b => a ^^^ b
  | .char '|' => some fun a b => a ||| b
  | .char '~' => some fun _ b => ~~~b
  | .char '!' => some fun _ b => ofBool (b == 0)
  | .char '<' => some fun a b => ofBool (decide (a < b))
  | .char '>' => some fun a b => ofBool (decide (a > b))
  | .ls => some fun a b => a <<< (b.toNat % 64)
  | .rs => some fun a b => a >>> (b.toNat % 64)
  | .ng => some fun a b => ofBool (decide (a ≤ b))
  | .nl => some fun a b => ofBool (decide (a ≥ b))
  | .eq => some fun a b => ofBool (a == b)
  | .neq => some fun a b => ofBool (a != b)
  | .and => some fun a b => ofBool (a != 0 && b != 0)
  | .or => some fun a b => ofBool (a != 0 || b != 0)
  | _ => none

variable {σ : Type} (vm : VMem σ) (cpu : CPUState) (stack : Nat → Word)

/-- A value, `*success` and the state of the machine. -/
abbrev Outcome (σ : Type) := Word × Bool × World σ

/-- The value of a single token. -/
def evalToken (depth : Nat) (t : Token) (w : World σ) : Outcome σ :=
  match t.type with
  | .num => (strtoul 10 t.str, true, w)
  | .reg => match regStr2val cpu t.str with
      | some value => (value, true, w)
      | none => (0, false, w)
  | .hex => (scanHex (stack depth) t.str, true, w)
  | _ => (0, true, w)

/-- The division test and the switch on the operator. -/
def applyOp (t : Token) (val1 val2 : Word) (success : Bool) (w : World σ) : Except Stop (Outcome σ) :=
  if val2 = 0 ∧ (t.type = .char '/' ∨ t.type = .char '%') then .ok (-1, false, w)
  else if t.type = .deref then
    match vm.read w val2 8 with
    | some (value, w) => .ok (value, success, w)
    | none => .error .memory
  else
    match operation t.type with
    | some f => .ok (f val1 val2, success, w)
    | none => .error .assertion

/-- `eval`, with `36 - depth` levels left. -/
def eval : Nat → Int → Int → Bool → World σ → Except Stop (Outcome σ)
  | 0, _, _, _, w => .ok (-1, false, w)
  | levels + 1, p, q, success, w =>
      if !success then .ok (-1, false, w)
      else if p > q then .ok (0, true, w)
      else if p = q then do
        let t ← tokenAt tokens p
        return evalToken cpu stack (35 - levels) t w
      else do
        if ← checkParentheses tokens p q then eval levels (p + 1) (q - 1) true w
        else
          let op ← findOp tokens p q maxPrior
          let (val1, success, w) ← eval levels p (op - 1) true w
          let (val2, success, w) ← eval levels (op + 1) q success w
          let t ← tokenAt tokens op
          applyOp vm t val1 val2 success w

/-! ## The entry point -/

def operatorJudge (type : TokenType) : Bool :=
  [.char '+', .char '-', .eq, .neq, .char '*', .char '/', .char '%', .ls, .rs, .ng, .nl, .char '<', .char '>', .and,
    .or, .char '&', .char '^', .char '|', .char '!', .char '~'].contains type

/-- The loop that turns a `*` at the start or after an operator into a dereference. -/
def markDeref : Option TokenType → List Token → List Token
  | _, [] => []
  | previous, t :: rest =>
      let t := if t.type = .char '*' ∧ previous.all operatorJudge then { t with type := .deref } else t
      t :: markDeref (some t.type) rest

/-- The levels of recursion of `eval`: `depth > 35` fails. -/
def levels : Nat := 36

/-- `expr`. -/
def expr (e : List Char) (success : Bool) (w : World σ) : Except Stop (Outcome σ) :=
  match makeToken e with
  | .error (.noMatch _) => .ok (0, false, w)
  | .error error => .error (.overflow error)
  | .ok tokens =>
      let tokens := markDeref none tokens
      eval tokens vm cpu stack levels 0 (tokens.length - 1) success w

end Sustemu.Monitor
