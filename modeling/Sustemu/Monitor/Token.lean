import Sustemu.Lib.LongestMatch

/-!
# Tokens of the debugger's expressions

`make_token` tries the rules in order at every position and takes the first that
matches there. A token keeps its text only where the evaluator needs it. Writing
beyond `Token.str` or beyond `tokens` is an error of its own.
-/

set_option autoImplicit false

namespace Sustemu.Monitor

open Lib RegularExpression

/-- The token types of `expr.c`; an operator of one letter is its character code. -/
inductive TokenType where
  | notype | eq | neq | hex | num | reg | symb | ls | rs | ng | nl | and | or | deref
  | char (c : Char)
  deriving DecidableEq, Repr

structure Rule where
  regex : RegularExpression Char
  tokenType : TokenType

/-- The letters of a range in a bracket expression. -/
def letterRange (first last : Char) : List Char :=
  (List.range (last.toNat - first.toNat + 1)).map fun k => Char.ofNat (first.toNat + k)

def digits : List Char := letterRange '0' '9'

def hexDigits : List Char := digits ++ letterRange 'a' 'f' ++ letterRange 'A' 'F'

def symbolStart : List Char := letterRange 'a' 'z' ++ letterRange 'A' 'z'

def alphanumeric : List Char := letterRange 'a' 'z' ++ letterRange 'A' 'Z' ++ digits

def rules : List Rule :=
  [⟨oneOrMore (oneOf [' ']), .notype⟩,
   ⟨literal ['=', '='], .eq⟩,
   ⟨literal ['!', '='], .neq⟩,
   ⟨literal ['0'] * (oneOf ['x', 'X'] * oneOrMore (oneOf hexDigits)), .hex⟩,
   ⟨oneOrMore (oneOf digits), .num⟩,
   ⟨literal ['t'] * oneOf (letterRange '0' '6'), .reg⟩,
   ⟨literal ['s'] * oneOf (letterRange '0' '1'), .reg⟩,
   ⟨literal ['a'] * oneOf (letterRange '0' '7'), .reg⟩,
   ⟨literal ['s'] * (oneOf (letterRange '2' '9') + (literal ['1', '0'] + literal ['1', '1'])), .reg⟩,
   ⟨literal ['p', 'c'], .reg⟩,
   ⟨literal ['$', '0'] + (literal ['r', 'a'] + (literal ['s', 'p'] + (literal ['g', 'p'] + literal ['t', 'p']))), .reg⟩,
   -- `[a-zA-z]+[a-zA-Z0-9]*`: the range from `A` to `z` also holds six punctuation characters.
   ⟨oneOrMore (oneOf symbolStart) * (oneOf alphanumeric).star, .symb⟩,
   ⟨literal ['<', '<'], .ls⟩,
   ⟨literal ['>', '>'], .rs⟩,
   ⟨literal ['<', '='], .ng⟩,
   ⟨literal ['>', '='], .nl⟩,
   ⟨literal ['&', '&'], .and⟩,
   ⟨literal ['|', '|'], .or⟩,
   ⟨literal ['+'], .char '+'⟩,
   ⟨literal ['-'], .char '-'⟩,
   ⟨literal ['*'], .char '*'⟩,
   ⟨literal ['/'], .char '/'⟩,
   ⟨literal ['%'], .char '%'⟩,
   ⟨literal ['('], .char '('⟩,
   ⟨literal [')'], .char ')'⟩,
   ⟨literal ['>'], .char '>'⟩,
   ⟨literal ['<'], .char '<'⟩,
   ⟨literal ['&'], .char '&'⟩,
   ⟨literal ['^'], .char '^'⟩,
   ⟨literal ['|'], .char '|'⟩,
   ⟨literal ['!'], .char '!'⟩,
   ⟨literal ['~'], .char '~'⟩]

structure Token where
  type : TokenType
  str : List Char
  deriving DecidableEq, Repr

/-- Length of `Token.str`. -/
def strSize : Nat := 64

/-- Length of `tokens`. -/
def tokensSize : Nat := 65536

inductive LexError where
  | noMatch (position : Nat)
  | textOverflow
  | tokensOverflow
  deriving DecidableEq, Repr

/-- `regexec` at the current position, with `rm_so == 0`. -/
def Rule.matchLen (rule : Rule) (s : List Char) : Option Nat :=
  match search rule.regex s with
  | some (0, stop) => some stop
  | _ => none

/-- The first rule that matches at the current position. -/
def matchRule (s : List Char) : Option (TokenType × Nat) :=
  rules.findSome? fun rule => (rule.matchLen s).map fun len => (rule.tokenType, len)

/-- The switch on the token type. -/
def emit (tokens : List Token) (type : TokenType) (text : List Char) : Except LexError (List Token) :=
  match type with
  | .notype => .ok tokens
  | .hex | .num | .reg | .symb =>
      if tokens.length ≥ tokensSize then .error .tokensOverflow
      else if text.length ≥ strSize then .error .textOverflow
      else .ok (tokens ++ [⟨type, text⟩])
  | _ => if tokens.length ≥ tokensSize then .error .tokensOverflow else .ok (tokens ++ [⟨type, []⟩])

/-- The loop of `make_token`, with a bound on its turns: every rule consumes a letter. -/
def makeTokenFrom : Nat → Nat → List Char → List Token → Except LexError (List Token)
  | _, _, [], tokens => .ok tokens
  | 0, position, _ :: _, _ => .error (.noMatch position)
  | turns + 1, position, c :: s, tokens =>
      match matchRule (c :: s) with
      | none => .error (.noMatch position)
      | some (type, len) => do
          let tokens ← emit tokens type ((c :: s).take len)
          makeTokenFrom turns (position + len) ((c :: s).drop len) tokens

/-- `make_token`. -/
def makeToken (e : List Char) : Except LexError (List Token) := makeTokenFrom e.length 0 e []

end Sustemu.Monitor
