import Sustemu.Monitor.Expr

/-!
# Lexing undoes printing

A list of lexemes is printed with single spaces. Every lexeme but `^`, `s10`
and `s11` is found by its own rule, whatever follows; those three are taken by
an earlier rule. So lexing gives the list back exactly when it has none of the
three and its texts and its length fit the arrays.
-/

set_option autoImplicit false

namespace Sustemu.Monitor

open Lib RegularExpression

/-! ## Lexemes -/

/-- The operators and brackets of the rules table. -/
inductive Operator where
  | eq | neq | ls | rs | ng | nl | and | or | plus | minus | star | slash | percent | lparen | rparen | gt | lt | amp
  | caret | bar | bang | tilde
  deriving DecidableEq, Repr

def Operator.text : Operator → List Char
  | eq => ['=', '=']
  | neq => ['!', '=']
  | ls => ['<', '<']
  | rs => ['>', '>']
  | ng => ['<', '=']
  | nl => ['>', '=']
  | and => ['&', '&']
  | or => ['|', '|']
  | plus => ['+']
  | minus => ['-']
  | star => ['*']
  | slash => ['/']
  | percent => ['%']
  | lparen => ['(']
  | rparen => [')']
  | gt => ['>']
  | lt => ['<']
  | amp => ['&']
  | caret => ['^']
  | bar => ['|']
  | bang => ['!']
  | tilde => ['~']

def Operator.type : Operator → TokenType
  | eq => .eq
  | neq => .neq
  | ls => .ls
  | rs => .rs
  | ng => .ng
  | nl => .nl
  | and => .and
  | or => .or
  | plus => .char '+'
  | minus => .char '-'
  | star => .char '*'
  | slash => .char '/'
  | percent => .char '%'
  | lparen => .char '('
  | rparen => .char ')'
  | gt => .char '>'
  | lt => .char '<'
  | amp => .char '&'
  | caret => .char '^'
  | bar => .char '|'
  | bang => .char '!'
  | tilde => .char '~'

/-- What `reg_str2val` knows. -/
inductive Register where
  | gpr (i : Fin 32)
  | pc
  deriving DecidableEq

def Register.text : Register → List Char
  | gpr i => regs.getD i []
  | pc => ['p', 'c']

def Register.value (cpu : CPUState) : Register → Word
  | gpr i => cpu.gpr.get i
  | pc => cpu.pc

inductive Lexeme where
  | oper (o : Operator)
  | num (text : List Char) (some : text ≠ []) (inside : ∀ c ∈ text, c ∈ digits)
  | hex (x : Char) (cased : x ∈ ['x', 'X']) (text : List Char) (some : text ≠ []) (inside : ∀ c ∈ text, c ∈ hexDigits)
  | reg (r : Register)

namespace Lexeme

def text : Lexeme → List Char
  | oper o => o.text
  | num text _ _ => text
  | hex x _ text _ _ => '0' :: x :: text
  | reg r => r.text

def token : Lexeme → Token
  | oper o => ⟨o.type, []⟩
  | num text _ _ => ⟨.num, text⟩
  | hex x _ text _ _ => ⟨.hex, '0' :: x :: text⟩
  | reg r => ⟨.reg, r.text⟩

/-- The value of a number or a register. -/
def value (cpu : CPUState) : Lexeme → Option Nat
  | oper _ => none
  | num text _ _ => some (numeral 10 text)
  | hex _ _ text _ _ => some (numeral 16 text)
  | reg r => some (r.value cpu).toNat

end Lexeme

/-- What follows a lexeme. -/
def printRest : List Lexeme → List Char
  | [] => []
  | l :: rest => ' ' :: (l.text ++ printRest rest)

/-- Lexemes with single spaces between them. -/
def print : List Lexeme → List Char
  | [] => []
  | l :: rest => l.text ++ printRest rest

/-! ## Rules -/

theorem Rule.matchLen_eq (rule : Rule) (s : List Char) : rule.matchLen s = longest rule.regex s := by
  unfold matchLen
  cases found : longest rule.regex s with
  | some n =>
      rw [search_eq_zero_iff.mpr found]
      rfl
  | none =>
      split
      · next n first =>
          rw [search_eq_zero_iff.mp first] at found
          cases found
      · rfl

theorem matchRule_eq (s : List Char) :
    matchRule s = rules.findSome? fun rule => (longest rule.regex s).map fun n => (rule.tokenType, n) := by
  unfold matchRule
  simp only [Rule.matchLen_eq]

/-- The first rule that matches. -/
theorem matchRule_of_split {older newer : List Rule} {rule : Rule} {s : List Char} {n : Nat}
    (split : rules = older ++ rule :: newer) (before : ∀ r ∈ older, longest r.regex s = none)
    (own : longest rule.regex s = some n) : matchRule s = some (rule.tokenType, n) := by
  have skipped : older.findSome? (fun r => (longest r.regex s).map fun n => (r.tokenType, n)) = none := by
    rw [List.findSome?_eq_none_iff]
    intro r listed
    rw [before r listed]
    rfl
  rw [matchRule_eq, split, List.findSome?_append, skipped, List.findSome?_cons, own]
  rfl

/-- Only spaces are matched with a space. -/
theorem letters_rules : ∀ rule ∈ rules.tail, ' ' ∉ letters rule.regex := by decide +kernel

theorem findSome?_congr {α β : Type} {f g : α → Option β} {items : List α} (same : ∀ a ∈ items, f a = g a) :
    items.findSome? f = items.findSome? g := by
  induction items with
  | nil => rfl
  | cons a items ih =>
      rw [List.findSome?_cons, List.findSome?_cons, same a (List.mem_cons_self ..),
        ih fun b member => same b (List.mem_cons_of_mem a member)]

theorem longest_spaces {c : Char} {s : List Char} (other : c ≠ ' ') :
    longest (oneOrMore (oneOf [' '])) (c :: s) = none := by
  rw [longest_eq_none_iff]
  intro n _ member
  obtain ⟨some, all⟩ := mem_oneOrMore_oneOf.mp member
  cases n with
  | zero => exact some rfl
  | succ n => exact other (List.mem_singleton.mp (all c (List.mem_cons_self ..)))

/-- A space after a lexeme does not change how it is matched. -/
theorem matchRule_append {c : Char} {w : List Char} (other : c ≠ ' ') (rest : List Char) :
    matchRule (c :: w ++ ' ' :: rest) = matchRule (c :: w) := by
  rw [matchRule_eq, matchRule_eq]
  refine findSome?_congr fun rule listed => ?_
  rcases List.mem_cons.mp listed with rfl | listed
  · rw [List.cons_append, longest_spaces other, longest_spaces other]
  · rw [longest_append (letters_rules rule listed)]

/-! ## Each lexeme under the rules -/

/-- The lexeme is found by the rule of its own type, as a whole. -/
def Lexeme.Found (l : Lexeme) : Prop := matchRule l.text = some (l.token.type, l.text.length)

theorem oper_found (o : Operator) : (Lexeme.oper o).Found ↔ o ≠ .caret := by
  have table : ∀ o : Operator, matchRule o.text = some (o.type, o.text.length) ↔ o ≠ .caret := by
    intro o
    cases o <;> decide +kernel
  exact table o

/-- `s10` and `s11` are taken for `s1`. -/
def Register.Shadowed (r : Register) : Prop := r = .gpr 26 ∨ r = .gpr 27

instance (r : Register) : Decidable r.Shadowed := inferInstanceAs (Decidable (_ ∨ _))

theorem reg_found (r : Register) : (Lexeme.reg r).Found ↔ ¬ r.Shadowed := by
  have table : ∀ i : Fin 32, matchRule (Register.gpr i).text = some (.reg, (Register.gpr i).text.length) ↔
      ¬ (Register.gpr i).Shadowed := by
    decide +kernel
  cases r with
  | gpr i => exact table i
  | pc => exact iff_of_true (by decide +kernel : matchRule ['p', 'c'] = some (.reg, 2)) (by decide)

/-- The rules before the numbers need a letter that numbers do not have. -/
theorem longest_rules {cs s : List Char} (inside : ∀ c ∈ s, c ∈ cs) (foreign : ' ' ∉ cs ∧ '=' ∉ cs) :
    ∀ rule ∈ rules.take 3, longest rule.regex s = none := by
  intro rule listed
  refine longest_none_of_foreign cs (fun w member => ?_) inside
  simp only [rules, List.take_succ_cons, List.take_zero, List.mem_cons, List.not_mem_nil, or_false] at listed
  rcases listed with rfl | rfl | rfl
  · obtain ⟨nonempty, all⟩ := mem_oneOrMore_oneOf.mp member
    obtain ⟨c, rest, rfl⟩ := List.exists_cons_of_ne_nil nonempty
    refine ⟨c, List.mem_cons_self .., ?_⟩
    rw [List.mem_singleton.mp (all c (List.mem_cons_self ..))]
    exact foreign.1
  · rw [mem_literal.mp member]
    exact ⟨'=', by decide, foreign.2⟩
  · rw [mem_literal.mp member]
    exact ⟨'=', by decide, foreign.2⟩

theorem num_found (text : List Char) (nonempty : text ≠ []) (inside : ∀ c ∈ text, c ∈ digits) :
    (Lexeme.num text nonempty inside).Found := by
  have before := longest_rules inside (by decide +kernel)
  have hex : longest (literal ['0'] * (oneOf ['x', 'X'] * oneOrMore (oneOf hexDigits))) text = none := by
    refine longest_none_of_foreign digits (fun w member => ?_) inside
    obtain ⟨u, _, v, tail, rfl⟩ := Language.mem_mul.mp member
    obtain ⟨x, cased, z, _, rfl⟩ := Language.mem_mul.mp tail
    obtain ⟨a, listed, rfl⟩ := mem_oneOf.mp cased
    have other : ∀ a ∈ ['x', 'X'], a ∉ digits :=
      List.forall_mem_cons.mpr ⟨by decide, List.forall_mem_singleton.mpr (by decide)⟩
    exact ⟨a, by simp, other a listed⟩
  have own : longest (oneOrMore (oneOf digits)) text = some text.length :=
    longest_self (mem_oneOrMore_oneOf.mpr ⟨nonempty, inside⟩)
  have split : rules = (rules.take 3 ++ [⟨_, .hex⟩]) ++ ⟨oneOrMore (oneOf digits), .num⟩ :: rules.drop 5 := rfl
  refine matchRule_of_split split (fun r listed => ?_) own
  rcases List.mem_append.mp listed with first | last
  · exact before r first
  · rw [List.mem_singleton.mp last]
    exact hex

theorem hex_found (x : Char) (cased : x ∈ ['x', 'X']) (text : List Char) (nonempty : text ≠ [])
    (inside : ∀ c ∈ text, c ∈ hexDigits) : (Lexeme.hex x cased text nonempty inside).Found := by
  have letters : ∀ c ∈ '0' :: x :: text, c ∈ '0' :: 'x' :: 'X' :: hexDigits := by
    intro c listed
    rcases List.mem_cons.mp listed with rfl | listed
    · exact List.mem_cons_self ..
    rcases List.mem_cons.mp listed with rfl | listed
    · exact List.mem_cons_of_mem _ (List.mem_append_left hexDigits cased)
    · exact List.mem_append_right ['0', 'x', 'X'] (inside c listed)
  have own : longest (literal ['0'] * (oneOf ['x', 'X'] * oneOrMore (oneOf hexDigits))) ('0' :: x :: text) =
      some (text.length + 2) := by
    refine longest_self (Language.mem_mul.mpr ⟨['0'], mem_literal.mpr rfl, x :: text, ?_, rfl⟩)
    exact Language.mem_mul.mpr ⟨[x], mem_oneOf.mpr ⟨x, cased, rfl⟩, text,
      mem_oneOrMore_oneOf.mpr ⟨nonempty, inside⟩, rfl⟩
  exact matchRule_of_split rfl (longest_rules letters (by decide +kernel)) own

/-- The condition on one lexeme under which its rule finds it. -/
def Lexeme.Unshadowed : Lexeme → Prop
  | oper o => o ≠ .caret
  | reg r => ¬ r.Shadowed
  | _ => True

theorem found_iff (l : Lexeme) : l.Found ↔ l.Unshadowed := by
  cases l with
  | oper o => exact oper_found o
  | num text nonempty inside => exact iff_of_true (num_found text nonempty inside) trivial
  | hex x cased text nonempty inside => exact iff_of_true (hex_found x cased text nonempty inside) trivial
  | reg r => exact reg_found r

/-! ## The loop -/

theorem Lexeme.head_text (l : Lexeme) : ∃ c s, l.text = c :: s ∧ c ≠ ' ' := by
  cases l with
  | oper o => cases o <;> exact ⟨_, _, rfl, by decide⟩
  | num text nonempty inside =>
      obtain ⟨c, s, rfl⟩ := List.exists_cons_of_ne_nil nonempty
      refine ⟨c, s, rfl, fun space => ?_⟩
      have digit := inside c (List.mem_cons_self ..)
      rw [space] at digit
      exact absurd digit (by decide +kernel)
  | hex x cased text nonempty inside => exact ⟨'0', _, rfl, by decide⟩
  | reg r =>
      cases r with
      | gpr i =>
          have table : ∀ i : Fin 32, (Register.gpr i).text.head? ≠ none ∧ (Register.gpr i).text.head? ≠ some ' ' := by
            decide +kernel
          obtain ⟨nonempty, other⟩ := table i
          cases text : (Register.gpr i).text with
          | nil =>
              rw [text] at nonempty
              exact absurd rfl nonempty
          | cons c s =>
              rw [text] at other
              exact ⟨c, s, text, fun same => other (congrArg some same)⟩
      | pc => exact ⟨'p', _, rfl, by decide⟩

/-- What follows a lexeme is nothing or starts with a space. -/
theorem matchRule_text (l : Lexeme) (rest : List Lexeme) : matchRule (l.text ++ printRest rest) = matchRule l.text := by
  obtain ⟨c, s, text, other⟩ := l.head_text
  cases rest with
  | nil => rw [printRest, List.append_nil]
  | cons next rest =>
      rw [printRest, text]
      exact matchRule_append other _

/-- The space before a lexeme is skipped on its own. -/
theorem matchRule_space (l : Lexeme) (rest : List Lexeme) :
    matchRule (' ' :: (l.text ++ printRest rest)) = some (.notype, 1) := by
  obtain ⟨c, s, text, other⟩ := l.head_text
  refine matchRule_of_split (show rules = [] ++ ⟨oneOrMore (oneOf [' ']), .notype⟩ :: rules.tail from rfl) nofun ?_
  refine longest_oneOrMore (List.cons_ne_nil ' ' []) (fun a listed => listed) ?_
  intro a first listed
  rw [text] at first
  exact other ((Option.mem_some_iff.mp first).trans (List.mem_singleton.mp listed))

theorem emit_token (tokens : List Token) (l : Lexeme) :
    emit tokens l.token.type l.text =
      if tokens.length ≥ tokensSize then .error .tokensOverflow
      else if l.token.str.length ≥ strSize then .error .textOverflow
      else .ok (tokens ++ [l.token]) := by
  cases l with
  | oper o => cases o <;> rfl
  | num text nonempty inside => rfl
  | hex x cased text nonempty inside => rfl
  | reg r => rfl

/-- One lexeme after its space. -/
theorem makeTokenFrom_space (turns position : Nat) (l : Lexeme) (rest : List Lexeme) (tokens : List Token) :
    makeTokenFrom (turns + 1) position (printRest (l :: rest)) tokens =
      makeTokenFrom turns (position + 1) (l.text ++ printRest rest) tokens := by
  rw [printRest, makeTokenFrom, matchRule_space]
  rfl

/-- One turn of the loop where a rule matches within the lexeme. -/
theorem makeTokenFrom_text {l : Lexeme} {type : TokenType} {n : Nat} (matched : matchRule l.text = some (type, n))
    (within : n ≤ l.text.length) (turns position : Nat) (rest : List Lexeme) (tokens : List Token) :
    makeTokenFrom (turns + 1) position (l.text ++ printRest rest) tokens =
      (emit tokens type (l.text.take n)).bind fun tokens =>
        makeTokenFrom turns (position + n) (l.text.drop n ++ printRest rest) tokens := by
  obtain ⟨c, s, text, _⟩ := l.head_text
  have here := (matchRule_text l rest).trans matched
  have taken : (l.text ++ printRest rest).take n = l.text.take n := List.take_append_of_le_length within
  have dropped : (l.text ++ printRest rest).drop n = l.text.drop n ++ printRest rest :=
    List.drop_append_of_le_length within
  rw [← taken, ← dropped]
  rw [text, List.cons_append] at here ⊢
  rw [makeTokenFrom, here]
  rfl

/-- A lexeme that its rule finds is emitted. -/
theorem makeTokenFrom_found {l : Lexeme} (unshadowed : l.Unshadowed) (turns position : Nat) (rest : List Lexeme)
    (tokens : List Token) :
    makeTokenFrom (turns + 1) position (l.text ++ printRest rest) tokens =
      if tokens.length ≥ tokensSize then .error .tokensOverflow
      else if l.token.str.length ≥ strSize then .error .textOverflow
      else makeTokenFrom turns (position + l.text.length) (printRest rest) (tokens ++ [l.token]) := by
  rw [makeTokenFrom_text ((found_iff l).mpr unshadowed) (Nat.le_refl _), List.take_length, List.drop_length, emit_token]
  split
  · rfl
  · split <;> rfl

theorem makeTokenFrom_printRest {ls : List Lexeme} {tokens : List Token} {turns : Nat} (position : Nat)
    (good : ∀ l ∈ ls, l.Unshadowed ∧ l.token.str.length < strSize) (room : tokens.length + ls.length ≤ tokensSize)
    (enough : (printRest ls).length ≤ turns) :
    makeTokenFrom turns position (printRest ls) tokens = .ok (tokens ++ ls.map Lexeme.token) := by
  induction ls generalizing tokens turns position with
  | nil =>
      rw [List.map_nil, List.append_nil]
      cases turns <;> rfl
  | cons l rest ih =>
      obtain ⟨unshadowed, fits⟩ := good l (List.mem_cons_self ..)
      obtain ⟨c, s, text, _⟩ := l.head_text
      rw [List.length_cons] at room
      rw [printRest, List.length_cons, List.length_append, text, List.length_cons] at enough
      obtain ⟨turns, rfl⟩ : ∃ k, turns = k + 2 := ⟨turns - 2, by omega⟩
      rw [makeTokenFrom_space, makeTokenFrom_found unshadowed, if_neg (by omega), if_neg (Nat.not_le_of_lt fits),
        ih _ (fun l member => good l (List.mem_cons_of_mem _ member)) (by simp; omega) (by omega)]
      simp

/-! ## Nothing else is lexed back -/

theorem emit_extends {tokens result : List Token} {type : TokenType} {text : List Char}
    (done : emit tokens type text = .ok result) : tokens <+: result := by
  unfold emit at done
  split at done
  · cases done
    exact List.prefix_rfl
  all_goals
    split at done
    · cases done
  all_goals
    try
      split at done
      · cases done
    cases done
    exact List.prefix_append ..

theorem makeTokenFrom_extends {turns position : Nat} {s : List Char} {tokens result : List Token}
    (done : makeTokenFrom turns position s tokens = .ok result) : tokens <+: result := by
  induction turns generalizing position s tokens with
  | zero =>
      cases s with
      | nil =>
          cases done
          exact List.prefix_rfl
      | cons c s => cases done
  | succ turns ih =>
      cases s with
      | nil =>
          cases done
          exact List.prefix_rfl
      | cons c s =>
          rw [makeTokenFrom] at done
          cases matched : matchRule (c :: s) with
          | none =>
              rw [matched] at done
              cases done
          | some found =>
              rw [matched] at done
              cases emitted : emit tokens found.1 ((c :: s).take found.2) with
              | error error =>
                  simp only [emitted] at done
                  cases done
              | ok middle =>
                  simp only [emitted] at done
                  exact (emit_extends emitted).trans (ih done)

/-- A shadowed lexeme is lexed as something else. -/
theorem shadowed_other {l : Lexeme} (shadowed : ¬ l.Unshadowed) : ∃ type n, matchRule l.text = some (type, n) ∧
    n ≤ l.text.length ∧ ∀ tokens result, emit tokens type (l.text.take n) = .ok result →
      ∃ t, t ≠ l.token ∧ result = tokens ++ [t] := by
  have emitted : ∀ (tokens result : List Token) (type : TokenType) (text : List Char), type = .symb ∨ type = .reg →
      emit tokens type text = .ok result → result = tokens ++ [⟨type, text⟩] := by
    rintro tokens result type text (rfl | rfl) done
    all_goals
      unfold emit at done
      simp only at done
      split at done
      · cases done
      · split at done
        · cases done
        · cases done
          rfl
  cases l with
  | oper o =>
      obtain rfl : o = .caret := not_not.mp shadowed
      exact ⟨.symb, 1, by decide +kernel, by decide, fun tokens result done =>
        ⟨_, by decide, emitted _ _ _ _ (.inl rfl) done⟩⟩
  | num text nonempty inside => exact absurd trivial shadowed
  | hex x cased text nonempty inside => exact absurd trivial shadowed
  | reg r =>
      rcases not_not.mp shadowed with rfl | rfl
      · exact ⟨.reg, 2, by decide +kernel, by decide, fun tokens result done =>
          ⟨_, by decide, emitted _ _ _ _ (.inr rfl) done⟩⟩
      · exact ⟨.reg, 2, by decide +kernel, by decide, fun tokens result done =>
          ⟨_, by decide, emitted _ _ _ _ (.inr rfl) done⟩⟩

/-- A list that is lexed back has only good lexemes. -/
theorem good_of_lexed {ls : List Lexeme} {tokens : List Token} {turns position : Nat}
    (started : tokens.length ≤ tokensSize)
    (lexed : makeTokenFrom turns position (printRest ls) tokens = .ok (tokens ++ ls.map Lexeme.token)) :
    (∀ l ∈ ls, l.Unshadowed ∧ l.token.str.length < strSize) ∧ tokens.length + ls.length ≤ tokensSize := by
  induction ls generalizing tokens turns position with
  | nil => exact ⟨nofun, started⟩
  | cons l rest ih =>
      obtain ⟨c, s, text, _⟩ := l.head_text
      cases turns with
      | zero => cases lexed
      | succ turns =>
          rw [makeTokenFrom_space] at lexed
          cases turns with
          | zero =>
              rw [text] at lexed
              cases lexed
          | succ turns =>
              by_cases unshadowed : l.Unshadowed
              · rw [makeTokenFrom_found unshadowed] at lexed
                split at lexed
                · cases lexed
                next room =>
                split at lexed
                · cases lexed
                next fits =>
                have shorter : (tokens ++ [l.token]).length ≤ tokensSize := by
                  rw [List.length_append]
                  exact Nat.not_le.mp room
                obtain ⟨good, counted⟩ := ih shorter (by rw [lexed]; simp)
                rw [List.length_append, List.length_singleton] at counted
                refine ⟨fun l' member => ?_, by rw [List.length_cons]; omega⟩
                rcases List.mem_cons.mp member with rfl | member
                · exact ⟨unshadowed, Nat.not_le.mp fits⟩
                · exact good l' member
              · obtain ⟨type, n, matched, within, other⟩ := shadowed_other unshadowed
                rw [makeTokenFrom_text matched within] at lexed
                obtain ⟨middle, emitted, lexed⟩ : ∃ middle, emit tokens type (l.text.take n) = .ok middle ∧
                    makeTokenFrom turns (position + 1 + n) (l.text.drop n ++ printRest rest) middle =
                      .ok (tokens ++ (l :: rest).map Lexeme.token) := by
                  cases emitted : emit tokens type (l.text.take n) with
                  | error error =>
                      rw [emitted] at lexed
                      cases lexed
                  | ok middle =>
                      rw [emitted] at lexed
                      exact ⟨middle, rfl, lexed⟩
                obtain ⟨t, different, rfl⟩ := other tokens middle emitted
                have longer := makeTokenFrom_extends lexed
                rw [List.prefix_append_right_inj, List.map_cons, List.cons_prefix_cons] at longer
                exact absurd longer.1 different

/-! ## Printing and lexing -/

/-- The position is only reported. -/
theorem makeTokenFrom_position {turns position : Nat} {s : List Char} {tokens result : List Token}
    (done : makeTokenFrom turns position s tokens = .ok result) (other : Nat) :
    makeTokenFrom turns other s tokens = .ok result := by
  induction turns generalizing position other s tokens with
  | zero =>
      cases s with
      | nil => exact done
      | cons c s => cases done
  | succ turns ih =>
      cases s with
      | nil => exact done
      | cons c s =>
          rw [makeTokenFrom] at done ⊢
          cases matched : matchRule (c :: s) with
          | none =>
              rw [matched] at done
              cases done
          | some found =>
              rw [matched] at done
              cases emitted : emit tokens found.1 ((c :: s).take found.2) with
              | error error =>
                  simp only [emitted] at done
                  cases done
              | ok middle =>
                  simp only [emitted] at done ⊢
                  exact ih done _

theorem makeToken_print_iff (ls : List Lexeme) :
    makeToken (print ls) = .ok (ls.map Lexeme.token) ↔
      (∀ l ∈ ls, l.Unshadowed ∧ l.token.str.length < strSize) ∧ ls.length ≤ tokensSize := by
  cases ls with
  | nil => exact iff_of_true rfl ⟨nofun, by decide⟩
  | cons l rest =>
      have spaced := makeTokenFrom_space (print (l :: rest)).length 0 l rest []
      unfold makeToken
      constructor
      · intro lexed
        obtain ⟨good, counted⟩ := good_of_lexed (Nat.zero_le _) (spaced.trans (makeTokenFrom_position lexed 1))
        exact ⟨good, by simpa using counted⟩
      · rintro ⟨good, counted⟩
        have lexed : makeTokenFrom ((print (l :: rest)).length + 1) 0 (printRest (l :: rest)) [] =
            .ok ([] ++ (l :: rest).map Lexeme.token) :=
          makeTokenFrom_printRest 0 good (by simpa using counted) (Nat.le_refl _)
        exact makeTokenFrom_position (spaced.symm.trans lexed) 0

/-! ## Values -/

theorem regStr2val_text (cpu : CPUState) (r : Register) : regStr2val cpu r.text = some (r.value cpu) := by
  have table : ∀ i : Fin 32, regs.idxOf? (Register.gpr i).text = some i.val := by decide +kernel
  cases r with
  | gpr i =>
      unfold regStr2val
      rw [table i]
      simp [Register.value]
  | pc => rfl

theorem strtoul_toNat_iff (base : Nat) (text : List Char) :
    (strtoul base text).toNat = numeral base text ↔ numeral base text < 2 ^ 64 := by
  unfold strtoul
  rw [BitVec.toNat_ofNat]
  omega

/-- The text fits a token and the value a word, and no earlier rule takes the lexeme. -/
def Lexeme.Plain : Lexeme → Prop
  | oper o => o ≠ .caret
  | num text _ _ => text.length < strSize ∧ numeral 10 text < 2 ^ 64
  | hex x _ text _ _ => x = 'x' ∧ text.length + 2 < strSize ∧ numeral 16 text < 2 ^ 64
  | reg r => ¬ r.Shadowed

section

variable {σ : Type} (vm : VMem σ) (cpu : CPUState) (w : World σ)

/-- A number or a register has its value, whatever the stack holds. -/
def Lexeme.Valued (l : Lexeme) : Prop :=
  ∀ n ∈ l.value cpu, ∀ stack, ∃ value : Word, value.toNat = n ∧
    eval [l.token] vm cpu stack levels 0 0 true w = .ok (value, true, w)

/-- The list is lexed back within the arrays, and each number and register has its value. -/
structure Reproduced (ls : List Lexeme) : Prop where
  lexed : makeToken (print ls) = .ok (ls.map Lexeme.token)
  fits : ∀ l ∈ ls, l.token.str.length + 1 ≤ strSize
  counted : ls.length ≤ tokensSize
  valued : ∀ l ∈ ls, l.Valued vm cpu w

theorem eval_single (stack : Nat → Word) (t : Token) :
    eval [t] vm cpu stack levels 0 0 true w = .ok (evalToken cpu stack 0 t w) := rfl

theorem plain_iff (l : Lexeme) :
    l.Plain ↔ (l.Unshadowed ∧ l.token.str.length < strSize) ∧ l.Valued vm cpu w := by
  cases l with
  | oper o =>
      have short : (Lexeme.oper o).token.str.length < strSize := (by decide : 0 < 64)
      exact ⟨fun plain => ⟨⟨plain, short⟩, nofun⟩, fun good => good.1.1⟩
  | num text nonempty inside =>
      constructor
      · rintro ⟨fits, small⟩
        refine ⟨⟨trivial, fits⟩, fun n same stack => ?_⟩
        cases same
        exact ⟨_, (strtoul_toNat_iff 10 text).mpr small, eval_single vm cpu w stack _⟩
      · rintro ⟨⟨_, fits⟩, valued⟩
        obtain ⟨value, same, done⟩ := valued _ rfl fun _ => 0
        cases done
        exact ⟨fits, (strtoul_toNat_iff 10 text).mp same⟩
  | hex x cased text nonempty inside =>
      constructor
      · rintro ⟨rfl, fits, small⟩
        refine ⟨⟨trivial, fits⟩, fun n same stack => ?_⟩
        cases same
        exact ⟨_, (strtoul_toNat_iff 16 text).mpr small, eval_single vm cpu w stack _⟩
      · rintro ⟨⟨_, fits⟩, valued⟩
        have lower : x = 'x' := by
          rcases List.mem_cons.mp cased with rfl | upper
          · rfl
          -- With `0X` the value is what the stack held, here another one.
          obtain rfl := List.mem_singleton.mp upper
          obtain ⟨value, same, done⟩ := valued _ rfl fun _ => BitVec.ofNat 64 (numeral 16 text + 1)
          cases done
          have left : (BitVec.ofNat 64 (numeral 16 text + 1)).toNat = numeral 16 text := same
          rw [BitVec.toNat_ofNat] at left
          omega
        subst lower
        obtain ⟨value, same, done⟩ := valued _ rfl fun _ => 0
        cases done
        exact ⟨rfl, fits, (strtoul_toNat_iff 16 text).mp same⟩
  | reg r =>
      have short : (Lexeme.reg r).token.str.length < strSize := by
        have table : ∀ i : Fin 32, (Register.gpr i).text.length < strSize := by decide +kernel
        cases r with
        | gpr i => exact table i
        | pc => exact (by decide : 2 < 64)
      have valued : (Lexeme.reg r).Valued vm cpu w := by
        intro n same stack
        cases same
        refine ⟨_, rfl, ?_⟩
        rw [eval_single]
        unfold evalToken
        simp only [Lexeme.token, regStr2val_text]
      exact ⟨fun plain => ⟨⟨plain, short⟩, valued⟩, fun good => good.1.1⟩

/-- Lexing undoes printing exactly for lists of plain lexemes that fit the token array. -/
theorem lexing_undoes_printing_iff (ls : List Lexeme) :
    Reproduced vm cpu w ls ↔ (∀ l ∈ ls, l.Plain) ∧ ls.length ≤ tokensSize := by
  constructor
  · intro reproduced
    obtain ⟨good, counted⟩ := (makeToken_print_iff ls).mp reproduced.lexed
    exact ⟨fun l member => (plain_iff vm cpu w l).mpr ⟨good l member, reproduced.valued l member⟩, counted⟩
  · rintro ⟨plain, counted⟩
    have each := fun l member => (plain_iff vm cpu w l).mp (plain l member)
    exact ⟨(makeToken_print_iff ls).mpr ⟨fun l member => (each l member).1, counted⟩,
      fun l member => (each l member).1.2, counted, fun l member => (each l member).2⟩

end

/-- `s10` is lexed as `s1` and `0`, and `^` as a symbol. -/
theorem shadowed_lexemes :
    makeToken (print [.reg (.gpr 26)]) = .ok [⟨.reg, ['s', '1']⟩, ⟨.num, ['0']⟩] ∧
      makeToken (print [.reg (.gpr 26)]) ≠ .ok ([.reg (.gpr 26)].map Lexeme.token) ∧
      makeToken (print [.oper .caret]) = .ok [⟨.symb, ['^']⟩] ∧
      makeToken (print [.oper .caret]) ≠ .ok ([.oper .caret].map Lexeme.token) := by
  decide +kernel

end Sustemu.Monitor
