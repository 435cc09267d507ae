import Sustemu.Monitor.Lexing
import Sustemu.Monitor.Ranges

/-!
# Values of C expressions

A tree is printed with the parentheses that the precedence of C and left
associativity require, and `expr` reads the text back. The value that C gives to
the tree is defined on the tree, without tokens.
-/

set_option autoImplicit false

namespace Sustemu.Monitor

/-! ## Trees -/

/-- A number or a register. -/
structure Operand where
  lexeme : Lexeme
  valued : ∀ cpu, (lexeme.value cpu).isSome

def Operand.value (cpu : CPUState) (o : Operand) : Word := BitVec.ofNat 64 ((o.lexeme.value cpu).get (o.valued cpu))

def Operator.Binary (o : Operator) : Prop := o ∉ [.lparen, .rparen, .bang, .tilde]

def Operator.Unary (o : Operator) : Prop := o ∈ [.bang, .tilde, .star]

instance (o : Operator) : Decidable o.Binary := inferInstanceAs (Decidable (_ ∉ _))

instance (o : Operator) : Decidable o.Unary := inferInstanceAs (Decidable (_ ∈ _))

inductive Tree where
  | operand (o : Operand)
  | parens (t : Tree)
  | unary (o : Operator) (isUnary : o.Unary) (t : Tree)
  | binary (o : Operator) (isBinary : o.Binary) (l r : Tree)

/-- The level of a binary operator in the precedence of C; a smaller one binds more tightly. -/
def Operator.precedence : Operator → Nat
  | star | slash | percent => 3
  | plus | minus => 4
  | ls | rs => 5
  | lt | gt | ng | nl => 6
  | eq | neq => 7
  | amp => 8
  | caret => 9
  | bar => 10
  | and => 11
  | or => 12
  | lparen | rparen | bang | tilde => 0

/-- A unary operator binds more tightly than every binary one. -/
def unaryPrecedence : Nat := 2

namespace Tree

def precedence : Tree → Nat
  | operand _ => 0
  | parens _ => 0
  | unary _ _ _ => unaryPrecedence
  | binary o _ _ _ => o.precedence

/-- A tree in parentheses where they are required. -/
def enclosed (t : Tree) (required : Bool) : Tree := if required then parens t else t

/-- The tree with the parentheses that precedence and left associativity require. -/
def grouped : Tree → Tree
  | operand o => operand o
  | parens t => parens t.grouped
  | unary o isUnary t => unary o isUnary (t.grouped.enclosed (unaryPrecedence < t.precedence))
  | binary o isBinary l r =>
      binary o isBinary (l.grouped.enclosed (o.precedence < l.precedence))
        (r.grouped.enclosed (o.precedence ≤ r.precedence))

def lexemes : Tree → List Lexeme
  | operand o => [o.lexeme]
  | parens t => .oper .lparen :: (t.lexemes ++ [.oper .rparen])
  | unary o _ t => .oper o :: t.lexemes
  | binary o _ l r => l.lexemes ++ .oper o :: r.lexemes

def text (t : Tree) : List Char := print t.grouped.lexemes

end Tree

/-! ## Values -/

/-- A binary operator on unsigned words; `none` for a zero divisor or a shift count above 63. -/
def Operator.binaryValue (a b : Word) : Operator → Option Word
  | plus => some (BitVec.ofNat 64 (a.toNat + b.toNat))
  | minus => some (BitVec.ofInt 64 (a.toNat - b.toNat))
  | star => some (BitVec.ofNat 64 (a.toNat * b.toNat))
  | slash => if b = 0 then none else some (BitVec.ofNat 64 (a.toNat / b.toNat))
  | percent => if b = 0 then none else some (BitVec.ofNat 64 (a.toNat % b.toNat))
  | ls => if b.toNat > 63 then none else some (BitVec.ofNat 64 (a.toNat * 2 ^ b.toNat))
  | rs => if b.toNat > 63 then none else some (BitVec.ofNat 64 (a.toNat / 2 ^ b.toNat))
  | lt => some (ofBool (a.toNat < b.toNat))
  | gt => some (ofBool (b.toNat < a.toNat))
  | ng => some (ofBool (a.toNat ≤ b.toNat))
  | nl => some (ofBool (b.toNat ≤ a.toNat))
  | eq => some (ofBool (a = b))
  | neq => some (ofBool (a ≠ b))
  | amp => some (a &&& b)
  | caret => some (a ^^^ b)
  | bar => some (a ||| b)
  | and => some (ofBool (a ≠ 0 ∧ b ≠ 0))
  | or => some (ofBool (a ≠ 0 ∨ b ≠ 0))
  | lparen | rparen | bang | tilde => none

section

variable {σ : Type} (vm : VMem σ) (cpu : CPUState)

/-- A unary operator; a dereference reads eight bytes. -/
def Operator.unaryValue (a : Word) (w : World σ) : Operator → Option (Word × World σ)
  | bang => some (ofBool (a = 0), w)
  | tilde => some (~~~a, w)
  | star => vm.read w a 8
  | _ => none

/-- The value of a tree, with its operands from left to right; `none` where an operator has none. -/
def Tree.value : Tree → World σ → Option (Word × World σ)
  | operand o, w => some (o.value cpu, w)
  | parens t, w => t.value w
  | unary o _ t, w => do
      let (a, w) ← t.value w
      o.unaryValue vm a w
  | binary o _ l r, w => do
      let (a, w) ← l.value w
      let (b, w) ← r.value w
      let value ← o.binaryValue a b
      return (value, w)

/-- `expr` succeeds on the text of a tree with its value, whenever the tree has one. -/
def Tree.Computed (t : Tree) : Prop :=
  ∀ (stack : Nat → Word) (w w' : World σ) (value : Word), t.value vm cpu w = some (value, w') →
    expr vm cpu stack t.text true w = .ok (value, true, w')

end

/-! ## Trees that the evaluator reads -/

namespace Tree

def height : Tree → Nat
  | operand _ => 0
  | parens t => t.height + 1
  | unary _ _ t => t.height + 1
  | binary _ _ l r => max l.height r.height + 1

/-- The first lexeme is a dereference. -/
def LeadsDeref : Tree → Prop
  | operand _ => False
  | parens _ => False
  | unary o _ _ => o = .star
  | binary _ _ l _ => l.LeadsDeref

/-- Lexemes are plain, no unary operator follows another one, and no dereference follows `(`. -/
def Careful : Tree → Prop
  | operand o => o.lexeme.Plain
  | parens t => t.Careful ∧ ¬ t.LeadsDeref
  | unary _ _ t => t.Careful ∧ t.precedence ≠ unaryPrecedence
  | binary o _ l r => o ≠ .caret ∧ l.Careful ∧ r.Careful

/-- The printed tree is careful, fits the token array and needs no more recursion than `eval` allows. -/
structure Readable (t : Tree) : Prop where
  careful : t.grouped.Careful
  counted : t.grouped.lexemes.length ≤ tokensSize
  shallow : t.grouped.height < levels

/-! ## Required parentheses -/

/-- The operands of every operator bind more tightly than it does. -/
def Grouped : Tree → Prop
  | operand _ => True
  | parens t => t.Grouped
  | unary _ _ t => t.Grouped ∧ t.precedence ≤ unaryPrecedence
  | binary o _ l r => l.Grouped ∧ r.Grouped ∧ l.precedence ≤ o.precedence ∧ r.precedence < o.precedence

theorem precedence_grouped (t : Tree) : t.grouped.precedence = t.precedence := by
  cases t <;> rfl

theorem Grouped.enclosed {t : Tree} (grouped : t.Grouped) (required : Bool) : (t.enclosed required).Grouped := by
  cases required
  · exact grouped
  · exact grouped

theorem precedence_enclosed_le {t : Tree} {n : Nat} : (t.enclosed (n < t.precedence)).precedence ≤ n := by
  unfold Tree.enclosed
  by_cases weak : n < t.precedence
  · rw [if_pos (decide_eq_true weak)]
    exact Nat.zero_le n
  · rw [if_neg (by simpa using weak)]
    exact Nat.not_lt.mp weak

theorem precedence_enclosed_lt {t : Tree} {n : Nat} (positive : 0 < n) :
    (t.enclosed (n ≤ t.precedence)).precedence < n := by
  unfold Tree.enclosed
  by_cases weak : n ≤ t.precedence
  · rw [if_pos (decide_eq_true weak)]
    exact positive
  · rw [if_neg (by simpa using weak)]
    exact Nat.not_le.mp weak

end Tree

theorem Operator.Binary.precedence_pos {o : Operator} (isBinary : o.Binary) : unaryPrecedence < o.precedence := by
  cases o <;> first | decide | exact absurd isBinary (by decide)

theorem Operator.Binary.priority {o : Operator} (isBinary : o.Binary) : findPrior o.type = some o.precedence := by
  cases o <;> first | rfl | exact absurd isBinary (by decide)

namespace Tree

theorem grouped_grouped (t : Tree) : t.grouped.Grouped := by
  induction t with
  | operand o => trivial
  | parens t ih => exact ih
  | unary o isUnary t ih =>
      have binds := precedence_enclosed_le (t := t.grouped) (n := unaryPrecedence)
      rw [precedence_grouped] at binds
      exact ⟨ih.enclosed _, binds⟩
  | binary o isBinary l r left right =>
      have first := precedence_enclosed_le (t := l.grouped) (n := o.precedence)
      have second := precedence_enclosed_lt (t := r.grouped) (Nat.zero_lt_of_lt isBinary.precedence_pos)
      rw [precedence_grouped] at first second
      exact ⟨left.enclosed _, right.enclosed _, first, second⟩

variable {σ : Type} (vm : VMem σ) (cpu : CPUState)

theorem value_enclosed (t : Tree) (required : Bool) (w : World σ) :
    (t.enclosed required).value vm cpu w = t.value vm cpu w := by
  cases required <;> rfl

/-- Parentheses do not change the value. -/
theorem value_grouped (t : Tree) (w : World σ) : t.grouped.value vm cpu w = t.value vm cpu w := by
  induction t generalizing w with
  | operand o => rfl
  | parens t ih => exact ih w
  | unary o isUnary t ih => rw [grouped, value, value, value_enclosed, ih]
  | binary o isBinary l r left right =>
      rw [grouped, value, value, value_enclosed, left]
      congr 1
      funext first
      simp only [value_enclosed, right]

end Tree

/-! ## Tokens of a tree -/

def Operator.unaryType : Operator → TokenType
  | star => .deref
  | o => o.type

theorem Operator.Unary.priority {o : Operator} (isUnary : o.Unary) :
    findPrior o.unaryType = some unaryPrecedence := by
  cases o <;> first | rfl | exact absurd isUnary (by decide)

/-- The token of a number or a register is neither an operator nor a bracket. -/
theorem operand_type (o : Operand) :
    o.lexeme.token.type = .num ∨ o.lexeme.token.type = .hex ∨ o.lexeme.token.type = .reg := by
  obtain ⟨l, valued⟩ := o
  cases l with
  | oper o => exact absurd (valued ⟨.empty, 0⟩) nofun
  | num text nonempty inside => exact .inl rfl
  | hex x cased text nonempty inside => exact .inr (.inl rfl)
  | reg r => exact .inr (.inr rfl)

namespace Tree

/-- The tokens of the printed tree, with its dereferences marked. -/
def tokens : Tree → List Token
  | operand o => [o.lexeme.token]
  | parens t => ⟨.char '(', []⟩ :: (t.tokens ++ [⟨.char ')', []⟩])
  | unary o _ t => ⟨o.unaryType, []⟩ :: t.tokens
  | binary o _ l r => l.tokens ++ ⟨o.type, []⟩ :: r.tokens

theorem operand_notBracket (o : Operand) : ¬ o.lexeme.token.Opens ∧ ¬ o.lexeme.token.Closes := by
  unfold Token.Opens Token.Closes
  rcases operand_type o with type | type | type <;> rw [type] <;> decide

theorem operand_priority (o : Operand) : findPrior o.lexeme.token.type = none := by
  rcases operand_type o with type | type | type <;> rw [type] <;> rfl

/-- The operators outside brackets bind at least as tightly as the tree. -/
theorem tokens_level {t : Tree} (grouped : t.Grouped) : Level (AtMost t.precedence) t.tokens := by
  induction t with
  | operand o =>
      obtain ⟨notOpens, notCloses⟩ := operand_notBracket o
      exact .single notOpens notCloses (atMost_none (operand_priority o))
  | parens t ih => exact .parens rfl (ih grouped).balanced rfl
  | unary o isUnary t ih =>
      obtain ⟨grouped, binds⟩ := grouped
      obtain ⟨notOpens, notCloses⟩ := operator_notBracket (t := ⟨o.unaryType, []⟩) isUnary.priority
      have own : AtMost unaryPrecedence ⟨o.unaryType, []⟩ := atMost_own isUnary.priority
      exact (Level.single notOpens notCloses own).append ((ih grouped).mono fun t most => most.trans binds)
  | binary o isBinary l r left right =>
      obtain ⟨groupedLeft, groupedRight, first, second⟩ := grouped
      obtain ⟨notOpens, notCloses⟩ := operator_notBracket (t := ⟨o.type, []⟩) isBinary.priority
      have own : AtMost o.precedence ⟨o.type, []⟩ := atMost_own isBinary.priority
      have weaker := (right groupedRight).mono fun t most => most.trans (Nat.le_of_lt second)
      exact ((left groupedLeft).mono fun t most => most.trans first).append
        ((Level.single notOpens notCloses own).append weaker)

theorem tokens_pos (t : Tree) : 0 < t.tokens.length := by
  cases t with
  | operand o => exact Nat.succ_pos _
  | parens t => exact Nat.succ_pos _
  | unary o isUnary t => exact Nat.succ_pos _
  | binary o isBinary l r =>
      rw [tokens, List.length_append, List.length_cons]
      omega

/-! ## Marking -/

/-- Under a unary operator stands a number, a register or a tree in parentheses. -/
theorem not_leadsDeref {t : Tree} (binds : t.precedence ≤ unaryPrecedence) (other : t.precedence ≠ unaryPrecedence) :
    ¬ t.LeadsDeref := by
  cases t with
  | operand o => exact id
  | parens t => exact id
  | unary o isUnary t => exact absurd rfl other
  | binary o isBinary l r => exact absurd isBinary.precedence_pos (Nat.not_lt.mpr binds)

end Tree

theorem markDeref_star {previous : Option TokenType} (operator : previous.all operatorJudge) (text : List Char)
    (rest : List Token) :
    markDeref previous (⟨.char '*', text⟩ :: rest) = ⟨.deref, text⟩ :: markDeref (some .deref) rest := by
  rw [markDeref]
  simp [operator]

theorem Operator.Binary.judged {o : Operator} (isBinary : o.Binary) : operatorJudge o.type := by
  cases o <;> first | rfl | exact absurd isBinary (by decide)

namespace Tree

/-- Marking a tree leaves a token after which a `*` is a product. -/
theorem markDeref_tree {t : Tree} (grouped : t.Grouped) (careful : t.Careful) (previous : Option TokenType)
    (leads : t.LeadsDeref → previous.all operatorJudge) (rest : List Token) :
    ∃ last, operatorJudge last = false ∧
      markDeref previous (t.lexemes.map Lexeme.token ++ rest) = t.tokens ++ markDeref (some last) rest := by
  induction t generalizing previous rest with
  | operand o =>
      have other : o.lexeme.token.type ≠ .char '*' := by
        rcases operand_type o with type | type | type <;> rw [type] <;> decide
      have judged : operatorJudge o.lexeme.token.type = false := by
        rcases operand_type o with type | type | type <;> rw [type] <;> decide
      exact ⟨_, judged, markDeref_keep (fun star => absurd star other) rest⟩
  | parens t ih =>
      obtain ⟨careful, notLeads⟩ := careful
      obtain ⟨last, _, marked⟩ := ih grouped careful (some (.char '(')) (fun leads => absurd leads notLeads)
        (⟨.char ')', []⟩ :: rest)
      refine ⟨.char ')', by decide, ?_⟩
      calc markDeref previous ((parens t).lexemes.map Lexeme.token ++ rest)
          = markDeref previous (⟨.char '(', []⟩ :: (t.lexemes.map Lexeme.token ++ ⟨.char ')', []⟩ :: rest)) := by
            simp [lexemes, Lexeme.token, Operator.type]
        _ = ⟨.char '(', []⟩ :: (t.tokens ++ markDeref (some last) (⟨.char ')', []⟩ :: rest)) := by
            rw [markDeref_keep (by simp), marked]
        _ = (parens t).tokens ++ markDeref (some (.char ')')) rest := by
            rw [markDeref_keep (by simp)]
            simp [tokens]
  | unary o isUnary t ih =>
      obtain ⟨grouped, binds⟩ := grouped
      obtain ⟨careful, other⟩ := careful
      obtain ⟨last, judged, marked⟩ := ih grouped careful (some o.unaryType)
        (fun leads => absurd leads (not_leadsDeref binds other)) rest
      refine ⟨last, judged, ?_⟩
      have own : ∀ rest, markDeref previous ((Lexeme.oper o).token :: rest) =
          ⟨o.unaryType, []⟩ :: markDeref (some o.unaryType) rest := by
        intro rest
        by_cases star : o = .star
        · subst star
          exact markDeref_star (leads rfl) [] rest
        · have kept : (Lexeme.oper o).token.type ≠ .char '*' := by
            cases o <;> first | decide | exact absurd rfl star
          have same : o.unaryType = o.type := by
            cases o <;> first | rfl | exact absurd rfl star
          rw [markDeref_keep fun is => absurd is kept, same]
          rfl
      calc markDeref previous ((unary o isUnary t).lexemes.map Lexeme.token ++ rest)
          = markDeref previous ((Lexeme.oper o).token :: (t.lexemes.map Lexeme.token ++ rest)) := rfl
        _ = (unary o isUnary t).tokens ++ markDeref (some last) rest := by
            rw [own, marked]
            rfl
  | binary o isBinary l r left right =>
      obtain ⟨groupedLeft, groupedRight, _, _⟩ := grouped
      obtain ⟨_, carefulLeft, carefulRight⟩ := careful
      obtain ⟨middle, product, first⟩ := left groupedLeft carefulLeft previous leads
        ((Lexeme.oper o).token :: (r.lexemes.map Lexeme.token ++ rest))
      obtain ⟨last, judged, second⟩ := right groupedRight carefulRight (some o.type) (fun _ => isBinary.judged) rest
      refine ⟨last, judged, ?_⟩
      calc markDeref previous ((binary o isBinary l r).lexemes.map Lexeme.token ++ rest)
          = markDeref previous (l.lexemes.map Lexeme.token ++
              (Lexeme.oper o).token :: (r.lexemes.map Lexeme.token ++ rest)) := by simp [lexemes]
        _ = l.tokens ++ (Lexeme.oper o).token ::
              markDeref (some o.type) (r.lexemes.map Lexeme.token ++ rest) := by
            have kept : (Lexeme.oper o).token.type = .char '*' → (some middle).all operatorJudge = false :=
              fun _ => product
            rw [first, markDeref_keep kept]
            rfl
        _ = (binary o isBinary l r).tokens ++ markDeref (some last) rest := by
            rw [second]
            simp [tokens, Lexeme.token]

theorem careful_plain {t : Tree} (careful : t.Careful) : ∀ l ∈ t.lexemes, l.Plain := by
  induction t with
  | operand o => exact List.forall_mem_singleton.mpr careful
  | parens t ih =>
      refine List.forall_mem_cons.mpr ⟨nofun, List.forall_mem_append.mpr ⟨ih careful.1, ?_⟩⟩
      exact List.forall_mem_singleton.mpr nofun
  | unary o isUnary t ih =>
      have other : o ≠ .caret := by
        rintro rfl
        exact absurd isUnary (by decide)
      exact List.forall_mem_cons.mpr ⟨other, ih careful.1⟩
  | binary o isBinary l r left right =>
      obtain ⟨other, carefulLeft, carefulRight⟩ := careful
      exact List.forall_mem_append.mpr
        ⟨left carefulLeft, List.forall_mem_cons.mpr ⟨other, right carefulRight⟩⟩

end Tree

/-! ## Evaluation -/

section

variable {σ : Type} (vm : VMem σ) (cpu : CPUState)

include vm in
theorem evalToken_operand {o : Operand} (plain : o.lexeme.Plain) (stack : Nat → Word) (depth : Nat) (w : World σ) :
    evalToken cpu stack depth o.lexeme.token w = (o.value cpu, true, w) := by
  obtain ⟨n, counted⟩ := Option.isSome_iff_exists.mp (o.valued cpu)
  obtain ⟨value, same, done⟩ := ((plain_iff vm cpu w o.lexeme).mp plain).2 n counted fun _ => stack depth
  have own : o.value cpu = value := by
    unfold Operand.value
    rw [Option.get_of_eq_some _ counted, ← same, BitVec.ofNat_toNat, BitVec.setWidth_eq]
  rw [eval_single] at done
  rw [own, ← Except.ok.inj done]
  unfold evalToken
  rfl

theorem eq_ofNat {a : Word} {n : Nat} (same : a.toNat = n) : a = BitVec.ofNat 64 n := by
  rw [← same, BitVec.ofNat_toNat, BitVec.setWidth_eq]

/-- The switch of `eval` computes the binary operators of C. -/
theorem operation_binary {o : Operator} {a b value : Word} (valued : o.binaryValue a b = some value) :
    ∃ f, operation o.type = some f ∧ f a b = value := by
  cases o with
  | plus =>
      cases valued
      exact ⟨_, rfl, BitVec.eq_of_toNat_eq (by simp)⟩
  | minus =>
      cases valued
      refine ⟨_, rfl, BitVec.eq_of_toNat_eq ?_⟩
      rw [BitVec.toNat_sub, BitVec.toNat_ofInt]
      omega
  | star =>
      cases valued
      exact ⟨_, rfl, BitVec.eq_of_toNat_eq (by simp)⟩
  | slash =>
      obtain ⟨_, same⟩ := Option.ite_none_left_eq_some.mp valued
      cases same
      exact ⟨_, rfl, eq_ofNat (BitVec.toNat_udiv)⟩
  | percent =>
      obtain ⟨_, same⟩ := Option.ite_none_left_eq_some.mp valued
      cases same
      exact ⟨_, rfl, eq_ofNat (BitVec.toNat_umod)⟩
  | ls =>
      obtain ⟨small, same⟩ := Option.ite_none_left_eq_some.mp valued
      cases same
      have count : b.toNat % 64 = b.toNat := Nat.mod_eq_of_lt (by omega)
      refine ⟨_, rfl, BitVec.eq_of_toNat_eq ?_⟩
      rw [count, BitVec.toNat_shiftLeft, Nat.shiftLeft_eq, BitVec.toNat_ofNat]
  | rs =>
      obtain ⟨small, same⟩ := Option.ite_none_left_eq_some.mp valued
      cases same
      have count : b.toNat % 64 = b.toNat := Nat.mod_eq_of_lt (by omega)
      refine ⟨_, rfl, eq_ofNat ?_⟩
      rw [count, BitVec.toNat_ushiftRight, Nat.shiftRight_eq_div_pow]
  | eq | lt | gt | ng | nl | amp | caret | bar =>
      cases valued
      exact ⟨_, rfl, rfl⟩
  | neq | and | or =>
      cases valued
      exact ⟨_, rfl, congrArg ofBool (Bool.eq_iff_iff.mpr (by simp))⟩
  | lparen | rparen | bang | tilde => cases valued

theorem binaryValue_divisor {o : Operator} {a b value : Word} (valued : o.binaryValue a b = some value) :
    ¬ (b = 0 ∧ (o.type = .char '/' ∨ o.type = .char '%')) := by
  rintro ⟨rfl, division⟩
  cases o with
  | slash | percent => cases valued
  | _ => exact absurd division (by decide)

theorem applyOp_binary {o : Operator} (isBinary : o.Binary) {a b value : Word}
    (valued : o.binaryValue a b = some value) (w : World σ) :
    applyOp vm ⟨o.type, []⟩ a b true w = .ok (value, true, w) := by
  have notDeref : o.type ≠ .deref := by cases o <;> decide
  obtain ⟨f, found, same⟩ := operation_binary valued
  unfold applyOp
  rw [if_neg (binaryValue_divisor valued), if_neg notDeref]
  simp only [found, same]

theorem applyOp_unary {o : Operator} (isUnary : o.Unary) (a : Word) {b value : Word} {w w' : World σ}
    (valued : o.unaryValue vm b w = some (value, w')) :
    applyOp vm ⟨o.unaryType, []⟩ a b true w = .ok (value, true, w') := by
  have notDivision : ¬ (o.unaryType = .char '/' ∨ o.unaryType = .char '%') := by
    cases o <;> first | decide | exact absurd isUnary (by decide)
  unfold applyOp
  rw [if_neg fun both => notDivision both.2]
  cases o with
  | bang | tilde =>
      cases valued
      rfl
  | star =>
      have done : vm.read w b 8 = some (value, w') := valued
      have deref : Operator.star.unaryType = .deref := rfl
      rw [if_pos deref, done]
  | _ => exact absurd isUnary (by decide)

/-- `eval` computes the value of a tree from its tokens. -/
theorem eval_tree {tokens : List Token} (stack : Nat → Word) {t : Tree} (grouped : t.Grouped) (careful : t.Careful)
    {p : Int} (here : At tokens p t.tokens) {levels : Nat} (deep : t.height < levels) {w w' : World σ} {value : Word}
    (valued : t.value vm cpu w = some (value, w')) :
    eval tokens vm cpu stack levels p (p + t.tokens.length - 1) true w = .ok (value, true, w') := by
  obtain ⟨levels, rfl⟩ : ∃ n, levels = n + 1 := ⟨levels - 1, by omega⟩
  induction t generalizing p levels w w' value with
  | operand o =>
      cases valued
      have one : p + ((Tree.operand o).tokens.length : Int) - 1 = p := Int.add_sub_cancel p 1
      rw [one, eval_token vm cpu stack levels w here, evalToken_operand vm cpu careful]
  | parens t ih =>
      have last : p + ((Tree.parens t).tokens.length : Int) - 1 = p + t.tokens.length + 1 := by
        simp only [Tree.tokens, List.length_append, List.length_cons, List.length_nil]
        omega
      have inner : p + (t.tokens.length : Int) = p + 1 + t.tokens.length - 1 := by omega
      obtain ⟨less, rfl⟩ : ∃ n, levels = n + 1 := ⟨levels - 1, by unfold Tree.height at deep; omega⟩
      rw [last, eval_group vm cpu stack _ w here rfl (Tree.tokens_level (t := t) grouped).balanced rfl, inner]
      exact ih grouped careful.1 here.tail.first valued less (Nat.lt_of_succ_lt_succ deep)
  | unary o isUnary t ih =>
      obtain ⟨grouped, binds⟩ := grouped
      obtain ⟨careful, other⟩ := careful
      obtain ⟨⟨a, middle⟩, first, applied⟩ := Option.bind_eq_some_iff.mp valued
      obtain ⟨less, rfl⟩ : ∃ n, levels = n + 1 := ⟨levels - 1, by unfold Tree.height at deep; omega⟩
      have last : p + ((Tree.unary o isUnary t).tokens.length : Int) - 1 = p + t.tokens.length := by
        rw [Tree.tokens, List.length_cons]
        omega
      have level := (Tree.tokens_level grouped).mono fun token most =>
        most.trans (Nat.le_of_lt_succ (Nat.lt_of_le_of_ne binds other))
      have inner : p + (t.tokens.length : Int) = p + 1 + t.tokens.length - 1 := by omega
      have operand := ih grouped careful here.tail first less (Nat.lt_of_succ_lt_succ deep)
      rw [last, eval_unary vm cpu stack less w here isUnary.priority level (by decide) t.tokens_pos, inner, operand]
      exact applyOp_unary vm isUnary 0 applied
  | binary o isBinary l r left right =>
      obtain ⟨groupedLeft, groupedRight, first, second⟩ := grouped
      obtain ⟨_, carefulLeft, carefulRight⟩ := careful
      obtain ⟨⟨a, w₁⟩, leftValued, rest⟩ := Option.bind_eq_some_iff.mp valued
      obtain ⟨⟨b, w₂⟩, rightValued, rest⟩ := Option.bind_eq_some_iff.mp rest
      obtain ⟨c, applied, same⟩ := Option.bind_eq_some_iff.mp rest
      cases same
      obtain ⟨prior, own⟩ : ∃ n, o.precedence = n + 1 :=
        ⟨o.precedence - 1, by have := isBinary.precedence_pos; omega⟩
      have known : prior < maxPrior := by
        have most : o.precedence ≤ 12 := by cases o <;> decide
        exact Nat.lt_of_lt_of_le (Nat.lt_of_succ_le (own ▸ most)) (by decide)
      have priority : findPrior o.type = some (prior + 1) := by rw [isBinary.priority, own]
      rw [own] at first second
      have levelLeft := (Tree.tokens_level groupedLeft).mono fun token most => most.trans first
      have levelRight := (Tree.tokens_level groupedRight).mono fun token most => most.trans (Nat.le_of_lt_succ second)
      obtain ⟨less, rfl⟩ : ∃ n, levels = n + 1 := ⟨levels - 1, by unfold Tree.height at deep; omega⟩
      have deepLeft : l.height < less + 1 := by
        unfold Tree.height at deep
        omega
      have deepRight : r.height < less + 1 := by
        unfold Tree.height at deep
        omega
      have last : p + ((Tree.binary o isBinary l r).tokens.length : Int) - 1 =
          p + l.tokens.length + r.tokens.length := by
        rw [Tree.tokens, List.length_append, List.length_cons]
        omega
      have inner : p + (l.tokens.length : Int) + r.tokens.length =
          p + l.tokens.length + 1 + r.tokens.length - 1 := by omega
      have longer : 0 < l.tokens.length + r.tokens.length := Nat.add_pos_left l.tokens_pos _
      have one := left groupedLeft carefulLeft here.first leftValued less deepLeft
      have two := right groupedRight carefulRight here.second.tail rightValued less deepRight
      rw [last, eval_split vm cpu stack _ w here levelLeft priority levelRight known longer, one]
      simp only [Except.bind]
      rw [inner, two]
      exact applyOp_binary vm isBinary applied w'

/-- The text of a readable tree is lexed into its tokens. -/
theorem makeToken_text {t : Tree} (readable : t.Readable) :
    makeToken t.text = .ok (t.grouped.lexemes.map Lexeme.token) := by
  refine (makeToken_print_iff _).mpr ⟨fun l member => ?_, readable.counted⟩
  have plain := Tree.careful_plain readable.careful l member
  exact ((plain_iff VMem.absent ⟨.empty, 0⟩ ⟨Sys.init, ()⟩ l).mp plain).1

theorem markDeref_text {t : Tree} (readable : t.Readable) :
    markDeref none (t.grouped.lexemes.map Lexeme.token) = t.grouped.tokens := by
  obtain ⟨last, _, marked⟩ := Tree.markDeref_tree t.grouped_grouped readable.careful none (fun _ => rfl) []
  rw [List.append_nil] at marked
  rw [marked]
  exact List.append_nil _

/-- The evaluator computes the value of every readable tree. -/
theorem expr_computes (t : Tree) (readable : t.Readable) : t.Computed vm cpu := by
  intro stack w w' value valued
  have whole := At.whole t.grouped.tokens
  have last : (t.grouped.tokens.length : Int) - 1 = 0 + t.grouped.tokens.length - 1 := by omega
  unfold expr
  rw [makeToken_text readable]
  simp only [markDeref_text readable]
  rw [last]
  refine eval_tree vm cpu stack t.grouped_grouped readable.careful whole readable.shallow ?_
  rw [Tree.value_grouped]
  exact valued

end

/-! ## Runs on texts -/

/-- A number of one digit. -/
def digitTree (c : Char) (inside : c ∈ digits) : Tree :=
  .operand ⟨.num [c] (List.cons_ne_nil c []) (List.forall_mem_singleton.mpr inside), fun _ => rfl⟩

def decimalOne : Tree := digitTree '1' (by decide)

def decimalTwo : Tree := digitTree '2' (by decide)

/-- `( 1 + 2 ) * ! ( 1 - 1 )`, whose tree has the parentheses of the product only. -/
def productOfSum : Tree :=
  .binary .star (by decide) (.binary .plus (by decide) decimalOne decimalTwo)
    (.unary .bang (by decide) (.parens (.binary .minus (by decide) decimalOne decimalOne)))

example : productOfSum.text = "( 1 + 2 ) * ! ( 1 - 1 )".toList := by decide

theorem expr_computes_product :
    expr VMem.absent ⟨.empty, 0⟩ (fun _ => 0) productOfSum.text true ⟨Sys.init, ()⟩ = .ok (3, true, ⟨Sys.init, ()⟩) := by
  have first : decimalOne.Careful := ⟨by decide, by decide⟩
  have second : decimalTwo.Careful := ⟨by decide, by decide⟩
  have sum : productOfSum.grouped.Careful :=
    ⟨by decide, ⟨⟨by decide, first, second⟩, id⟩, ⟨⟨⟨by decide, first, first⟩, id⟩, by decide⟩⟩
  have readable : productOfSum.Readable := ⟨sum, by decide, by decide⟩
  exact expr_computes VMem.absent ⟨.empty, 0⟩ productOfSum readable (fun _ => 0) ⟨Sys.init, ()⟩ ⟨Sys.init, ()⟩ 3 rfl

/-- `! ! 1`. -/
def negatedTwice : Tree := .unary .bang (by decide) (.unary .bang (by decide) decimalOne)

/-- The first of two negations is lost: the scan for an operator starts at the end of the range. -/
theorem negation_lost : ¬ negatedTwice.Computed VMem.absent ⟨.empty, 0⟩ := by
  intro computed
  have read := computed (fun _ => 0) ⟨Sys.init, ()⟩ ⟨Sys.init, ()⟩ 1 rfl
  have lost : expr VMem.absent ⟨.empty, 0⟩ (fun _ => 0) negatedTwice.text true ⟨Sys.init, ()⟩ =
      .ok (0, true, ⟨Sys.init, ()⟩) := rfl
  rw [lost] at read
  cases read

end Sustemu.Monitor
