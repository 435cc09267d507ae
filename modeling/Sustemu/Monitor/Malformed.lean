import Sustemu.Monitor.Trees

/-!
# Malformed expressions

The evaluator splits a range at an operator and evaluates both sides, also where
one of them is empty. As long as brackets match and an operator stands between
two operands, no scan leaves the tokens and the switch on the operator knows its
token. This holds for every well-formed token sequence and for every range that
is reached from it.
-/

set_option autoImplicit false

namespace Sustemu.Monitor

open Lib RegularExpression

/-! ## Well-formed token sequences -/

def binaryTypes : List TokenType :=
  [.char '+', .char '-', .eq, .neq, .char '*', .char '/', .char '%', .ls, .rs, .ng, .nl, .char '<', .char '>', .and,
    .or, .char '&', .char '^', .char '|']

def unaryTypes : List TokenType := [.char '!', .char '~', .char '*']

def operandTypes : List TokenType := [.num, .hex, .reg]

/-- The expressions over the tokens of `make_token`. -/
inductive WellFormed : List Token → Prop
  | operand {t : Token} : t.type ∈ operandTypes → WellFormed [t]
  | parens {opening closing inner} : opening.Opens → WellFormed inner → closing.Closes →
      WellFormed (opening :: (inner ++ [closing]))
  | unary {t : Token} {rest} : t.type ∈ unaryTypes → WellFormed rest → WellFormed (t :: rest)
  | binary {left right} {t : Token} : WellFormed left → t.type ∈ binaryTypes → WellFormed right →
      WellFormed (left ++ t :: right)

/-- A printed tree is well formed. -/
theorem Tree.wellFormed (t : Tree) : WellFormed (t.lexemes.map Lexeme.token) := by
  induction t with
  | operand o =>
      have listed : o.lexeme.token.type ∈ operandTypes := by
        rcases operand_type o with type | type | type <;> rw [type] <;> decide
      exact .operand listed
  | parens t ih =>
      rw [Tree.lexemes, List.map_cons, List.map_append]
      exact .parens rfl ih rfl
  | unary o isUnary t ih =>
      have listed : o.type ∈ unaryTypes := by
        cases o <;> first | decide | exact absurd isUnary (by decide)
      exact .unary listed ih
  | binary o isBinary l r left right =>
      have listed : o.type ∈ binaryTypes := by
        cases o <;> first | decide | exact absurd isBinary (by decide)
      rw [Tree.lexemes, List.map_append, List.map_cons]
      exact .binary left listed right

/-! ## Ranges whose operands are separated -/

/-- Brackets match and no two operands are adjacent; the flag tells whether the last item is an operand. -/
inductive Loose : Bool → List Token → Prop
  | nil : Loose false []
  | operator {b front t prior} : Loose b front → findPrior t.type = some prior → Loose false (front ++ [t])
  | operand {front} {t : Token} : Loose false front → ¬ t.Opens → ¬ t.Closes → findPrior t.type = none →
      Loose true (front ++ [t])
  | group {b front opening inner closing} : Loose false front → opening.Opens → Loose b inner → closing.Closes →
      Loose true (front ++ opening :: (inner ++ [closing]))

theorem Loose.balanced {b : Bool} {seg : List Token} (loose : Loose b seg) : Balanced seg := by
  induction loose with
  | nil => exact .nil
  | operator _ own ih => exact .token ih (operator_notBracket own).1 (operator_notBracket own).2 trivial
  | operand _ notOpens notCloses _ ih => exact .token ih notOpens notCloses trivial
  | group _ opens _ closes ih inside => exact .group ih opens inside closes

/-- An operator joins two ranges. -/
theorem Loose.join {b b' : Bool} {left right : List Token} {t : Token} {prior : Nat} (first : Loose b left)
    (own : findPrior t.type = some prior) (second : Loose b' right) : Loose b' (left ++ t :: right) := by
  induction second with
  | nil => exact first.operator own
  | operator _ other ih =>
      rw [← List.cons_append, ← List.append_assoc]
      exact ih.operator other
  | operand _ notOpens notCloses none ih =>
      rw [← List.cons_append, ← List.append_assoc]
      exact ih.operand notOpens notCloses none
  | group _ opens inside closes ih _ =>
      rw [← List.cons_append, ← List.append_assoc]
      exact ih.group opens inside closes

/-- A range without operators outside brackets. -/
inductive Bare : Bool → List Token → Prop
  | nil : Bare false []
  | operand {t : Token} : ¬ t.Opens → ¬ t.Closes → findPrior t.type = none → Bare true [t]
  | group {b opening inner closing} : opening.Opens → Loose b inner → closing.Closes →
      Bare true (opening :: (inner ++ [closing]))

theorem Bare.level {b : Bool} {seg : List Token} (bare : Bare b seg) (prior : Nat) : Level (AtMost prior) seg := by
  cases bare with
  | nil => exact .nil
  | operand notOpens notCloses none => exact .single notOpens notCloses (atMost_none none)
  | group opens inside closes => exact .parens opens inside.balanced closes

/-- The rightmost of the weakest operators outside brackets, with what stands on its sides. -/
structure Split (b : Bool) (seg : List Token) where
  left : List Token
  op : Token
  right : List Token
  prior : Nat
  shape : seg = left ++ op :: right
  own : findPrior op.type = some (prior + 1)
  loose : ∃ b, Loose b left
  operands : Loose b right
  weaker : Level (AtMost (prior + 1)) left
  lower : Level (AtMost prior) right

theorem Split.level {b : Bool} {seg : List Token} (split : Split b seg) : Level (AtMost (split.prior + 1)) seg := by
  obtain ⟨left, op, right, prior, rfl, own, _, _, weaker, lower⟩ := split
  obtain ⟨notOpens, notCloses⟩ := operator_notBracket own
  have higher := lower.mono fun t most => most.trans (Nat.le_succ prior)
  exact weaker.append ((Level.single notOpens notCloses (atMost_own own)).append higher)

/-- An item without a weaker operator goes to the right side. -/
def Split.extend {b b' : Bool} {seg tail : List Token} (split : Split b seg) (operands : Loose b' (split.right ++ tail))
    (lower : Level (AtMost split.prior) (split.right ++ tail)) : Split b' (seg ++ tail) where
  left := split.left
  op := split.op
  right := split.right ++ tail
  prior := split.prior
  shape := (congrArg (· ++ tail) split.shape).trans (List.append_assoc ..)
  own := split.own
  loose := split.loose
  operands := operands
  weaker := split.weaker
  lower := lower

/-- A range is bare or has a weakest operator. -/
theorem Loose.split {b : Bool} {seg : List Token} (loose : Loose b seg) : Bare b seg ∨ Nonempty (Split b seg) := by
  induction loose with
  | nil => exact .inl .nil
  | @operator b front t prior loose own ih =>
      obtain ⟨notOpens, notCloses⟩ := operator_notBracket own
      obtain ⟨n, rfl⟩ := priority_succ own
      have last : Level (AtMost (n + 1)) front → Nonempty (Split false (front ++ [t])) := fun weaker =>
        .intro ⟨front, t, [], n, rfl, own, ⟨b, loose⟩, .nil, weaker, .nil⟩
      rcases ih with bare | ⟨⟨split⟩⟩
      · exact .inr (last (bare.level (n + 1)))
      · rcases Nat.lt_or_ge n split.prior with lower | reached
        · exact .inr ⟨split.extend (split.operands.operator own)
            (split.lower.token notOpens notCloses ((atMost_own own).trans lower))⟩
        · exact .inr (last (split.level.mono fun t most => most.trans (Nat.succ_le_succ reached)))
  | @operand front t loose notOpens notCloses none ih =>
      rcases ih with bare | ⟨⟨split⟩⟩
      · cases bare
        exact .inl (.operand notOpens notCloses none)
      · exact .inr ⟨split.extend (split.operands.operand notOpens notCloses none)
          (split.lower.token notOpens notCloses (atMost_none none))⟩
  | @group b front o inner c loose opens inside closes ih _ =>
      rcases ih with bare | ⟨⟨split⟩⟩
      · cases bare
        exact .inl (.group opens inside closes)
      · exact .inr ⟨split.extend (split.operands.group opens inside closes)
          (split.lower.group opens inside.balanced closes)⟩

/-! ## Safety -/

/-- No scan left the tokens and the assertion was not reached. -/
inductive Safe {α : Type} : Except Stop α → Prop
  | ok (a : α) : Safe (.ok a)
  | memory : Safe (.error .memory)

theorem Safe.bind {α β : Type} {r : Except Stop α} {f : α → Except Stop β} (safe : Safe r)
    (next : ∀ a, Safe (f a)) : Safe (r.bind f) := by
  cases safe with
  | ok a => exact next a
  | memory => exact .memory

/-- Every token with a priority has a case in the switch. -/
theorem priorArr_operations : ∀ entry ∈ priorArr, entry.1 = .deref ∨ (operation entry.1).isSome := by decide

section

variable {σ : Type} (vm : VMem σ) (cpu : CPUState) (stack : Nat → Word)

theorem applyOp_safe {t : Token} {prior : Nat} (own : findPrior t.type = some prior) (val1 val2 : Word)
    (success : Bool) (w : World σ) : Safe (applyOp vm t val1 val2 success w) := by
  unfold applyOp
  split
  · exact .ok _
  split
  · cases vm.read w val2 8 with
    | some read => exact .ok _
    | none => exact .memory
  · next notDeref =>
      have known := (priorArr_operations _ (findPrior_mem own)).resolve_left notDeref
      obtain ⟨f, found⟩ := Option.isSome_iff_exists.mp known
      simp only [found]
      exact .ok _

theorem eval_unsuccessful {tokens : List Token} (levels : Nat) (p q : Int) (w : World σ) :
    eval tokens vm cpu stack levels p q false w = .ok (-1, false, w) := by
  cases levels <;> rfl

/-- A range whose operands are separated is evaluated safely. -/
theorem eval_safe {tokens seg : List Token} {b : Bool} (loose : Loose b seg) {p : Int} (here : At tokens p seg)
    (levels : Nat) (success : Bool) (w : World σ) :
    Safe (eval tokens vm cpu stack levels p (p + seg.length - 1) success w) := by
  induction levels generalizing seg b p success w with
  | zero => exact .ok _
  | succ levels ih =>
      cases success with
      | false =>
          rw [eval_unsuccessful]
          exact .ok _
      | true =>
          rcases loose.split with bare | ⟨⟨split⟩⟩
          · cases bare with
            | nil =>
                have below : p + (([] : List Token).length : Int) - 1 < p := by
                  rw [List.length_nil]
                  omega
                rw [eval_empty vm cpu stack levels w below]
                exact .ok _
            | operand notOpens notCloses none =>
                rw [show p + ([_].length : Int) - 1 = p from Int.add_sub_cancel p 1, eval_token vm cpu stack levels w here]
                exact .ok _
            | @group b o inner c opens inside closes =>
                have last : p + ((o :: (inner ++ [c])).length : Int) - 1 = p + inner.length + 1 := by
                  simp only [List.length_append, List.length_cons, List.length_nil]
                  omega
                have shifted : p + (inner.length : Int) = p + 1 + inner.length - 1 := by omega
                rw [last, eval_group vm cpu stack levels w here opens inside.balanced closes, shifted]
                exact ih inside here.tail.first true w
          · obtain ⟨left, op, right, prior, rfl, own, ⟨b', loose⟩, operands, weaker, lower⟩ := split
            have last : p + ((left ++ op :: right).length : Int) - 1 = p + left.length + right.length := by
              rw [List.length_append, List.length_cons]
              omega
            have known : prior < maxPrior := (priorArr_bounds _ (findPrior_mem own)).2
            rw [last]
            by_cases longer : 0 < left.length + right.length
            · have shifted : p + (left.length : Int) + right.length = p + left.length + 1 + right.length - 1 := by omega
              rw [eval_split vm cpu stack levels w here weaker own lower known longer]
              refine (ih loose here.first true w).bind fun one => ?_
              rw [shifted]
              refine (ih operands here.second.tail one.2.1 one.2.2).bind fun two => ?_
              exact applyOp_safe vm own _ _ _ _
            · obtain rfl : left = [] := List.eq_nil_of_length_eq_zero (by omega)
              obtain rfl : right = [] := List.eq_nil_of_length_eq_zero (by omega)
              rw [show p + (([] : List Token).length : Int) + (([] : List Token).length : Int) = p by simp,
                eval_token vm cpu stack levels w here]
              exact .ok _

end

/-! ## Marking keeps the operands separated -/

theorem markDeref_append (previous : Option TokenType) (front back : List Token) :
    ∃ next, markDeref previous (front ++ back) = markDeref previous front ++ markDeref next back := by
  induction front generalizing previous with
  | nil => exact ⟨previous, rfl⟩
  | cons t front ih =>
      obtain ⟨next, same⟩ := ih (some (if t.type = .char '*' ∧ previous.all operatorJudge then
        { t with type := .deref } else t).type)
      exact ⟨next, congrArg (List.cons _) same⟩

/-- An operator stays one. -/
theorem markDeref_operator {t : Token} (operator : t.type ∈ binaryTypes ∨ t.type ∈ unaryTypes)
    (previous : Option TokenType) (rest : List Token) :
    ∃ t' prior next, findPrior t'.type = some prior ∧
      markDeref previous (t :: rest) = t' :: markDeref next rest := by
  have known : ∃ prior, findPrior t.type = some prior := by
    have table : ∀ type ∈ binaryTypes ++ unaryTypes, (findPrior type).isSome := by decide
    exact Option.isSome_iff_exists.mp (table _ (List.mem_append.mpr operator))
  obtain ⟨prior, own⟩ := known
  rw [markDeref]
  split
  · exact ⟨_, 2, _, rfl, rfl⟩
  · exact ⟨t, prior, _, own, rfl⟩

theorem WellFormed.loose {seg : List Token} (formed : WellFormed seg) (previous : Option TokenType) :
    Loose true (markDeref previous seg) := by
  induction formed generalizing previous with
  | @operand t listed =>
      have other : ∀ type ∈ operandTypes, type ≠ .char '*' ∧ type ≠ .char '(' ∧ type ≠ .char ')' ∧
          findPrior type = none := by decide
      obtain ⟨notStar, notOpens, notCloses, none⟩ := other _ listed
      rw [markDeref_keep fun star => absurd star notStar]
      exact Loose.operand .nil notOpens notCloses none
  | @parens o c inner opens _ closes ih =>
      have first : o.type ≠ .char '*' := fun star => by
        rw [opens] at star
        cases star
      have last : c.type ≠ .char '*' := fun star => by
        rw [closes] at star
        cases star
      obtain ⟨next, same⟩ := markDeref_append (some o.type) inner [c]
      rw [markDeref_keep fun star => absurd star first, same, markDeref_keep fun star => absurd star last]
      exact Loose.group .nil opens (ih _) closes
  | @unary t rest listed _ ih =>
      obtain ⟨t', prior, next, own, same⟩ := markDeref_operator (.inr listed) previous rest
      rw [same]
      exact Loose.join .nil own (ih next)
  | @binary left right t _ listed _ first second =>
      obtain ⟨middle, split⟩ := markDeref_append previous left (t :: right)
      obtain ⟨t', prior, next, own, same⟩ := markDeref_operator (.inl listed) middle right
      rw [split, same]
      exact (first previous).join own (second next)

/-- Well-formed tokens are evaluated safely. -/
theorem WellFormed.safe {tokens : List Token} (formed : WellFormed tokens) {σ : Type} (vm : VMem σ) (cpu : CPUState)
    (stack : Nat → Word) (w : World σ) : Safe (eval (markDeref none tokens) vm cpu stack levels 0
      ((markDeref none tokens).length - 1) true w) := by
  have whole := eval_safe vm cpu stack (formed.loose none) (At.whole _) levels true w
  rw [Int.zero_add] at whole
  exact whole

/-! ## Results of arbitrary token sequences -/

/-- A scan fails only outside the tokens. -/
inductive Scanned {α : Type} : Except Stop α → Prop
  | ok (a : α) : Scanned (.ok a)
  | outside (i : Int) : Scanned (.error (.outside i))

theorem Scanned.bind {α β : Type} {r : Except Stop α} {f : α → Except Stop β} (scanned : Scanned r)
    (next : ∀ a, r = .ok a → Scanned (f a)) : Scanned (r.bind f) := by
  cases scanned with
  | ok a => exact next a rfl
  | outside i => exact .outside i

section

variable (tokens : List Token)

theorem tokenAt_scanned (i : Int) : Scanned (tokenAt tokens i) := by
  cases i with
  | ofNat i =>
      rw [tokenAt]
      split
      · exact .ok _
      · exact .outside _
  | negSucc i => exact .outside _

theorem countOpen_scanned (turns : Nat) (i : Int) (found : Nat) : Scanned (countOpen tokens turns i found) := by
  induction turns generalizing i found with
  | zero => exact .ok _
  | succ turns ih => exact (tokenAt_scanned tokens i).bind fun _ _ => ih _ _

theorem opening_scanned (turns : Nat) (j : Int) (depth : Nat) : Scanned (opening tokens turns j depth) := by
  induction turns generalizing j depth with
  | zero => exact .ok _
  | succ turns ih =>
      refine (tokenAt_scanned tokens j).bind fun t _ => ?_
      split
      · exact ih _ _
      · split
        · split
          · exact .ok _
          · exact ih _ _
        · exact ih _ _

theorem checkParentheses_scanned (p q : Int) : Scanned (checkParentheses tokens p q) := by
  refine (tokenAt_scanned tokens p).bind fun first _ => (tokenAt_scanned tokens q).bind fun last _ => ?_
  split
  · exact (countOpen_scanned tokens _ _ _).bind fun _ _ => .ok _
  · exact .ok _

theorem searchPrior_scanned (p : Int) (prior turns : Nat) (i : Int) :
    Scanned (searchPrior tokens p prior turns i) := by
  induction turns generalizing i with
  | zero => exact .ok _
  | succ turns ih =>
      rw [searchPrior]
      split
      · exact .ok _
      · refine (tokenAt_scanned tokens i).bind fun t _ => ?_
        split
        · refine (opening_scanned tokens _ _ _).bind fun found _ => ?_
          split
          · exact ih _
          · exact ih _
        · split
          · exact .ok _
          · exact ih _

theorem findOp_scanned (p q : Int) (n : Nat) : Scanned (findOp tokens p q n) := by
  induction n with
  | zero => exact .ok _
  | succ n ih =>
      refine (searchPrior_scanned tokens p (n + 1) _ q).bind fun found _ => ?_
      split
      · exact .ok _
      · exact ih

variable {tokens}

theorem ok_of_bind {α β : Type} {r : Except Stop α} {f : α → Except Stop β} {b : β} (done : r.bind f = .ok b) :
    ∃ a, r = .ok a ∧ f a = .ok b := by
  cases r with
  | error stop => cases done
  | ok a => exact ⟨a, rfl, done⟩

theorem searchPrior_own {p : Int} {prior turns : Nat} {i k : Int} {t : Token}
    (found : searchPrior tokens p prior turns i = .ok (some k)) (here : tokenAt tokens k = .ok t) :
    findPrior t.type = some prior := by
  induction turns generalizing i with
  | zero => cases found
  | succ turns ih =>
      rw [searchPrior] at found
      split at found
      · cases found
      obtain ⟨t', read, found⟩ := ok_of_bind found
      split at found
      · obtain ⟨jump, _, found⟩ := ok_of_bind found
        split at found
        · exact ih found
        · exact ih found
      · split at found
        · next own =>
            cases found
            cases read.symm.trans here
            exact own
        · exact ih found

/-- The token at the index found is an operator. -/
theorem findOp_own {p q op : Int} {n : Nat} {t : Token} (found : findOp tokens p q n = .ok op)
    (here : tokenAt tokens op = .ok t) : ∃ prior, findPrior t.type = some prior := by
  induction n with
  | zero =>
      cases found
      cases here
  | succ n ih =>
      obtain ⟨operator, searched, found⟩ := ok_of_bind found
      split at found
      · cases found
        exact ⟨n + 1, searchPrior_own searched here⟩
      · exact ih found

end

/-! ## Memories that answer -/

/-- The first run stops at a read that fails, or it is the second one. -/
inductive Completes {α : Type} : Except Stop α → Except Stop α → Prop
  | failed {r : Except Stop α} : Completes (.error .memory) r
  | same {r : Except Stop α} : Completes r r

theorem Completes.bind {α β : Type} {r r' : Except Stop α} {f g : α → Except Stop β} (first : Completes r r')
    (next : ∀ a, Completes (f a) (g a)) : Completes (r.bind f) (r'.bind g) := by
  cases first with
  | failed => exact .failed
  | same =>
      cases r with
      | error stop => exact .same
      | ok a => exact next a

section

variable {σ : Type} (vm : VMem σ)

/-- Every read of the evaluator is answered. -/
def VMem.Answers : Prop := ∀ w addr, ∃ read, vm.read w addr 8 = some read

/-- Reads that fail answer 0. -/
def VMem.completed : VMem σ := { vm with read := fun w addr len => some ((vm.read w addr len).getD (0, w)) }

theorem VMem.completed_answers : VMem.Answers (VMem.completed vm) := fun _ _ => ⟨_, rfl⟩

theorem applyOp_completes (t : Token) (val1 val2 : Word) (success : Bool) (w : World σ) :
    Completes (applyOp vm t val1 val2 success w) (applyOp (VMem.completed vm) t val1 val2 success w) := by
  unfold applyOp
  split
  · exact .same
  split
  · simp only [VMem.completed]
    cases vm.read w val2 8 with
    | none => exact .failed
    | some read => exact .same
  · exact .same

/-- Up to a read that fails, the evaluation is the one over the completed memory. -/
theorem eval_completes (cpu : CPUState) (stack : Nat → Word) (tokens : List Token) (levels : Nat) (p q : Int)
    (success : Bool) (w : World σ) : Completes (eval tokens vm cpu stack levels p q success w)
      (eval tokens (VMem.completed vm) cpu stack levels p q success w) := by
  induction levels generalizing p q success w with
  | zero => exact .same
  | succ levels ih =>
      rw [eval, eval]
      split
      · exact .same
      split
      · exact .same
      split
      · exact .same
      refine Completes.bind .same fun surrounded => ?_
      split
      · exact ih _ _ _ _
      refine Completes.bind .same fun op => (ih _ _ _ _).bind fun one => (ih _ _ _ _).bind fun two => ?_
      exact Completes.bind .same fun t => applyOp_completes vm t _ _ _ _

end

/-! ## How a range is taken apart -/

/-- The ranges that `eval` works on. They depend on the types of the tokens alone. -/
inductive Plan where
  | deep
  | empty
  | token (depth : Nat) (t : Token)
  | group (inner : Plan)
  | split (left : Plan) (t : Token) (right : Plan)
  | lost
  deriving DecidableEq, Repr

/-- With so many levels left. A range without an operator outside brackets is lost. -/
def plan (tokens : List Token) : Nat → Int → Int → Plan
  | 0, _, _ => .deep
  | levels + 1, p, q =>
      if p > q then .empty
      else if p = q then
        match tokenAt tokens p with
        | .ok t => .token (35 - levels) t
        | .error _ => .lost
      else
        match checkParentheses tokens p q with
        | .ok true => .group (plan tokens levels (p + 1) (q - 1))
        | .ok false =>
            match findOp tokens p q maxPrior with
            | .ok op =>
                match tokenAt tokens op with
                | .ok t => .split (plan tokens levels p (op - 1)) t (plan tokens levels (op + 1) q)
                | .error _ => .lost
            | .error _ => .lost
        | .error _ => .lost

section

variable {σ : Type} (vm : VMem σ) (cpu : CPUState) (stack : Nat → Word)

/-- The range has a value. A missing operand and a lone operator count as 0. -/
inductive Plan.Evaluates : Plan → World σ → Word → World σ → Prop
  | empty {w} : Evaluates .empty w 0 w
  | token {depth t w v w'} : evalToken cpu stack depth t w = (v, true, w') → Evaluates (.token depth t) w v w'
  | group {inner w v w'} : Evaluates inner w v w' → Evaluates (.group inner) w v w'
  | split {left t right w v₁ w₁ v₂ w₂ v w'} : Evaluates left w v₁ w₁ → Evaluates right w₁ v₂ w₂ →
      applyOp vm t v₁ v₂ true w₂ = .ok (v, true, w') → Evaluates (.split left t right) w v w'

/-- The evaluation clears `*success`: it comes to a division by zero, to a register that is not known, or too deep. -/
inductive Plan.Clears : Plan → World σ → Prop
  | deep {w} : Clears .deep w
  | token {depth t w} : (evalToken cpu stack depth t w).2.1 = false → Clears (.token depth t) w
  | group {inner w} : Clears inner w → Clears (.group inner) w
  | left {left t right w} : Clears left w → Clears (.split left t right) w
  | right {left t right w v w₁} : Evaluates vm cpu stack left w v w₁ → Clears right w₁ → Clears (.split left t right) w
  | zero {left t right w v w₁ w₂} : Evaluates vm cpu stack left w v w₁ → Evaluates vm cpu stack right w₁ 0 w₂ →
      t.type = .char '/' ∨ t.type = .char '%' → Clears (.split left t right) w

end

/-! ## What the evaluation of a plan returns -/

/-- A result with a property, an access outside the tokens, or the assertion. -/
inductive Ends {α : Type} (P : α → Prop) : Except Stop α → Prop
  | ok {a : α} : P a → Ends P (.ok a)
  | outside (i : Int) : Ends P (.error (.outside i))
  | assertion : Ends P (.error .assertion)

theorem Ends.bind {α β : Type} {P : α → Prop} {Q : β → Prop} {r : Except Stop α} {f : α → Except Stop β}
    (ends : Ends P r) (next : ∀ a, P a → Ends Q (f a)) : Ends Q (r.bind f) := by
  cases ends with
  | ok holds => exact next _ holds
  | outside i => exact .outside i
  | assertion => exact .assertion

theorem Ends.mono {α : Type} {P Q : α → Prop} {r : Except Stop α} (ends : Ends P r) (next : ∀ a, P a → Q a) :
    Ends Q r := by
  cases ends with
  | ok holds => exact .ok (next _ holds)
  | outside i => exact .outside i
  | assertion => exact .assertion

theorem Ends.done {α : Type} {P : α → Prop} {r : Except Stop α} {a : α} (ends : Ends P r) (done : r = .ok a) : P a := by
  subst done
  cases ends with
  | ok holds => exact holds

theorem Scanned.ends {α : Type} {r : Except Stop α} (scanned : Scanned r) : Ends (fun a => r = .ok a) r := by
  cases scanned with
  | ok a => exact .ok rfl
  | outside i => exact .outside i

section

variable {σ : Type} {vm : VMem σ} (answers : VMem.Answers vm) {cpu : CPUState} {stack : Nat → Word}

include answers in
theorem applyOp_ends (t : Token) (val1 val2 : Word) (success : Bool) (w : World σ) :
    Ends (fun _ => True) (applyOp vm t val1 val2 success w) := by
  unfold applyOp
  split
  · exact .ok trivial
  split
  · obtain ⟨read, answered⟩ := answers w val2
    rw [answered]
    exact .ok trivial
  split
  · exact .ok trivial
  · exact .assertion

variable (cpu stack) in
include answers in
theorem eval_ends (tokens : List Token) (levels : Nat) (p q : Int) (success : Bool) (w : World σ) :
    Ends (fun _ => True) (eval tokens vm cpu stack levels p q success w) := by
  induction levels generalizing p q success w with
  | zero => exact .ok trivial
  | succ levels ih =>
      rw [eval]
      split
      · exact .ok trivial
      split
      · exact .ok trivial
      split
      · exact (tokenAt_scanned tokens p).ends.bind fun _ _ => .ok trivial
      refine (checkParentheses_scanned tokens p q).ends.bind fun surrounded _ => ?_
      split
      · exact ih _ _ _ _
      refine (findOp_scanned tokens p q maxPrior).ends.bind fun op _ => ?_
      refine (ih _ _ _ _).bind fun val1 _ => (ih _ _ _ _).bind fun val2 _ => ?_
      exact (tokenAt_scanned tokens op).ends.bind fun t _ => applyOp_ends answers t _ _ _ _

include answers in
/-- An operator keeps `*success`, unless it divides by zero. -/
theorem applyOp_result {t : Token} {prior : Nat} (own : findPrior t.type = some prior) (val1 val2 : Word) (success : Bool)
    (w : World σ) : val2 = 0 ∧ (t.type = .char '/' ∨ t.type = .char '%') ∧
        applyOp vm t val1 val2 success w = .ok (-1, false, w) ∨
      ∃ v w', applyOp vm t val1 val2 success w = .ok (v, success, w') := by
  unfold applyOp
  split
  · next zero => exact .inl ⟨zero.1, zero.2, rfl⟩
  split
  · obtain ⟨read, answered⟩ := answers w val2
    rw [answered]
    exact .inr ⟨read.1, read.2, rfl⟩
  · next notDeref =>
      have known := (priorArr_operations _ (findPrior_mem own)).resolve_left notDeref
      obtain ⟨f, found⟩ := Option.isSome_iff_exists.mp known
      rw [found]
      exact .inr ⟨f val1 val2, w, rfl⟩

theorem eval_point {tokens : List Token} {p q : Int} (levels : Nat) (w : World σ) (below : ¬ p > q) (single : p = q) :
    eval tokens vm cpu stack (levels + 1) p q true w =
      (tokenAt tokens p).bind fun t => .ok (evalToken cpu stack (35 - levels) t w) := by
  rw [eval, if_neg below, if_pos single]
  rfl

theorem eval_longer {tokens : List Token} {p q : Int} (levels : Nat) (w : World σ) (below : ¬ p > q) (single : ¬ p = q) :
    eval tokens vm cpu stack (levels + 1) p q true w =
      (checkParentheses tokens p q).bind fun surrounded =>
        if surrounded then eval tokens vm cpu stack levels (p + 1) (q - 1) true w
        else (findOp tokens p q maxPrior).bind fun op =>
          (eval tokens vm cpu stack levels p (op - 1) true w).bind fun one =>
            (eval tokens vm cpu stack levels (op + 1) q one.2.1 one.2.2).bind fun two =>
              (tokenAt tokens op).bind fun t => applyOp vm t one.1 two.1 two.2.1 two.2.2 := by
  rw [eval, if_neg below, if_neg single]
  rfl

include answers in
theorem applyOp_cleared {t : Token} {prior : Nat} (own : findPrior t.type = some prior) (val1 val2 : Word) (w : World σ) :
    ∃ v w', applyOp vm t val1 val2 false w = .ok (v, false, w') := by
  rcases applyOp_result answers own val1 val2 false w with ⟨_, _, failed⟩ | kept
  · exact ⟨-1, w, failed⟩
  · exact kept

/-- One level of `eval` on a plan. -/
inductive Taken (vm : VMem σ) (cpu : CPUState) (stack : Nat → Word) (tokens : List Token) (levels : Nat) (w : World σ) :
    Plan → Except Stop (Outcome σ) → Prop
  | empty : Taken vm cpu stack tokens levels w .empty (.ok (0, true, w))
  | token (t : Token) : Taken vm cpu stack tokens levels w (.token (35 - levels) t)
      (.ok (evalToken cpu stack (35 - levels) t w))
  | group (p q : Int) : Taken vm cpu stack tokens levels w (.group (plan tokens levels p q))
      (eval tokens vm cpu stack levels p q true w)
  | split (p op q : Int) {t : Token} {prior : Nat} : findPrior t.type = some prior → Taken vm cpu stack tokens levels w
      (.split (plan tokens levels p (op - 1)) t (plan tokens levels (op + 1) q))
      ((eval tokens vm cpu stack levels p (op - 1) true w).bind fun one =>
        (eval tokens vm cpu stack levels (op + 1) q one.2.1 one.2.2).bind fun two =>
          applyOp vm t one.1 two.1 two.2.1 two.2.2)
  | lost {r : Except Stop (Outcome σ)} : Ends (fun _ => False) r → Taken vm cpu stack tokens levels w .lost r

/-- What follows a failure does not run. -/
theorem Ends.failed {α β : Type} {r : Except Stop α} {stop : Stop} {f : α → Except Stop β} {P : β → Prop}
    (ends : Ends (fun a => r = .ok a) r) (failed : r = .error stop) : Ends P ((Except.error stop).bind f) := by
  subst failed
  cases ends with
  | outside i => exact .outside i
  | assertion => exact .assertion

variable (cpu stack) in
include answers in
theorem eval_taken (tokens : List Token) (levels : Nat) (p q : Int) (w : World σ) :
    Taken vm cpu stack tokens levels w (plan tokens (levels + 1) p q)
      (eval tokens vm cpu stack (levels + 1) p q true w) := by
  by_cases below : p > q
  · rw [eval_empty vm cpu stack levels w below, plan, if_pos below]
    exact .empty
  by_cases single : p = q
  · rw [eval_point levels w below single, plan, if_neg below, if_pos single]
    cases read : tokenAt tokens p with
    | ok t => exact .token t
    | error stop => exact .lost ((tokenAt_scanned tokens p).ends.failed read)
  rw [eval_longer levels w below single, plan, if_neg below, if_neg single]
  cases surrounded : checkParentheses tokens p q with
  | error stop => exact .lost ((checkParentheses_scanned tokens p q).ends.failed surrounded)
  | ok enclosed =>
      cases enclosed with
      | true => exact .group (p + 1) (q - 1)
      | false =>
          show Taken vm cpu stack tokens levels w _ ((findOp tokens p q maxPrior).bind _)
          cases found : findOp tokens p q maxPrior with
          | error stop => exact .lost ((findOp_scanned tokens p q maxPrior).ends.failed found)
          | ok op =>
              show Taken vm cpu stack tokens levels w _ ((eval tokens vm cpu stack levels p (op - 1) true w).bind _)
              cases read : tokenAt tokens op with
              | ok t =>
                  obtain ⟨prior, own⟩ := findOp_own found read
                  simp only [read]
                  exact .split p op q own
              | error stop =>
                  simp only [read]
                  have left := eval_ends answers cpu stack tokens levels p (op - 1) true w
                  refine .lost (left.bind fun one _ => ?_)
                  have right := eval_ends answers cpu stack tokens levels (op + 1) q one.2.1 one.2.2
                  refine right.bind fun two _ => ?_
                  exact (tokenAt_scanned tokens op).ends.failed read

/-- A success comes with a value of the plan; otherwise the plan clears `*success`. -/
def Settled (vm : VMem σ) (cpu : CPUState) (stack : Nat → Word) (plan : Plan) (w : World σ) : Outcome σ → Prop
  | (v, true, w') => plan.Evaluates vm cpu stack w v w'
  | (_, false, _) => plan.Clears vm cpu stack w

variable (cpu stack) in
include answers in
theorem eval_settled (tokens : List Token) (levels : Nat) (p q : Int) (w : World σ) :
    Ends (Settled vm cpu stack (plan tokens levels p q) w) (eval tokens vm cpu stack levels p q true w) := by
  induction levels generalizing p q w with
  | zero => exact .ok .deep
  | succ levels ih =>
      have taken := eval_taken answers cpu stack tokens levels p q w
      generalize plan tokens (levels + 1) p q = planned at taken ⊢
      generalize eval tokens vm cpu stack (levels + 1) p q true w = result at taken ⊢
      cases taken with
      | empty => exact .ok .empty
      | token t =>
          generalize single : evalToken cpu stack (35 - levels) t w = o
          obtain ⟨v, success, w'⟩ := o
          cases success with
          | true => exact .ok (.token single)
          | false => exact .ok (.token (congrArg (fun o => o.2.1) single))
      | group p' q' =>
          refine (ih p' q' w).mono fun o settled => ?_
          obtain ⟨v, success, w'⟩ := o
          cases success with
          | true => exact .group settled
          | false => exact .group settled
      | split p' op q' own =>
          refine (ih p' (op - 1) w).bind fun one first => ?_
          obtain ⟨v₁, success, w₁⟩ := one
          cases success with
          | false =>
              obtain ⟨v, w', cleared⟩ := applyOp_cleared answers own v₁ (-1) w₁
              rw [eval_unsuccessful]
              show Ends _ (applyOp vm _ v₁ (-1) false w₁)
              rw [cleared]
              exact .ok (.left first)
          | true =>
              refine (ih (op + 1) q' w₁).bind fun two second => ?_
              obtain ⟨v₂, success, w₂⟩ := two
              cases success with
              | false =>
                  obtain ⟨v, w', cleared⟩ := applyOp_cleared answers own v₁ v₂ w₂
                  rw [cleared]
                  exact .ok (.right first second)
              | true =>
                  rcases applyOp_result answers own v₁ v₂ true w₂ with ⟨rfl, division, failed⟩ | ⟨v, w', applied⟩
                  · rw [failed]
                    exact .ok (.zero first second division)
                  · rw [applied]
                    exact .ok (.split first second applied)
      | lost ends => exact ends.mono fun _ absurdity => nomatch absurdity

include answers in
/-- The value of a plan is what `eval` returns. -/
theorem eval_evaluates (tokens : List Token) (levels : Nat) (p q : Int) {w w' : World σ} {v : Word}
    (evaluates : (plan tokens levels p q).Evaluates vm cpu stack w v w') :
    eval tokens vm cpu stack levels p q true w = .ok (v, true, w') := by
  induction levels generalizing p q w w' v with
  | zero => cases evaluates
  | succ levels ih =>
      have taken := eval_taken answers cpu stack tokens levels p q w
      generalize plan tokens (levels + 1) p q = planned at taken evaluates
      generalize eval tokens vm cpu stack (levels + 1) p q true w = result at taken ⊢
      cases taken with
      | empty =>
          cases evaluates
          rfl
      | token t =>
          cases evaluates with
          | token single => exact congrArg Except.ok single
      | group p' q' =>
          cases evaluates with
          | group inner => exact ih p' q' inner
      | split p' op q' own =>
          cases evaluates with
          | split left right applied =>
              rw [ih p' (op - 1) left]
              show Except.bind (eval tokens vm cpu stack levels (op + 1) q' true _) _ = _
              rw [ih (op + 1) q' right]
              exact applied
      | lost ends => cases evaluates

include answers in
/-- A plan that clears `*success` makes `eval` clear it. -/
theorem eval_clears (tokens : List Token) (levels : Nat) (p q : Int) {w : World σ}
    (clears : (plan tokens levels p q).Clears vm cpu stack w) :
    ∃ v w', eval tokens vm cpu stack levels p q true w = .ok (v, false, w') := by
  induction levels generalizing p q w with
  | zero => exact ⟨-1, w, rfl⟩
  | succ levels ih =>
      have taken := eval_taken answers cpu stack tokens levels p q w
      generalize plan tokens (levels + 1) p q = planned at taken clears
      generalize eval tokens vm cpu stack (levels + 1) p q true w = result at taken ⊢
      cases taken with
      | empty => cases clears
      | token t =>
          cases clears with
          | token cleared => exact ⟨_, _, congrArg Except.ok (Prod.ext rfl (Prod.ext cleared rfl))⟩
      | group p' q' =>
          cases clears with
          | group inner => exact ih p' q' inner
      | split p' op q' own =>
          cases clears with
          | left cleared =>
              obtain ⟨v₁, w₁, first⟩ := ih p' (op - 1) cleared
              rw [first]
              show ∃ v w', Except.bind (eval tokens vm cpu stack levels (op + 1) q' false w₁) _ = .ok (v, false, w')
              rw [eval_unsuccessful]
              exact applyOp_cleared answers own _ _ _
          | right left cleared =>
              obtain ⟨v₂, w₂, second⟩ := ih (op + 1) q' cleared
              rw [eval_evaluates answers tokens levels p' (op - 1) left]
              show ∃ v w', Except.bind (eval tokens vm cpu stack levels (op + 1) q' true _) _ = .ok (v, false, w')
              rw [second]
              exact applyOp_cleared answers own _ _ _
          | @zero _ _ _ _ v _ w₂ left right division =>
              rw [eval_evaluates answers tokens levels p' (op - 1) left]
              show ∃ v w', Except.bind (eval tokens vm cpu stack levels (op + 1) q' true _) _ = .ok (v, false, w')
              rw [eval_evaluates answers tokens levels (op + 1) q' right]
              exact ⟨-1, w₂, if_pos ⟨rfl, division⟩⟩
      | lost ends => cases clears

end

/-! ## Which texts are guarded -/

/-- `make_token` stays inside its arrays and `expr` inside the tokens, the assertion is not reached, and a success
means that the tokens are well formed. -/
structure Guarded (e : List Char) : Prop where
  fits : ∀ error, makeToken e = .error error → ∃ position, error = .noMatch position
  inside : ∀ {σ : Type} (vm : VMem σ) (cpu : CPUState) (stack : Nat → Word) (w : World σ) (i : Int),
    expr vm cpu stack e true w ≠ .error (.outside i)
  asserted : ∀ {σ : Type} (vm : VMem σ) (cpu : CPUState) (stack : Nat → Word) (w : World σ),
    expr vm cpu stack e true w ≠ .error .assertion
  rejected : ∀ {σ : Type} (vm : VMem σ) (cpu : CPUState) (stack : Nat → Word) (w w' : World σ) (value : Word),
    expr vm cpu stack e true w = .ok (value, true, w') → ∃ tokens, makeToken e = .ok tokens ∧ WellFormed tokens

/-- Whatever the registers and the memory hold, the evaluation clears `*success`. -/
def Hopeless (tokens : List Token) : Prop :=
  ∀ {σ : Type} (vm : VMem σ), VMem.Answers vm → ∀ (cpu : CPUState) (stack : Nat → Word) (w : World σ),
    (plan tokens levels 0 (tokens.length - 1)).Clears vm cpu stack w

/-- The text has no token at some position, or its tokens are well formed or hopeless. -/
def Recognised (e : List Char) : Prop :=
  (∃ position, makeToken e = .error (.noMatch position)) ∨
    ∃ tokens, makeToken e = .ok tokens ∧ (WellFormed tokens ∨ Hopeless (markDeref none tokens))

theorem Tree.Readable.recognised {t : Tree} (readable : t.Readable) : Recognised t.text :=
  .inr ⟨_, makeToken_text readable, .inl t.grouped.wellFormed⟩

/-- Hopeless tokens make `expr` fail, unless a read stops it first. -/
theorem Hopeless.completes {tokens : List Token} (hopeless : Hopeless tokens) {σ : Type} (vm : VMem σ) (cpu : CPUState)
    (stack : Nat → Word) (w : World σ) : ∃ v w', Completes
      (eval tokens vm cpu stack levels 0 (tokens.length - 1) true w) (.ok (v, false, w')) := by
  have answers := VMem.completed_answers vm
  obtain ⟨v, w', failed⟩ := eval_clears answers tokens levels 0 (tokens.length - 1) (hopeless _ answers cpu stack w)
  have completes := eval_completes vm cpu stack tokens levels 0 (tokens.length - 1) true w
  rw [failed] at completes
  exact ⟨v, w', completes⟩

theorem Recognised.guarded {e : List Char} (recognised : Recognised e) : Guarded e := by
  rcases recognised with ⟨position, failed⟩ | ⟨tokens, lexed, formed | hopeless⟩
  · have rejected {σ : Type} (vm : VMem σ) (cpu : CPUState) (stack : Nat → Word) (w : World σ) :
        expr vm cpu stack e true w = .ok (0, false, w) := by
      unfold expr
      rw [failed]
    refine ⟨fun error stopped => ⟨position, ?_⟩, fun vm cpu stack w i => ?_, fun vm cpu stack w => ?_,
      fun vm cpu stack w w' value => ?_⟩
    · exact Except.error.inj (stopped.symm.trans failed)
    · simp [rejected]
    · simp [rejected]
    · simp [rejected]
  · have safe {σ : Type} (vm : VMem σ) (cpu : CPUState) (stack : Nat → Word) (w : World σ) :
        Safe (expr vm cpu stack e true w) := by
      unfold expr
      rw [lexed]
      exact formed.safe vm cpu stack w
    refine ⟨fun error stopped => ?_, fun vm cpu stack w i left => ?_, fun vm cpu stack w reached => ?_,
      fun _ _ _ _ _ _ _ => ⟨tokens, lexed, formed⟩⟩
    · cases lexed.symm.trans stopped
    · have kept := safe vm cpu stack w
      rw [left] at kept
      cases kept
    · have kept := safe vm cpu stack w
      rw [reached] at kept
      cases kept
  · have fails {σ : Type} (vm : VMem σ) (cpu : CPUState) (stack : Nat → Word) (w : World σ) :
        ∃ v w', Completes (expr vm cpu stack e true w) (.ok (v, false, w')) := by
      unfold expr
      rw [lexed]
      exact hopeless.completes vm cpu stack w
    refine ⟨fun error stopped => ?_, fun vm cpu stack w i left => ?_, fun vm cpu stack w reached => ?_,
      fun vm cpu stack w w' value done => ?_⟩
    · cases lexed.symm.trans stopped
    · obtain ⟨v, w', completes⟩ := fails vm cpu stack w
      rw [left] at completes
      cases completes
    · obtain ⟨v, w', completes⟩ := fails vm cpu stack w
      rw [reached] at completes
      cases completes
    · obtain ⟨v, w', completes⟩ := fails vm cpu stack w
      rw [done] at completes
      cases completes

theorem Guarded.recognised {e : List Char} (guarded : Guarded e) : Recognised e := by
  cases lexed : makeToken e with
  | error error =>
      obtain ⟨position, rfl⟩ := guarded.fits error lexed
      exact .inl ⟨position, lexed⟩
  | ok tokens =>
      by_cases formed : WellFormed tokens
      · exact .inr ⟨tokens, lexed, .inl formed⟩
      refine .inr ⟨tokens, lexed, .inr fun vm answers cpu stack w => ?_⟩
      have settled := eval_settled answers cpu stack (markDeref none tokens) levels 0
        ((markDeref none tokens).length - 1) w
      have ran : expr vm cpu stack e true w = eval (markDeref none tokens) vm cpu stack levels 0
          ((markDeref none tokens).length - 1) true w := by
        unfold expr
        rw [lexed]
      generalize eval (markDeref none tokens) vm cpu stack levels 0 ((markDeref none tokens).length - 1) true w = result
        at settled ran
      cases settled with
      | @ok o settled =>
          obtain ⟨v, success, w'⟩ := o
          cases success with
          | true =>
              obtain ⟨tokens', lexed', formed'⟩ := guarded.rejected vm cpu stack w w' v ran
              cases lexed.symm.trans lexed'
              exact absurd formed' formed
          | false => exact settled
      | outside i => exact absurd ran (guarded.inside vm cpu stack w i)
      | assertion => exact absurd ran (guarded.asserted vm cpu stack w)

/-- The guarded texts are the recognised ones. -/
theorem expr_guarded (e : List Char) : Guarded e ↔ Recognised e :=
  ⟨Guarded.recognised, Recognised.guarded⟩

/-- The division fails before the missing operand of `1/0+` counts. -/
example : Recognised ['1', '/', '0', '+'] := by
  have lexed : makeToken ['1', '/', '0', '+'] =
      .ok [⟨.num, ['1']⟩, ⟨.char '/', []⟩, ⟨.num, ['0']⟩, ⟨.char '+', []⟩] := rfl
  refine .inr ⟨_, lexed, .inr fun vm answers cpu stack w => ?_⟩
  exact .left (.zero (.token rfl) (.token rfl) (.inl rfl))

theorem WellFormed.nonempty {seg : List Token} (formed : WellFormed seg) : seg ≠ [] := by
  cases formed <;> simp

/-- A single token is well formed only as an operand. -/
theorem WellFormed.single {t : Token} (formed : WellFormed [t]) : t.type ∈ operandTypes := by
  generalize shape : [t] = seg at formed
  cases formed with
  | operand listed =>
      cases shape
      exact listed
  | parens _ _ _ => simp at shape
  | unary _ rest =>
      cases shape
      exact absurd rfl rest.nonempty
  | @binary left right op first _ second =>
      have length := congrArg List.length shape
      have some := List.length_pos_of_ne_nil first.nonempty
      rw [List.length_append, List.length_cons, List.length_cons, List.length_nil] at length
      omega

/-- A lone operator is accepted, and `1)` makes `eval` read `tokens[-1]`. -/
theorem malformed_accepted : ¬ Guarded ['+'] ∧ ¬ Guarded ['1', ')'] := by
  constructor
  · intro guarded
    have lexed : makeToken ['+'] = .ok [⟨.char '+', []⟩] := rfl
    obtain ⟨tokens, same, formed⟩ :=
      guarded.rejected VMem.absent ⟨.empty, 0⟩ (fun _ => 0) ⟨Sys.init, ()⟩ _ _ rfl
    rw [lexed] at same
    cases same
    exact absurd formed.single (by decide)
  · intro guarded
    refine guarded.inside VMem.absent ⟨.empty, 0⟩ (fun _ => 0) ⟨Sys.init, ()⟩ (-1) ?_
    set_option maxRecDepth 4000 in rfl

end Sustemu.Monitor
