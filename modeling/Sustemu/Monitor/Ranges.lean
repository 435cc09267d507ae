import Sustemu.Monitor.Expr

/-!
# Ranges of tokens

The scans of `eval` work on a range of the token array. On a range with matched
brackets each of them either passes over the range or stops at a token outside
brackets: the loop over `j` finds the bracket that opens a group, and `findOp`
finds the rightmost operator of the weakest priority.
-/

set_option autoImplicit false

namespace Sustemu.Monitor

/-! ## Segments -/

/-- The tokens of a segment stand in the array from `p` on. -/
def At (tokens : List Token) (p : Int) (seg : List Token) : Prop :=
  ∃ before after, tokens = before ++ seg ++ after ∧ p = before.length

section

variable {tokens : List Token} {p : Int} {seg front back : List Token}

theorem At.whole (tokens : List Token) : At tokens 0 tokens := ⟨[], [], by simp, rfl⟩

theorem At.first (here : At tokens p (front ++ back)) : At tokens p front := by
  obtain ⟨before, after, rfl, same⟩ := here
  exact ⟨before, back ++ after, by simp, same⟩

theorem At.second (here : At tokens p (front ++ back)) : At tokens (p + front.length) back := by
  obtain ⟨before, after, rfl, rfl⟩ := here
  exact ⟨before ++ front, after, by simp, by simp⟩

theorem At.tail {t : Token} (here : At tokens p (t :: seg)) : At tokens (p + 1) seg := by
  have split : At tokens p ([t] ++ seg) := here
  simpa using split.second

theorem At.head {t : Token} (here : At tokens p (t :: seg)) : tokenAt tokens p = .ok t := by
  obtain ⟨before, after, rfl, rfl⟩ := here
  simp [tokenAt]

theorem At.last {t : Token} (here : At tokens p (seg ++ [t])) : tokenAt tokens (p + seg.length) = .ok t :=
  here.second.head

end

/-! ## Matched brackets -/

def Token.Opens (t : Token) : Prop := t.type = .char '('

def Token.Closes (t : Token) : Prop := t.type = .char ')'

instance (t : Token) : Decidable t.Opens := inferInstanceAs (Decidable (_ = _))

instance (t : Token) : Decidable t.Closes := inferInstanceAs (Decidable (_ = _))

theorem Token.Opens.notCloses {t : Token} (opens : t.Opens) : ¬ t.Closes := by
  unfold Token.Opens at opens
  unfold Token.Closes
  rw [opens]
  decide

/-- Brackets match, and every token outside brackets satisfies a predicate. -/
inductive Level : (Token → Prop) → List Token → Prop
  | nil {P} : Level P []
  | token {P front t} : Level P front → ¬ t.Opens → ¬ t.Closes → P t → Level P (front ++ [t])
  | group {P front opening inner closing} : Level P front → opening.Opens → Level (fun _ => True) inner →
      closing.Closes → Level P (front ++ opening :: (inner ++ [closing]))

abbrev Balanced : List Token → Prop := Level fun _ => True

theorem Level.mono {P Q : Token → Prop} {seg : List Token} (level : Level P seg) (weaker : ∀ t, P t → Q t) :
    Level Q seg := by
  induction level with
  | nil => exact .nil
  | token _ notOpens notCloses holds ih => exact .token (ih weaker) notOpens notCloses (weaker _ holds)
  | group _ opens inside closes ih _ => exact .group (ih weaker) opens inside closes

theorem Level.balanced {P : Token → Prop} {seg : List Token} (level : Level P seg) : Balanced seg :=
  level.mono fun _ _ => trivial

theorem Level.append {P : Token → Prop} {left right : List Token} (first : Level P left) (second : Level P right) :
    Level P (left ++ right) := by
  induction second with
  | nil => simpa using first
  | token _ notOpens notCloses holds ih =>
      rw [← List.append_assoc]
      exact .token (ih first) notOpens notCloses holds
  | group _ opens inside closes ih _ =>
      rw [← List.append_assoc]
      exact .group (ih first) opens inside closes

theorem Level.single {P : Token → Prop} {t : Token} (notOpens : ¬ t.Opens) (notCloses : ¬ t.Closes) (holds : P t) :
    Level P [t] :=
  (Level.nil : Level P []).token notOpens notCloses holds

theorem Level.parens {P : Token → Prop} {opening closing : Token} {inner : List Token} (opens : opening.Opens)
    (inside : Balanced inner) (closes : closing.Closes) : Level P (opening :: (inner ++ [closing])) :=
  (Level.nil : Level P []).group opens inside closes

/-- What a range with matched brackets starts with. -/
inductive Starts : List Token → Prop
  | nil : Starts []
  | token {t rest} : ¬ t.Opens → Starts (t :: rest)
  | group {opening inner closing rest} : opening.Opens → Balanced inner → closing.Closes →
      Starts (opening :: (inner ++ closing :: rest))

theorem Starts.append {left : List Token} (starts : Starts left) {right : List Token} (next : Starts right) :
    Starts (left ++ right) := by
  cases starts with
  | nil => exact next
  | token notOpens => exact .token notOpens
  | group opens inside closes =>
      rw [List.cons_append, List.append_assoc]
      exact .group opens inside closes

theorem Level.starts {P : Token → Prop} {seg : List Token} (level : Level P seg) : Starts seg := by
  induction level with
  | nil => exact .nil
  | token _ notOpens _ _ ih => exact ih.append (.token notOpens)
  | group _ opens inside closes ih _ => exact ih.append (.group opens inside closes)

/-! ## Marking -/

/-- Only a `*` is ever marked. -/
theorem markDeref_keep {previous : Option TokenType} {t : Token}
    (kept : t.type = .char '*' → previous.all operatorJudge = false) (rest : List Token) :
    markDeref previous (t :: rest) = t :: markDeref (some t.type) rest := by
  have unmarked : ¬ (t.type = .char '*' ∧ previous.all operatorJudge) := by
    rintro ⟨star, operator⟩
    rw [kept star] at operator
    cases operator
  rw [markDeref]
  simp only [if_neg unmarked]

/-! ## The scans for brackets -/

section

variable {tokens : List Token} {p : Int}

theorem countOpen_step {t : Token} (here : tokenAt tokens p = .ok t) (turns found : Nat) :
    countOpen tokens (turns + 1) p found =
      countOpen tokens turns (p - 1)
        (if t.Closes then found + 1 else if t.Opens ∧ found > 0 then found - 1 else found) := by
  rw [countOpen, here]
  rfl

theorem opening_step {t : Token} (here : tokenAt tokens p = .ok t) (notOpens : ¬ t.Opens) (turns depth : Nat) :
    opening tokens (turns + 1) p depth = opening tokens turns (p - 1) (if t.Closes then depth + 1 else depth) := by
  unfold Token.Opens at notOpens
  by_cases closes : t.Closes
  · rw [if_pos closes, opening, here]
    unfold Token.Closes at closes
    simp only [bind, Except.bind, if_pos closes]
  · rw [if_neg closes, opening, here]
    unfold Token.Closes at closes
    simp only [bind, Except.bind, if_neg notOpens, if_neg closes]

theorem opening_opens {t : Token} (here : tokenAt tokens p = .ok t) (opens : t.Opens) (turns depth : Nat) :
    opening tokens (turns + 1) p (depth + 1) =
      if depth = 0 then .ok (some p) else opening tokens turns (p - 1) depth := by
  have notCloses := opens.notCloses
  unfold Token.Closes at notCloses
  unfold Token.Opens at opens
  rw [opening, here]
  simp only [bind, Except.bind, if_neg notCloses, if_pos opens, Nat.add_sub_cancel]
  rfl

theorem last_token (p : Int) (front : List Token) (t : Token) :
    p + ((front ++ [t]).length : Int) - 1 = p + front.length := by
  rw [List.length_append, List.length_singleton]
  omega

theorem length_group (front inner : List Token) (o c : Token) :
    (front ++ o :: (inner ++ [c])).length = front.length + inner.length + 2 := by
  simp only [List.length_append, List.length_cons, List.length_nil]
  omega

theorem last_group (p : Int) (front inner : List Token) (o c : Token) :
    p + ((front ++ o :: (inner ++ [c])).length : Int) - 1 = p + front.length + 1 + inner.length := by
  rw [length_group]
  omega

/-- Counting passes over matched brackets. -/
theorem countOpen_level {P : Token → Prop} {seg : List Token} (level : Level P seg) (here : At tokens p seg)
    (turns found : Nat) :
    countOpen tokens (seg.length + turns) (p + seg.length - 1) found = countOpen tokens turns (p - 1) found := by
  induction level generalizing p turns found with
  | nil => simp
  | @token P front t _ notOpens notCloses _ ih =>
      have count : (front ++ [t]).length + turns = front.length + turns + 1 := by
        rw [List.length_append, List.length_singleton, Nat.add_right_comm]
      rw [last_token, count, countOpen_step here.last, if_neg notCloses, if_neg fun both => notOpens both.1, ih here.first]
  | @group P front o inner c _ opens _ closes ih inside =>
      have inner_at : At tokens (p + front.length + 1) (inner ++ [c]) := here.second.tail
      have count : (front ++ o :: (inner ++ [c])).length + turns = inner.length + (front.length + turns + 1) + 1 := by
        rw [length_group]
        omega
      have before : p + front.length + 1 - 1 = p + front.length := by omega
      rw [last_group, count, countOpen_step inner_at.last, if_pos closes, inside inner_at.first, before,
        countOpen_step here.second.head, if_neg opens.notCloses, if_pos ⟨opens, Nat.succ_pos found⟩,
        Nat.add_sub_cancel, ih here.first]

/-- The search for an opening bracket passes over matched brackets. -/
theorem opening_level {P : Token → Prop} {seg : List Token} (level : Level P seg) (here : At tokens p seg)
    (turns depth : Nat) :
    opening tokens (seg.length + turns) (p + seg.length - 1) (depth + 1) =
      opening tokens turns (p - 1) (depth + 1) := by
  induction level generalizing p turns depth with
  | nil => simp
  | @token P front t _ notOpens notCloses _ ih =>
      have count : (front ++ [t]).length + turns = front.length + turns + 1 := by
        rw [List.length_append, List.length_singleton, Nat.add_right_comm]
      rw [last_token, count, opening_step here.last notOpens, if_neg notCloses, ih here.first]
  | @group P front o inner c _ opens _ closes ih inside =>
      have inner_at : At tokens (p + front.length + 1) (inner ++ [c]) := here.second.tail
      have notOpens : ¬ c.Opens := fun opens => opens.notCloses closes
      have count : (front ++ o :: (inner ++ [c])).length + turns = inner.length + (front.length + turns + 1) + 1 := by
        rw [length_group]
        omega
      have before : p + front.length + 1 - 1 = p + front.length := by omega
      rw [last_group, count, opening_step inner_at.last notOpens, if_pos closes, inside inner_at.first, before,
        opening_opens here.second.head opens, if_neg (Nat.succ_ne_zero depth), ih here.first]

/-- The bracket that opens a group is found. -/
theorem opening_group {o : Token} {inner : List Token} (here : At tokens p (o :: inner)) (opens : o.Opens)
    (balanced : Balanced inner) (turns : Nat) :
    opening tokens (inner.length + (turns + 1)) (p + inner.length) 1 = .ok (some p) := by
  have passed := opening_level balanced here.tail (turns + 1) 0
  have last : p + 1 + (inner.length : Int) - 1 = p + inner.length := by omega
  have first : p + 1 - 1 = p := by omega
  rw [last, first, opening_opens here.head opens, if_pos rfl] at passed
  exact passed

/-- Counting never leaves a segment. -/
theorem countOpen_total (seg : List Token) (here : At tokens p seg) (turns found : Nat) :
    ∃ n, countOpen tokens (seg.length + turns) (p + seg.length - 1) found = countOpen tokens turns (p - 1) n := by
  induction seg using List.reverseRecOn generalizing p turns found with
  | nil => exact ⟨found, by simp⟩
  | append_singleton front t ih =>
      have count : (front ++ [t]).length + turns = front.length + turns + 1 := by
        rw [List.length_append, List.length_singleton, Nat.add_right_comm]
      rw [last_token, count, countOpen_step here.last]
      exact ih here.first turns _

end

/-! ## Surrounding brackets -/

section

variable {tokens : List Token} {p : Int}

theorem checkParentheses_eq {first last : Token} {q : Int} (here : tokenAt tokens p = .ok first)
    (there : tokenAt tokens q = .ok last) :
    checkParentheses tokens p q =
      if first.Opens ∧ last.Closes then (countOpen tokens (q - 1 - p).toNat (q - 1) 0).map fun found => found == 0
      else .ok false := by
  unfold checkParentheses
  rw [here, there]
  simp only [bind, Except.bind]
  by_cases both : first.Opens ∧ last.Closes
  · rw [if_pos both]
    simp only [if_pos (show first.type = .char '(' ∧ last.type = .char ')' from both)]
    cases countOpen tokens (q - 1 - p).toNat (q - 1) 0 <;> rfl
  · rw [if_neg both]
    simp only [if_neg (show ¬ (first.type = .char '(' ∧ last.type = .char ')') from both)]
    rfl

/-- Brackets around a range with matched brackets are seen. -/
theorem checkParentheses_group {o c : Token} {inner : List Token} (here : At tokens p (o :: (inner ++ [c])))
    (opens : o.Opens) (balanced : Balanced inner) (closes : c.Closes) :
    checkParentheses tokens p (p + inner.length + 1) = .ok true := by
  have last : tokenAt tokens (p + inner.length + 1) = .ok c := by
    rw [Int.add_right_comm]
    exact here.tail.last
  have passed := countOpen_level balanced here.tail.first 0 0
  have turns : (p + inner.length + 1 - 1 - p).toNat = inner.length + 0 := by omega
  have start : p + inner.length + 1 - 1 = p + 1 + inner.length - 1 := by omega
  rw [checkParentheses_eq here.head last, if_pos ⟨opens, closes⟩, turns, start, passed]
  rfl

/-- A first group that closes before the end of the range does not surround it. -/
theorem checkParentheses_before {o c last : Token} {inner rest : List Token}
    (here : At tokens p (o :: (inner ++ c :: (rest ++ [last])))) (balanced : Balanced inner) (closes : c.Closes) :
    checkParentheses tokens p (p + inner.length + rest.length + 2) = .ok false := by
  have later : At tokens (p + inner.length + 1) (c :: (rest ++ [last])) := by
    rw [Int.add_right_comm]
    exact here.tail.second
  have last_at : tokenAt tokens (p + inner.length + rest.length + 2) = .ok last := by
    have there := later.tail.last
    have same : p + inner.length + 1 + 1 + rest.length = p + inner.length + rest.length + 2 := by omega
    rwa [same] at there
  rw [checkParentheses_eq here.head last_at]
  split
  · obtain ⟨n, counted⟩ := countOpen_total rest later.tail.first (inner.length + 1) 0
    have turns : (p + inner.length + rest.length + 2 - 1 - p).toNat = rest.length + (inner.length + 1) := by omega
    have start : p + inner.length + rest.length + 2 - 1 = p + inner.length + 1 + 1 + rest.length - 1 := by omega
    have close_at : p + inner.length + 1 + 1 - 1 = p + inner.length + 1 := by omega
    have inner_end : p + inner.length + 1 - 1 = p + 1 + inner.length - 1 := by omega
    have passed := countOpen_level balanced here.tail.first 0 (n + 1)
    rw [turns, start, counted, close_at, countOpen_step later.head, if_pos closes, inner_end]
    rw [Nat.add_zero] at passed
    rw [passed]
    rfl
  · rfl

/-- Brackets do not surround a range with an operator outside brackets. -/
theorem checkParentheses_operator {left right : List Token} {op : Token} (starts : Starts left)
    (here : At tokens p (left ++ op :: right)) (notOpens : ¬ op.Opens) :
    checkParentheses tokens p (p + left.length + right.length) = .ok false := by
  obtain ⟨last, there⟩ : ∃ last, tokenAt tokens (p + left.length + right.length) = .ok last := by
    rcases List.eq_nil_or_concat' right with rfl | ⟨front, t, rfl⟩
    · exact ⟨op, by simpa using here.second.head⟩
    · have same : p + left.length + ((front ++ [t]).length : Int) = p + left.length + 1 + front.length := by
        rw [List.length_append, List.length_singleton]
        omega
      exact ⟨t, by rw [same]; exact here.second.tail.last⟩
  cases starts with
  | nil => rw [checkParentheses_eq here.head there, if_neg fun both => notOpens both.1]
  | token other => rw [checkParentheses_eq here.head there, if_neg fun both => other both.1]
  | @group o inner c rest opens balanced closes =>
      obtain ⟨front, t, shape⟩ : ∃ front t, rest ++ op :: right = front ++ [t] := by
        rcases List.eq_nil_or_concat' (rest ++ op :: right) with nil | concat
        · exact absurd nil (by simp)
        · exact concat
      have length := congrArg List.length shape
      simp only [List.length_append, List.length_cons, List.length_nil] at length
      have same : p + ((o :: (inner ++ c :: rest)).length : Int) + right.length =
          p + inner.length + front.length + 2 := by
        simp only [List.length_append, List.length_cons]
        omega
      rw [List.cons_append, List.append_assoc, List.cons_append, shape] at here
      rw [same]
      exact checkParentheses_before here balanced closes

end

/-! ## The search for the operator -/

section

variable {tokens : List Token} {p q : Int}

theorem searchPrior_below (prior turns : Nat) {i : Int} (below : i < p) :
    searchPrior tokens p prior turns i = .ok none := by
  cases turns with
  | zero => rfl
  | succ turns => rw [searchPrior, if_pos below]

theorem searchPrior_closes {t : Token} (prior turns : Nat) (inside : p ≤ q) (here : tokenAt tokens q = .ok t)
    (closes : t.Closes) {j : Int} (found : opening tokens (q - p).toNat (q - 1) 1 = .ok (some j)) :
    searchPrior tokens p prior (turns + 1) q = searchPrior tokens p prior turns (j - 1) := by
  unfold Token.Closes at closes
  rw [searchPrior, if_neg (Int.not_lt.mpr inside), here]
  simp only [bind, Except.bind, if_pos closes, found]

theorem searchPrior_step {t : Token} (prior turns : Nat) (inside : p ≤ q) (here : tokenAt tokens q = .ok t)
    (notCloses : ¬ t.Closes) :
    searchPrior tokens p prior (turns + 1) q =
      if findPrior t.type = some prior then .ok (some q) else searchPrior tokens p prior turns (q - 1) := by
  unfold Token.Closes at notCloses
  rw [searchPrior, if_neg (Int.not_lt.mpr inside), here]
  simp only [bind, Except.bind, if_neg notCloses]
  rfl

/-- The search passes over a range with no token of its priority outside brackets. -/
theorem searchPrior_level {prior : Nat} {seg : List Token}
    (level : Level (fun t => findPrior t.type ≠ some prior) seg) (here : At tokens q seg) (inside : p ≤ q)
    (turns : Nat) :
    ∃ more, searchPrior tokens p prior (seg.length + turns) (q + seg.length - 1) =
      searchPrior tokens p prior (turns + more) (q - 1) := by
  generalize same : (fun t : Token => findPrior t.type ≠ some prior) = P at level
  induction level generalizing turns with
  | nil => exact ⟨0, by simp⟩
  | @token P front t _ notOpens notCloses holds ih =>
      subst same
      have count : (front ++ [t]).length + turns = front.length + turns + 1 := by
        rw [List.length_append, List.length_singleton, Nat.add_right_comm]
      rw [last_token, count, searchPrior_step prior _ (by omega) here.last notCloses, if_neg holds]
      exact ih here.first turns rfl
  | @group P front o inner c _ opens balanced closes ih _ =>
      subst same
      have inner_at : At tokens (q + front.length) (o :: inner) := by
        have split : At tokens q (front ++ (o :: inner ++ [c])) := here
        exact split.second.first
      have close_at : tokenAt tokens (q + front.length + 1 + inner.length) = .ok c := here.second.tail.last
      have found : opening tokens (q + front.length + 1 + inner.length - p).toNat
          (q + front.length + 1 + inner.length - 1) 1 = .ok (some (q + front.length)) := by
        have turns : (q + front.length + 1 + inner.length - p).toNat =
            inner.length + ((q + front.length - p).toNat + 1) := by omega
        have start : q + front.length + 1 + inner.length - 1 = q + front.length + inner.length := by omega
        rw [turns, start]
        exact opening_group inner_at opens balanced _
      have count : (front ++ o :: (inner ++ [c])).length + turns = front.length + (turns + inner.length + 1) + 1 := by
        rw [length_group]
        omega
      rw [last_group, count, searchPrior_closes prior _ (by omega) close_at closes found]
      obtain ⟨more, passed⟩ := ih here.first (turns + inner.length + 1) rfl
      exact ⟨inner.length + 1 + more, by rw [passed]; congr 1; omega⟩

/-- No operator outside brackets binds more weakly than `prior`. -/
def AtMost (prior : Nat) (t : Token) : Prop := ∀ k, findPrior t.type = some k → k ≤ prior

theorem AtMost.other {prior k : Nat} {t : Token} (most : AtMost prior t) (above : prior < k) :
    findPrior t.type ≠ some k :=
  fun own => Nat.not_lt.mpr (most k own) above

theorem AtMost.trans {prior k : Nat} {t : Token} (most : AtMost prior t) (within : prior ≤ k) : AtMost k t :=
  fun own same => Nat.le_trans (most own same) within

theorem atMost_none {prior : Nat} {t : Token} (none : findPrior t.type = none) : AtMost prior t := by
  intro k own
  rw [none] at own
  cases own

theorem atMost_own {prior : Nat} {t : Token} (own : findPrior t.type = some prior) : AtMost prior t := by
  intro k same
  rw [own] at same
  cases same
  exact Nat.le_refl prior

theorem findPrior_mem {type : TokenType} {prior : Nat} (own : findPrior type = some prior) :
    (type, prior) ∈ priorArr := by
  obtain ⟨before, after, listed, _⟩ := List.lookup_eq_some_iff.mp own
  rw [listed]
  exact List.mem_append_right before List.mem_cons_self

theorem priorArr_bounds : ∀ entry ∈ priorArr, 0 < entry.2 ∧ entry.2 ≤ maxPrior := by decide

theorem priority_succ {t : Token} {prior : Nat} (own : findPrior t.type = some prior) : ∃ n, prior = n + 1 :=
  Nat.exists_eq_add_one.mpr (priorArr_bounds _ (findPrior_mem own)).1

/-- A token with a priority is no bracket. -/
theorem operator_notBracket {t : Token} {prior : Nat} (own : findPrior t.type = some prior) :
    ¬ t.Opens ∧ ¬ t.Closes := by
  constructor
  · intro opens
    rw [opens] at own
    cases own
  · intro closes
    rw [closes] at own
    cases own

theorem searchPrior_none {prior : Nat} {seg : List Token}
    (level : Level (fun t => findPrior t.type ≠ some prior) seg) (here : At tokens p seg) (turns : Nat) :
    searchPrior tokens p prior (seg.length + turns) (p + seg.length - 1) = .ok none := by
  obtain ⟨more, passed⟩ := searchPrior_level level here (Int.le_refl p) turns
  rw [passed, searchPrior_below _ _ (by omega)]

theorem searchPrior_some {prior : Nat} {left right : List Token} {op : Token}
    (level : Level (fun t => findPrior t.type ≠ some prior) right) (own : findPrior op.type = some prior)
    (here : At tokens p (left ++ op :: right)) (turns : Nat) :
    searchPrior tokens p prior (right.length + (turns + 1)) (p + left.length + right.length) =
      .ok (some (p + left.length)) := by
  obtain ⟨more, passed⟩ := searchPrior_level (p := p) level here.second.tail (by omega) (turns + 1)
  have last : p + left.length + 1 + right.length - 1 = p + left.length + right.length := by omega
  have before : p + left.length + 1 - 1 = p + left.length := by omega
  rw [last, before, Nat.add_right_comm] at passed
  rw [passed, searchPrior_step prior _ (by omega) here.second.head (operator_notBracket own).2, if_pos own]

/-- The rightmost of the weakest operators outside brackets is found. -/
theorem findOp_split {prior : Nat} {left right : List Token} {op : Token} (here : At tokens p (left ++ op :: right))
    (first : Level (AtMost (prior + 1)) left) (own : findPrior op.type = some (prior + 1))
    (second : Level (AtMost prior) right) {n : Nat} (enough : prior < n) :
    findOp tokens p (p + left.length + right.length) n = .ok (p + left.length) := by
  have notBracket := operator_notBracket own
  have turns : (p + left.length + right.length + 1 - p).toNat = (left ++ op :: right).length + 0 := by
    rw [List.length_append, List.length_cons]
    omega
  have last : p + left.length + right.length = p + (left ++ op :: right).length - 1 := by
    rw [List.length_append, List.length_cons]
    omega
  have whole : Level (AtMost (prior + 1)) (left ++ op :: right) := by
    have lower := second.mono fun t most => most.trans (Nat.le_succ prior)
    exact first.append ((Level.single notBracket.1 notBracket.2 (atMost_own own)).append lower)
  induction n with
  | zero => exact absurd enough (Nat.not_lt_zero prior)
  | succ n ih =>
      rcases Nat.lt_or_ge prior n with above | reached
      · have none := searchPrior_none (whole.mono fun t most => most.other (Nat.succ_lt_succ above)) here 0
        rw [findOp, turns, last, none]
        rw [last] at ih
        exact ih above
      · obtain rfl : n = prior := by omega
        have level := second.mono fun t most => most.other (Nat.lt_succ_self n)
        have found := searchPrior_some level own here left.length
        have count : (left ++ op :: right).length + 0 = right.length + (left.length + 1) := by
          rw [List.length_append, List.length_cons]
          omega
        rw [findOp, turns, count, found]
        rfl

end

/-! ## The evaluator on a range -/

section

variable {tokens : List Token} {p : Int}
variable {σ : Type} (vm : VMem σ) (cpu : CPUState) (stack : Nat → Word) (levels : Nat) (w : World σ)

theorem eval_empty {q : Int} (empty : q < p) :
    eval tokens vm cpu stack (levels + 1) p q true w = .ok (0, true, w) := by
  rw [eval, if_pos empty]
  rfl

theorem eval_token {t : Token} (here : At tokens p [t]) :
    eval tokens vm cpu stack (levels + 1) p p true w = .ok (evalToken cpu stack (35 - levels) t w) := by
  rw [eval, if_neg (Int.lt_irrefl p), if_pos rfl, here.head]
  rfl

theorem eval_group {o c : Token} {inner : List Token} (here : At tokens p (o :: (inner ++ [c]))) (opens : o.Opens)
    (balanced : Balanced inner) (closes : c.Closes) :
    eval tokens vm cpu stack (levels + 1) p (p + inner.length + 1) true w =
      eval tokens vm cpu stack levels (p + 1) (p + inner.length) true w := by
  have last : p + (inner.length : Int) + 1 - 1 = p + inner.length := by omega
  have ordered : ¬ p > p + inner.length + 1 := by omega
  have several : ¬ p = p + inner.length + 1 := by omega
  rw [eval, if_neg ordered, if_neg several, checkParentheses_group here opens balanced closes, last]
  rfl

/-- The two sides of an operator are evaluated, the left one first. -/
theorem eval_split {prior : Nat} {left right : List Token} {op : Token} (here : At tokens p (left ++ op :: right))
    (first : Level (AtMost (prior + 1)) left) (own : findPrior op.type = some (prior + 1))
    (second : Level (AtMost prior) right) (known : prior < maxPrior) (longer : 0 < left.length + right.length) :
    eval tokens vm cpu stack (levels + 1) p (p + left.length + right.length) true w =
      (eval tokens vm cpu stack levels p (p + left.length - 1) true w).bind fun one =>
        (eval tokens vm cpu stack levels (p + left.length + 1) (p + left.length + right.length) one.2.1 one.2.2).bind
          fun two => applyOp vm op one.1 two.1 two.2.1 two.2.2 := by
  have outside := checkParentheses_operator first.starts here (operator_notBracket own).1
  have ordered : ¬ p > p + left.length + right.length := by omega
  have several : ¬ p = p + left.length + right.length := by omega
  rw [eval, if_neg ordered, if_neg several, outside]
  simp only [bind, Except.bind, findOp_split here first own second known, here.second.head]
  rfl

/-- An operator at the start of a range has an empty left side. -/
theorem eval_unary {prior : Nat} {right : List Token} {op : Token} (here : At tokens p (op :: right))
    (own : findPrior op.type = some (prior + 1)) (second : Level (AtMost prior) right) (known : prior < maxPrior)
    (longer : 0 < right.length) :
    eval tokens vm cpu stack (levels + 2) p (p + right.length) true w =
      (eval tokens vm cpu stack (levels + 1) (p + 1) (p + right.length) true w).bind
        fun two => applyOp vm op 0 two.1 two.2.1 two.2.2 := by
  have front : At tokens p ([] ++ op :: right) := here
  have split := eval_split vm cpu stack (levels + 1) w front .nil own second known (by simpa using longer)
  have start : p + (([] : List Token).length : Int) = p := Int.add_zero p
  rw [start, eval_empty vm cpu stack levels w (show p - 1 < p by omega)] at split
  exact split

end

end Sustemu.Monitor
