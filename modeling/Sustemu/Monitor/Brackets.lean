import Sustemu.Monitor.Ranges

/-!
# Brackets of a range

Brackets are matched by counting: no prefix of the range closes more brackets
than it opens, and the whole range closes all of them. Counting agrees with the
derivation that `Level` gives, so that `check_parentheses` and the scan for the
operator can be compared with it.
-/

set_option autoImplicit false

namespace Sustemu.Monitor

/-! ## Counting -/

/-- The brackets that a list of tokens opens and does not close. -/
def nesting : List Token → Int
  | [] => 0
  | t :: rest => (if t.Opens then 1 else if t.Closes then -1 else 0) + nesting rest

theorem nesting_append (front back : List Token) : nesting (front ++ back) = nesting front + nesting back := by
  induction front with
  | nil => simp [nesting]
  | cons t front ih => simp only [List.cons_append, nesting, ih, Int.add_assoc]

/-- The brackets of a list match. -/
structure Matched (seg : List Token) : Prop where
  opened : ∀ k, 0 ≤ nesting (seg.take k)
  closed : nesting seg = 0

/-- The tokens from `p` to `q`. -/
def segment (tokens : List Token) (p q : Nat) : List Token := (tokens.drop p).take (q + 1 - p)

/-- The bracket at `p` is closed by the one at `q`. -/
structure Matches (tokens : List Token) (p q : Nat) : Prop where
  ordered : p < q
  opens : ∃ t, tokens[p]? = some t ∧ t.Opens
  closes : ∃ t, tokens[q]? = some t ∧ t.Closes
  between : Matched (segment tokens (p + 1) (q - 1))

/-- The token at a position is at nesting depth zero: outside brackets, and no bracket. -/
def isOuter (seg : List Token) (k : Nat) : Bool :=
  decide (nesting (seg.take k) = 0) && seg[k]?.any fun t => decide (¬ t.Opens ∧ ¬ t.Closes)

/-- The positions at nesting depth zero, from the last one down. -/
def depthZero (seg : List Token) : List Nat := ((List.range seg.length).filter (isOuter seg)).reverse

/-- Their indices, where the segment starts at `p`. -/
def indicesZero (p : Int) (seg : List Token) : List Int := (depthZero seg).map fun k : Nat => p + (k : Int)

/-! ## Counting agrees with derivations -/

theorem nesting_opens {t : Token} (opens : t.Opens) (rest : List Token) : nesting (t :: rest) = 1 + nesting rest := by
  rw [nesting, if_pos opens]

theorem nesting_closes {t : Token} (closes : t.Closes) (rest : List Token) :
    nesting (t :: rest) = -1 + nesting rest := by
  rw [nesting, if_neg fun opens => opens.notCloses closes, if_pos closes]

theorem nesting_plain {t : Token} (notOpens : ¬ t.Opens) (notCloses : ¬ t.Closes) (rest : List Token) :
    nesting (t :: rest) = nesting rest := by
  rw [nesting, if_neg notOpens, if_neg notCloses, Int.zero_add]

theorem Matched.nil : Matched [] := ⟨fun k => by simp [nesting], rfl⟩

theorem Matched.append {front back : List Token} (first : Matched front) (second : Matched back) :
    Matched (front ++ back) := by
  refine ⟨fun k => ?_, by rw [nesting_append, first.closed, second.closed]; rfl⟩
  rw [List.take_append, nesting_append]
  exact Int.add_nonneg (first.opened k) (second.opened _)

theorem Matched.plain {t : Token} (notOpens : ¬ t.Opens) (notCloses : ¬ t.Closes) : Matched [t] := by
  refine ⟨fun k => ?_, nesting_plain notOpens notCloses []⟩
  cases k with
  | zero => exact Int.le_refl 0
  | succ k => rw [List.take_succ_cons, List.take_nil, nesting_plain notOpens notCloses]; exact Int.le_refl 0

theorem Matched.parens {o c : Token} {inner : List Token} (opens : o.Opens) (inside : Matched inner)
    (closes : c.Closes) : Matched (o :: (inner ++ [c])) := by
  have last : nesting [c] = -1 := nesting_closes closes []
  refine ⟨fun k => ?_, by rw [nesting_opens opens, nesting_append, inside.closed, last]; rfl⟩
  cases k with
  | zero => exact Int.le_refl 0
  | succ k =>
      have some : -1 ≤ nesting ([c].take (k - inner.length)) := by
        cases k - inner.length with
        | zero => exact Int.neg_nonpos_of_nonneg (by decide)
        | succ n => rw [List.take_succ_cons, List.take_nil, last]
      have more := inside.opened k
      rw [List.take_succ_cons, nesting_opens opens, List.take_append, nesting_append]
      omega

theorem Level.matched {P : Token → Prop} {seg : List Token} (level : Level P seg) : Matched seg := by
  induction level with
  | nil => exact .nil
  | token _ notOpens notCloses _ ih => exact ih.append (.plain notOpens notCloses)
  | group _ opens _ closes ih inside => exact ih.append (.parens opens inside closes)

/-- Matched parts with an open bracket before each but the first. -/
inductive Pending : Nat → List Token → Prop
  | matched {seg} : Balanced seg → Pending 0 seg
  | opened {d front opening inner} : Pending d front → opening.Opens → Balanced inner →
      Pending (d + 1) (front ++ opening :: inner)

theorem Pending.append {d : Nat} {front back : List Token} (pending : Pending d front) (level : Balanced back) :
    Pending d (front ++ back) := by
  cases pending with
  | matched first => exact .matched (first.append level)
  | opened before opens inside =>
      rw [List.append_assoc, List.cons_append]
      exact .opened before opens (inside.append level)

/-- A closing bracket matches the last open one. -/
theorem Pending.close {d : Nat} {seg : List Token} {c : Token} (pending : Pending (d + 1) seg) (closes : c.Closes) :
    Pending d (seg ++ [c]) := by
  cases pending with
  | @opened _ front o inner before opens inside =>
      rw [List.append_assoc, List.cons_append]
      exact before.append (.parens opens inside closes)

theorem pending_of_opened {seg : List Token} (opened : ∀ k, 0 ≤ nesting (seg.take k)) :
    ∃ d : Nat, Pending d seg ∧ nesting seg = d := by
  induction seg using List.reverseRecOn with
  | nil => exact ⟨0, .matched .nil, rfl⟩
  | append_singleton front t ih =>
      have before : ∀ k, 0 ≤ nesting (front.take k) := by
        intro k
        rcases Nat.le_total k front.length with within | beyond
        · rw [← List.take_append_of_le_length within]
          exact opened k
        · have whole := opened front.length
          rw [List.take_left] at whole
          rwa [List.take_of_length_le beyond]
      obtain ⟨d, pending, counted⟩ := ih before
      by_cases opens : t.Opens
      · refine ⟨d + 1, .opened pending opens .nil, ?_⟩
        rw [nesting_append, counted, nesting_opens opens]
        rfl
      by_cases closes : t.Closes
      · have whole := opened (front ++ [t]).length
        rw [List.take_length, nesting_append, counted, nesting_closes closes] at whole
        obtain ⟨e, rfl⟩ : ∃ e, d = e + 1 := ⟨d - 1, by simp [nesting] at whole; omega⟩
        refine ⟨e, pending.close closes, ?_⟩
        rw [nesting_append, counted, nesting_closes closes]
        simp only [nesting]
        omega
      · refine ⟨d, pending.append (.single opens closes trivial), ?_⟩
        rw [nesting_append, counted, nesting_plain opens closes]
        simp [nesting]

theorem Matched.balanced {seg : List Token} (matched : Matched seg) : Balanced seg := by
  obtain ⟨d, pending, counted⟩ := pending_of_opened matched.opened
  obtain rfl : d = 0 := by
    rw [matched.closed] at counted
    omega
  cases pending with
  | matched level => exact level

theorem matched_iff {seg : List Token} : Matched seg ↔ Balanced seg := ⟨Matched.balanced, Level.matched⟩

/-! ## Positions outside brackets -/

theorem isOuter_front {front back : List Token} {k : Nat} (within : k < front.length) :
    isOuter (front ++ back) k = isOuter front k := by
  unfold isOuter
  rw [List.take_append_of_le_length (Nat.le_of_lt within), List.getElem?_append_left within]

theorem filter_outer_front (front back : List Token) :
    (List.range front.length).filter (isOuter (front ++ back)) = (List.range front.length).filter (isOuter front) :=
  List.filter_congr fun _ member => isOuter_front (List.mem_range.mp member)

theorem depthZero_token {front : List Token} {t : Token} (level : Balanced front) (notOpens : ¬ t.Opens)
    (notCloses : ¬ t.Closes) : depthZero (front ++ [t]) = front.length :: depthZero front := by
  have outer : isOuter (front ++ [t]) front.length = true := by
    unfold isOuter
    rw [List.take_left, level.matched.closed]
    simp [notOpens, notCloses]
  unfold depthZero
  rw [List.length_append, List.length_singleton, List.range_succ, List.filter_append, filter_outer_front]
  rw [List.filter_cons_of_pos outer, List.filter_nil, List.reverse_append, List.reverse_singleton,
    List.singleton_append]

theorem indicesZero_token {p : Int} {front : List Token} {t : Token} (level : Balanced front) (notOpens : ¬ t.Opens)
    (notCloses : ¬ t.Closes) : indicesZero p (front ++ [t]) = (p + front.length) :: indicesZero p front := by
  unfold indicesZero
  rw [depthZero_token level notOpens notCloses, List.map_cons]

theorem depthZero_group {front inner : List Token} {o c : Token} (level : Balanced front) (opens : o.Opens)
    (inside : Balanced inner) (closes : c.Closes) :
    depthZero (front ++ o :: (inner ++ [c])) = depthZero front := by
  have enclosed : ∀ k ≤ inner.length + 1, isOuter (front ++ o :: (inner ++ [c])) (front.length + k) = false := by
    intro k within
    unfold isOuter
    rw [List.take_append, List.take_of_length_le (Nat.le_add_right ..), Nat.add_sub_cancel_left,
      List.getElem?_append_right (Nat.le_add_right ..), Nat.add_sub_cancel_left, nesting_append, level.matched.closed]
    cases k with
    | zero => simp [opens]
    | succ k =>
        rw [List.take_succ_cons, nesting_opens opens, List.getElem?_cons_succ]
        rcases Nat.lt_or_ge k inner.length with before | last
        · have more := inside.matched.opened k
          rw [List.take_append_of_le_length (Nat.le_of_lt before)]
          simp only [show ¬ (0 + (1 + nesting (inner.take k)) = 0) by omega, decide_false, Bool.false_and]
        · obtain rfl : k = inner.length := by omega
          simp [closes]
  unfold depthZero
  rw [length_group, Nat.add_assoc, List.range_add, List.filter_append, filter_outer_front]
  have none : ((List.range (inner.length + 2)).map (front.length + ·)).filter
      (isOuter (front ++ o :: (inner ++ [c]))) = [] := by
    refine List.filter_eq_nil_iff.mpr fun i member => ?_
    obtain ⟨k, listed, rfl⟩ := List.mem_map.mp member
    rw [enclosed k (by have := List.mem_range.mp listed; omega)]
    exact Bool.false_ne_true
  rw [none, List.append_nil]

/-! ## The scan for the operator -/

section

variable (tokens : List Token)

/-- The loop over `i` with the indices whose priority it compares. -/
def scanPrior (p : Int) (prior : Nat) : Nat → Int → List Int → Except Stop (List Int × Option Int)
  | 0, _, seen => .ok (seen, none)
  | turns + 1, i, seen =>
      if i < p then .ok (seen, none)
      else do
        let t ← tokenAt tokens i
        if t.type = .char ')' then
          match ← opening tokens (i - p).toNat (i - 1) 1 with
          | some j => scanPrior p prior turns (j - 1) seen
          | none => scanPrior p prior turns (i - 1) seen
        else if findPrior t.type = some prior then return (seen ++ [i], some i)
        else scanPrior p prior turns (i - 1) (seen ++ [i])

/-- The record of the indices does not change the scan. -/
theorem scanPrior_searchPrior (p : Int) (prior turns : Nat) (i : Int) (seen : List Int) :
    (scanPrior tokens p prior turns i seen).map Prod.snd = searchPrior tokens p prior turns i := by
  induction turns generalizing i seen with
  | zero => rfl
  | succ turns ih =>
      rw [scanPrior, searchPrior]
      split
      · rfl
      cases tokenAt tokens i with
      | error stop => rfl
      | ok t =>
          simp only [bind, Except.bind]
          split
          · cases opening tokens (i - p).toNat (i - 1) 1 with
            | error stop => rfl
            | ok found => cases found <;> exact ih _ _
          · split
            · rfl
            · exact ih _ _

end

/-- The elements up to the first one that satisfies the predicate, with it. -/
def upTo {α : Type} (found : α → Bool) : List α → List α
  | [] => []
  | a :: rest => if found a then [a] else a :: upTo found rest

section

variable {tokens : List Token} {p : Int}

theorem scanPrior_below (prior turns : Nat) {i : Int} (below : i < p) (seen : List Int) :
    scanPrior tokens p prior turns i seen = .ok (seen, none) := by
  cases turns with
  | zero => rfl
  | succ turns => rw [scanPrior, if_pos below]

theorem scanPrior_closes {q : Int} {t : Token} (prior turns : Nat) (inside : p ≤ q) (here : tokenAt tokens q = .ok t)
    (closes : t.Closes) {j : Int} (found : opening tokens (q - p).toNat (q - 1) 1 = .ok (some j)) (seen : List Int) :
    scanPrior tokens p prior (turns + 1) q seen = scanPrior tokens p prior turns (j - 1) seen := by
  unfold Token.Closes at closes
  rw [scanPrior, if_neg (Int.not_lt.mpr inside), here]
  simp only [bind, Except.bind, if_pos closes, found]

theorem scanPrior_step {q : Int} {t : Token} (prior turns : Nat) (inside : p ≤ q) (here : tokenAt tokens q = .ok t)
    (notCloses : ¬ t.Closes) (seen : List Int) :
    scanPrior tokens p prior (turns + 1) q seen =
      if findPrior t.type = some prior then .ok (seen ++ [q], some q)
      else scanPrior tokens p prior turns (q - 1) (seen ++ [q]) := by
  unfold Token.Closes at notCloses
  rw [scanPrior, if_neg (Int.not_lt.mpr inside), here]
  simp only [bind, Except.bind, if_neg notCloses]
  rfl

/-- The token at an index has the priority. -/
def hasPrior (tokens : List Token) (prior : Nat) (i : Int) : Bool :=
  match tokenAt tokens i with
  | .ok t => decide (findPrior t.type = some prior)
  | .error _ => false

/-- On matched brackets the scan compares exactly the indices outside brackets, down to the one it returns. -/
theorem scanPrior_level {P : Token → Prop} {seg : List Token} (level : Level P seg) (here : At tokens p seg)
    (prior turns : Nat) (seen : List Int) :
    scanPrior tokens p prior (seg.length + turns) (p + seg.length - 1) seen =
      .ok (seen ++ upTo (hasPrior tokens prior) (indicesZero p seg),
        (indicesZero p seg).find? (hasPrior tokens prior)) := by
  induction level generalizing turns seen with
  | nil =>
      rw [scanPrior_below _ _ (show p + (([] : List Token).length : Int) - 1 < p by rw [List.length_nil]; omega)]
      simp [indicesZero, depthZero, upTo]
  | @token P front t level notOpens notCloses _ ih =>
      have count : (front ++ [t]).length + turns = front.length + turns + 1 := by
        rw [List.length_append, List.length_singleton, Nat.add_right_comm]
      have own : hasPrior tokens prior (p + front.length) = decide (findPrior t.type = some prior) := by
        unfold hasPrior
        rw [here.last]
      rw [last_token, count, scanPrior_step prior _ (by omega) here.last notCloses,
        indicesZero_token level.balanced notOpens notCloses, upTo, List.find?_cons, own]
      split
      · next found => simp [found]
      · next other =>
          rw [ih here.first]
          simp [other]
  | @group P front o inner c level opens inside closes ih _ =>
      have inner_at : At tokens (p + front.length) (o :: inner) := by
        have split : At tokens p (front ++ (o :: inner ++ [c])) := here
        exact split.second.first
      have close_at : tokenAt tokens (p + front.length + 1 + inner.length) = .ok c := here.second.tail.last
      have found : opening tokens (p + front.length + 1 + inner.length - p).toNat
          (p + front.length + 1 + inner.length - 1) 1 = .ok (some (p + front.length)) := by
        have turns : (p + front.length + 1 + inner.length - p).toNat = inner.length + (front.length + 1) := by omega
        have start : p + front.length + 1 + inner.length - 1 = p + front.length + inner.length := by omega
        rw [turns, start]
        exact opening_group inner_at opens inside _
      have count : (front ++ o :: (inner ++ [c])).length + turns = front.length + (turns + inner.length + 1) + 1 := by
        rw [length_group]
        omega
      rw [last_group, count, scanPrior_closes prior _ (by omega) close_at closes found, ih here.first]
      unfold indicesZero
      rw [depthZero_group level.balanced opens inside closes]

/-! ## Surrounding brackets and matches -/

variable {seg : List Token} {a b : Nat}

/-- A range inside the array is a segment of it. -/
theorem at_segment (ordered : a ≤ b) (inside : b < tokens.length) :
    At tokens a (segment tokens a b) := by
  refine ⟨tokens.take a, (tokens.drop a).drop (b + 1 - a), ?_, ?_⟩
  · rw [List.append_assoc]
    unfold segment
    rw [List.take_append_drop, List.take_append_drop]
  · rw [List.length_take, Nat.min_eq_left (by omega)]

theorem length_segment (inside : b < tokens.length) : (segment tokens a b).length = b + 1 - a := by
  unfold segment
  rw [List.length_take, List.length_drop]
  omega

theorem segment_of_at (here : At tokens a seg) (last : b + 1 = a + seg.length) : segment tokens a b = seg := by
  obtain ⟨before, after, rfl, same⟩ := here
  have start : a = before.length := by exact_mod_cast same
  have count : b + 1 - a = seg.length := by omega
  unfold segment
  rw [count, start, List.append_assoc, List.drop_left, List.take_left]

theorem getElem?_of_at {t : Token} (here : At tokens a (t :: seg)) : tokens[a]? = some t := by
  obtain ⟨before, after, rfl, same⟩ := here
  have start : a = before.length := by exact_mod_cast same
  rw [start]
  simp

/-- What lies between the ends of a range. -/
theorem matches_iff {first last : Token} (here : At tokens a (first :: (seg ++ [last]))) (ends : b = a + seg.length + 1) :
    Matches tokens a b ↔ first.Opens ∧ Matched seg ∧ last.Closes := by
  have start : tokens[a]? = some first := getElem?_of_at here
  have stop : tokens[b]? = some last := by
    have there := here.tail.second
    have same : (a : Int) + 1 + seg.length = (b : Nat) := by omega
    rw [same] at there
    exact getElem?_of_at there
  have between : segment tokens (a + 1) (b - 1) = seg :=
    segment_of_at (by exact_mod_cast here.tail.first) (by omega)
  constructor
  · rintro ⟨_, ⟨t, opened, opens⟩, ⟨u, closed, closes⟩, inside⟩
    rw [start] at opened
    rw [stop] at closed
    rw [between] at inside
    cases opened
    cases closed
    exact ⟨opens, inside, closes⟩
  · rintro ⟨opens, inside, closes⟩
    exact ⟨by omega, ⟨first, start, opens⟩, ⟨last, stop, closes⟩, between ▸ inside⟩

/-- `check_parentheses` is true exactly where the first bracket is closed by the last one. -/
theorem checkParentheses_matches (ordered : a < b) (inside : b < tokens.length) (matched : Matched (segment tokens a b)) :
    ∃ surrounded, checkParentheses tokens a b = .ok surrounded ∧ (surrounded = true ↔ Matches tokens a b) := by
  have here := at_segment (Nat.le_of_lt ordered) inside
  have length : (segment tokens a b).length = b + 1 - a := length_segment inside
  have starts := matched.balanced.starts
  generalize segment tokens a b = whole at here length starts
  cases starts with
  | nil => exact absurd length (by rw [List.length_nil]; omega)
  | @token first rest notOpens =>
      obtain ⟨mid, last, rfl⟩ : ∃ mid last, rest = mid ++ [last] := by
        rcases List.eq_nil_or_concat' rest with rfl | concat
        · exact absurd length (by rw [List.length_singleton]; omega)
        · exact concat
      have ends : b = a + mid.length + 1 := by
        simp only [List.length_cons, List.length_append, List.length_nil] at length
        omega
      have there : tokenAt tokens b = .ok last := by
        have found := here.tail.last
        have same : (a : Int) + 1 + mid.length = (b : Nat) := by omega
        rwa [same] at found
      refine ⟨false, ?_, iff_of_false Bool.false_ne_true fun pair => ?_⟩
      · rw [checkParentheses_eq here.head there, if_neg fun both => notOpens both.1]
      · exact notOpens ((matches_iff here ends).mp pair).1
  | @group o inner c rest opens balanced closes =>
      rcases List.eq_nil_or_concat' rest with rfl | ⟨front, last, rfl⟩
      · have ends : b = a + inner.length + 1 := by
          simp only [List.length_cons, List.length_append, List.length_nil] at length
          omega
        have surrounded := checkParentheses_group here opens balanced closes
        have same : (a : Int) + inner.length + 1 = (b : Nat) := by omega
        rw [same] at surrounded
        exact ⟨true, surrounded, iff_of_true rfl ((matches_iff here ends).mpr ⟨opens, balanced.matched, closes⟩)⟩
      · have ends : b = a + (inner ++ c :: front).length + 1 := by
          simp only [List.length_cons, List.length_append, List.length_nil] at length ⊢
          omega
        have surrounded := checkParentheses_before here balanced closes
        have same : (a : Int) + inner.length + front.length + 2 = (b : Nat) := by
          simp only [List.length_cons, List.length_append] at ends
          omega
        rw [same] at surrounded
        refine ⟨false, surrounded, iff_of_false Bool.false_ne_true fun pair => ?_⟩
        have shape : At tokens a (o :: ((inner ++ c :: front) ++ [last])) := by
          rw [List.append_assoc, List.cons_append]
          exact here
        -- The first group already closes the first bracket.
        have negative := ((matches_iff shape ends).mp pair).2.1.opened (inner.length + 1)
        rw [List.take_append, List.take_of_length_le (Nat.le_succ _), nesting_append, balanced.matched.closed,
          Nat.add_sub_cancel_left, List.take_succ_cons, List.take_zero, nesting_closes closes] at negative
        exact absurd negative (by decide)

end

/-- On a range with matched brackets, `check_parentheses` finds the matching bracket, and the scan for an operator
compares exactly the tokens at nesting depth zero, from the right, down to the one it returns. -/
theorem brackets_of_range (tokens : List Token) (p q : Nat) (ordered : p < q) (inside : q < tokens.length)
    (matched : Matched (segment tokens p q)) :
    (∃ surrounded, checkParentheses tokens p q = .ok surrounded ∧ (surrounded = true ↔ Matches tokens p q)) ∧
      ∀ prior,
        scanPrior tokens p prior ((q : Int) + 1 - p).toNat q [] =
          .ok (upTo (hasPrior tokens prior) (indicesZero p (segment tokens p q)),
            (indicesZero p (segment tokens p q)).find? (hasPrior tokens prior)) ∧
        searchPrior tokens p prior ((q : Int) + 1 - p).toNat q =
          .ok ((indicesZero p (segment tokens p q)).find? (hasPrior tokens prior)) := by
  refine ⟨checkParentheses_matches ordered inside matched, fun prior => ?_⟩
  have here := at_segment (Nat.le_of_lt ordered) inside
  have length : (segment tokens p q).length = q + 1 - p := length_segment inside
  have turns : ((q : Int) + 1 - p).toNat = (segment tokens p q).length + 0 := by omega
  have last : (q : Int) = p + (segment tokens p q).length - 1 := by omega
  have scanned := scanPrior_level matched.balanced here prior 0 []
  rw [← last, ← turns] at scanned
  refine ⟨scanned, ?_⟩
  rw [← scanPrior_searchPrior tokens p prior _ q [], scanned]
  rfl

/-- `( 1 ) + 2`. -/
def sumTokens : List Token :=
  [⟨.char '(', []⟩, ⟨.num, ['1']⟩, ⟨.char ')', []⟩, ⟨.char '+', []⟩, ⟨.num, ['2']⟩]

theorem brackets_of_range_sum :
    ¬ Matches sumTokens 0 4 ∧ indicesZero 0 sumTokens = [4, 3] ∧ searchPrior sumTokens 0 4 5 4 = .ok (some 3) := by
  have opens : Token.Opens ⟨.char '(', []⟩ := rfl
  have closes : Token.Closes ⟨.char ')', []⟩ := rfl
  have number : Balanced [⟨.num, ['1']⟩] := .single (by decide) (by decide) trivial
  have group : Balanced [⟨.char '(', []⟩, ⟨.num, ['1']⟩, ⟨.char ')', []⟩] := .parens opens number closes
  have whole : Balanced sumTokens :=
    ((group.token (t := ⟨.char '+', []⟩) (by decide) (by decide) trivial).token (t := ⟨.num, ['2']⟩) (by decide)
      (by decide) trivial)
  obtain ⟨⟨surrounded, checked, pair⟩, scans⟩ := brackets_of_range sumTokens 0 4 (by decide) (by decide) whole.matched
  have outside : checkParentheses sumTokens (0 : Nat) (4 : Nat) = .ok false := rfl
  rw [outside] at checked
  cases checked
  exact ⟨fun both => Bool.false_ne_true (pair.mpr both), by decide, (scans 4).2.trans (by decide)⟩

end Sustemu.Monitor
