import Mathlib.Computability.RegularExpressions

/-!
# Leftmost-longest matches

POSIX matching over Mathlib's regular expressions: of the matches that start
leftmost, the longest. Words that avoid a letter end before it, so what follows
the letter cannot change the match.
-/

set_option autoImplicit false

namespace Sustemu.Lib

open RegularExpression hiding star

variable {α : Type} {r : RegularExpression α} {s w cs : List α} {n : Nat}

/-! ## Building blocks -/

/-- A bracket expression. -/
def oneOf (letters : List α) : RegularExpression α := letters.foldr (fun a r => char a + r) 0

def literal (word : List α) : RegularExpression α := word.foldr (fun a r => char a * r) 1

def oneOrMore (r : RegularExpression α) : RegularExpression α := r * r.star

theorem mem_char {a : α} : w ∈ (char a).matches' ↔ w = [a] := Iff.rfl

theorem mem_oneOf : w ∈ (oneOf cs).matches' ↔ ∃ a ∈ cs, w = [a] := by
  induction cs with
  | nil => simp [oneOf, Language.notMem_zero]
  | cons a cs ih =>
      rw [show oneOf (a :: cs) = char a + oneOf cs from rfl, matches'_add, Language.mem_add, ih, mem_char]
      simp

theorem flatten_map_singleton (w : List α) : (w.map fun a => [a]).flatten = w := by
  induction w with
  | nil => rfl
  | cons a w ih => rw [List.map_cons, List.flatten_cons, ih, List.singleton_append]

theorem mem_star_oneOf : w ∈ (oneOf cs).star.matches' ↔ ∀ a ∈ w, a ∈ cs := by
  rw [matches'_star, Language.mem_kstar]
  constructor
  · rintro ⟨parts, rfl, each⟩ a inside
    obtain ⟨part, listed, inside⟩ := List.mem_flatten.mp inside
    obtain ⟨b, member, rfl⟩ := mem_oneOf.mp (each part listed)
    rw [List.mem_singleton.mp inside]
    exact member
  · intro all
    refine ⟨w.map fun a => [a], (flatten_map_singleton w).symm, ?_⟩
    intro part listed
    obtain ⟨a, inside, rfl⟩ := List.mem_map.mp listed
    exact mem_oneOf.mpr ⟨a, all a inside, rfl⟩

theorem mem_oneOrMore_oneOf : w ∈ (oneOrMore (oneOf cs)).matches' ↔ w ≠ [] ∧ ∀ a ∈ w, a ∈ cs := by
  unfold oneOrMore
  rw [matches'_mul, Language.mem_mul]
  constructor
  · rintro ⟨u, first, v, rest, rfl⟩
    obtain ⟨a, member, rfl⟩ := mem_oneOf.mp first
    refine ⟨by simp, fun b inside => ?_⟩
    rcases List.mem_cons.mp inside with rfl | inside
    · exact member
    · exact mem_star_oneOf.mp rest b inside
  · rintro ⟨some, all⟩
    obtain ⟨a, v, rfl⟩ := List.exists_cons_of_ne_nil some
    exact ⟨[a], mem_oneOf.mpr ⟨a, all a (List.mem_cons_self ..), rfl⟩, v,
      mem_star_oneOf.mpr fun b inside => all b (List.mem_cons_of_mem a inside), rfl⟩

theorem mem_literal {word : List α} : w ∈ (literal word).matches' ↔ w = word := by
  induction word generalizing w with
  | nil => exact Language.mem_one w
  | cons a word ih =>
      rw [show literal (a :: word) = char a * literal word from rfl, matches'_mul, Language.mem_mul]
      constructor
      · rintro ⟨u, first, v, rest, rfl⟩
        rw [mem_char.mp first, ih.mp rest]
        rfl
      · rintro rfl
        exact ⟨[a], rfl, word, ih.mpr rfl, rfl⟩

/-! ## Letters -/

/-- The letters an expression is written with. -/
def letters : RegularExpression α → List α
  | 0 => []
  | 1 => []
  | char a => [a]
  | P + Q => letters P ++ letters Q
  | P * Q => letters P ++ letters Q
  | .star P => letters P

theorem mem_letters (member : w ∈ r.matches') {a : α} (inside : a ∈ w) : a ∈ letters r := by
  induction r generalizing w with
  | zero => cases member
  | epsilon =>
      rw [one_def, matches'_epsilon, Language.mem_one] at member
      rw [member] at inside
      cases inside
  | char b =>
      rw [mem_char.mp member] at inside
      exact inside
  | plus P Q ihP ihQ =>
      rcases member with left | right
      · exact List.mem_append_left (letters Q) (ihP left inside)
      · exact List.mem_append_right (letters P) (ihQ right inside)
  | comp P Q ihP ihQ =>
      obtain ⟨u, left, v, right, rfl⟩ := Language.mem_mul.mp member
      rcases List.mem_append.mp inside with inside | inside
      · exact List.mem_append_left (letters Q) (ihP left inside)
      · exact List.mem_append_right (letters P) (ihQ right inside)
  | star P ih =>
      obtain ⟨parts, rfl, each⟩ := Language.mem_kstar.mp member
      obtain ⟨part, listed, inside⟩ := List.mem_flatten.mp inside
      exact ih (each part listed) inside

/-! ## Matching -/

variable [DecidableEq α]

/-- The longest match among the prefixes of at most `n` letters. -/
def longestUpTo (r : RegularExpression α) (s : List α) : Nat → Option Nat
  | 0 => if r.rmatch [] then some 0 else none
  | n + 1 => if r.rmatch (s.take (n + 1)) then some (n + 1) else longestUpTo r s n

/-- Length of the longest prefix that matches. -/
def longest (r : RegularExpression α) (s : List α) : Option Nat := longestUpTo r s s.length

/-- Start and end of the leftmost-longest match. -/
def search (r : RegularExpression α) (s : List α) : Option (Nat × Nat) :=
  (List.range (s.length + 1)).findSome? fun start => (longest r (s.drop start)).map fun n => (start, start + n)

theorem longestUpTo_spec (r : RegularExpression α) (s : List α) (k : Nat) :
    match longestUpTo r s k with
    | some n => n ≤ k ∧ s.take n ∈ r.matches' ∧ ∀ m, n < m → m ≤ k → s.take m ∉ r.matches'
    | none => ∀ m ≤ k, s.take m ∉ r.matches' := by
  induction k with
  | zero =>
      unfold longestUpTo
      cases empty : r.rmatch [] with
      | true => exact ⟨Nat.le_refl 0, (rmatch_iff_matches' r _).mp empty, fun m longer bound => by omega⟩
      | false =>
          intro m bound member
          rw [Nat.le_zero.mp bound, List.take_zero, ← rmatch_iff_matches', empty] at member
          cases member
  | succ k ih =>
      unfold longestUpTo
      cases whole : r.rmatch (s.take (k + 1)) with
      | true => exact ⟨Nat.le_refl _, (rmatch_iff_matches' r _).mp whole, fun m longer bound => by omega⟩
      | false =>
          have top : s.take (k + 1) ∉ r.matches' := by
            rw [← rmatch_iff_matches', whole]
            exact Bool.false_ne_true
          rw [if_neg Bool.false_ne_true]
          cases answer : longestUpTo r s k with
          | some n =>
              rw [answer] at ih
              obtain ⟨bound, matched, maximal⟩ := ih
              refine ⟨Nat.le_succ_of_le bound, matched, fun m longer within => ?_⟩
              rcases Nat.lt_or_eq_of_le within with below | rfl
              · exact maximal m longer (Nat.le_of_lt_succ below)
              · exact top
          | none =>
              rw [answer] at ih
              intro m within
              rcases Nat.lt_or_eq_of_le within with below | rfl
              · exact ih m (Nat.le_of_lt_succ below)
              · exact top

theorem longest_eq_none_iff : longest r s = none ↔ ∀ m ≤ s.length, s.take m ∉ r.matches' := by
  have spec := longestUpTo_spec r s s.length
  unfold longest
  cases answer : longestUpTo r s s.length with
  | none =>
      rw [answer] at spec
      exact iff_of_true rfl spec
  | some n =>
      rw [answer] at spec
      exact iff_of_false nofun fun absent => absent n spec.1 spec.2.1

theorem longest_eq_some_iff :
    longest r s = some n ↔
      n ≤ s.length ∧ s.take n ∈ r.matches' ∧ ∀ m, n < m → m ≤ s.length → s.take m ∉ r.matches' := by
  have spec := longestUpTo_spec r s s.length
  unfold longest
  cases answer : longestUpTo r s s.length with
  | none =>
      rw [answer] at spec
      exact iff_of_false nofun fun matched => spec n matched.1 matched.2.1
  | some k =>
      rw [answer] at spec
      constructor
      · intro same
        cases same
        exact spec
      · rintro ⟨bound, matched, maximal⟩
        rcases Nat.lt_trichotomy k n with shorter | rfl | longer
        · exact absurd matched (spec.2.2 n shorter bound)
        · rfl
        · exact absurd spec.2.1 (maximal k longer spec.1)

theorem search_eq_zero_iff : search r s = some (0, n) ↔ longest r s = some n := by
  unfold search
  rw [List.range_succ_eq_map, List.findSome?_cons, List.drop_zero]
  cases first : longest r s with
  | some k => simp
  | none =>
      simp only [Option.map_none, List.findSome?_map, reduceCtorEq, iff_false]
      intro found
      obtain ⟨start, _, later⟩ := List.exists_of_findSome?_eq_some found
      obtain ⟨k, _, same⟩ := Option.map_eq_some_iff.mp later
      cases congrArg Prod.fst same

/-- A match ends before a letter that the expression does not have. -/
theorem longest_append {a : α} (absent : a ∉ letters r) (rest : List α) :
    longest r (w ++ a :: rest) = longest r w := by
  have short : ∀ m, w.length < m → m ≤ (w ++ a :: rest).length → (w ++ a :: rest).take m ∉ r.matches' := by
    intro m long _ member
    refine absent (mem_letters member ?_)
    rw [List.take_append, List.take_of_length_le (Nat.le_of_lt long)]
    obtain ⟨k, rfl⟩ : ∃ k, m = w.length + (k + 1) := ⟨m - w.length - 1, by omega⟩
    simp
  have same : ∀ m ≤ w.length, (w ++ a :: rest).take m = w.take m := fun m bound => List.take_append_of_le_length bound
  cases answer : longest r w with
  | none =>
      rw [longest_eq_none_iff] at answer ⊢
      intro m bound
      rcases Nat.lt_or_ge w.length m with long | inside
      · exact short m long bound
      · rw [same m inside]
        exact answer m inside
  | some n =>
      rw [longest_eq_some_iff] at answer ⊢
      obtain ⟨bound, matched, maximal⟩ := answer
      refine ⟨by simp; omega, by rw [same n bound]; exact matched, fun m longer bound => ?_⟩
      rcases Nat.lt_or_ge w.length m with long | inside
      · exact short m long bound
      · rw [same m inside]
        exact maximal m longer inside

/-- A word that matches as a whole is its own longest match. -/
theorem longest_self (member : w ∈ r.matches') : longest r w = some w.length :=
  longest_eq_some_iff.mpr ⟨Nat.le_refl _, by rw [List.take_length]; exact member, fun m longer bound => by omega⟩

/-- Where every word has a letter that the text lacks, nothing matches. -/
theorem longest_none_of_foreign (cs : List α) (foreign : ∀ w ∈ r.matches', ∃ a ∈ w, a ∉ cs) (inside : ∀ a ∈ s, a ∈ cs) :
    longest r s = none := by
  rw [longest_eq_none_iff]
  intro m _ member
  obtain ⟨a, listed, other⟩ := foreign _ member
  exact other (inside a (List.mem_of_mem_take listed))

/-- A bracket expression repeated takes all the letters of its kind. -/
theorem longest_oneOrMore (nonempty : w ≠ []) (inside : ∀ a ∈ w, a ∈ cs) {rest : List α}
    (stop : ∀ a ∈ rest.head?, a ∉ cs) : longest (oneOrMore (oneOf cs)) (w ++ rest) = some w.length := by
  rw [longest_eq_some_iff]
  refine ⟨by simp, by rw [List.take_left]; exact mem_oneOrMore_oneOf.mpr ⟨nonempty, inside⟩, ?_⟩
  intro m longer bound member
  obtain ⟨k, rfl⟩ : ∃ k, m = w.length + (k + 1) := ⟨m - w.length - 1, by omega⟩
  cases rest with
  | nil =>
      rw [List.append_nil] at bound
      omega
  | cons a rest =>
      refine stop a rfl ((mem_oneOrMore_oneOf.mp member).2 a ?_)
      rw [List.take_append]
      simp

end Sustemu.Lib
