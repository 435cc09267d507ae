import Sustemu.Memory.Cache
import Mathlib.Data.List.Basic
import Mathlib.Data.Nat.Init

/-!
# Caches as block maps

A well-formed cache is a partial map from block numbers to a dirty bit and the
block's data. Every operation of `Sustemu.Memory.Cache` is described here by
its effect on that map; ways, tags and the replacement order are not visible
above this module.
-/

set_option autoImplicit false

namespace Sustemu

open Lib

namespace Cache

/-- Way `way` holds block number `b`. -/
def Holds (c : Cache) (b way : Nat) : Prop :=
  way < c.w ∧ (c.line (b % 2 ^ c.s) way).matches (b / 2 ^ c.s) = true

instance (c : Cache) (b way : Nat) : Decidable (c.Holds b way) := inferInstanceAs (Decidable (_ ∧ _))

structure WF (c : Cache) : Prop where
  ways : 0 < c.w
  mru : ∀ set way, (c.sets set).mruWay = some way → way < c.w
  unique : ∀ b left right, c.Holds b left → c.Holds b right → left = right

/-- Dirty bit and data of a cached block. -/
def block (c : Cache) (b : Nat) : Option (Bool × ByteMem) :=
  ((List.range c.w).find? fun way => (c.line (b % 2 ^ c.s) way).matches (b / 2 ^ c.s)).map
    fun way => ((c.line (b % 2 ^ c.s) way).dirty, (c.line (b % 2 ^ c.s) way).data)

theorem tagOf_eq (c : Cache) (addr : Nat) : c.tagOf addr = addr / blockSize / 2 ^ c.s := by
  rw [tagOf, blockSize, Nat.div_div_eq_div_mul, Nat.pow_add, Nat.mul_comm]

theorem setIdx_lt (c : Cache) (addr : Nat) : c.setIdx addr < 2 ^ c.s :=
  Nat.mod_lt _ (Nat.two_pow_pos c.s)

theorem block_of_holds {c : Cache} (wf : c.WF) {b way : Nat} (holds : c.Holds b way) :
    c.block b = some ((c.line (b % 2 ^ c.s) way).dirty, (c.line (b % 2 ^ c.s) way).data) := by
  unfold block
  cases found : (List.range c.w).find? fun way => (c.line (b % 2 ^ c.s) way).matches (b / 2 ^ c.s) with
  | none =>
      have excluded := List.find?_eq_none.mp found way (List.mem_range.mpr holds.1)
      exact absurd holds.2 excluded
  | some other =>
      have member := List.mem_range.mp (List.mem_of_find?_eq_some found)
      have matching : (c.line (b % 2 ^ c.s) other).matches (b / 2 ^ c.s) = true := by
        simpa using List.find?_some found
      have same := wf.unique b other way ⟨member, matching⟩ holds
      rw [same]
      rfl

theorem block_of_not_holds {c : Cache} {b : Nat} (missing : ∀ way, ¬ c.Holds b way) : c.block b = none := by
  unfold block
  have notFound : (List.range c.w).find?
      (fun way => (c.line (b % 2 ^ c.s) way).matches (b / 2 ^ c.s)) = none := by
    apply List.find?_eq_none.mpr
    intro way member matching
    exact missing way ⟨List.mem_range.mp member, matching⟩
  rw [notFound]
  rfl

theorem holds_of_block {c : Cache} {b : Nat} {content : Bool × ByteMem} (present : c.block b = some content) :
    ∃ way, c.Holds b way ∧ content = ((c.line (b % 2 ^ c.s) way).dirty, (c.line (b % 2 ^ c.s) way).data) := by
  unfold block at present
  cases found : (List.range c.w).find? fun way => (c.line (b % 2 ^ c.s) way).matches (b / 2 ^ c.s) with
  | none => simp [found] at present
  | some way =>
      have member := List.mem_range.mp (List.mem_of_find?_eq_some found)
      have matching : (c.line (b % 2 ^ c.s) way).matches (b / 2 ^ c.s) = true := by
        simpa using List.find?_some found
      refine ⟨way, ⟨member, matching⟩, ?_⟩
      simpa [found] using present.symm

/-! ## Lookups -/

/-- Two caches that agree on everything but the replacement order and the counters. -/
structure SameLines (c d : Cache) : Prop where
  s : d.s = c.s
  w : d.w = c.w
  valid : ∀ set way, (d.line set way).valid = (c.line set way).valid
  dirty : ∀ set way, (d.line set way).dirty = (c.line set way).dirty
  tag : ∀ set way, (d.line set way).tag = (c.line set way).tag
  data : ∀ set way, (d.line set way).data = (c.line set way).data

theorem SameLines.matches {c d : Cache} (same : SameLines c d) (set way tag : Nat) :
    (d.line set way).matches tag = (c.line set way).matches tag := by
  rw [CacheLine.matches, CacheLine.matches, same.valid, same.tag]

theorem SameLines.holds {c d : Cache} (same : SameLines c d) (b way : Nat) : d.Holds b way ↔ c.Holds b way := by
  unfold Holds
  rw [same.matches, same.s, same.w]

theorem SameLines.block {c d : Cache} (same : SameLines c d) : d.block = c.block := by
  funext b
  unfold Cache.block
  simp only [same.matches, same.s, same.w, same.dirty, same.data]

theorem SameLines.refl (c : Cache) : SameLines c c :=
  ⟨rfl, rfl, fun _ _ => rfl, fun _ _ => rfl, fun _ _ => rfl, fun _ _ => rfl⟩

theorem line_modifyLine (c : Cache) (set way : Nat) (change : CacheLine → CacheLine) (set' way' : Nat) :
    (c.modifyLine set way change).line set' way' =
      if set' = set ∧ way' = way then change (c.line set way) else c.line set' way' := by
  unfold modifyLine line
  by_cases sameSet : set' = set
  · subst sameSet
    by_cases sameWay : way' = way
    · subst sameWay
      simp
    · simp [sameWay]
  · simp [sameSet]

theorem mruWay_modifyLine (c : Cache) (set way : Nat) (change : CacheLine → CacheLine) (set' : Nat) :
    ((c.modifyLine set way change).sets set').mruWay = (c.sets set').mruWay := by
  unfold modifyLine
  by_cases sameSet : set' = set
  · subst sameSet
    simp
  · simp [sameSet]

theorem line_setMru (c : Cache) (set way set' way' : Nat) : (c.setMru set way).line set' way' = c.line set' way' := by
  unfold setMru line
  by_cases sameSet : set' = set
  · subst sameSet
    simp
  · simp [sameSet]

theorem mruWay_setMru (c : Cache) (set way set' : Nat) :
    ((c.setMru set way).sets set').mruWay = if set' = set then some way else (c.sets set').mruWay := by
  unfold setMru
  by_cases sameSet : set' = set
  · subst sameSet
    simp
  · simp [sameSet]

private theorem scanWays_hit {lines : Nat → CacheLine} {tag left i lru minTime way : Nat}
    (found : scanWays lines tag left i lru minTime = (true, way)) :
    i ≤ way ∧ way < i + left ∧ (lines way).matches tag = true := by
  induction left generalizing i lru minTime with
  | zero => simp [scanWays] at found
  | succ left ih =>
      unfold scanWays at found
      by_cases matching : (lines i).matches tag = true
      · rw [if_pos matching] at found
        have selected : i = way := by simpa using found
        subst selected
        exact ⟨by omega, by omega, matching⟩
      · rw [if_neg matching] at found
        split at found
        · have later := ih found
          exact ⟨by omega, by omega, later.2.2⟩
        · have later := ih found
          exact ⟨by omega, by omega, later.2.2⟩

private theorem scanWays_miss {lines : Nat → CacheLine} {tag left i lru minTime way : Nat}
    (found : scanWays lines tag left i lru minTime = (false, way)) :
    (way = lru ∨ way < i + left) ∧ ∀ j, i ≤ j → j < i + left → (lines j).matches tag = false := by
  induction left generalizing i lru minTime with
  | zero =>
      have selected : lru = way := by simpa [scanWays] using found
      exact ⟨.inl selected.symm, fun j low high => absurd high (by omega)⟩
  | succ left ih =>
      unfold scanWays at found
      by_cases matching : (lines i).matches tag = true
      · rw [if_pos matching] at found
        simp at found
      · rw [if_neg matching] at found
        have others : ∀ j, i ≤ j → j < i + (left + 1) →
            (∀ j, i + 1 ≤ j → j < i + 1 + left → (lines j).matches tag = false) →
            (lines j).matches tag = false := by
          intro j low high rest
          by_cases first : j = i
          · subst first
            simpa using matching
          · exact rest j (by omega) (by omega)
        split at found
        · obtain ⟨bound, rest⟩ := ih found
          exact ⟨.inr (by omega), fun j low high => others j low high rest⟩
        · obtain ⟨bound, rest⟩ := ih found
          exact ⟨by omega, fun j low high => others j low high rest⟩

theorem selectWay_hit {c : Cache} (wf : c.WF) {addr way : Nat} (found : selectWay c addr = (true, way)) :
    c.Holds (addr / blockSize) way := by
  have scanned : ∀ {way}, scanWays (c.sets (c.setIdx addr)).lines (c.tagOf addr) c.w 0 0 maxTime = (true, way) →
      c.Holds (addr / blockSize) way := by
    intro way scan
    obtain ⟨_, bound, matching⟩ := scanWays_hit scan
    rw [tagOf_eq] at matching
    exact ⟨by omega, matching⟩
  unfold selectWay at found
  cases mru : (c.sets (c.setIdx addr)).mruWay with
  | none =>
      simp only [mru] at found
      exact scanned found
  | some recent =>
      simp only [mru] at found
      split at found
      · next matching =>
          have selected : recent = way := by simpa using found
          subst selected
          rw [tagOf_eq] at matching
          exact ⟨wf.mru _ _ mru, matching⟩
      · exact scanned found

theorem selectWay_miss {c : Cache} (wf : c.WF) {addr way : Nat} (found : selectWay c addr = (false, way)) :
    way < c.w ∧ ∀ other, ¬ c.Holds (addr / blockSize) other := by
  have scanned : ∀ {way}, scanWays (c.sets (c.setIdx addr)).lines (c.tagOf addr) c.w 0 0 maxTime = (false, way) →
      way < c.w ∧ ∀ other, ¬ c.Holds (addr / blockSize) other := by
    intro way scan
    obtain ⟨bound, rest⟩ := scanWays_miss scan
    have positive := wf.ways
    refine ⟨by omega, fun other holds => ?_⟩
    have absent := rest other (by omega) (by have := holds.1; omega)
    rw [tagOf_eq] at absent
    exact Bool.false_ne_true (absent.symm.trans holds.2)
  unfold selectWay at found
  cases mru : (c.sets (c.setIdx addr)).mruWay with
  | none =>
      simp only [mru] at found
      exact scanned found
  | some recent =>
      simp only [mru] at found
      split at found
      · simp at found
      · exact scanned found

private theorem WF.of_sameLines {c d : Cache} (wf : c.WF) (same : SameLines c d)
    (mru : ∀ set way, (d.sets set).mruWay = some way → way < d.w) : d.WF where
  ways := by rw [same.w]; exact wf.ways
  mru := mru
  unique := fun b left right holdsLeft holdsRight =>
    wf.unique b left right ((same.holds b left).mp holdsLeft) ((same.holds b right).mp holdsRight)

/-- A quiet lookup moves only the shortcut, and says whether the block is cached. -/
theorem findLineQuiet_spec {c : Cache} (wf : c.WF) (addr : Nat) :
    (findLineQuiet c addr).2.2.WF ∧ SameLines c (findLineQuiet c addr).2.2 ∧
      ((findLineQuiet c addr).1 = true ↔ (c.block (addr / blockSize)).isSome = true) := by
  unfold findLineQuiet
  cases selected : selectWay c addr with
  | mk hit way =>
      cases hit with
      | true =>
          have holds := selectWay_hit wf selected
          have same : SameLines c (c.setMru (c.setIdx addr) way) :=
            ⟨rfl, rfl, fun _ _ => by rw [line_setMru], fun _ _ => by rw [line_setMru],
              fun _ _ => by rw [line_setMru], fun _ _ => by rw [line_setMru]⟩
          refine ⟨wf.of_sameLines same ?_, same, ?_⟩
          · intro set way' mru
            simp only [↓reduceIte, mruWay_setMru] at mru
            split at mru
            · have chosen : way = way' := by simpa using mru
              exact chosen ▸ holds.1
            · exact wf.mru _ _ mru
          · simp [block_of_holds wf holds]
      | false =>
          obtain ⟨_, missing⟩ := selectWay_miss wf selected
          refine ⟨wf, .refl c, ?_⟩
          simp [block_of_not_holds missing]

/-- A lookup leaves the cached blocks alone; the way it returns holds the block
on a hit and is a way of the block's set on a miss. -/
theorem findLine_spec {c : Cache} (wf : c.WF) (addr : Nat) :
    (findLine c addr).2.2.WF ∧ SameLines c (findLine c addr).2.2 ∧
      if (findLine c addr).1 then c.Holds (addr / blockSize) (findLine c addr).2.1
      else (findLine c addr).2.1 < c.w ∧ ∀ way, ¬ c.Holds (addr / blockSize) way := by
  unfold findLine
  have ticked : selectWay { c with timer := c.timer + 1 } addr = selectWay c addr := rfl
  simp only [ticked]
  cases selected : selectWay c addr with
  | mk hit way =>
      cases hit with
      | true =>
          have holds := selectWay_hit wf selected
          have same : SameLines c (Cache.setMru (Cache.modifyLine
              { c with timer := c.timer + 1, hits := c.hits + 1 } (c.setIdx addr) way
              fun line => { line with lastAccess := c.timer + 1 }) (c.setIdx addr) way) := by
            refine ⟨rfl, rfl, ?_, ?_, ?_, ?_⟩ <;> intro set' way' <;> rw [line_setMru, line_modifyLine] <;>
              split <;> simp_all [line]
          refine ⟨wf.of_sameLines same ?_, same, by simpa using holds⟩
          intro set way' mru
          simp only [↓reduceIte, mruWay_setMru] at mru
          split at mru
          · have chosen : way = way' := by simpa using mru
            exact chosen ▸ holds.1
          · rw [mruWay_modifyLine] at mru
            exact wf.mru _ _ mru
      | false =>
          obtain ⟨bound, missing⟩ := selectWay_miss wf selected
          have same : SameLines c { c with timer := c.timer + 1, misses := c.misses + 1 } :=
            ⟨rfl, rfl, fun _ _ => rfl, fun _ _ => rfl, fun _ _ => rfl, fun _ _ => rfl⟩
          exact ⟨wf.of_sameLines same wf.mru, same, by simpa using ⟨bound, missing⟩⟩

/-! ## Changing one line -/

private theorem holds_modifyLine (c : Cache) (set way : Nat) (change : CacheLine → CacheLine) (x way' : Nat) :
    (c.modifyLine set way change).Holds x way' ↔
      way' < c.w ∧ (if x % 2 ^ c.s = set ∧ way' = way then change (c.line set way)
        else c.line (x % 2 ^ c.s) way').matches (x / 2 ^ c.s) = true := by
  unfold Holds
  rw [line_modifyLine]
  rfl

/-- A block whose lines are untouched reads the same. -/
private theorem block_congr {c d : Cache} {x : Nat} (wf : c.WF) (wfd : d.WF) (s : d.s = c.s)
    (holds : ∀ way, d.Holds x way ↔ c.Holds x way)
    (lines : ∀ way, c.Holds x way → d.line (x % 2 ^ c.s) way = c.line (x % 2 ^ c.s) way) :
    d.block x = c.block x := by
  by_cases present : ∃ way, c.Holds x way
  · obtain ⟨way, held⟩ := present
    rw [block_of_holds wf held, block_of_holds wfd ((holds way).mpr held), s, lines way held]
  · have missing : ∀ way, ¬ c.Holds x way := fun way held => present ⟨way, held⟩
    rw [block_of_not_holds missing, block_of_not_holds fun way held => missing way ((holds way).mp held)]

/-- Changing dirty bit and data of the line that holds `b`. -/
theorem modifyLine_held {c : Cache} (wf : c.WF) {b way : Nat} (held : c.Holds b way)
    (change : CacheLine → CacheLine) (valid : ∀ line, (change line).valid = line.valid)
    (tag : ∀ line, (change line).tag = line.tag) :
    (c.modifyLine (b % 2 ^ c.s) way change).WF ∧
      (c.modifyLine (b % 2 ^ c.s) way change).block = setAt c.block b
        (some ((change (c.line (b % 2 ^ c.s) way)).dirty, (change (c.line (b % 2 ^ c.s) way)).data)) := by
  have matching : ∀ line tag', (change line).matches tag' = line.matches tag' := by
    intro line tag'
    rw [CacheLine.matches, CacheLine.matches, valid, tag]
  have holds : ∀ x way', (c.modifyLine (b % 2 ^ c.s) way change).Holds x way' ↔ c.Holds x way' := by
    intro x way'
    rw [holds_modifyLine]
    by_cases here : x % 2 ^ c.s = b % 2 ^ c.s ∧ way' = way
    · rw [if_pos here, matching, here.2, ← here.1]
      rfl
    · rw [if_neg here]
      rfl
  have wf' : (c.modifyLine (b % 2 ^ c.s) way change).WF := by
    refine ⟨wf.ways, ?_, ?_⟩
    · intro set way' mru
      rw [mruWay_modifyLine] at mru
      exact wf.mru set way' mru
    · intro x left right holdsLeft holdsRight
      exact wf.unique x left right ((holds x left).mp holdsLeft) ((holds x right).mp holdsRight)
  refine ⟨wf', funext fun x => ?_⟩
  by_cases same : x = b
  · subst same
    rw [setAt_self, block_of_holds wf' ((holds x way).mpr held)]
    have changed : (c.modifyLine (x % 2 ^ c.s) way change).line (x % 2 ^ c.s) way =
        change (c.line (x % 2 ^ c.s) way) := by
      rw [line_modifyLine, if_pos ⟨rfl, rfl⟩]
    exact congrArg some (Prod.ext (congrArg CacheLine.dirty changed) (congrArg CacheLine.data changed))
  · rw [setAt_of_ne same]
    apply block_congr wf wf' rfl (holds x)
    intro way' heldOther
    rw [line_modifyLine, if_neg]
    rintro ⟨sameSet, rfl⟩
    -- One line cannot hold two blocks of the same set.
    have tags : x / 2 ^ c.s = b / 2 ^ c.s := by
      have first := heldOther.2
      have second := held.2
      rw [sameSet] at first
      simp only [CacheLine.matches, Bool.and_eq_true, beq_iff_eq] at first second
      rw [← first.2, ← second.2]
    exact same (by rw [← Nat.div_add_mod x (2 ^ c.s), ← Nat.div_add_mod b (2 ^ c.s), sameSet, tags])

/-- Refilling a way of the set of a missing block `b`: the block appears and
the block that the way held before disappears. -/
theorem modifyLine_refill {c : Cache} (wf : c.WF) {b way : Nat} (bound : way < c.w)
    (missing : ∀ other, ¬ c.Holds b other) (line : CacheLine) (valid : line.valid = true)
    (tag : line.tag = b / 2 ^ c.s) :
    (c.modifyLine (b % 2 ^ c.s) way fun _ => line).WF ∧
      ∀ x, (c.modifyLine (b % 2 ^ c.s) way fun _ => line).block x =
        if x = b then some (line.dirty, line.data)
        else if x % 2 ^ c.s = b % 2 ^ c.s ∧ c.Holds x way then none
        else c.block x := by
  have matching : ∀ x, x % 2 ^ c.s = b % 2 ^ c.s → (line.matches (x / 2 ^ c.s) = true ↔ x = b) := by
    intro x sameSet
    simp only [CacheLine.matches, valid, tag, Bool.true_and, beq_iff_eq]
    constructor
    · intro tags
      rw [← Nat.div_add_mod x (2 ^ c.s), ← Nat.div_add_mod b (2 ^ c.s), sameSet, tags]
    · rintro rfl
      rfl
  have holds : ∀ x way', (c.modifyLine (b % 2 ^ c.s) way fun _ => line).Holds x way' ↔
      if x % 2 ^ c.s = b % 2 ^ c.s ∧ way' = way then x = b else c.Holds x way' := by
    intro x way'
    rw [holds_modifyLine]
    by_cases here : x % 2 ^ c.s = b % 2 ^ c.s ∧ way' = way
    · rw [if_pos here, if_pos here, matching x here.1, here.2]
      exact and_iff_right bound
    · rw [if_neg here, if_neg here]
      rfl
  have onlyHere : ∀ way', (c.modifyLine (b % 2 ^ c.s) way fun _ => line).Holds b way' → way' = way := by
    intro way' held
    rw [holds] at held
    by_cases here : way' = way
    · exact here
    · rw [if_neg (by simp [here])] at held
      exact absurd held (missing way')
  have wf' : (c.modifyLine (b % 2 ^ c.s) way fun _ => line).WF := by
    refine ⟨wf.ways, ?_, ?_⟩
    · intro set way' mru
      rw [mruWay_modifyLine] at mru
      exact wf.mru set way' mru
    · intro x left right holdsLeft holdsRight
      by_cases same : x = b
      · subst same
        rw [onlyHere left holdsLeft, onlyHere right holdsRight]
      · rw [holds] at holdsLeft holdsRight
        split at holdsLeft
        · exact absurd holdsLeft same
        · split at holdsRight
          · exact absurd holdsRight same
          · exact wf.unique x left right holdsLeft holdsRight
  refine ⟨wf', fun x => ?_⟩
  by_cases same : x = b
  · subst same
    rw [if_pos rfl, block_of_holds wf' ((holds x way).mpr (by rw [if_pos ⟨rfl, rfl⟩]))]
    have changed : (c.modifyLine (x % 2 ^ c.s) way fun _ => line).line (x % 2 ^ c.s) way = line := by
      rw [line_modifyLine, if_pos ⟨rfl, rfl⟩]
    exact congrArg some (Prod.ext (congrArg CacheLine.dirty changed) (congrArg CacheLine.data changed))
  · rw [if_neg same]
    by_cases evicted : x % 2 ^ c.s = b % 2 ^ c.s ∧ c.Holds x way
    · rw [if_pos evicted]
      apply block_of_not_holds
      intro way' held
      rw [holds] at held
      split at held
      · exact same held
      · next elsewhere => exact elsewhere ⟨evicted.1, wf.unique x way' way held evicted.2⟩
    · rw [if_neg evicted]
      apply block_congr wf wf' rfl
      · intro way'
        rw [holds]
        by_cases here : x % 2 ^ c.s = b % 2 ^ c.s ∧ way' = way
        · rw [if_pos here]
          constructor
          · intro equal
            exact absurd equal same
          · intro held
            exact absurd ⟨here.1, here.2 ▸ held⟩ evicted
        · rw [if_neg here]
      · intro way' held
        rw [line_modifyLine, if_neg]
        rintro ⟨sameSet, rfl⟩
        exact evicted ⟨sameSet, held⟩

/-- Dropping the line that holds `b`. -/
theorem modifyLine_drop {c : Cache} (wf : c.WF) {b way : Nat} (held : c.Holds b way)
    (change : CacheLine → CacheLine) (valid : ∀ line, (change line).valid = false) :
    (c.modifyLine (b % 2 ^ c.s) way change).WF ∧
      (c.modifyLine (b % 2 ^ c.s) way change).block = setAt c.block b none := by
  have holds : ∀ x way', (c.modifyLine (b % 2 ^ c.s) way change).Holds x way' ↔
      ¬ (x % 2 ^ c.s = b % 2 ^ c.s ∧ way' = way) ∧ c.Holds x way' := by
    intro x way'
    rw [holds_modifyLine]
    by_cases here : x % 2 ^ c.s = b % 2 ^ c.s ∧ way' = way
    · simp [here, CacheLine.matches, valid]
    · rw [if_neg here]
      simp [here, Holds]
  have wf' : (c.modifyLine (b % 2 ^ c.s) way change).WF := by
    refine ⟨wf.ways, ?_, ?_⟩
    · intro set way' mru
      rw [mruWay_modifyLine] at mru
      exact wf.mru set way' mru
    · intro x left right holdsLeft holdsRight
      exact wf.unique x left right ((holds x left).mp holdsLeft).2 ((holds x right).mp holdsRight).2
  refine ⟨wf', funext fun x => ?_⟩
  by_cases same : x = b
  · subst same
    rw [setAt_self]
    apply block_of_not_holds
    intro way' heldAfter
    obtain ⟨elsewhere, before⟩ := (holds x way').mp heldAfter
    exact elsewhere ⟨rfl, wf.unique x way' way before held⟩
  · rw [setAt_of_ne same]
    -- The dropped line held `b`, so it held no other block of its set.
    have apart : ∀ way', c.Holds x way' → ¬ (x % 2 ^ c.s = b % 2 ^ c.s ∧ way' = way) := by
      rintro way' heldOther ⟨sameSet, rfl⟩
      have first := heldOther.2
      have second := held.2
      rw [sameSet] at first
      simp only [CacheLine.matches, Bool.and_eq_true, beq_iff_eq] at first second
      exact same (by
        rw [← Nat.div_add_mod x (2 ^ c.s), ← Nat.div_add_mod b (2 ^ c.s), sameSet, ← first.2, ← second.2])
    apply block_congr wf wf' rfl
    · intro way'
      rw [holds]
      exact ⟨And.right, fun heldOther => ⟨apart way' heldOther, heldOther⟩⟩
    · intro way' heldOther
      rw [line_modifyLine, if_neg (apart way' heldOther)]

end Cache

end Sustemu
