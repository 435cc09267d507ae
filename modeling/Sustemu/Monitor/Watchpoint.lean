import Sustemu.Monitor.Expr
import Sustemu.Cpu.Functional
import Sustemu.Lib.Chain
import Mathlib.Data.List.FinRange

/-!
# Watchpoints

`watchpoint.c`: a pool of `NR_WP` entries on two linked lists, the active ones
from `head` and the others from `free_`. A loop over a list gets a number of
turns and stops with `endless` when they run out.
-/

set_option autoImplicit false

namespace Sustemu.Monitor

open Lib

abbrev nrWp : Nat := 32

/-- `expr_maxl`. -/
def exprMaxl : Nat := 100

/-- A pointer into the pool. -/
abbrev WpPtr := Fin nrWp

structure WP where
  NO : Int
  next : Option WpPtr
  expr : List Char
  value : Word

structure WpPool where
  wpPool : WpPtr → WP
  head : Option WpPtr
  free : Option WpPtr
  gWpHead : Option WpPtr

/-- Why a function of the module does not return. -/
inductive WpStop where
  | expr (stop : Stop)
  /-- `strcpy` leaves the array of the entry. -/
  | overrun
  | endless
  deriving DecidableEq

/-- `expr` with `success` set, as far as the module uses it: a value and the machine after the reads. -/
abbrev Evaluator (σ : Type) := List Char → Machine σ → Except Stop (Word × Machine σ)

/-- The evaluator of the source; `stack` is what its uninitialised variables hold. -/
def exprEvaluator {σ : Type} (vm : VMem σ) (stack : Nat → Word) : Evaluator σ := fun expression m => do
  let (value, _, w) ← expr vm m.cpu stack expression true m.world
  return (value, { m with world := w })

namespace WpPool

variable (s : WpPool)

def next (i : WpPtr) : Option WpPtr := (s.wpPool i).next

def modify (i : WpPtr) (change : WP → WP) : WpPool :=
  { s with wpPool := setAt s.wpPool i (change (s.wpPool i)) }

def setNext (i : WpPtr) (next : Option WpPtr) : WpPool := s.modify i fun wp => { wp with next := next }

def setExpr (i : WpPtr) (expr : List Char) : WpPool := s.modify i fun wp => { wp with expr := expr }

def setValue (i : WpPtr) (value : Word) : WpPool := s.modify i fun wp => { wp with value := value }

end WpPool

/-- The links that the loop of `init_wp_pool` leaves. -/
def initialNext (i : WpPtr) : Option WpPtr := if inside : i.val + 1 < nrWp then some ⟨i.val + 1, inside⟩ else none

/-- `init_wp_pool`, on what the pool holds. -/
def initWpPool (wpPool : WpPtr → WP) : WpPool where
  wpPool i := { wpPool i with NO := i.val, next := initialNext i }
  head := none
  free := some 0
  gWpHead := none

/-- The number of turns a loop over a list gets. -/
def wpTurns : Nat := nrWp

/-- The pointers that `new_wp` moves. -/
def acquireWp (pointer : WpPtr) (s : WpPool) : WpPool :=
  let s := { s with free := s.next pointer }
  let s := s.setNext pointer s.head
  let s := { s with head := some pointer }
  { s with gWpHead := s.head }

section Functions

variable {σ : Type} (evaluate : Evaluator σ)

/-- `new_wp`. -/
def newWp (expression : List Char) (s : WpPool) (m : Machine σ) : Except WpStop (WpPool × Machine σ) :=
  match s.free with
  | none => .ok (s, m)
  | some pointer =>
      let s := acquireWp pointer s
      if exprMaxl ≤ expression.length then .error .overrun
      else
        let s := s.setExpr pointer expression
        match evaluate expression m with
        | .ok (value, m) => .ok (s.setValue pointer value, m)
        | .error stop => .error (.expr stop)

/-- The entry leaves the active list; `pre` is the entry before it. -/
def unlinkWp (pre : Option WpPtr) (pointer : WpPtr) (s : WpPool) : WpPool :=
  match pre with
  | none => { s with head := s.next pointer }
  | some pre => s.setNext pre (s.next pointer)

/-- The body of the loop of `free_wp`, for the entry found. -/
def releaseWp (pre : Option WpPtr) (pointer : WpPtr) (s : WpPool) : WpPool :=
  let s := unlinkWp pre pointer s
  let s := s.setNext pointer s.free
  let s := { s with free := some pointer }
  { s with gWpHead := s.head }

def freeWpLoop (NO : Int) : Nat → Option WpPtr → Option WpPtr → WpPool → Except WpStop WpPool
  | _, none, _, s => .ok s
  | 0, some _, _, _ => .error .endless
  | turns + 1, some pointer, pre, s =>
      if (s.wpPool pointer).NO = NO then .ok (releaseWp pre pointer s)
      else freeWpLoop NO turns (s.next pointer) (some pointer) s

/-- `free_wp`. -/
def freeWp (NO : Int) (s : WpPool) : Except WpStop WpPool := freeWpLoop NO wpTurns s.head none s

/-- `wp_any_active`. -/
def wpAnyActive (s : WpPool) : Bool := s.gWpHead.isSome

/-- What `check_wp` prints. -/
structure WpReport where
  NO : Int
  pc : Word
  value : Word
  deriving DecidableEq

def checkWpLoop : Nat → Option WpPtr → WpPool → Machine σ → Except WpStop (Option WpReport × WpPool × Machine σ)
  | _, none, s, m => .ok (none, s, m)
  | 0, some _, _, _ => .error .endless
  | turns + 1, some pointer, s, m =>
      match evaluate (s.wpPool pointer).expr m with
      | .error stop => .error (.expr stop)
      | .ok (value, m) =>
          if value ≠ (s.wpPool pointer).value then
            .ok (some ⟨(s.wpPool pointer).NO, m.cpu.pc, value⟩, s.setValue pointer value, m)
          else checkWpLoop turns (s.next pointer) s m

/-- `check_wp`. It returns true where it prints a report. -/
def checkWp (s : WpPool) (m : Machine σ) : Except WpStop (Option WpReport × WpPool × Machine σ) :=
  checkWpLoop evaluate wpTurns s.head s m

end Functions

/-! ## Runs -/

/-- The user sets and deletes watchpoints between the steps of the machine. -/
inductive WpCommand (σ : Type) where
  | new (expression : List Char)
  | free (NO : Int)
  | step (advance : Machine σ → Machine σ)

/-- A step with the check that follows it. -/
structure WpCheck (σ : Type) where
  pool : WpPool
  before : Machine σ
  after : Machine σ
  report : Option WpReport

/-- What the check returned. -/
def WpCheck.record {σ : Type} (c : WpCheck σ) : Bool := c.report.isSome

section Run

variable {σ : Type} (evaluate : Evaluator σ)

/-- A step of the machine; the check is guarded by `wp_any_active`. -/
def stepAndCheck (advance : Machine σ → Machine σ) (s : WpPool) (m : Machine σ) :
    Except WpStop (WpCheck σ × WpPool × Machine σ) :=
  let after := advance m
  if wpAnyActive s then
    match checkWp evaluate s after with
    | .ok (report, s', m') => .ok (⟨s, m, after, report⟩, s', m')
    | .error stop => .error stop
  else .ok (⟨s, m, after, none⟩, s, after)

def runCommands : List (WpCommand σ) → WpPool → Machine σ → Except WpStop (List (WpCheck σ) × WpPool × Machine σ)
  | [], s, m => .ok ([], s, m)
  | .new expression :: rest, s, m => do
      let (s, m) ← newWp evaluate expression s m
      runCommands rest s m
  | .free NO :: rest, s, m => do
      let s ← freeWp NO s
      runCommands rest s m
  | .step advance :: rest, s, m => do
      let (check, s, m) ← stepAndCheck evaluate advance s m
      let (checks, s, m) ← runCommands rest s m
      return (check :: checks, s, m)

end Run

/-! ## The lists -/

namespace WpPool

variable {s : WpPool} {active free before rest : List WpPtr} {p : WpPtr}

theorem modify_of_ne {change : WP → WP} {i j : WpPtr} (other : j ≠ i) : (s.modify i change).wpPool j = s.wpPool j :=
  setAt_of_ne other _ _

theorem modify_self {change : WP → WP} (i : WpPtr) : (s.modify i change).wpPool i = change (s.wpPool i) :=
  setAt_self ..

theorem modify_keeps {α : Type} (field : WP → α) {change : WP → WP} (kept : ∀ wp, field (change wp) = field wp) (i j : WpPtr) :
    field ((s.modify i change).wpPool j) = field (s.wpPool j) := by
  by_cases same : j = i
  · subst same
    rw [modify_self, kept]
  · rw [modify_of_ne same]

theorem setNext_next (s : WpPool) (i : WpPtr) (next : Option WpPtr) : (s.setNext i next).next = setAt s.next i next := by
  funext j
  by_cases same : j = i
  · subst same
    rw [setAt_self]
    exact congrArg WP.next (modify_self j)
  · rw [setAt_of_ne same]
    exact congrArg WP.next (modify_of_ne same)

theorem modify_next {change : WP → WP} (kept : ∀ wp, (change wp).next = wp.next) (i : WpPtr) : (s.modify i change).next = s.next :=
  funext fun j => modify_keeps WP.next kept i j

theorem setValue_value (s : WpPool) (i : WpPtr) (value : Word) : ((s.setValue i value).wpPool i).value = value :=
  congrArg WP.value (modify_self i)

theorem setExpr_expr (s : WpPool) (i : WpPtr) (expr : List Char) : ((s.setExpr i expr).wpPool i).expr = expr :=
  congrArg WP.expr (modify_self i)

theorem setValue_expr (s : WpPool) (i j : WpPtr) (value : Word) : ((s.setValue i value).wpPool j).expr = (s.wpPool j).expr :=
  modify_keeps WP.expr (fun wp => show ({ wp with value := value } : WP).expr = wp.expr from rfl) i j

/-- The active entries and the free ones. -/
structure Lists (s : WpPool) (active free : List WpPtr) : Prop where
  activeChain : Chain s.next s.head active
  freeChain : Chain s.next s.free free
  partition : (active ++ free).Perm (List.finRange nrWp)
  numbers : ∀ i, (s.wpPool i).NO = (i.val : Int)
  mirror : s.gWpHead = s.head

theorem Lists.nodup (lists : s.Lists active free) : (active ++ free).Nodup :=
  lists.partition.nodup_iff.mpr (List.nodup_finRange nrWp)

theorem Lists.length_le (lists : s.Lists active free) : active.length ≤ wpTurns := by
  have total := lists.partition.length_eq
  rw [List.length_append, List.length_finRange] at total
  exact Nat.le.intro total

/-- What only touches the texts and the values keeps the lists. -/
theorem Lists.modify (lists : s.Lists active free) (i : WpPtr) {change : WP → WP} (next : ∀ wp, (change wp).next = wp.next)
    (number : ∀ wp, (change wp).NO = wp.NO) : (s.modify i change).Lists active free where
  activeChain := by
    rw [modify_next next]
    exact lists.activeChain
  freeChain := by
    rw [modify_next next]
    exact lists.freeChain
  partition := lists.partition
  numbers j := (modify_keeps WP.NO number i j).trans (lists.numbers j)
  mirror := lists.mirror

theorem Lists.setExpr (lists : s.Lists active free) (i : WpPtr) (expr : List Char) : (s.setExpr i expr).Lists active free :=
  lists.modify i (fun _ => rfl) fun _ => rfl

theorem Lists.setValue (lists : s.Lists active free) (i : WpPtr) (value : Word) : (s.setValue i value).Lists active free :=
  lists.modify i (fun _ => rfl) fun _ => rfl

theorem init_lists (wpPool : WpPtr → WP) : (initWpPool wpPool).Lists [] (List.finRange nrWp) where
  activeChain := rfl
  freeChain := by
    have linked : Chain initialNext (some 0) (List.finRange nrWp) := by decide
    exact linked
  partition := List.Perm.refl _
  numbers _ := rfl
  mirror := rfl

/-- What the pointer moves leave alone in every entry. -/
theorem acquireWp_keeps {α : Type} (field : WP → α) (kept : ∀ wp next, field { wp with next := next } = field wp) (i : WpPtr) :
    field ((acquireWp p s).wpPool i) = field (s.wpPool i) :=
  modify_keeps (s := { s with free := s.next p }) field (fun wp => kept wp s.head) p i

theorem Lists.acquire (lists : s.Lists active (p :: free)) : (acquireWp p s).Lists (p :: active) free := by
  have apart := lists.nodup
  have links : (acquireWp p s).next = setAt s.next p s.head := setNext_next _ p s.head
  have inactive : p ∉ active := fun member => List.disjoint_of_nodup_append apart member List.mem_cons_self
  have fresh : p ∉ free := (List.nodup_cons.mp apart.of_append_right).1
  have behind : Chain s.next (s.next p) free := lists.freeChain.2
  refine ⟨?_, ?_, ?_, ?_, rfl⟩
  · rw [links]
    exact lists.activeChain.push inactive
  · rw [links]
    exact behind.update fresh s.head
  · exact List.perm_middle.symm.trans lists.partition
  · exact fun i => (acquireWp_keeps WP.NO (fun _ _ => rfl) i).trans (lists.numbers i)

theorem unlinkWp_keeps {α : Type} (field : WP → α) (kept : ∀ wp next, field { wp with next := next } = field wp)
    (pre : Option WpPtr) (i : WpPtr) : field ((unlinkWp pre p s).wpPool i) = field (s.wpPool i) := by
  cases pre with
  | none => rfl
  | some pre => exact modify_keeps field (fun wp => kept wp _) pre i

theorem unlinkWp_free (pre : Option WpPtr) : (unlinkWp pre p s).free = s.free := by
  cases pre <;> rfl

/-- Taking an entry out, whether it is the first one or not. -/
theorem Lists.unlink (lists : s.Lists (before ++ p :: rest) free) :
    Chain (unlinkWp before.getLast? p s).next (unlinkWp before.getLast? p s).head (before ++ rest) ∧
      Chain (unlinkWp before.getLast? p s).next s.free free := by
  have apart := lists.nodup
  have chain := lists.activeChain
  cases before using List.reverseRecOn with
  | nil => exact ⟨chain.2, lists.freeChain⟩
  | append_singleton before previous =>
      have busy : previous ∉ free := fun member => List.disjoint_of_nodup_append apart (by simp) member
      rw [List.getLast?_concat]
      unfold unlinkWp
      dsimp only
      rw [setNext_next]
      have within := apart.of_append_left
      rw [List.append_assoc, List.singleton_append] at chain within ⊢
      exact ⟨chain.unlink within, lists.freeChain.update busy _⟩

theorem releaseWp_keeps {α : Type} (field : WP → α) (kept : ∀ wp next, field { wp with next := next } = field wp)
    (pre : Option WpPtr) (i : WpPtr) : field ((releaseWp pre p s).wpPool i) = field (s.wpPool i) := by
  refine Eq.trans ?_ (unlinkWp_keeps (p := p) field kept pre i)
  exact modify_keeps (s := unlinkWp pre p s) field (fun wp => kept wp _) p i

theorem Lists.release (lists : s.Lists (before ++ p :: rest) free) :
    (releaseWp before.getLast? p s).Lists (before ++ rest) (p :: free) := by
  have apart := lists.nodup
  obtain ⟨active, inactive⟩ := lists.unlink
  have links : (releaseWp before.getLast? p s).next =
      setAt (unlinkWp before.getLast? p s).next p s.free := by
    refine (setNext_next (unlinkWp before.getLast? p s) p _).trans ?_
    rw [unlinkWp_free]
  have busy : p ∉ free := fun member => List.disjoint_of_nodup_append apart (by simp) member
  have left : p ∉ before ++ rest := (List.nodup_middle.mp apart.of_append_left).notMem
  refine ⟨?_, ?_, ?_, ?_, rfl⟩
  · rw [links]
    exact active.update left _
  · rw [links]
    exact inactive.push busy
  · refine List.perm_middle.trans (List.Perm.trans ?_ lists.partition)
    exact List.perm_middle.symm.append_right free
  · exact fun i => (releaseWp_keeps WP.NO (fun _ _ => rfl) _ i).trans (lists.numbers i)

end WpPool

/-! ## The functions -/

section Specification

variable {σ : Type} {evaluate : Evaluator σ} {s : WpPool} {m : Machine σ} {active free before rest : List WpPtr}

variable (evaluate m) in
/-- `new_wp` takes the first free entry, if there is one. -/
theorem newWp_spec (lists : s.Lists active free) {expression : List Char} (short : expression.length < exprMaxl) :
    (free = [] ∧ newWp evaluate expression s m = .ok (s, m)) ∨
    ∃ p rest, free = p :: rest ∧
      ((∃ stop, newWp evaluate expression s m = .error (.expr stop)) ∨
        ∃ value m', evaluate expression m = .ok (value, m') ∧
          newWp evaluate expression s m = .ok (((acquireWp p s).setExpr p expression).setValue p value, m') ∧
          (((acquireWp p s).setExpr p expression).setValue p value).Lists (p :: active) rest) := by
  cases free with
  | nil =>
      have null : s.free = none := lists.freeChain
      refine .inl ⟨rfl, ?_⟩
      unfold newWp
      rw [null]
  | cons p rest =>
      have first : s.free = some p := lists.freeChain.1
      refine .inr ⟨p, rest, rfl, ?_⟩
      unfold newWp
      rw [first]
      dsimp only
      rw [if_neg (Nat.not_le_of_lt short)]
      cases evaluated : evaluate expression m with
      | error stop => exact .inl ⟨stop, rfl⟩
      | ok result => exact .inr ⟨result.1, result.2, rfl, rfl, (lists.acquire.setExpr p expression).setValue p result.1⟩

/-- The loop of `free_wp`, behind the entries already passed. -/
theorem freeWpLoop_spec {NO : Int} {turns : Nat} {pointer : Option WpPtr} (lists : s.Lists (before ++ rest) free)
    (here : Chain s.next pointer rest) (passed : ∀ i ∈ before, (i.val : Int) ≠ NO) (enough : rest.length ≤ turns) :
    ∃ s' free', freeWpLoop NO turns pointer before.getLast? s = .ok s' ∧
      s'.Lists ((before ++ rest).filter fun i => (i.val : Int) ≠ NO) free' ∧
      ∀ i, (s'.wpPool i).expr = (s.wpPool i).expr ∧ (s'.wpPool i).value = (s.wpPool i).value := by
  induction rest generalizing before turns pointer with
  | nil =>
      have null : pointer = none := here
      have all : (before ++ []).filter (fun i => (i.val : Int) ≠ NO) = before := by
        simpa using passed
      refine ⟨s, free, ?_, ?_, fun _ => ⟨rfl, rfl⟩⟩
      · rw [null]
        cases turns <;> rfl
      · rw [all]
        simpa using lists
  | cons p rest ih =>
      obtain ⟨first, behind⟩ := here
      obtain ⟨more, rfl⟩ := Nat.exists_eq_add_of_le' (Nat.one_le_of_lt enough)
      rw [first]
      unfold freeWpLoop
      rw [lists.numbers p]
      by_cases found : (p.val : Int) = NO
      · have others : ∀ i ∈ rest, (i.val : Int) ≠ NO := by
          intro i member same
          have equal : i = p := Fin.ext (Int.ofNat.inj (same.trans found.symm))
          have apart := lists.nodup.of_append_left.of_append_right
          exact (List.nodup_cons.mp apart).1 (equal ▸ member)
        have kept : (before ++ p :: rest).filter (fun i => (i.val : Int) ≠ NO) = before ++ rest := by
          rw [List.filter_append, List.filter_cons_of_neg (by simpa using found)]
          rw [List.filter_eq_self.mpr (by simpa using passed), List.filter_eq_self.mpr (by simpa using others)]
        rw [if_pos found, kept]
        exact ⟨_, p :: free, rfl, lists.release, fun i => ⟨WpPool.releaseWp_keeps WP.expr (fun _ _ => rfl) _ i,
          WpPool.releaseWp_keeps WP.value (fun _ _ => rfl) _ i⟩⟩
      · rw [if_neg found]
        have passed' : ∀ i ∈ before ++ [p], (i.val : Int) ≠ NO := by
          intro i member
          rcases List.mem_append.mp member with old | new
          · exact passed i old
          · rwa [List.mem_singleton.mp new]
        have again := ih (show s.Lists ((before ++ [p]) ++ rest) free by simpa using lists) behind passed'
          (Nat.le_of_succ_le_succ enough)
        rw [List.getLast?_concat, List.append_assoc] at again
        exact again

/-- `free_wp` ends, and takes out the active entry with the number, if there is one. -/
theorem freeWp_spec (lists : s.Lists active free) (NO : Int) : ∃ s' free', freeWp NO s = .ok s' ∧
    s'.Lists (active.filter fun i => (i.val : Int) ≠ NO) free' ∧
    ∀ i, (s'.wpPool i).expr = (s.wpPool i).expr ∧ (s'.wpPool i).value = (s.wpPool i).value :=
  freeWpLoop_spec (show s.Lists ([] ++ active) free from lists) lists.activeChain (by simp) lists.length_le

/-- The first entry of a list whose expression no longer has the recorded value. -/
def firstChange (evaluate : Evaluator σ) (s : WpPool) : List WpPtr → Machine σ → Except Stop (Option (WpPtr × Word) × Machine σ)
  | [], m => .ok (none, m)
  | i :: rest, m =>
      match evaluate (s.wpPool i).expr m with
      | .error stop => .error stop
      | .ok (value, m) => if value ≠ (s.wpPool i).value then .ok (some (i, value), m) else firstChange evaluate s rest m

/-- What `check_wp` does about it. -/
def refresh (s : WpPool) : Except Stop (Option (WpPtr × Word) × Machine σ) → Except WpStop (Option WpReport × WpPool × Machine σ)
  | .error stop => .error (.expr stop)
  | .ok (none, m) => .ok (none, s, m)
  | .ok (some (i, value), m) => .ok (some ⟨(s.wpPool i).NO, m.cpu.pc, value⟩, s.setValue i value, m)

theorem checkWpLoop_eq {turns : Nat} {pointer : Option WpPtr} (here : Chain s.next pointer rest) (enough : rest.length ≤ turns) :
    checkWpLoop evaluate turns pointer s m = refresh s (firstChange evaluate s rest m) := by
  induction rest generalizing turns pointer m with
  | nil =>
      rw [show pointer = none from here]
      cases turns <;> rfl
  | cons p rest ih =>
      obtain ⟨first, behind⟩ := here
      obtain ⟨more, rfl⟩ := Nat.exists_eq_add_of_le' (Nat.one_le_of_lt enough)
      rw [first]
      unfold checkWpLoop firstChange
      cases evaluate (s.wpPool p).expr m with
      | error stop => rfl
      | ok result =>
          dsimp only
          by_cases same : result.1 = (s.wpPool p).value
          · rw [if_neg (not_not.mpr same), if_neg (not_not.mpr same)]
            exact ih behind (Nat.le_of_succ_le_succ enough)
          · rw [if_pos same, if_pos same]
            rfl

/-- A check stops in an evaluation, finds no change, or refreshes the first value that changed. -/
theorem stepAndCheck_eq (lists : s.Lists active free) (advance : Machine σ → Machine σ) :
    stepAndCheck evaluate advance s m = match refresh s (firstChange evaluate s active (advance m)) with
      | .error stop => .error stop
      | .ok (report, s', m') => .ok (⟨s, m, advance m, report⟩, s', m') := by
  unfold stepAndCheck wpAnyActive checkWp
  dsimp only
  rw [lists.mirror, checkWpLoop_eq lists.activeChain lists.length_le]
  cases active with
  | nil =>
      rw [show s.head = none from lists.activeChain]
      rfl
  | cons first rest =>
      rw [lists.activeChain.1, if_pos Option.isSome_some]
      cases refresh s (firstChange evaluate s (first :: rest) (advance m)) <;> rfl

variable (evaluate m) in
theorem stepAndCheck_lists (lists : s.Lists active free) (advance : Machine σ → Machine σ) :
    (∃ stop, stepAndCheck evaluate advance s m = .error (.expr stop)) ∨
    ∃ c s' m', stepAndCheck evaluate advance s m = .ok (c, s', m') ∧ s'.Lists active free := by
  rw [stepAndCheck_eq lists]
  cases firstChange evaluate s active (advance m) with
  | error stop => exact .inl ⟨stop, rfl⟩
  | ok result =>
      obtain ⟨change, m'⟩ := result
      cases change with
      | none => exact .inr ⟨_, _, _, rfl, lists⟩
      | some change => exact .inr ⟨_, _, _, rfl, lists.setValue change.1 change.2⟩

/-! ## The pool -/

variable (evaluate m) in
/-- The lists stay intact under every command. -/
theorem runCommands_lists (commands : List (WpCommand σ)) (lists : s.Lists active free)
    (short : ∀ expression, .new expression ∈ commands → expression.length < exprMaxl) :
    (∃ stop, runCommands evaluate commands s m = .error (.expr stop)) ∨
    ∃ checks s' m', runCommands evaluate commands s m = .ok (checks, s', m') ∧ ∃ active free, s'.Lists active free := by
  induction commands generalizing s m active free with
  | nil => exact .inr ⟨[], s, m, rfl, active, free, lists⟩
  | cons command rest ih =>
      have later : ∀ expression, .new expression ∈ rest → expression.length < exprMaxl :=
        fun expression member => short expression (List.mem_cons_of_mem _ member)
      cases command with
      | new expression =>
          unfold runCommands
          rcases newWp_spec evaluate m lists (short expression List.mem_cons_self) with
            ⟨-, full⟩ | ⟨p, left, -, ⟨stop, stopped⟩ | ⟨value, m', -, done, lists'⟩⟩
          · rw [full]
            exact ih m lists later
          · rw [stopped]
            exact .inl ⟨stop, rfl⟩
          · rw [done]
            exact ih m' lists' later
      | free NO =>
          unfold runCommands
          obtain ⟨s', free', done, lists', -⟩ := freeWp_spec lists NO
          rw [done]
          exact ih m lists' later
      | step advance =>
          unfold runCommands
          rcases stepAndCheck_lists evaluate m lists advance with ⟨stop, stopped⟩ | ⟨c, s', m', done, lists'⟩
          · rw [stopped]
            exact .inl ⟨stop, rfl⟩
          · rw [done]
            rcases ih m' lists' later with ⟨stop, stopped⟩ | ⟨checks, s'', m'', ran, final⟩
            · refine .inl ⟨stop, ?_⟩
              simp only [bind, Except.bind, stopped]
            · refine .inr ⟨c :: checks, s'', m'', ?_, final⟩
              simp only [bind, Except.bind, ran]
              rfl

end Specification

/-- For every evaluator and every sequence of commands, the two lists share out the pool, and a number frees its entry only. -/
theorem wp_pool_integrity {σ : Type} (evaluate : Evaluator σ) (wpPool : WpPtr → WP) (commands : List (WpCommand σ)) (m : Machine σ)
    (short : ∀ expression, .new expression ∈ commands → expression.length < exprMaxl) :
    (∃ stop, runCommands evaluate commands (initWpPool wpPool) m = .error (.expr stop)) ∨
    ∃ checks s m', runCommands evaluate commands (initWpPool wpPool) m = .ok (checks, s, m') ∧
      ∃ active free, s.Lists active free ∧
        ∀ NO, ∃ s' free', freeWp NO s = .ok s' ∧ s'.Lists (active.filter fun i => (i.val : Int) ≠ NO) free' := by
  rcases runCommands_lists evaluate m commands (WpPool.init_lists wpPool) short with
    stopped | ⟨checks, s, m', ran, active, free, lists⟩
  · exact .inl stopped
  · refine .inr ⟨checks, s, m', ran, active, free, lists, fun NO => ?_⟩
    obtain ⟨s', free', done, lists', -⟩ := freeWp_spec lists NO
    exact ⟨s', free', done, lists'⟩

/-- Two watchpoints are set and the older one is deleted; another number deletes nothing. -/
def twoWatched : List (WpCommand Unit) := [.new ['1'], .new ['2'], .free 0, .free 40]

/-- The pool before `init_wp_pool`. -/
def zeroPool (_ : WpPtr) : WP := ⟨0, none, [], 0⟩

theorem wp_pool_integrity_two : ∃ checks s m',
    runCommands (exprEvaluator .absent fun _ => 0) twoWatched (initWpPool zeroPool) ⟨⟨.empty, 0⟩, ⟨Sys.init, ()⟩⟩ = .ok (checks, s, m') ∧
      ∃ active free, s.Lists active free ∧ active.length = 1 := by
  have short : ∀ expression, .new expression ∈ twoWatched → expression.length < exprMaxl := by
    intro expression member
    simp only [twoWatched, List.mem_cons, WpCommand.new.injEq, reduceCtorEq, List.not_mem_nil, or_false] at member
    rcases member with rfl | rfl <;> decide
  have left : (match runCommands (exprEvaluator .absent fun _ => 0) twoWatched (initWpPool zeroPool)
      ⟨⟨.empty, 0⟩, ⟨Sys.init, ()⟩⟩ with
    | .ok (_, s, _) => decide (Chain s.next s.head [1])
    | .error _ => false) = true := by decide +kernel
  rcases wp_pool_integrity (exprEvaluator .absent fun _ => 0) zeroPool twoWatched ⟨⟨.empty, 0⟩, ⟨Sys.init, ()⟩⟩ short with
    ⟨stop, stopped⟩ | ⟨checks, s, m', ran, active, free, lists, -⟩
  · rw [stopped] at left
    cases left
  · refine ⟨checks, s, m', ran, active, free, lists, ?_⟩
    rw [ran] at left
    rw [lists.activeChain.unique (of_decide_eq_true left)]
    rfl

end Sustemu.Monitor
