import Sustemu.Monitor.Watchpoint

/-!
# Watched changes

`check_wp` ends at the first entry whose value differs and refreshes that one
only. So a run reports every change, and nothing else, exactly when no step
changes two watched expressions.
-/

set_option autoImplicit false

namespace Sustemu.Monitor

open Lib

variable {σ : Type} (evaluate : Evaluator σ)

/-- The value of an expression in a machine, if the evaluation returns. -/
def valueOf (expression : List Char) (m : Machine σ) : Option Word := (evaluate expression m).toOption.map Prod.fst

def WpPool.Active (s : WpPool) (i : WpPtr) : Prop := ∃ cells, Chain s.next s.head cells ∧ i ∈ cells

namespace WpCheck

/-- The step changed the value of a watched expression. -/
def Changed (c : WpCheck σ) (i : WpPtr) : Prop :=
  c.pool.Active i ∧ valueOf evaluate (c.pool.wpPool i).expr c.after ≠ valueOf evaluate (c.pool.wpPool i).expr c.before

/-- Every change is reported, and the check returns true only for a change. -/
structure Faithful (c : WpCheck σ) : Prop where
  reported : ∀ i, c.Changed evaluate i → ∃ report, c.report = some report ∧ report.NO = (c.pool.wpPool i).NO
  record : c.record = true ↔ ∃ i, c.Changed evaluate i

def AtMostOne (c : WpCheck σ) : Prop := ∀ i j, c.Changed evaluate i → c.Changed evaluate j → i = j

end WpCheck

/-- Machines that evaluations of watched expressions lead to. -/
inductive Reads (watched : List (List Char)) : Machine σ → Machine σ → Prop
  | refl (m : Machine σ) : Reads watched m m
  | read {expression : List Char} {value : Word} {m m' m'' : Machine σ} (member : expression ∈ watched)
      (evaluated : evaluate expression m = .ok (value, m')) (rest : Reads watched m' m'') : Reads watched m m''

/-- Evaluating watched expressions changes none of their values: none reads a device register that the read changes. -/
def Effectless (watched : List (List Char)) (m : Machine σ) : Prop :=
  ∀ m', Reads evaluate watched m m' → ∀ expression ∈ watched, valueOf evaluate expression m' = valueOf evaluate expression m

variable {evaluate} {watched : List (List Char)} {s s' : WpPool} {m m' : Machine σ} {active free : List WpPtr} {value : Word}
  {expression : List Char}

theorem valueOf_eq (evaluated : evaluate expression m = .ok (value, m')) : valueOf evaluate expression m = some value := by
  unfold valueOf
  rw [evaluated]
  rfl

theorem Effectless.read (quiet : Effectless evaluate watched m) (member : expression ∈ watched)
    (evaluated : evaluate expression m = .ok (value, m')) :
    Effectless evaluate watched m' ∧ ∀ other ∈ watched, valueOf evaluate other m' = valueOf evaluate other m := by
  have once := quiet m' (.read member evaluated (.refl m'))
  refine ⟨fun m'' reads other watching => ?_, once⟩
  rw [quiet m'' (.read member evaluated reads) other watching, once other watching]

/-- The recorded values are those of the machine. -/
structure Recorded (evaluate : Evaluator σ) (watched : List (List Char)) (s : WpPool) (m : Machine σ) (active : List WpPtr) : Prop where
  quiet : Effectless evaluate watched m
  watching : ∀ i ∈ active, (s.wpPool i).expr ∈ watched
  current : ∀ i ∈ active, valueOf evaluate (s.wpPool i).expr m = some (s.wpPool i).value

/-- The loop finds a change if there is one, and its evaluations change no value. -/
theorem firstChange_spec {cells : List WpPtr} {change : Option (WpPtr × Word)} (quiet : Effectless evaluate watched m)
    (watching : ∀ i ∈ cells, (s.wpPool i).expr ∈ watched) (found : firstChange evaluate s cells m = .ok (change, m')) :
    Effectless evaluate watched m' ∧ (∀ other ∈ watched, valueOf evaluate other m' = valueOf evaluate other m) ∧
      match change with
      | none => ∀ i ∈ cells, valueOf evaluate (s.wpPool i).expr m = some (s.wpPool i).value
      | some (i, value) => i ∈ cells ∧ valueOf evaluate (s.wpPool i).expr m = some value ∧ value ≠ (s.wpPool i).value := by
  induction cells generalizing m with
  | nil =>
      cases found
      exact ⟨quiet, fun _ _ => rfl, by simp⟩
  | cons i rest ih =>
      unfold firstChange at found
      cases evaluated : evaluate (s.wpPool i).expr m with
      | error stop =>
          rw [evaluated] at found
          cases found
      | ok result =>
          obtain ⟨value, m₁⟩ := result
          rw [evaluated] at found
          dsimp only at found
          obtain ⟨quiet₁, same⟩ := quiet.read (watching i List.mem_cons_self) evaluated
          by_cases differs : value ≠ (s.wpPool i).value
          · rw [if_pos differs] at found
            cases found
            exact ⟨quiet₁, same, List.mem_cons_self, valueOf_eq evaluated, differs⟩
          · rw [if_neg differs] at found
            have later : ∀ j ∈ rest, (s.wpPool j).expr ∈ watched := fun j member => watching j (List.mem_cons_of_mem _ member)
            obtain ⟨quiet', same', rest⟩ := ih quiet₁ later found
            refine ⟨quiet', fun other member => (same' other member).trans (same other member), ?_⟩
            cases change with
            | none =>
                intro j member
                rcases List.mem_cons.mp member with rfl | member
                · rw [valueOf_eq evaluated, not_not.mp differs]
                · rw [← same _ (later j member)]
                  exact rest j member
            | some change =>
                obtain ⟨member, changed, differs⟩ := rest
                rw [same _ (later _ member)] at changed
                exact ⟨List.mem_cons_of_mem _ member, changed, differs⟩

/-! ## One step -/

theorem WpPool.Lists.active_iff (lists : s.Lists active free) (i : WpPtr) : s.Active i ↔ i ∈ active := by
  constructor
  · rintro ⟨cells, chain, member⟩
    rwa [lists.activeChain.unique chain]
  · exact fun member => ⟨active, lists.activeChain, member⟩

theorem stepAndCheck_after {advance : Machine σ → Machine σ} {c : WpCheck σ}
    (done : stepAndCheck evaluate advance s m = .ok (c, s', m')) : c.after = advance m := by
  unfold stepAndCheck at done
  dsimp only at done
  split at done
  · split at done <;> cases done
    rfl
  · cases done
    rfl

/-- A check is right exactly when at most one watched expression changed, and then the values are recorded again. -/
theorem stepAndCheck_faithful {advance : Machine σ → Machine σ} {c : WpCheck σ} (lists : s.Lists active free)
    (recorded : Recorded evaluate watched s m active) (quiet : Effectless evaluate watched (advance m))
    (done : stepAndCheck evaluate advance s m = .ok (c, s', m')) :
    s'.Lists active free ∧ (c.Faithful evaluate ↔ c.AtMostOne evaluate) ∧
      (c.AtMostOne evaluate → Recorded evaluate watched s' m' active) := by
  rw [stepAndCheck_eq lists] at done
  cases looked : firstChange evaluate s active (advance m) with
  | error stop =>
      rw [looked] at done
      cases done
  | ok result =>
      obtain ⟨change, m₁⟩ := result
      rw [looked] at done
      obtain ⟨quiet', same, found⟩ := firstChange_spec quiet recorded.watching looked
      cases change with
      | none =>
          cases done
          have unchanged : ∀ i, ¬ (WpCheck.Changed evaluate ⟨s, m, advance m, none⟩ i) := by
            rintro i ⟨member, changed⟩
            have member := (lists.active_iff i).mp member
            exact changed ((found i member).trans (recorded.current i member).symm)
          refine ⟨lists, ⟨fun _ i j changed => absurd changed (unchanged i), fun _ => ?_⟩, fun _ => ?_⟩
          · exact ⟨fun i changed => absurd changed (unchanged i), by simp [WpCheck.record, unchanged]⟩
          · refine ⟨quiet', recorded.watching, fun i member => ?_⟩
            rw [same _ (recorded.watching i member)]
            exact found i member
      | some change =>
          obtain ⟨i, value⟩ := change
          obtain ⟨member, fresh, differs⟩ := found
          cases done
          have changed : WpCheck.Changed evaluate
              ⟨s, m, advance m, some ⟨(s.wpPool i).NO, m'.cpu.pc, value⟩⟩ i := by
            refine ⟨(lists.active_iff i).mpr member, ?_⟩
            dsimp only
            rw [fresh, recorded.current i member]
            exact fun equal => differs (Option.some.inj equal)
          refine ⟨lists.setValue i value, ⟨fun right j k first second => ?_, fun one => ?_⟩, fun one => ?_⟩
          · have numbered : ∀ l, WpCheck.Changed evaluate
                ⟨s, m, advance m, some ⟨(s.wpPool i).NO, m'.cpu.pc, value⟩⟩ l → l = i := by
              intro l moved
              obtain ⟨report, printed, number⟩ := right.reported l moved
              cases printed
              dsimp only at number
              rw [lists.numbers, lists.numbers] at number
              exact Fin.ext (Int.ofNat.inj number).symm
            rw [numbered j first, numbered k second]
          · refine ⟨fun j moved => ⟨_, rfl, ?_⟩, by simp only [WpCheck.record, Option.isSome_some, true_iff]; exact ⟨i, changed⟩⟩
            rw [one j i moved changed]
          · refine ⟨quiet', fun j member => ?_, fun j member => ?_⟩
            · rw [WpPool.setValue_expr]
              exact recorded.watching j member
            · rw [WpPool.setValue_expr, same _ (recorded.watching j member)]
              by_cases this : j = i
              · subst this
                rw [fresh]
                exact congrArg some (WpPool.setValue_value s j value).symm
              · have still : ¬ WpCheck.Changed evaluate
                    ⟨s, m, advance m, some ⟨(s.wpPool i).NO, m'.cpu.pc, value⟩⟩ j := fun moved => this (one j i moved changed)
                have equal : valueOf evaluate (s.wpPool j).expr (advance m) = valueOf evaluate (s.wpPool j).expr m := by
                  by_contra moved
                  exact still ⟨(lists.active_iff j).mpr member, moved⟩
                rw [equal, recorded.current j member]
                exact congrArg (fun wp => some wp.value) (WpPool.modify_of_ne this).symm

/-! ## Runs -/

/-- The expressions that a run watches. -/
def watchedBy (commands : List (WpCommand σ)) : List (List Char) :=
  commands.filterMap fun command => match command with
    | .new expression => some expression
    | _ => none

theorem Recorded.new (recorded : Recorded evaluate watched s m active) {p : WpPtr} (member : expression ∈ watched) (fresh : p ∉ active)
    (evaluated : evaluate expression m = .ok (value, m')) :
    Recorded evaluate watched (((acquireWp p s).setExpr p expression).setValue p value) m' (p :: active) := by
  obtain ⟨quiet, same⟩ := recorded.quiet.read member evaluated
  have own : ((((acquireWp p s).setExpr p expression).setValue p value).wpPool p).expr = expression := by
    rw [WpPool.setValue_expr]
    exact WpPool.setExpr_expr _ p expression
  have other : ∀ i ∈ active, ((((acquireWp p s).setExpr p expression).setValue p value).wpPool i).expr = (s.wpPool i).expr ∧
      ((((acquireWp p s).setExpr p expression).setValue p value).wpPool i).value = (s.wpPool i).value := by
    intro i active
    have apart : i ≠ p := fun same => fresh (same ▸ active)
    have kept : (((acquireWp p s).setExpr p expression).setValue p value).wpPool i = (acquireWp p s).wpPool i :=
      (WpPool.modify_of_ne apart).trans (WpPool.modify_of_ne apart)
    rw [kept]
    exact ⟨WpPool.acquireWp_keeps WP.expr (fun _ _ => rfl) i, WpPool.acquireWp_keeps WP.value (fun _ _ => rfl) i⟩
  refine ⟨quiet, fun i active => ?_, fun i active => ?_⟩
  · rcases List.mem_cons.mp active with rfl | active
    · rwa [own]
    · rw [(other i active).1]
      exact recorded.watching i active
  · rcases List.mem_cons.mp active with rfl | active
    · rw [own, same _ member, valueOf_eq evaluated]
      exact congrArg some (WpPool.setValue_value _ i value).symm
    · rw [(other i active).1, (other i active).2, same _ (recorded.watching i active)]
      exact recorded.current i active

theorem Recorded.fewer (recorded : Recorded evaluate watched s m active) {left : List WpPtr} (among : ∀ i ∈ left, i ∈ active)
    (kept : ∀ i, (s'.wpPool i).expr = (s.wpPool i).expr ∧ (s'.wpPool i).value = (s.wpPool i).value) :
    Recorded evaluate watched s' m left := by
  refine ⟨recorded.quiet, fun i member => ?_, fun i member => ?_⟩
  · rw [(kept i).1]
    exact recorded.watching i (among i member)
  · rw [(kept i).1, (kept i).2]
    exact recorded.current i (among i member)

theorem runCommands_faithful (commands : List (WpCommand σ)) {checks : List (WpCheck σ)} (lists : s.Lists active free)
    (recorded : Recorded evaluate watched s m active) (short : ∀ expression ∈ watchedBy commands, expression.length < exprMaxl)
    (inside : ∀ expression ∈ watchedBy commands, expression ∈ watched)
    (ran : runCommands evaluate commands s m = .ok (checks, s', m')) (quiet : ∀ c ∈ checks, Effectless evaluate watched c.after) :
    (∀ c ∈ checks, c.Faithful evaluate) ↔ ∀ c ∈ checks, c.AtMostOne evaluate := by
  induction commands generalizing s m active free checks with
  | nil =>
      cases ran
      simp
  | cons command rest ih =>
      cases command with
      | new expression =>
          have member : expression ∈ watchedBy (.new expression :: rest : List (WpCommand σ)) := List.mem_cons_self
          have shorter : ∀ other ∈ watchedBy rest, other.length < exprMaxl := fun other later =>
            short other (List.mem_cons_of_mem _ later)
          have within : ∀ other ∈ watchedBy rest, other ∈ watched := fun other later => inside other (List.mem_cons_of_mem _ later)
          unfold runCommands at ran
          rcases newWp_spec evaluate m lists (short expression member) with
            ⟨-, full⟩ | ⟨p, left, first, ⟨stop, stopped⟩ | ⟨value, m₁, evaluated, done, lists'⟩⟩
          · rw [full] at ran
            exact ih lists recorded shorter within ran quiet
          · rw [stopped] at ran
            cases ran
          · rw [done] at ran
            have fresh : p ∉ active := fun active => (List.nodup_middle.mp (first ▸ lists.nodup)).notMem
              (List.mem_append_left _ active)
            exact ih lists' (recorded.new (inside expression member) fresh evaluated) shorter within ran quiet
      | free NO =>
          unfold runCommands at ran
          obtain ⟨s₁, free', done, lists', kept⟩ := freeWp_spec lists NO
          rw [done] at ran
          exact ih lists' (recorded.fewer (fun i member => (List.mem_filter.mp member).1) kept) short inside ran quiet
      | step advance =>
          unfold runCommands at ran
          cases done : stepAndCheck evaluate advance s m with
          | error stop =>
              rw [done] at ran
              cases ran
          | ok result =>
              obtain ⟨c, s₁, m₁⟩ := result
              rw [done] at ran
              cases later : runCommands evaluate rest s₁ m₁ with
              | error stop =>
                  simp only [bind, Except.bind, later] at ran
                  cases ran
              | ok result =>
                  simp only [bind, Except.bind, later] at ran
                  cases ran
                  have calm := stepAndCheck_after done ▸ quiet c List.mem_cons_self
                  obtain ⟨lists', right, next⟩ := stepAndCheck_faithful lists recorded calm done
                  rw [List.forall_mem_cons, List.forall_mem_cons, right]
                  refine and_congr_right fun one => ?_
                  exact ih lists' (next one) short inside later fun other member => quiet other (List.mem_cons_of_mem _ member)

/-- A run of the debugger from `init_wp_pool` reports exactly the watched changes if and only if no step makes two of them. -/
theorem watched_changes_reported (evaluate : Evaluator σ) (wpPool : WpPtr → WP) (commands : List (WpCommand σ)) (m : Machine σ)
    (short : ∀ expression ∈ watchedBy commands, expression.length < exprMaxl) {checks : List (WpCheck σ)} {s : WpPool} {m' : Machine σ}
    (ran : runCommands evaluate commands (initWpPool wpPool) m = .ok (checks, s, m'))
    (quiet₀ : Effectless evaluate (watchedBy commands) m) (quiet : ∀ c ∈ checks, Effectless evaluate (watchedBy commands) c.after) :
    (∀ c ∈ checks, c.Faithful evaluate) ↔ ∀ c ∈ checks, c.AtMostOne evaluate :=
  runCommands_faithful commands (WpPool.init_lists wpPool) ⟨quiet₀, by simp, by simp⟩ short (fun _ => id) ran quiet

/-! ## Two registers -/

/-- Writes two argument registers. -/
def setArguments (first second : Word) (m : Machine Unit) : Machine Unit :=
  { m with cpu := { m.cpu with gpr := (m.cpu.gpr.set 10 first).set 11 second } }

/-- Two registers are watched. -/
def argumentsWatched (first second : Word) : List (WpCommand Unit) :=
  [.new ['a', '0'], .new ['a', '1'], .step (setArguments first second)]

def resetMachine : Machine Unit := ⟨⟨.empty, 0⟩, ⟨Sys.init, ()⟩⟩

def registerEvaluator : Evaluator Unit := exprEvaluator .absent fun _ => 0

theorem registerEvaluator_first (m : Machine Unit) : registerEvaluator ['a', '0'] m = .ok (m.cpu.gpr.get 10, m) := rfl

theorem registerEvaluator_second (m : Machine Unit) : registerEvaluator ['a', '1'] m = .ok (m.cpu.gpr.get 11, m) := rfl

theorem arguments_effectless (first second : Word) (m : Machine Unit) :
    Effectless registerEvaluator (watchedBy (argumentsWatched first second)) m := by
  intro m' reads
  have same : m' = m := by
    induction reads with
    | refl => rfl
    | read member evaluated rest ih =>
        rw [ih]
        rcases List.mem_cons.mp member with rfl | member
        · rw [registerEvaluator_first] at evaluated
          cases evaluated
          rfl
        · rw [List.mem_singleton.mp member, registerEvaluator_second] at evaluated
          cases evaluated
          rfl
  exact fun _ _ => by rw [same]

/-- The pool with both registers. -/
def argumentsPool : WpPool :=
  let s := ((acquireWp 0 (initWpPool zeroPool)).setExpr 0 ['a', '0']).setValue 0 0
  ((acquireWp 1 s).setExpr 1 ['a', '1']).setValue 1 0

theorem argumentsPool_chain : Chain argumentsPool.next argumentsPool.head [1, 0] := by decide

/-- Both registers change in one step, and the one watched first is not reported. -/
theorem two_changes_one_report : ¬ ∀ checks s m',
    runCommands registerEvaluator (argumentsWatched 5 6) (initWpPool zeroPool) resetMachine = .ok (checks, s, m') →
      ∀ c ∈ checks, c.Faithful registerEvaluator := by
  intro right
  have ran : ∃ s m', runCommands registerEvaluator (argumentsWatched 5 6) (initWpPool zeroPool) resetMachine =
      .ok ([⟨argumentsPool, resetMachine, setArguments 5 6 resetMachine, some ⟨1, 0, 6⟩⟩], s, m') := ⟨_, _, rfl⟩
  obtain ⟨s, m', ran⟩ := ran
  have changed : WpCheck.Changed registerEvaluator
      ⟨argumentsPool, resetMachine, setArguments 5 6 resetMachine, some ⟨1, 0, 6⟩⟩ 0 :=
    ⟨⟨[1, 0], argumentsPool_chain, by simp⟩, by decide +kernel⟩
  obtain ⟨report, same, named⟩ := (right _ s m' ran _ List.mem_cons_self).reported 0 changed
  rw [← Option.some.inj same] at named
  exact absurd named (by decide)

theorem watched_changes_reported_one : ∃ checks s m',
    runCommands registerEvaluator (argumentsWatched 5 0) (initWpPool zeroPool) resetMachine = .ok (checks, s, m') ∧
      checks.map (fun c => c.report.map WpReport.NO) = [some 0] ∧ ∀ c ∈ checks, c.Faithful registerEvaluator := by
  have short : ∀ expression ∈ watchedBy (argumentsWatched 5 0), expression.length < exprMaxl := by
    intro expression member
    rcases List.mem_cons.mp member with rfl | member
    · decide
    · rw [List.mem_singleton.mp member]
      decide
  have ran : ∃ s m', runCommands registerEvaluator (argumentsWatched 5 0) (initWpPool zeroPool) resetMachine =
      .ok ([⟨argumentsPool, resetMachine, setArguments 5 0 resetMachine, some ⟨0, 0, 5⟩⟩], s, m') := ⟨_, _, rfl⟩
  obtain ⟨s, m', ran⟩ := ran
  have first : ∀ i, WpCheck.Changed registerEvaluator
      ⟨argumentsPool, resetMachine, setArguments 5 0 resetMachine, some ⟨0, 0, 5⟩⟩ i → i = 0 := by
    rintro i ⟨⟨cells, chain, member⟩, changed⟩
    rw [← argumentsPool_chain.unique chain] at member
    rcases List.mem_cons.mp member with rfl | member
    · exact absurd (by decide +kernel) changed
    · exact List.mem_singleton.mp member
  refine ⟨_, s, m', ran, rfl, ?_⟩
  refine (watched_changes_reported registerEvaluator zeroPool (argumentsWatched 5 0) resetMachine short ran
    (arguments_effectless 5 0 _) fun _ _ => arguments_effectless 5 0 _).mpr fun c member => ?_
  rw [List.mem_singleton.mp member]
  intro i j moved moved'
  rw [first i moved, first j moved']

end Sustemu.Monitor
