import Sustemu.Ooo.Counting
import Sustemu.Ooo.Phases

/-!
# The log of commits

A commit attempt writes its line and its trace record as soon as the oldest
entry is ready. It may still have to stop: a fence waits for the store buffer,
and a store waits for room there. The next cycle tries again and records again,
so the log is the sequence of commits exactly if no attempt stops that way.
-/

set_option autoImplicit false

namespace Sustemu

open Lib Relation

/-- What a log line says of an entry. -/
def ROBEntry.line (entry : ROBEntry) : Word × Raw := (entry.ir.pc, entry.ir.raw)

/-! ## The ring buffer -/

/-- The last fifteen lines. -/
structure Ringbuf where
  buf : Fin 15 → Option (Word × Raw)
  pointer : Fin 15

namespace Ringbuf

def zero : Ringbuf := ⟨fun _ => none, 0⟩

/-- `add_ringbuf_inst`. -/
def addRingbufInst (rb : Ringbuf) (inst : Word × Raw) : Ringbuf :=
  ⟨setAt rb.buf rb.pointer (some inst), rb.pointer + 1⟩

end Ringbuf

namespace Engine

variable {σ β : Type}

/-- The ring buffer takes the lines of the log. -/
def ringbuf (e : Engine σ β) : Ringbuf := (logged e.log).foldl Ringbuf.addRingbufInst .zero

/-- The oldest entry is ready and has to wait: a fence for an empty store buffer, a store for room in it. -/
def Stalled (e : Engine σ β) : Prop :=
  let entry := e.ooo.rob e.ooo.robHead
  e.ooo.robCount ≠ 0 ∧ entry.valid = true ∧ entry.ready = true ∧
    (entry.ir.itype = .fence ∧ e.ooo.sbufCount > 0 ∨
      entry.ir.fault = false ∧ entry.ir.itype = .store ∧ inDram entry.ir.memAddr = true ∧
        e.ooo.sbufCount ≥ storeBufSize)

section Definitions

variable (vm : VMem σ) (cfg : OooConfig β)

/-- The state after that many commits in a row. -/
def commitTurns : Nat → Engine σ β → Option (Engine σ β)
  | 0, e => some e
  | turns + 1, e => do
      let (e, goesOn) ← e.commitOne vm cfg
      if goesOn then commitTurns turns e else none

/-- A state of cycle `k` in which `ooo_stage_commit` turns to the oldest entry. -/
def AttemptIn (start : Engine σ β) (k : Nat) (e : Engine σ β) : Prop :=
  ∃ e₁ e₂ turns, run vm cfg k start = some e₁ ∧ e₁.drainStoreBuf vm cfg = some e₂ ∧ turns < commitWidth ∧
    commitTurns vm cfg turns { e₂ with tcIr := [] } = some e

/-- What the log, the ring buffer and the trace are for: attempts that stop leave no record, and the records
are the commits. -/
structure CommitLogExact (start : Engine σ β) (k : Nat) (e : Engine σ β) : Prop where
  stops : ∀ j < k, ∀ a a', AttemptIn vm cfg start j a → a.commitOne vm cfg = some (a', false) → a' = a
  logged : cfg.logging = true → logged e.log = (commits e.log).map ROBEntry.line
  ring : cfg.logging = true → e.ringbuf = ((commits e.log).map ROBEntry.line).foldl Ringbuf.addRingbufInst .zero
  traced : cfg.traceEn = true → ∀ j < k, ∀ e₁ e₂, run vm cfg j start = some e₁ → e₁.cycle vm cfg = some e₂ →
    ∃ new, commits e₂.log = commits e₁.log ++ new ∧ e₂.tcIr = new.map ROBEntry.ir
  counted : (commits e.log).length = e.stats.insts

end Definitions

variable {vm : VMem σ} {cfg : OooConfig β} {e e' : Engine σ β}

/-! ## One attempt -/

variable (cfg) in
theorem commitTrace_log (e : Engine σ β) (entry : ROBEntry) :
    logged (e.commitTrace cfg entry.ir).log = logged e.log ++ (if cfg.logging then [entry.line] else []) ∧
      (e.commitTrace cfg entry.ir).tcIr = e.tcIr ++ if cfg.traceEn then [entry.ir] else [] := by
  unfold commitTrace
  cases cfg.traceEn <;> cases cfg.logging <;> simp [emit, logged, ROBEntry.line]

theorem difftestStep_tcIr (done : e.difftestStep vm cfg = some e') : e'.tcIr = e.tcIr := by
  simp only [difftestStep, Option.bind_eq_bind, Option.bind_eq_some_iff] at done
  obtain ⟨_, _, _, _, done⟩ := done
  split at done
  · obtain ⟨_, _, done⟩ := Option.bind_eq_some_iff.mp done
    cases done
    rfl
  · obtain ⟨_, _, done⟩ := Option.bind_eq_some_iff.mp done
    cases done
    rfl

theorem difftestCheck_tcIr {entry : ROBEntry} (done : e.difftestCheck vm cfg entry = some e') : e'.tcIr = e.tcIr := by
  simp only [difftestCheck, Option.bind_eq_bind, Option.bind_eq_some_iff] at done
  obtain ⟨e₁, stepped, done⟩ := done
  refine Eq.trans ?_ (difftestStep_tcIr stepped)
  split at done
  · cases done
    rfl
  · cases done
    rfl
  · split at done
    · split at done
      · cases done
        rfl
      · split at done <;>
        · cases done
          rfl
    · split at done <;>
      · cases done
        rfl

/-- The comparison with the reference reports at most a mismatch. -/
theorem difftestCheck_logged {entry : ROBEntry} (done : e.difftestCheck vm cfg entry = some e') :
    logged e'.log = logged e.log ∧ commits e'.log = commits e.log := by
  obtain ⟨extra, log, mismatches⟩ := (difftestCheck_frame done).log
  rw [log]
  constructor
  · refine logged_quiet _ fun event member pc raw same => ?_
    obtain ⟨_, mismatch⟩ := mismatches event member
    cases mismatch.symm.trans same
  · refine commits_quiet _ fun event member entry value same => ?_
    obtain ⟨_, mismatch⟩ := mismatches event member
    cases mismatch.symm.trans same

/-- A commit, once the record is made. -/
theorem commit_records {entry : ROBEntry} (done : (do
      let e ← e.commitStore vm entry
      let e := (e.commitRegs entry).emit (.commit entry (commitValue e.ooo entry))
      let e ← if e.difftestActive then e.difftestCheck vm cfg entry else some e
      some (e.retire, true)) = some (e', true)) :
    commits e'.log = commits e.log ++ [entry] ∧ logged e'.log = logged e.log ∧ e'.tcIr = e.tcIr := by
  obtain ⟨e₁, stored, done⟩ := Option.bind_eq_some_iff.mp done
  have kept : e₁.log = e.log ∧ e₁.tcIr = e.tcIr := by
    rcases commitStore_cases stored with ⟨_, _, rfl⟩ | ⟨_, _, _, _, rfl⟩ | ⟨_, rfl⟩ <;> exact ⟨rfl, rfl⟩
  have committed : commits ((e₁.commitRegs entry).emit (.commit entry (commitValue e₁.ooo entry))).log =
      commits e.log ++ [entry] := by
    change commits (e₁.log ++ _) = _
    rw [commits_append, kept.1]
    rfl
  have unlogged : logged ((e₁.commitRegs entry).emit (.commit entry (commitValue e₁.ooo entry))).log = logged e.log := by
    change logged (e₁.log ++ _) = _
    rw [logged_quiet _ (by simp), kept.1]
  dsimp only at done
  split at done
  · obtain ⟨e₂, checked, done⟩ := Option.bind_eq_some_iff.mp done
    cases done
    obtain ⟨lines, entries⟩ := difftestCheck_logged checked
    exact ⟨entries.trans committed, lines.trans unlogged, (difftestCheck_tcIr checked).trans kept.2⟩
  · cases done
    exact ⟨committed, unlogged, kept.2⟩

theorem commitTrace_frame (e : Engine σ β) (ir : IRInst) : commits (e.commitTrace cfg ir).log = commits e.log := by
  obtain ⟨tcIr, lines, traced, quiet⟩ := commitTrace_eq cfg e ir
  rw [traced]
  refine commits_quiet _ fun event member entry value same => ?_
  obtain ⟨_, _, line⟩ := quiet event member
  cases line.symm.trans same

/-- Every turn of the commit loop: nothing to commit, a record and a stop, or a record and a commit. -/
theorem commitOne_records {goesOn : Bool} (done : e.commitOne vm cfg = some (e', goesOn)) :
    goesOn = false ∧ ¬e.Stalled ∧ e' = e ∨
    goesOn = false ∧ e.Stalled ∧ e' = e.commitTrace cfg (e.ooo.rob e.ooo.robHead).ir ∨
    goesOn = true ∧ ¬e.Stalled ∧ commits e'.log = commits e.log ++ [e.ooo.rob e.ooo.robHead] ∧
      logged e'.log = logged (e.commitTrace cfg (e.ooo.rob e.ooo.robHead).ir).log ∧
      e'.tcIr = (e.commitTrace cfg (e.ooo.rob e.ooo.robHead).ir).tcIr := by
  unfold commitOne at done
  simp only at done
  split at done
  · next idle =>
      cases done
      refine .inl ⟨rfl, ?_, rfl⟩
      rintro ⟨live, valid, ready, _⟩
      simp [live, valid, ready] at idle
  next can =>
  simp only [not_or, Bool.not_eq_true', Bool.not_eq_false] at can
  obtain ⟨live, valid, ready⟩ := can
  split at done
  · next waits =>
      cases done
      exact .inr (.inl ⟨rfl, ⟨live, valid, ready, .inl waits⟩, rfl⟩)
  next ordered =>
  split at done
  · cases done
  next sound =>
  split at done
  · next full =>
      cases done
      exact .inr (.inl ⟨rfl, ⟨live, valid, ready, .inr ⟨by simpa using sound, full⟩⟩, rfl⟩)
  next room =>
  have on : goesOn = true := by
    obtain ⟨_, _, rest⟩ := Option.bind_eq_some_iff.mp done
    split at rest
    · obtain ⟨_, _, rest⟩ := Option.bind_eq_some_iff.mp rest
      cases rest
      rfl
    · cases rest
      rfl
  subst on
  obtain ⟨committed, lines, trace⟩ := commit_records done
  rw [commitTrace_frame] at committed
  refine .inr (.inr ⟨rfl, ?_, committed, lines, trace⟩)
  rintro ⟨_, _, _, waits | ⟨_, full⟩⟩
  · exact ordered waits
  · exact room full

/-! ## Cycles -/

/-- The records of a commit phase in which no attempt has to stop. -/
theorem commitLoop_records {turns : Nat}
    (calm : ∀ t < turns, ∀ a, commitTurns vm cfg t e = some a → ¬a.Stalled) (done : commitLoop vm cfg turns e = some e') :
    ∃ new, commits e'.log = commits e.log ++ new ∧
      logged e'.log = logged e.log ++ (if cfg.logging then new.map ROBEntry.line else []) ∧
      e'.tcIr = e.tcIr ++ if cfg.traceEn then new.map ROBEntry.ir else [] := by
  induction turns generalizing e with
  | zero =>
      cases done
      exact ⟨[], by simp⟩
  | succ turns ih =>
      simp only [commitLoop, Option.bind_eq_bind, Option.bind_eq_some_iff] at done
      obtain ⟨⟨e₁, goesOn⟩, one, rest⟩ := done
      have ready := calm 0 (Nat.succ_pos _) e rfl
      rcases commitOne_records one with ⟨rfl, _, rfl⟩ | ⟨_, stalled, _⟩ | ⟨rfl, _, committed, lines, trace⟩
      · cases rest
        exact ⟨[], by simp⟩
      · exact absurd stalled ready
      · have later : ∀ t < turns, ∀ a, commitTurns vm cfg t e₁ = some a → ¬a.Stalled := by
          intro t short a reached
          refine calm (t + 1) (Nat.succ_lt_succ short) a ?_
          rw [commitTurns, one]
          exact reached
        obtain ⟨new, commits', lines', trace'⟩ := ih later rest
        obtain ⟨line, record⟩ := commitTrace_log cfg e (e.ooo.rob e.ooo.robHead)
        refine ⟨e.ooo.rob e.ooo.robHead :: new, ?_, ?_, ?_⟩
        · rw [commits', committed, List.append_assoc]
          rfl
        · rw [lines', lines, line, List.append_assoc]
          cases cfg.logging <;> rfl
        · rw [trace', trace, record, List.append_assoc]
          cases cfg.traceEn <;> rfl

theorem drainStoreBuf_silent (done : e.drainStoreBuf vm cfg = some e') :
    commits e'.log = commits e.log ∧ logged e'.log = logged e.log := by
  unfold drainStoreBuf at done
  simp only at done
  split at done
  · cases done
    exact ⟨rfl, rfl⟩
  split at done
  · cases done
    exact ⟨rfl, rfl⟩
  obtain ⟨world, _, rfl⟩ := Option.map_eq_some_iff.mp done
  exact ⟨commits_quiet _ (by simp), logged_quiet _ (by simp)⟩

section Reports

variable (reports : vm.Reports)
include reports

theorem cycle_records {start : Engine σ β} {k : Nat} (reached : run vm cfg k start = some e)
    (calm : ∀ a, AttemptIn vm cfg start k a → ¬a.Stalled) (done : e.cycle vm cfg = some e') :
    ∃ new, commits e'.log = commits e.log ++ new ∧
      logged e'.log = logged e.log ++ (if cfg.logging then new.map ROBEntry.line else []) ∧
      e'.tcIr = if cfg.traceEn then new.map ROBEntry.ir else [] := by
  obtain ⟨drained, committed, last, drain, commit, _, quiet, rfl⟩ := cycle_counts reports done
  obtain ⟨new, entries, lines, trace⟩ := commitLoop_records
    (fun t short a turns => calm a ⟨e, drained, t, reached, drain, short, turns⟩) commit
  obtain ⟨entries₀, lines₀⟩ := drainStoreBuf_silent drain
  refine ⟨new, ?_, ?_, ?_⟩
  · exact (quiet.commits.trans entries).trans (congrArg (· ++ new) entries₀)
  · exact (quiet.logged.trans lines).trans (congrArg (· ++ _) lines₀)
  · exact quiet.tcIr.trans (trace.trans (List.nil_append _))

theorem run_counted {cpu : CPUState} {world : World σ} {bpred : β} {k : Nat}
    (done : run vm cfg k (Engine.init cfg cpu world bpred) = some e) : (commits e.log).length = e.stats.insts := by
  induction k generalizing e with
  | zero =>
      cases done
      rfl
  | succ k ih =>
      rw [run_succ] at done
      obtain ⟨e₁, before, cycled⟩ := Option.bind_eq_some_iff.mp done
      obtain ⟨_, _, last, _, _, first, rest, rfl⟩ := cycle_counts reports cycled
      have counted := ih before
      have more := (first.trans rest.steady).insts
      change (commits last.log).length = last.stats.insts
      omega

theorem run_records {cpu : CPUState} {world : World σ} {bpred : β} {k : Nat}
    (calm : ∀ j < k, ∀ a, AttemptIn vm cfg (Engine.init cfg cpu world bpred) j a → ¬a.Stalled)
    (done : run vm cfg k (Engine.init cfg cpu world bpred) = some e) :
    logged e.log = if cfg.logging then (commits e.log).map ROBEntry.line else [] := by
  induction k generalizing e with
  | zero =>
      cases done
      cases cfg.logging <;> rfl
  | succ k ih =>
      rw [run_succ] at done
      obtain ⟨e₁, before, last⟩ := Option.bind_eq_some_iff.mp done
      have earlier := ih (fun j short => calm j (Nat.lt_succ_of_lt short)) before
      obtain ⟨new, entries, lines, _⟩ := cycle_records reports before (calm k (Nat.lt_succ_self k)) last
      rw [lines, entries, earlier]
      cases cfg.logging with
      | false => rfl
      | true => exact (List.map_append ..).symm

end Reports

/-- A stalled attempt writes a record where records are on. -/
theorem Stalled.stops (stalled : e.Stalled) : e.commitOne vm cfg =
    some (e.commitTrace cfg (e.ooo.rob e.ooo.robHead).ir, false) := by
  obtain ⟨live, valid, ready, waits⟩ := stalled
  unfold commitOne
  simp only [live, valid, ready, Bool.not_true, Bool.false_eq_true, or_self, ↓reduceIte]
  rcases waits with fence | ⟨sound, full⟩
  · exact if_pos fence
  · by_cases fence : (e.ooo.rob e.ooo.robHead).ir.itype = .fence ∧ e.ooo.sbufCount > 0
    · exact if_pos fence
    · rw [if_neg fence, sound]
      exact if_pos full

theorem commitTrace_ne (records : cfg.logging = true ∨ cfg.traceEn = true) (e : Engine σ β) (entry : ROBEntry) :
    e.commitTrace cfg entry.ir ≠ e := by
  intro same
  obtain ⟨line, record⟩ := commitTrace_log cfg e entry
  rw [same] at line record
  rcases records with on | on
  · rw [on] at line
    simp at line
  · rw [on] at record
    simp at record

theorem commitTrace_off (off : ¬(cfg.logging = true ∨ cfg.traceEn = true)) (e : Engine σ β) (ir : IRInst) :
    e.commitTrace cfg ir = e := by
  simp only [not_or, Bool.not_eq_true] at off
  unfold commitTrace
  rw [off.1, off.2]
  rfl

/-- The records of a run are its commits exactly if records are off or no attempt has to stop. -/
theorem commit_log_exact_iff {δ : Type} {mem : MemConfig δ} {cfg : OooConfig β} {cpu : CPUState}
    {world : World (MemState δ)} {bpred : β} {k : Nat} {e : Engine (MemState δ) β}
    (done : run (hierarchy mem) cfg k (Engine.init cfg cpu world bpred) = some e) :
    CommitLogExact (hierarchy mem) cfg (Engine.init cfg cpu world bpred) k e ↔
      (cfg.logging = true ∨ cfg.traceEn = true →
        ∀ j < k, ∀ a, AttemptIn (hierarchy mem) cfg (Engine.init cfg cpu world bpred) j a → ¬a.Stalled) := by
  constructor
  · intro exact records j short a attempt stalled
    exact commitTrace_ne records a (a.ooo.rob a.ooo.robHead) (exact.stops j short a _ attempt stalled.stops)
  · intro calm
    have logged : cfg.logging = true → logged e.log = (commits e.log).map ROBEntry.line := by
      intro on
      have lines := run_records (hierarchy_reports mem) (calm (.inl on)) done
      rw [on] at lines
      exact lines
    refine ⟨fun j short a a' attempt stops => ?_, logged, fun on => by rw [ringbuf, logged on],
      fun on j short e₁ e₂ reached cycled => ?_, run_counted (hierarchy_reports mem) done⟩
    · rcases commitOne_records stops with ⟨_, _, same⟩ | ⟨_, stalled, same⟩ | ⟨absurdity, _⟩
      · exact same
      · by_cases records : cfg.logging = true ∨ cfg.traceEn = true
        · exact absurd stalled (calm records j short a attempt)
        · rw [same]
          exact commitTrace_off records a _
      · cases absurdity
    · obtain ⟨new, entries, _, trace⟩ := cycle_records (hierarchy_reports mem) reached (calm (.inr on) j short) cycled
      rw [on] at trace
      exact ⟨new, entries, trace⟩

end Engine

/-- `auipc x5, 0`, ten times `sd x0, 256(x5)`, and a fence. -/
def fenceProgram : List Raw := 0x00000297 :: List.replicate 10 0x1002b023 ++ 0x0000000f :: List.replicate 52 0x00000013

/-- The small machine with its log and its trace. -/
def OooConfig.recorded : OooConfig Unit := { OooConfig.solo with logging := true, traceEn := true }

/-- `auipc x5, 0`, `addi x6, x0, 7`, a store of `x6`, a load of what was stored, and a fence behind eight nops. -/
def storeProgram : List Raw :=
  [0x00000297, 0x00700313, 0x1062b023, 0x1002b383] ++ List.replicate 8 0x00000013 ++ 0x0000000f :: List.replicate 51 0x00000013

namespace Engine

section Calm

variable {σ β : Type} (vm : VMem σ) (cfg : OooConfig β)

instance (e : Engine σ β) : Decidable e.Stalled := by
  unfold Stalled
  infer_instance

/-- No attempt of the next cycles has to stop. -/
def calm : Nat → Engine σ β → Bool
  | 0, _ => true
  | k + 1, e =>
      (List.range commitWidth).all (fun turns =>
        ((e.drainStoreBuf vm cfg).bind fun e₂ => commitTurns vm cfg turns { e₂ with tcIr := [] }).all
          fun a => !decide a.Stalled) &&
      (e.cycle vm cfg).all (calm k)

variable {vm cfg}

theorem calm_attempts {k : Nat} {e a : Engine σ β} (calm : calm vm cfg k e = true) {j : Nat} (short : j < k)
    (attempt : AttemptIn vm cfg e j a) : ¬a.Stalled := by
  induction k generalizing e j with
  | zero => exact absurd short (Nat.not_lt_zero j)
  | succ k ih =>
      obtain ⟨now, later⟩ := Bool.and_eq_true_iff.mp calm
      obtain ⟨e₁, e₂, turns, ran, drained, few, reached⟩ := attempt
      cases j with
      | zero =>
          cases ran
          have tested := List.all_eq_true.mp now turns (List.mem_range.mpr few)
          rw [drained, Option.bind_some, reached] at tested
          exact of_decide_eq_false (Bool.not_eq_true' _ |>.mp tested)
      | succ j =>
          obtain ⟨e', cycled, ran⟩ := Option.bind_eq_some_iff.mp ran
          rw [cycled] at later
          exact ih later (Nat.lt_of_succ_lt_succ short) ⟨e₁, e₂, turns, ran, drained, few, reached⟩

end Calm

/-- Sixty cycles with log and trace: the fence commits behind the store, and no record is there twice. -/
theorem commit_log_exact_recorded : ∃ e, run (hierarchy (.plain 1)) .recorded 60
    (init .recorded ⟨.empty, mbase⟩ ⟨Sys.init, MemState.init (image storeProgram) ()⟩ ()) = some e ∧
    e.stats.insts = 26 ∧ e.cpu.gpr.get 7 = 7 ∧ (0x80000030, 0x0000000f) ∈ (commits e.log).map ROBEntry.line ∧
    CommitLogExact (hierarchy (.plain 1)) .recorded
      (init .recorded ⟨.empty, mbase⟩ ⟨Sys.init, MemState.init (image storeProgram) ()⟩ ()) 60 e := by
  have reached : (run (hierarchy (.plain 1)) .recorded 60
      (init .recorded ⟨.empty, mbase⟩ ⟨Sys.init, MemState.init (image storeProgram) ()⟩ ())).any (fun e =>
        decide (e.stats.insts = 26 ∧ e.cpu.gpr.get 7 = 7 ∧
          (0x80000030, 0x0000000f) ∈ (commits e.log).map ROBEntry.line)) = true := by
    decide +kernel
  have quiet : calm (hierarchy (.plain 1)) .recorded 60
      (init .recorded ⟨.empty, mbase⟩ ⟨Sys.init, MemState.init (image storeProgram) ()⟩ ()) = true := by
    decide +kernel
  obtain ⟨e, done, holds⟩ := (Option.any_eq_true _ _).mp reached
  obtain ⟨counted, value, fence⟩ := of_decide_eq_true holds
  exact ⟨e, done, counted, value, fence,
    (commit_log_exact_iff done).mpr fun _ _ short _ attempt => calm_attempts quiet short attempt⟩

/-- The fence is ready while three stores wait for memory: it is logged and does not commit. -/
theorem commit_log_fence : ∃ e, run (hierarchy (.plain 1)) .recorded 14
    (init .recorded ⟨.empty, mbase⟩ ⟨Sys.init, MemState.init (image fenceProgram) ()⟩ ()) = some e ∧
    logged e.log = (commits e.log).map ROBEntry.line ++ [(0x8000002c, 0x0000000f)] ∧
    e.tcIr.map (fun ir => ir.raw) = [0x0000000f] ∧
    ¬CommitLogExact (hierarchy (.plain 1)) .recorded
      (init .recorded ⟨.empty, mbase⟩ ⟨Sys.init, MemState.init (image fenceProgram) ()⟩ ()) 14 e := by
  have reached : (run (hierarchy (.plain 1)) .recorded 14
      (init .recorded ⟨.empty, mbase⟩ ⟨Sys.init, MemState.init (image fenceProgram) ()⟩ ())).any (fun e =>
        decide (logged e.log = (commits e.log).map ROBEntry.line ++ [(0x8000002c, 0x0000000f)]) &&
        decide (e.tcIr.map (fun ir => ir.raw) = [0x0000000f])) = true := by
    decide +kernel
  obtain ⟨e, done, both⟩ := (Option.any_eq_true _ _).mp reached
  obtain ⟨lines, trace⟩ := Bool.and_eq_true_iff.mp both
  refine ⟨e, done, of_decide_eq_true lines, of_decide_eq_true trace, fun exact => ?_⟩
  have more := congrArg List.length ((exact.logged rfl).symm.trans (of_decide_eq_true lines))
  rw [List.length_append] at more
  exact absurd more (Nat.ne_of_lt (Nat.lt_succ_self _))

end Engine

end Sustemu
