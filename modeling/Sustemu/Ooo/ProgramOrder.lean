import Sustemu.Ooo.Phases

/-!
# Program order

Renaming numbers the instructions. The committed ones followed by those in the
reorder buffer are the program as far as it is known: commit moves an
instruction from one part to the other, renaming appends the next number, and
only a flush takes instructions back, from the end.
-/

set_option autoImplicit false

namespace Sustemu

open Lib Engine

/-- Number and word of an instruction. -/
def ROBEntry.key (entry : ROBEntry) : Nat × Raw := (entry.seq, entry.ir.raw)

namespace OOOState

variable {o o' : OOOState}

/-- The instructions of the reorder buffer, oldest first. -/
def keys (o : OOOState) : List (Nat × Raw) := o.live.map fun i => (o.rob i).key

theorem keys_congr (head : o'.robHead = o.robHead) (count : o'.robCount = o.robCount)
    (key : ∀ i, (o'.rob i).key = (o.rob i).key) : o'.keys = o.keys := by
  unfold keys live
  rw [head, count]
  exact List.map_congr_left fun i _ => key i

theorem keys_update {i : RobIdx} {entry : ROBEntry} (rob : o'.rob = setAt o.rob i entry)
    (head : o'.robHead = o.robHead) (count : o'.robCount = o.robCount) (key : entry.key = (o.rob i).key) :
    o'.keys = o.keys := by
  refine keys_congr head count fun j => ?_
  rw [rob]
  by_cases here : j = i
  · rw [here, setAt_self, key]
  · rw [setAt_of_ne here]

theorem Flushes.keys {b : RobIdx} (flushes : o.Flushes b o') (inside : o.pos b < o.robCount) : o'.keys <+: o.keys := by
  have split : window o.robHead o.robCount = window o.robHead (age o.robHead b) ++ b :: _ := window_split inside
  have kept : o'.live = o.olderSlots b ++ [b] := by
    unfold OOOState.live
    rw [flushes.head, flushes.count, window_succ_last]
    exact congrArg (fun slot => o.olderSlots b ++ [slot]) (add_age o.robHead b)
  have entries : o'.keys = (o.olderSlots b ++ [b]).map fun i => (o.rob i).key := by
    unfold OOOState.keys
    rw [kept]
    refine List.map_congr_left fun i member => ?_
    rw [flushes.older]
    rcases List.mem_append.mp member with older | last
    · exact Nat.le_of_lt ((mem_window_iff (Nat.le_of_lt (age_lt o.robHead b))).mp older)
    · rw [List.mem_singleton.mp last]
  refine ⟨(window (b + 1) (o.robCount - o.pos b - 1)).map fun i => (o.rob i).key, ?_⟩
  rw [entries, ← List.map_append, List.append_assoc]
  unfold OOOState.keys OOOState.live
  rw [split]
  rfl

theorem keys_afterCommit (live : o.robCount ≠ 0) : o.keys = (o.rob o.robHead).key :: o.afterCommit.keys := by
  obtain ⟨rest, count⟩ := Nat.exists_eq_succ_of_ne_zero live
  have frame := o.afterCommit_frame
  have key : ∀ i, (o.afterCommit.rob i).key = (o.rob i).key := by
    intro i
    rw [frame.rob]
    by_cases here : i = o.robHead
    · rw [here, setAt_self]
      rfl
    · rw [setAt_of_ne here]
  unfold keys OOOState.live
  rw [frame.head, frame.count, count, Nat.succ_sub_one, window_succ, List.map_cons,
    List.map_congr_left fun i _ => key i]

theorem Renames.keys {ir : IRInst} {seq : Nat} {slot : RsIdx} (renames : o.Renames ir seq slot o') (inv : o.Inv)
    (room : o.robCount < 32) : o'.keys = o.keys ++ [(seq, ir.raw)] := by
  have last : o.robTail ∉ window o.robHead o.robCount := by
    rw [inv.renamed.tail]
    exact last_not_mem_window o.robHead room
  unfold OOOState.keys OOOState.live
  rw [renames.head, renames.count, window_succ_last, List.map_append, ← inv.renamed.tail, renames.rob]
  congr 1
  · refine List.map_congr_left fun i member => ?_
    rw [setAt_of_ne]
    rintro rfl
    exact last member
  · rw [List.map_singleton, setAt_self]
    rfl

end OOOState

/-- The committed instructions and those in flight. -/
def programOrder {σ : Type} (o : OOOState) (log : List (Event σ)) : List (Nat × Raw) :=
  (commits log).map ROBEntry.key ++ o.keys

/-- What a step does to the program and the next number. -/
inductive Grows (program : List (Nat × Raw)) (next : Nat) : List (Nat × Raw) → Nat → Prop where
  | cut {program' : List (Nat × Raw)} (rest : program' <+: program) : Grows program next program' next
  | append (raw : Raw) : Grows program next (program ++ [(next, raw)]) (next + 1)

/-- Numbers increase along the program and stay below the next one. -/
structure Numbered (program : List (Nat × Raw)) (next : Nat) : Prop where
  increasing : (program.map Prod.fst).Pairwise (· < ·)
  below : ∀ x ∈ program, x.1 < next

section Numbers

variable {program program' : List (Nat × Raw)} {next next' : Nat}

theorem Grows.numbered (grows : Grows program next program' next') (numbered : Numbered program next) :
    Numbered program' next' := by
  cases grows with
  | cut rest =>
      exact ⟨numbered.increasing.sublist (rest.sublist.map _), fun x member => numbered.below x (rest.subset member)⟩
  | append raw =>
      constructor
      · rw [List.map_append, List.pairwise_append]
        refine ⟨numbered.increasing, List.pairwise_singleton _ _, fun older member newer last => ?_⟩
        obtain ⟨x, known, rfl⟩ := List.mem_map.mp member
        rw [List.mem_singleton.mp last]
        exact numbered.below x known
      · intro x member
        rcases List.mem_append.mp member with known | last
        · exact Nat.lt_succ_of_lt (numbered.below x known)
        · rw [List.mem_singleton.mp last]
          exact Nat.lt_succ_self next

/-- An instruction that is older than a numbered one keeps its place. -/
theorem Grows.older (grows : Grows program next program' next') {n : Nat} {x : Nat × Raw}
    (here : program'[n]? = some x) (older : x.1 < next) : program[n]? = some x := by
  cases grows with
  | cut rest =>
      obtain ⟨cutOff, rfl⟩ := rest
      have inside := (List.getElem?_eq_some_iff.mp here).1
      rw [List.getElem?_append_left inside, here]
  | append raw =>
      by_cases inside : n < program.length
      · rwa [List.getElem?_append_left inside] at here
      · rw [List.getElem?_append_right (Nat.le_of_not_lt inside)] at here
        have last := List.mem_singleton.mp (List.mem_of_getElem? here)
        rw [last] at older
        exact absurd older (Nat.lt_irrefl next)

theorem Grows.next_le (grows : Grows program next program' next') : next ≤ next' := by
  cases grows with
  | cut rest => exact Nat.le_refl _
  | append raw => exact Nat.le_succ _

/-- Instructions with one number are one instruction. -/
theorem key_eq_of_number (increasing : (program.map Prod.fst).Pairwise (· < ·)) {x y : Nat × Raw} (first : x ∈ program)
    (second : y ∈ program) (same : x.1 = y.1) : x = y :=
  List.inj_on_of_nodup_map (increasing.imp Nat.ne_of_lt) first second same

end Numbers

namespace Engine

variable {σ β : Type} {vm : VMem σ} {cfg : OooConfig β} {e e' : Engine σ β}

theorem grows_same (keys : e'.ooo.keys = e.ooo.keys) (log : commits e'.log = commits e.log) :
    Grows (programOrder e.ooo e.log) e.nextSeq (programOrder e'.ooo e'.log) e.nextSeq := by
  unfold programOrder
  rw [keys, log]
  exact .cut (List.prefix_refl _)

theorem Commits.grows (step : Commits vm e e') (live : e.ooo.robCount ≠ 0) :
    programOrder e'.ooo e'.log = programOrder e.ooo e.log := by
  obtain ⟨extra, log, quiet⟩ := step.log
  have committed : commits e'.log = commits e.log ++ [e.ooo.rob e.ooo.robHead] := by
    rw [log, List.append_cons, commits_quiet, commits_append]
    · rfl
    · rintro event member entry value rfl
      obtain ⟨_, mismatch⟩ := quiet _ member
      cases mismatch
  unfold programOrder
  rw [committed, step.ooo, OOOState.keys_afterCommit live, List.map_append, List.append_assoc]
  rfl

theorem BackStep.grows (step : e.BackStep vm cfg e') (ok : e.ooo.Ok) :
    Grows (programOrder e.ooo e.log) e.nextSeq (programOrder e'.ooo e'.log) e'.nextSeq := by
  cases step with
  | note quiet =>
      refine grows_same rfl (commits_quiet _ ?_)
      rintro event member entry value rfl
      obtain ⟨_, _, line⟩ := quiet _ member
      cases line
  | drain waiting written => exact grows_same rfl (commits_quiet _ (by simp))
  | commit live ready ordered sound room stored checked =>
      have commits := commits_of_checked stored checked
      rw [commits.grows live, commits.nextSeq]
      exact .cut (List.prefix_refl _)
  | exec bpred fault unit live run completes faulted resolved =>
      obtain ⟨inst, _⟩ := executed_sameInst ok.inv live run
      exact grows_same (OOOState.keys_update completes.rob completes.head completes.count
        (congrArg (Prod.mk _) inst.raw)) rfl
  | redirect live run completes control wrong target =>
      obtain ⟨inst, _⟩ := executed_sameInst ok.inv live run
      obtain ⟨done, flushes⟩ := redirect_flushes ok live run completes
      have executed := OOOState.keys_update completes.rob completes.head completes.count
        (congrArg (Prod.mk _) inst.raw)
      have inside := (ok.inv.renamed.valid _).mp (ok.inv.live_entry live).1
      have cut := flushes.keys (by rwa [completes.count, OOOState.pos, completes.head])
      rw [executed] at cut
      exact .cut ((List.prefix_append_right_inj _).mpr cut)
  | address live first executor =>
      obtain ⟨inst, _⟩ := pure_sameInst (operands e.ooo (e.ooo.latch .lsu _)) executor
      exact grows_same (OOOState.keys_update rfl rfl rfl (congrArg (Prod.mk _) inst.raw)) rfl
  | storeDone live computed store completes =>
      exact grows_same (OOOState.keys_update completes.rob completes.head completes.count rfl) rfl
  | loadFault addressed outside completes =>
      exact grows_same (OOOState.keys_update completes.rob completes.head completes.count rfl) rfl
  | fill addressed device mapped read completes =>
      exact grows_same (OOOState.keys_update completes.rob completes.head completes.count rfl)
        (commits_quiet _ (by simp))
  | _ => exact grows_same rfl rfl

theorem FrontStep.grows (step : e.FrontStep vm cfg e') (ok : e.ooo.Ok) :
    Grows (programOrder e.ooo e.log) e.nextSeq (programOrder e'.ooo e'.log) e'.nextSeq := by
  cases step with
  | rename valid inOrder alone room names renames =>
      rename_i n slot o
      have log : commits (e.log ++ if ((e.ooo.latchIdRn n).ir.rd.filter (· ≠ 0)).isSome then
          [.pop e.ooo.freelist.count] else []) = commits e.log := by
        refine commits_quiet _ ?_
        split <;> simp
      have appended : programOrder ({ o with
          latchIdRn := setAt e.ooo.latchIdRn n { e.ooo.latchIdRn n with valid := false } } : OOOState)
          (e.log ++ if ((e.ooo.latchIdRn n).ir.rd.filter (· ≠ 0)).isSome then [.pop e.ooo.freelist.count] else []) =
          programOrder e.ooo e.log ++ [(e.nextSeq, (e.ooo.latchIdRn n).ir.raw)] := by
        unfold programOrder
        rw [log, List.append_assoc, ← renames.keys ok.inv room]
        rfl
      rw [appended]
      exact .append _
  | _ => exact grows_same rfl rfl

/-- A step keeps the order of the instructions. -/
theorem Step.grows (step : Step vm cfg e e') (ok : e.ooo.Ok) :
    Grows (programOrder e.ooo e.log) e.nextSeq (programOrder e'.ooo e'.log) e'.nextSeq := by
  rcases step with back | front
  · exact back.grows ok
  · exact front.grows ok

end Engine

end Sustemu
