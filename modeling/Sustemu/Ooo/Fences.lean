import Sustemu.Lib.History
import Sustemu.Ooo.Difftest
import Sustemu.Ooo.Loads
import Sustemu.Ooo.Throughput
import Sustemu.Ooo.ProgramOrder
import Sustemu.Ooo.Squash

/-!
# Fences

A fence waits at the head of the reorder buffer until the store buffer is
empty, and issue holds back a load behind it as long as stores are buffered. It
knows the fence by the type that execution gives it, so a load renamed together
with a fence may issue in the cycle in which the fence itself does.
-/

set_option autoImplicit false

namespace Sustemu

open Lib Engine Relation

/-- A word that executes as a fence. -/
def ROBEntry.IsFence (entry : ROBEntry) : Prop := (irSelect entry.ir.raw).2.1 = .fence

instance (entry : ROBEntry) : Decidable entry.IsFence := inferInstanceAs (Decidable (_ = _))

/-- The opcode by which issue recognises a load. -/
def ROBEntry.isLoad (entry : ROBEntry) : Bool := opcode7Of entry.ir.raw == 0x03

/-- A load, a store, a multiplication or a division is not a fence. -/
theorem not_fence_of_opcode {raw : Raw} (opcode : opcode7Of raw = 0x03 ∨ opcode7Of raw = 0x23 ∨ opcode7Of raw = 0x33 ∨
    opcode7Of raw = 0x3b) : (irSelect raw).2.1 ≠ .fence := by
  have selected : opcodeOf raw = 0x00 ∨ opcodeOf raw = 0x08 ∨ opcodeOf raw = 0x0c ∨ opcodeOf raw = 0x0e := by
    rw [opcodeOf_eq]
    omega
  unfold irSelect
  rcases selected with load | store | word | short
  · simp only [load]
    split <;> simp
  · simp only [store]
    split <;> simp
  · simp only [word]
    repeat' split
    all_goals simp
  · simp only [short]
    repeat' split
    all_goals simp

/-- A load is not a fence. -/
theorem not_fence_of_load {raw : Raw} (load : opcode7Of raw = 0x03) : (irSelect raw).2.1 ≠ .fence :=
  not_fence_of_opcode (.inl load)

/-- A fence is serialising. -/
theorem serializing_of_fence {raw : Raw} (fence : (irSelect raw).2.1 = .fence) : (irSelect raw).2.2 = true := by
  have table : ∀ selected ∈ selections, selected.2.1 = .fence → selected.2.2 = true := by decide +kernel
  exact table _ (irSelect_mem raw) fence

theorem ROBEntry.IsFence.congr {entry other : ROBEntry} (fence : entry.IsFence) (same : entry.key = other.key) :
    other.IsFence := by
  have raw : entry.ir.raw = other.ir.raw := (Prod.ext_iff.mp same).2
  unfold ROBEntry.IsFence at fence ⊢
  rwa [← raw]

theorem isLoad_congr {entry other : ROBEntry} (same : entry.key = other.key) : entry.isLoad = other.isLoad := by
  unfold ROBEntry.isLoad
  rw [show entry.ir.raw = other.ir.raw from (Prod.ext_iff.mp same).2]

/-- The number of the load that reads its value at this event. -/
def Event.filled {σ : Type} : Event σ → Option Nat
  | .fill before _ i _ => some (before.rob i).seq
  | _ => none

/-- When a load reads its value that commits `gap` instructions behind a fence, or later, the stores committed in front
of the fence have left the store buffer. -/
def FenceOrders {σ : Type} (gap : Nat) (log : List (Event σ)) : Prop :=
  ∀ n j k, j + gap ≤ k → ∀ fence ∈ (commits log)[j]?, fence.IsFence → ∀ load ∈ (commits log)[k]?, load.isLoad = true →
    (log[n]?).bind Event.filled = some load.seq →
      ((commits log).take j).filterMap ROBEntry.cacheableStore <+: (drains (log.take n)).map StoreBufEntry.store

namespace OOOState

/-- The oldest instruction is a fence. -/
def HeadFence (o : OOOState) : Prop := o.robCount ≠ 0 ∧ (o.rob o.robHead).IsFence

/-- The instruction has not been renamed in one call of `ooo_stage_rn` with the oldest one. -/
def Trails (o : OOOState) (i : RobIdx) : Prop := (o.rob o.robHead).seq + 2 ≤ (o.rob i).seq

/-- A load in the load-store unit behind a fence finds the store buffer empty. -/
def Fenced (o : OOOState) : Prop :=
  o.HeadFence → ∀ s, o.Live .lsu s → (o.slotEntry .lsu s).isLoad = true → o.Trails (o.latch .lsu s).robIdx →
    o.sbufCount = 0

end OOOState

/-! ## What the log keeps of a fence and of a load -/

section Log

variable {σ β : Type} {vm : VMem σ} {cfg : OooConfig β} {e e' : Engine σ β}

/-- A fence commits once the stores in front of it have left the store buffer. -/
def FenceDrained (past : List (Event σ)) (event : Event σ) : Prop :=
  ∀ fence value, event = .commit fence value → fence.IsFence →
    (drains past).map StoreBufEntry.store = (commits past).filterMap ROBEntry.cacheableStore

/-- What was known of the program when a load read its value, and that it is still the program in front of the load. -/
structure FillFacts (program : List (Nat × Raw)) (next : Nat) (past : List (Event σ)) (before : OOOState) (i : RobIdx) :
    Prop where
  inv : before.Inv
  serial : before.SerialOldest
  stores : StoresKept before past
  increasing : ((programOrder before past).map Prod.fst).Pairwise (· < ·)
  member : (before.rob i).key ∈ programOrder before past
  early : (before.rob i).seq < next
  older : ∀ (n : Nat) (x : Nat × Raw), program[n]? = some x → x.1 ≤ (before.rob i).seq → (programOrder before past)[n]? = some x

/-- A fence in the reorder buffer is its oldest instruction. -/
theorem FillFacts.fence_oldest {program : List (Nat × Raw)} {next : Nat} {past : List (Event σ)} {o : OOOState} {i : RobIdx}
    (facts : FillFacts program next past o i) {n : Nat} {slot : RobIdx} (place : o.live[n]? = some slot)
    (fence : (o.rob slot).IsFence) : n = 0 ∧ o.HeadFence ∧ slot = o.robHead := by
  have inside : n < o.robCount := by
    have bound := (List.getElem?_eq_some_iff.mp place).1
    rwa [OOOState.live, length_window] at bound
  have here : slot = o.robHead + Fin.ofNat 32 n := by
    rw [OOOState.live, getElem?_window _ _ _ inside] at place
    exact (Option.some.inj place).symm
  have small : n < 32 := Nat.lt_of_lt_of_le inside facts.inv.renamed.bounded
  have position : o.pos slot = n := by rw [here, OOOState.pos, age_add _ small]
  have valid := (facts.inv.renamed.valid slot).mpr (by rwa [position])
  have head := facts.serial slot valid (serializing_of_fence fence)
  rw [head, OOOState.pos, age_self] at position
  exact ⟨position.symm, ⟨Nat.ne_of_gt (Nat.lt_of_le_of_lt (Nat.zero_le n) inside), head ▸ fence⟩, head⟩

def FillKnown (program : List (Nat × Raw)) (next : Nat) (past : List (Event σ)) (event : Event σ) : Prop :=
  ∀ before world i value, event = .fill before world i value → FillFacts program next past before i

theorem FillKnown.grows {program program' : List (Nat × Raw)} {next next' : Nat} {past : List (Event σ)} {event : Event σ}
    (grows : Grows program next program' next') (known : FillKnown program next past event) :
    FillKnown program' next' past event := by
  intro before world i value same
  have facts := known before world i value same
  refine ⟨facts.inv, facts.serial, facts.stores, facts.increasing, facts.member,
    Nat.lt_of_lt_of_le facts.early grows.next_le, fun n x here older => ?_⟩
  exact facts.older n x (grows.older here (Nat.lt_of_le_of_lt older facts.early)) older

/-- The program order of one hart and what its log keeps of it. -/
structure InProgramOrder (e : Engine σ β) : Prop where
  serial : e.ooo.SerialOldest
  typed : e.ooo.Typed
  stores : StoresKept e.ooo e.log
  numbered : Numbered (programOrder e.ooo e.log) e.nextSeq
  fences : Recorded FenceDrained e.log
  fills : Recorded (FillKnown (programOrder e.ooo e.log) e.nextSeq) e.log

/-- The head has its type once it is ready. -/
theorem InProgramOrder.fenceDrained (ordered : InProgramOrder e) (ok : e.ooo.Ok) (live : e.ooo.robCount ≠ 0)
    (ready : (e.ooo.rob e.ooo.robHead).ready = true)
    (empty : (e.ooo.rob e.ooo.robHead).ir.itype = .fence → e.ooo.sbufCount = 0) (value : Word) :
    FenceDrained e.log (.commit (e.ooo.rob e.ooo.robHead) value) := by
  rintro fence value ⟨⟩ isFence
  have typed := (ordered.typed _ (ok.inv.renamed.head_valid live) ready).itype
  rw [show (irSelect (e.ooo.rob e.ooo.robHead).ir.raw).2.1 = .fence from isFence] at typed
  have order := ordered.stores.order
  have none : e.ooo.buffered = [] := by
    unfold OOOState.buffered
    rw [empty typed]
    rfl
  rwa [none, List.append_nil] at order

theorem not_fill_of_quiet {event : Event σ} (quiet : ∀ before world i value, event ≠ .fill before world i value)
    (program : List (Nat × Raw)) (next : Nat) (past : List (Event σ)) : FillKnown program next past event :=
  fun before world i value same => absurd same (quiet before world i value)

theorem not_commit_of_quiet {event : Event σ} (quiet : ∀ entry value, event ≠ .commit entry value)
    (past : List (Event σ)) : FenceDrained past event :=
  fun fence value same _ => absurd same (quiet fence value)

/-- The load in a slot is part of the program. -/
theorem OOOState.Ok.key_mem {o : OOOState} (ok : o.Ok) {eu : EU} {s : Fin 2} (live : o.Live eu s) (log : List (Event σ)) :
    (o.slotEntry eu s).key ∈ programOrder o log := by
  refine List.mem_append_right _ (List.mem_map_of_mem (f := fun i => (o.rob i).key) ?_)
  have inside := (ok.inv.renamed.valid _).mp (ok.inv.live_entry live).1
  exact (mem_window_iff ok.inv.renamed.bounded).mpr inside

theorem Engine.BackStep.inProgramOrder (step : e.BackStep vm cfg e') (ok : e.ooo.Ok) (ordered : InProgramOrder e) :
    InProgramOrder e' := by
  have grows := step.grows ok
  refine ⟨step.serialOldest ok ordered.serial, step.typed ok ordered.typed, step.storesKept ok ordered.stores,
    grows.numbered ordered.numbered, ?_, ?_⟩
  · cases step with
    | note quiet =>
        refine ordered.fences.extend fun past event member => not_commit_of_quiet ?_ past
        rintro entry value rfl
        obtain ⟨_, _, line⟩ := quiet _ member
        cases line
    | drain waiting written => exact ordered.fences.concat (not_commit_of_quiet (by simp) _)
    | commit live ready empty sound room stored checked =>
        obtain ⟨extra, log, quiet⟩ := (commits_of_checked stored checked).log
        rw [log, List.append_cons]
        refine (ordered.fences.concat (ordered.fenceDrained ok live ready empty _)).extend fun past event member => ?_
        refine not_commit_of_quiet ?_ past
        rintro entry value rfl
        obtain ⟨_, mismatch⟩ := quiet _ member
        cases mismatch
    | fill addressed device mapped read completes => exact ordered.fences.concat (not_commit_of_quiet (by simp) _)
    | _ => exact ordered.fences
  · have fills := ordered.fills.mono fun past event => FillKnown.grows grows
    cases step with
    | note quiet =>
        refine fills.extend fun past event member => not_fill_of_quiet ?_ _ _ past
        rintro before world i value rfl
        obtain ⟨_, _, line⟩ := quiet _ member
        cases line
    | drain waiting written => exact fills.concat (not_fill_of_quiet (by simp) _ _ _)
    | commit live ready empty sound room stored checked =>
        obtain ⟨extra, log, quiet⟩ := (commits_of_checked stored checked).log
        generalize programOrder _ _ = program at fills ⊢
        rw [log]
        refine fills.extend fun past event member => not_fill_of_quiet ?_ _ _ past
        rintro before world i value rfl
        rcases List.mem_cons.mp member with commit | other
        · cases commit
        · obtain ⟨_, mismatch⟩ := quiet _ other
          cases mismatch
    | fill addressed device mapped read completes =>
        refine fills.concat ?_
        rintro before world i value ⟨⟩
        have member := ok.key_mem addressed.live e.log
        refine ⟨ok.inv, ordered.serial, ordered.stores, ordered.numbered.increasing, member,
          ordered.numbered.below _ member, fun n x here older => ?_⟩
        exact grows.older here (Nat.lt_of_le_of_lt older (ordered.numbered.below _ member))
    | _ => exact fills

theorem Engine.FrontStep.inProgramOrder (step : e.FrontStep vm cfg e') (ok : e.ooo.Ok) (ordered : InProgramOrder e) :
    InProgramOrder e' := by
  have grows := step.grows ok
  refine ⟨step.serialOldest ok ordered.serial, step.typed ordered.typed, step.storesKept ordered.stores,
    grows.numbered ordered.numbered, ?_, ?_⟩
  · cases step with
    | rename valid inOrder alone room names renames =>
        refine ordered.fences.extend fun past event member => not_commit_of_quiet ?_ past
        rintro entry value rfl
        split at member <;> simp at member
    | _ => exact ordered.fences
  · have fills := ordered.fills.mono fun past event => FillKnown.grows grows
    cases step with
    | rename valid inOrder alone room names renames =>
        refine fills.extend fun past event member => not_fill_of_quiet ?_ _ _ past
        rintro before world i value rfl
        split at member <;> simp at member
    | _ => exact fills

theorem Engine.Step.inProgramOrder (step : Engine.Step vm cfg e e') (ok : e.ooo.Ok) (ordered : InProgramOrder e) :
    InProgramOrder e' := by
  rcases step with back | front
  · exact back.inProgramOrder ok ordered
  · exact front.inProgramOrder ok ordered

/-- No load read its value behind a fence while stores were buffered. -/
def FillsClear (log : List (Event σ)) : Prop :=
  ∀ before world i value, .fill before world i value ∈ log → (before.rob i).isLoad = true → before.HeadFence →
    before.Trails i → before.sbufCount = 0

/-- Numbers that increase along a list are as far apart as their places. -/
theorem add_sub_le_of_increasing {numbers : List Nat} (increasing : numbers.Pairwise (· < ·)) {j k m n : Nat} (order : j ≤ k)
    (first : numbers[j]? = some m) (second : numbers[k]? = some n) : m + (k - j) ≤ n := by
  induction k, order using Nat.le_induction generalizing n with
  | base =>
      cases first.symm.trans second
      omega
  | succ k order ih =>
      obtain ⟨inside, here⟩ := List.getElem?_eq_some_iff.mp second
      have before := ih (List.getElem?_eq_getElem (Nat.lt_of_succ_lt inside))
      have next := List.pairwise_iff_getElem.mp increasing k (k + 1) (Nat.lt_of_succ_lt inside) inside (Nat.lt_succ_self k)
      omega

theorem take_commits (log : List (Event σ)) (n : Nat) : commits (log.take n) <+: commits log := by
  refine ⟨commits (log.drop n), ?_⟩
  rw [← commits_append, List.take_append_drop]

/-- The commit of an entry in a log. -/
theorem commits_split {log : List (Event σ)} {j : Nat} {entry : ROBEntry} (here : (commits log)[j]? = some entry) :
    ∃ past value future, log = past ++ .commit entry value :: future ∧ commits past = (commits log).take j := by
  obtain ⟨inside, same⟩ := List.getElem?_eq_some_iff.mp here
  have cut : commits log = (commits log).take j ++ entry :: (commits log).drop (j + 1) := by
    rw [← same, List.getElem_cons_drop, List.take_append_drop]
  obtain ⟨front, back, rfl, before, rest⟩ := List.filterMap_eq_append_iff.mp cut
  obtain ⟨quiet, event, future, rfl, none, found, _⟩ := List.filterMap_eq_cons_iff.mp rest
  have commit : ∃ value, event = .commit entry value := by
    cases event with
    | commit other value =>
        obtain rfl := Option.some.inj found
        exact ⟨value, rfl⟩
    | pop | fill | drain | logLine | mismatch => cases found
  obtain ⟨value, rfl⟩ := commit
  refine ⟨front ++ quiet, value, future, by rw [List.append_assoc], ?_⟩
  rw [commits_append, ← before, show commits quiet = [] from List.filterMap_eq_nil_iff.mpr none, List.append_nil]
  rfl

/-- A fence behind which a load has read its value without waiting had drained the stores in front of it, or was the
oldest instruction with the store buffer empty. -/
theorem InProgramOrder.fenceOrders (ordered : InProgramOrder e) (clear : FillsClear e.log) : FenceOrders 2 e.log := by
  rintro n j k before fence atFence isFence load atLoad isLoad filled
  obtain ⟨event, atFill, filled⟩ := Option.bind_eq_some_iff.mp filled
  obtain ⟨o, world, i, value, rfl, number⟩ : ∃ o world i value, event = .fill o world i value ∧
      (o.rob i).seq = load.seq := by
    cases event with
    | fill o world i value => exact ⟨o, world, i, value, rfl, Option.some.inj filled⟩
    | pop | commit | drain | logLine | mismatch => cases filled
  have facts := ordered.fills.get atFill o world i value rfl
  -- The fence and the load were part of the program when the load read its value.
  have known : ∀ (m : Nat) (entry : ROBEntry), (commits e.log)[m]? = some entry →
      (programOrder e.ooo e.log)[m]? = some entry.key := by
    intro m entry here
    have inside := (List.getElem?_eq_some_iff.mp here).1
    unfold programOrder
    rw [List.getElem?_append_left (by rwa [List.length_map]), List.getElem?_map, here]
    rfl
  have numbers : ∀ (m : Nat) (entry : ROBEntry), (commits e.log)[m]? = some entry →
      ((programOrder e.ooo e.log).map Prod.fst)[m]? = some entry.seq := by
    intro m entry here
    rw [List.getElem?_map, known m entry here]
    rfl
  have older : fence.seq + 2 ≤ load.seq := by
    have apart := add_sub_le_of_increasing ordered.numbered.increasing (by omega) (numbers j fence atFence)
      (numbers k load atLoad)
    omega
  have fenceThen := facts.older j _ (known j fence atFence) (by change fence.seq ≤ _; omega)
  have loadThen := facts.older k _ (known k load atLoad) (by rw [number]; exact Nat.le_refl _)
  have sameLoad : (o.rob i).key = load.key :=
    key_eq_of_number facts.increasing facts.member (List.mem_of_getElem? loadThen) number
  by_cases committed : j < (commits (e.log.take n)).length
  · -- The fence had committed.
    obtain ⟨rest, whole⟩ := take_commits e.log n
    have there : (commits (e.log.take n))[j]? = some fence := by
      rw [← whole, List.getElem?_append_left committed] at atFence
      exact atFence
    obtain ⟨past, value', future, cut, stores⟩ := commits_split there
    have drained := ordered.fences past _ (future ++ e.log.drop n)
      (by rw [← List.cons_append, ← List.append_assoc, ← cut, List.take_append_drop]) fence value' rfl isFence
    have same : (commits (e.log.take n)).take j = (commits e.log).take j := by
      rw [← whole, List.take_append_of_le_length (Nat.le_of_lt committed)]
    rw [← same, ← stores, ← drained, cut, drains_append, List.map_append]
    exact List.prefix_append _ _
  · -- The fence was the oldest instruction of the reorder buffer.
    have count : (commits (e.log.take n)).length ≤ j := Nat.le_of_not_lt committed
    unfold programOrder at fenceThen
    rw [List.getElem?_append_right (by rwa [List.length_map]), List.length_map] at fenceThen
    obtain ⟨slot, place, key⟩ : ∃ slot, o.live[j - (commits (e.log.take n)).length]? = some slot ∧
        (o.rob slot).key = fence.key := by
      rw [OOOState.keys, List.getElem?_map] at fenceThen
      exact Option.map_eq_some_iff.mp fenceThen
    obtain ⟨first, oldest, head⟩ := facts.fence_oldest place (isFence.congr key.symm)
    have none : o.buffered = [] := by
      have trails : o.Trails i := by
        unfold OOOState.Trails
        rw [← head, number, show (o.rob slot).seq = fence.seq from (Prod.ext_iff.mp key).1]
        exact older
      unfold OOOState.buffered
      rw [clear o world i value (List.mem_of_getElem? atFill) ((isLoad_congr sameLoad).trans isLoad) oldest trails]
      rfl
    have order := facts.stores.order
    rw [none, List.append_nil] at order
    obtain ⟨rest, whole⟩ := take_commits e.log n
    rw [order, ← whole, Nat.le_antisymm (Nat.le_of_sub_eq_zero first) count, List.take_left]

end Log

/-! ## Steps of the back end -/

namespace OOOState

variable {o o' o'' : OOOState}

/-- What the back end leaves of the instructions of the reorder buffer, and of the store buffer behind a fence. -/
structure Behind (o o' : OOOState) : Prop where
  keys : ∀ i, (o'.rob i).valid = true → (o.rob i).valid = true ∧ (o'.rob i).key = (o.rob i).key
  fence : o'.HeadFence → o.HeadFence ∧ o'.robHead = o.robHead ∧ o'.sbufCount ≤ o.sbufCount

theorem Behind.refl (o : OOOState) : o.Behind o :=
  ⟨fun _ valid => ⟨valid, rfl⟩, fun fence => ⟨fence, rfl, Nat.le_refl _⟩⟩

theorem Behind.trans (first : o.Behind o') (second : o'.Behind o'') : o.Behind o'' where
  keys i valid := by
    obtain ⟨valid', key'⟩ := second.keys i valid
    obtain ⟨valid, key⟩ := first.keys i valid'
    exact ⟨valid, key'.trans key⟩
  fence fence := by
    obtain ⟨fence', head', less'⟩ := second.fence fence
    obtain ⟨fence, head, less⟩ := first.fence fence'
    exact ⟨fence, head'.trans head, Nat.le_trans less' less⟩

/-- A fence that is the oldest instruction was the oldest one before, if the instructions are those from before. -/
theorem Behind.of_keys (serial : o.SerialOldest) (inv : o'.Inv) (inv₀ : o.Inv)
    (keys : ∀ i, (o'.rob i).valid = true → (o.rob i).valid = true ∧ (o'.rob i).key = (o.rob i).key)
    (stores : o'.robHead = o.robHead → o'.sbufCount ≤ o.sbufCount) : o.Behind o' := by
  refine ⟨keys, fun fence => ?_⟩
  obtain ⟨valid, key⟩ := keys _ (inv.renamed.head_valid fence.1)
  have isFence : (o.rob o'.robHead).IsFence := fence.2.congr key
  have head := serial _ valid (serializing_of_fence isFence)
  rw [head] at isFence valid
  have inside := (inv₀.renamed.valid _).mp valid
  exact ⟨⟨Nat.ne_of_gt (Nat.lt_of_le_of_lt (Nat.zero_le _) inside), isFence⟩, head, stores head⟩

theorem kept_of_update {i : RobIdx} {entry : ROBEntry} (rob : o'.rob = setAt o.rob i entry)
    (valid : (o.rob i).valid = true) (key : entry.key = (o.rob i).key) :
    ∀ j, (o'.rob j).valid = true → (o.rob j).valid = true ∧ (o'.rob j).key = (o.rob j).key := by
  intro j validJ
  rw [rob] at validJ ⊢
  by_cases here : j = i
  · rw [here, setAt_self]
    exact ⟨valid, key⟩
  · rw [setAt_of_ne here] at validJ ⊢
    exact ⟨validJ, rfl⟩

theorem Flushes.kept {b : RobIdx} (flushes : o.Flushes b o') :
    ∀ j, (o'.rob j).valid = true → (o.rob j).valid = true ∧ (o'.rob j).key = (o.rob j).key := by
  intro j valid
  by_cases older : o.pos j ≤ o.pos b
  · rw [flushes.older j older] at valid ⊢
    exact ⟨valid, rfl⟩
  · rw [flushes.newer j (Nat.lt_of_not_le older)] at valid
    cases valid

end OOOState

namespace Engine

variable {σ β : Type} {vm : VMem σ} {cfg : OooConfig β} {e e' : Engine σ β}

theorem BackStep.kept (step : e.BackStep vm cfg e') (ok : e.ooo.Ok) :
    ∀ i, (e'.ooo.rob i).valid = true → (e.ooo.rob i).valid = true ∧ (e'.ooo.rob i).key = (e.ooo.rob i).key := by
  cases step with
  | commit live ready ordered sound room stored checked =>
      rw [(commits_of_checked stored checked).ooo]
      exact OOOState.kept_of_update e.ooo.afterCommit_frame.rob (ok.inv.renamed.head_valid live) rfl
  | exec bpred fault unit live run completes faulted resolved =>
      exact OOOState.kept_of_update completes.rob (ok.inv.live_entry live).1
        (congrArg (Prod.mk _) (executed_sameInst ok.inv live run).1.raw)
  | redirect live run completes control wrong target =>
      have executed := OOOState.kept_of_update completes.rob (ok.inv.live_entry live).1
        (congrArg (Prod.mk _) (executed_sameInst ok.inv live run).1.raw)
      intro i valid
      obtain ⟨valid', key'⟩ := (redirect_flushes ok live run completes).2.kept i valid
      obtain ⟨valid, key⟩ := executed i valid'
      exact ⟨valid, key'.trans key⟩
  | address live first executor =>
      exact OOOState.kept_of_update rfl (ok.inv.live_entry live).1
        (congrArg (Prod.mk _) (pure_sameInst (operands e.ooo (e.ooo.latch .lsu _)) executor).1.raw)
  | storeDone live computed store completes =>
      exact OOOState.kept_of_update completes.rob (ok.inv.live_entry live).1 rfl
  | loadFault addressed outside completes =>
      exact OOOState.kept_of_update completes.rob (ok.inv.live_entry addressed.live).1 rfl
  | fill addressed device mapped read completes =>
      exact OOOState.kept_of_update completes.rob (ok.inv.live_entry addressed.live).1 rfl
  | _ => exact fun i valid => ⟨valid, rfl⟩

/-- Only commit, which moves the head, adds to the store buffer. -/
theorem BackStep.sbufCount_le (step : e.BackStep vm cfg e') (head : e'.ooo.robHead = e.ooo.robHead) :
    e'.ooo.sbufCount ≤ e.ooo.sbufCount := by
  cases step with
  | drain waiting written => exact Nat.sub_le _ _
  | commit live ready ordered sound room stored checked =>
      rw [(commits_of_checked stored checked).ooo, e.ooo.afterCommit_frame.head] at head
      exact absurd (add_eq_left.mp head) (by decide)
  | exec bpred fault unit live run completes faulted resolved => exact Nat.le_of_eq completes.stores.2.2.2
  | redirect live run completes control wrong target =>
      rename_i s ir sys o bpred stats
      have flushed : (o.flushAfter (e.ooo.latch .int s).robIdx).sbufCount = o.sbufCount :=
        (OOOState.rollback_frame _ o).stores.2.2.2
      exact Nat.le_of_eq (flushed.trans completes.stores.2.2.2)
  | storeDone live computed store completes => exact Nat.le_of_eq completes.stores.2.2.2
  | loadFault addressed outside completes => exact Nat.le_of_eq completes.stores.2.2.2
  | fill addressed device mapped read completes => exact Nat.le_of_eq completes.stores.2.2.2
  | _ => exact Nat.le_refl _

theorem BackStep.behind (step : e.BackStep vm cfg e') (ok : e.ooo.Ok) (serial : e.ooo.SerialOldest) :
    e.ooo.Behind e'.ooo :=
  .of_keys serial (step.ok ok).inv ok.inv (step.kept ok) step.sbufCount_le

theorem backSteps_behind (steps : ReflTransGen (BackStep vm cfg) e e') (ok : e.ooo.Ok) (serial : e.ooo.SerialOldest) :
    e.ooo.Behind e'.ooo := by
  have kept : e'.ooo.SerialOldest ∧ e.ooo.Behind e'.ooo := by
    induction steps with
    | refl => exact ⟨serial, .refl _⟩
    | tail before step ih =>
        have ok' := backSteps_ok before ok
        exact ⟨step.serialOldest ok' ih.1, ih.2.trans (step.behind ok' ih.1)⟩
  exact kept.2

end Engine

/-! ## Phases that issue nothing -/

namespace OOOState

variable {o o' o'' : OOOState}

/-- The instructions in the units were there before. -/
def NoneIssued (o o' : OOOState) : Prop :=
  ∀ eu s, o'.Live eu s → o.Live eu s ∧ (o'.latch eu s).robIdx = (o.latch eu s).robIdx

theorem NoneIssued.same (latch : o'.latch = o.latch) : o.NoneIssued o' := by
  intro eu s live
  exact ⟨⟨latch ▸ live.valid, latch ▸ live.kept⟩, by rw [latch]⟩

theorem NoneIssued.trans (first : o.NoneIssued o') (second : o'.NoneIssued o'') : o.NoneIssued o'' := by
  intro eu s live
  obtain ⟨live', same'⟩ := second eu s live
  obtain ⟨live, same⟩ := first eu s live'
  exact ⟨live, same'.trans same⟩

theorem NoneIssued.setLatch {eu : EU} {s : Fin 2} {l : OOOLatch} (latch : o'.latch = (o.setLatch eu s l).latch)
    (valid : l.valid = true → (o.latch eu s).valid = true) (flushed : l.flushed = (o.latch eu s).flushed)
    (robIdx : l.robIdx = (o.latch eu s).robIdx) : o.NoneIssued o' := by
  rintro eu' t ⟨validT, kept⟩
  rw [latch, latch_setLatch] at validT kept
  rw [latch, latch_setLatch]
  by_cases here : eu' = eu ∧ t = s
  · rw [if_pos here] at validT kept ⊢
    obtain ⟨rfl, rfl⟩ := here
    exact ⟨⟨valid validT, flushed ▸ kept⟩, robIdx⟩
  · rw [if_neg here] at validT kept ⊢
    exact ⟨⟨validT, kept⟩, rfl⟩

theorem NoneIssued.drop {eu : EU} {s : Fin 2} (latch : o'.latch = (o.dropLatch eu s).latch) : o.NoneIssued o' :=
  .setLatch latch (fun absurdity => absurd absurdity Bool.false_ne_true) rfl rfl

theorem NoneIssued.flush (o : OOOState) (b : RobIdx) : o.NoneIssued (o.flushAfter b) := by
  intro eu s live
  obtain ⟨flushed, latch, kept⟩ := (stays_flushAfter o b eu s).latch live.valid
  refine ⟨⟨(stays_flushAfter o b eu s).valid live.valid, ?_⟩, by rw [latch]⟩
  cases marked : (o.latch eu s).flushed with
  | false => rfl
  | true =>
      have still := live.kept
      rw [latch] at still
      exact (kept marked).symm.trans still

/-- A load is filled from a slot of the load-store unit. -/
structure FillsFrom (o before : OOOState) (i : RobIdx) : Prop where
  slot : ∃ s, o.Live .lsu s ∧ (o.latch .lsu s).robIdx = i
  head : before.robHead = o.robHead
  count : before.robCount = o.robCount
  stores : before.sbufCount = o.sbufCount
  keys : ∀ j, (before.rob j).key = (o.rob j).key

theorem Fenced.fill {before : OOOState} {i : RobIdx} (fenced : o.Fenced) (fills : o.FillsFrom before i)
    (load : (before.rob i).isLoad = true) (fence : before.HeadFence) (trails : before.Trails i) : before.sbufCount = 0 := by
  obtain ⟨s, live, rfl⟩ := fills.slot
  have seq : ∀ j, (before.rob j).seq = (o.rob j).seq := fun j => (Prod.ext_iff.mp (fills.keys j)).1
  rw [fills.stores]
  refine fenced ⟨?_, ?_⟩ s live ((isLoad_congr (fills.keys _)).symm.trans load) ?_
  · rw [← fills.count]
    exact fence.1
  · have isFence := fence.2
    rw [fills.head] at isFence
    exact isFence.congr (fills.keys _)
  · unfold Trails at trails ⊢
    rwa [seq, seq, fills.head] at trails

end OOOState

namespace Engine

variable {σ β : Type} {vm : VMem σ} {cfg : OooConfig β} {e e₁ e' : Engine σ β}

/-- Nothing is issued, and nothing reads its value. -/
structure Idles (e e' : Engine σ β) : Prop where
  slots : e.ooo.NoneIssued e'.ooo
  fills : ∀ before world i value, .fill before world i value ∈ e'.log → .fill before world i value ∈ e.log

theorem Idles.same (slots : e.ooo.NoneIssued e'.ooo) (log : e'.log = e.log) : e.Idles e' :=
  ⟨slots, fun _ _ _ _ member => log ▸ member⟩

theorem Idles.refl (e : Engine σ β) : e.Idles e := .same (.same rfl) rfl

theorem Idles.trans (first : e.Idles e₁) (second : e₁.Idles e') : e.Idles e' :=
  ⟨first.slots.trans second.slots, fun _ _ _ _ member => first.fills _ _ _ _ (second.fills _ _ _ _ member)⟩

/-- Events other than reads. -/
theorem Idles.extend {extra : List (Event σ)} (slots : e.ooo.NoneIssued e'.ooo) (log : e'.log = e.log ++ extra)
    (quiet : ∀ event ∈ extra, ∀ before world i value, event ≠ .fill before world i value) : e.Idles e' := by
  refine ⟨slots, fun before world i value member => ?_⟩
  rw [log] at member
  exact (List.mem_append.mp member).resolve_right fun new => quiet _ new before world i value rfl

theorem drainStoreBuf_idles (done : e.drainStoreBuf vm cfg = some e') : e.Idles e' := by
  unfold drainStoreBuf at done
  dsimp only at done
  split at done
  · cases done
    exact .refl e
  · split at done
    · cases done
      exact .same (.same rfl) rfl
    · obtain ⟨world, _, rfl⟩ := Option.map_eq_some_iff.mp done
      exact .extend (.same rfl) rfl (by simp)

theorem commitOne_idles {goesOn : Bool} (done : e.commitOne vm cfg = some (e', goesOn)) : e.Idles e' := by
  obtain ⟨tcIr, lines, quiet, ⟨_, same⟩ | ⟨_, commits⟩⟩ := commitOne_cases done
  · rw [same]
    refine .extend (.same rfl) rfl fun event member before world i value fill => ?_
    obtain ⟨_, _, line⟩ := quiet event member
    cases line.symm.trans fill
  · obtain ⟨extra, log, others⟩ := commits.log
    refine .extend ?_ (log.trans (List.append_assoc ..)) fun event member before world i value fill => ?_
    · rw [commits.ooo]
      exact .same e.ooo.afterCommit_frame.latch
    · rcases List.mem_append.mp member with line | member
      · obtain ⟨_, _, line⟩ := quiet event line
        cases line.symm.trans fill
      · rcases List.mem_cons.mp member with commit | other
        · cases commit.symm.trans fill
        · obtain ⟨_, mismatch⟩ := others event other
          cases mismatch.symm.trans fill

theorem commitLoop_idles {turns : Nat} (done : commitLoop vm cfg turns e = some e') : e.Idles e' := by
  induction turns generalizing e with
  | zero =>
      cases done
      exact .refl _
  | succ turns ih =>
      obtain ⟨⟨e₁, goesOn⟩, one, rest⟩ := Option.bind_eq_some_iff.mp done
      dsimp only at rest
      split at rest
      · exact (commitOne_idles one).trans (ih rest)
      · cases rest
        exact commitOne_idles one

theorem finishExec_noneIssued (o : OOOState) (i : RobIdx) (physRd : Option PReg) (ir : IRInst) :
    o.NoneIssued (o.finishExec i physRd ir) := by
  refine .same ?_
  unfold OOOState.finishExec
  dsimp only
  split
  · split <;> rfl
  · rfl

theorem resolveBranch_idles (e : Engine σ β) (i : RobIdx) (ir : IRInst) : e.Idles (e.resolveBranch cfg i ir) := by
  rcases resolveBranch_cases cfg e i ir with ⟨_, resolved⟩ | ⟨_, resolved⟩ | ⟨_, _, resolved⟩
  · rw [resolved]
    exact .same (.same rfl) rfl
  · rw [resolved]
    exact .same (.same rfl) rfl
  · rw [resolved]
    exact .same ((OOOState.NoneIssued.flush e.ooo i).trans (.same rfl)) rfl

theorem intSlot_idles {s : Fin 2} (done : e.intSlot vm cfg s = some e') : e.Idles e' := by
  unfold intSlot at done
  dsimp only at done
  split at done
  · cases done
    exact .refl e
  · split at done
    · cases done
      exact .same (.drop rfl) rfl
    · obtain ⟨⟨ir, sys⟩, _, rfl⟩ := Option.map_eq_some_iff.mp done
      have finished : e.Idles { e.setSys sys with
          ooo := (e.ooo.dropLatch .int s).finishExec (e.ooo.latch .int s).robIdx (e.ooo.latch .int s).physRd ir } :=
        .same ((OOOState.NoneIssued.drop rfl).trans (finishExec_noneIssued _ _ _ _)) rfl
      dsimp only
      split
      · exact finished.trans (resolveBranch_idles _ _ _)
      · exact finished

theorem mulFinish_idles {s : Fin 2} (done : e.mulFinish vm s = some e') : e.Idles e' := by
  unfold mulFinish at done
  dsimp only at done
  split at done
  · cases done
    exact .same (.drop rfl) rfl
  · obtain ⟨⟨ir, sys⟩, _, rfl⟩ := Option.map_eq_some_iff.mp done
    exact .same ((OOOState.NoneIssued.drop rfl).trans (finishExec_noneIssued _ _ _ _)) rfl

theorem mulSlot_idles (ok : e.ooo.Ok) {s : Fin 2} (done : e.mulSlot vm s = some e') : e.Idles e' := by
  cases mulSlot_visit ok done with
  | idle same =>
      rw [same]
      exact .refl e
  | count live same =>
      rw [same]
      exact .same (.setLatch rfl id rfl rfl) rfl
  | @first cycles live finished =>
      have counted : e.Idles { e with ooo := e.ooo.setLatch .mul s { e.ooo.latch .mul s with cyclesRem := cycles } } :=
        .same (.setLatch rfl id rfl rfl) rfl
      exact counted.trans (mulFinish_idles finished)
  | last live finished => exact mulFinish_idles finished

theorem FrontStep.idles (step : e.FrontStep vm cfg e') : e.Idles e' := by
  cases step with
  | rename valid inOrder alone room names renames =>
      refine .extend (.same renames.latch) rfl fun event member before world i value fill => ?_
      split at member <;> simp [fill] at member
  | _ => exact .same (.same rfl) rfl

/-! ## The load-store unit -/

/-- Nothing is issued, and what reads its value was in the load-store unit. -/
structure Fills (e e' : Engine σ β) : Prop where
  slots : e.ooo.NoneIssued e'.ooo
  fills : ∀ before world i value, .fill before world i value ∈ e'.log →
    .fill before world i value ∈ e.log ∨ e.ooo.FillsFrom before i

theorem Idles.fill (idles : e.Idles e') : e.Fills e' :=
  ⟨idles.slots, fun before world i value member => .inl (idles.fills before world i value member)⟩

theorem lsuFill_fills (ok : e.ooo.Ok) {s : Fin 2} {mshr : Option MshrIdx} (live : e.ooo.Live .lsu s)
    (done : e.lsuFill vm s mshr = some e') : e.Fills e' := by
  unfold lsuFill at done
  dsimp only at done
  split at done
  · cases done
    exact Idles.fill (.same (.drop (ok.inv.completes_lsuFault live).latch) rfl)
  · obtain ⟨⟨raw, world⟩, _, rfl⟩ := Option.map_eq_some_iff.mp done
    refine ⟨.drop (ok.inv.completes_lsuFinish live mshr _).latch, fun before world' i value member => ?_⟩
    refine (List.mem_append.mp member).imp_right fun new => ?_
    cases List.mem_singleton.mp new
    exact ⟨⟨s, live, rfl⟩, rfl, rfl, rfl, fun _ => rfl⟩

theorem lsuFlushed_idles {s : Fin 2} (done : e.lsuFlushed vm s = some e') : e.Idles e' := by
  unfold lsuFlushed at done
  dsimp only at done
  split at done
  · cases done
    exact .same (.drop rfl) rfl
  · next m _ =>
      split at done
      · cases done
        exact .refl e
      · obtain ⟨⟨value, world⟩, _, rfl⟩ := Option.map_eq_some_iff.mp done
        obtain ⟨mshr, released, _⟩ := e.ooo.mshrRelease_eq s m
        have dropped : ((e.ooo.mshrRelease s m).dropLatch .lsu s).latch = (e.ooo.dropLatch .lsu s).latch := by
          rw [released]
          rfl
        exact .same (.drop dropped) rfl

theorem lsuStart_fills (ok : e.ooo.Ok) {s : Fin 2} (live : e.ooo.Live .lsu s) (done : e.lsuStart vm s = some e') :
    e.Fills e' := by
  unfold lsuStart at done
  dsimp only at done
  split at done
  · cases done
    exact Idles.fill (.same (.drop rfl) rfl)
  · split at done
    · split at done
      · cases done
        exact Idles.fill (.same (.setLatch rfl id rfl rfl) rfl)
      · exact lsuFill_fills ok live done
    · split at done
      · have filled := lsuFill_fills (e := { e with
            world := (vm.probeLevel e.world (e.ooo.slotEntry .lsu s).ir.memAddr).2 }) ok live done
        exact ⟨filled.slots, filled.fills⟩
      · rcases mshrFindOrAlloc_cases e.ooo ((e.ooo.slotEntry .lsu s).ir.memAddr &&& ~~~(63 : Word))
          (levelToLat (vm.probeLevel e.world (e.ooo.slotEntry .lsu s).ir.memAddr).1) with
          full | ⟨m, mshr, allocated, _⟩
        · unfold OOOState.slotEntry at full
          rw [full] at done
          cases done
          exact Idles.fill (.same (.same rfl) rfl)
        · unfold OOOState.slotEntry at allocated
          rw [allocated] at done
          cases done
          exact Idles.fill (.same (.setLatch rfl id rfl rfl) rfl)

theorem lsuSlot_fills (cfg : OooConfig β) (ok : e.ooo.Ok) {s : Fin 2} (done : e.lsuSlot vm s = some e') : e.Fills e' := by
  cases lsuSlot_visit cfg ok done with
  | idle same =>
      rw [same]
      exact (Idles.refl e).fill
  | flushed valid flushed done => exact (lsuFlushed_idles done).fill
  | @first e₁ run live hit executor same step computed started =>
      have filled := lsuStart_fills (step.ok ok) (e := e₁) (s := s) (by rw [same]; exact ⟨live.valid, live.kept⟩) started
      have slots : e.ooo.NoneIssued e₁.ooo := by
        rw [same]
        exact .same rfl
      have keys : ∀ j, (e₁.ooo.rob j).key = (e.ooo.rob j).key := by
        obtain ⟨inst, _⟩ := pure_sameInst (operands e.ooo (e.ooo.latch .lsu s)) executor
        intro j
        rw [same]
        change (setAt e.ooo.rob _ _ j).key = _
        by_cases here : j = (e.ooo.latch .lsu s).robIdx
        · rw [here, setAt_self]
          exact congrArg (Prod.mk _) inst.raw
        · rw [setAt_of_ne here]
      refine ⟨slots.trans filled.slots, fun before world i value member => ?_⟩
      refine (filled.fills before world i value member).imp (fun old => ?_) fun from₁ => ?_
      · rwa [same] at old
      · obtain ⟨t, live₁, here⟩ := from₁.slot
        obtain ⟨live₀, same₀⟩ := slots .lsu t live₁
        refine ⟨⟨t, live₀, same₀.symm.trans here⟩, ?_, ?_, ?_, fun j => (from₁.keys j).trans (keys j)⟩
        · rw [from₁.head, same]
          rfl
        · rw [from₁.count, same]
          rfl
        · rw [from₁.stores, same]
          rfl
  | waited addressed hit head filled => exact lsuFill_fills ok addressed.live filled
  | missed addressed index cached filled => exact lsuFill_fills ok addressed.live filled

end Engine

/-! ## Issue -/

namespace OOOState

variable {o o' : OOOState}

theorem Fenced.congr (fenced : o.Fenced) (rob : o'.rob = o.rob) (head : o'.robHead = o.robHead)
    (count : o'.robCount = o.robCount) (stores : o'.sbufCount = o.sbufCount)
    (slots : ∀ s, o'.Live .lsu s → (o'.slotEntry .lsu s).isLoad = true → o.HeadFence → o.sbufCount ≠ 0 →
      o.Trails (o'.latch .lsu s).robIdx → o.Live .lsu s ∧ (o'.latch .lsu s).robIdx = (o.latch .lsu s).robIdx) :
    o'.Fenced := by
  intro fence s live load trails
  have isFence : o.HeadFence := by
    unfold HeadFence at fence ⊢
    rwa [rob, head, count] at fence
  unfold Trails at trails
  rw [rob, head] at trails
  rw [stores]
  by_contra buffered
  obtain ⟨live₀, robIdx⟩ := slots s live load isFence buffered trails
  unfold slotEntry at load
  rw [rob, robIdx] at load
  rw [robIdx] at trails
  exact buffered (fenced isFence s live₀ load trails)

/-- Issue scans the entries in front of a load and finds a fence that has executed. -/
theorem loadBlocked_of_fence (inv : o.Inv) (fence : o.HeadFence) (executed : (o.rob o.robHead).ir.itype = .fence)
    (buffered : o.sbufCount ≠ 0) {i : RobIdx} (load : (o.rob i).isLoad = true) : o.loadBlocked i = true := by
  have other : i ≠ o.robHead := by
    rintro rfl
    exact not_fence_of_load (beq_iff_eq.mp load) fence.2
  have older : o.robHead ∈ o.olderSlots i := by
    rw [mem_olderSlots, pos, age_self]
    refine Nat.pos_of_ne_zero fun zero => ?_
    have same : age o.robHead i = age o.robHead o.robHead := zero.trans (age_self _).symm
    exact other (age_injective same)
  refine List.any_eq_true.mpr ⟨o.robHead, older, ?_⟩
  simp [inv.renamed.head_valid fence.1, executed, Nat.pos_of_ne_zero buffered]

/-- What issue has done so far. -/
structure Issuing (o o' : OOOState) : Prop where
  rob : o'.rob = o.rob
  head : o'.robHead = o.robHead
  count : o'.robCount = o.robCount
  stores : o'.sbufCount = o.sbufCount
  fenced : o'.Fenced

/-- Only what was renamed together with a fence is behind it before it executes. -/
def Spaced (o : OOOState) : Prop :=
  o.HeadFence → (o.rob o.robHead).ready = false → ∀ i, (o.rob i).valid = true → ¬o.Trails i

/-- A load that issues past a fence finds the store buffer empty. -/
theorem Issuing.chosen (issuing : o.Issuing o') (inv : o'.Inv) (typed : o.Typed) (spaced : o.Spaced) {k : RsIdx}
    (issues : o'.issuable .lsu k = true) (fence : o'.HeadFence) (buffered : o'.sbufCount ≠ 0)
    (trails : o.Trails (o'.rs k).robIdx) : (o'.rob (o'.rs k).robIdx).isLoad = false := by
  by_contra load
  rw [Bool.not_eq_false] at load
  obtain ⟨ready, free⟩ := Bool.and_eq_true_iff.mp issues
  have executed : (o'.rob o'.robHead).ir.itype = .fence := by
    have valid := inv.renamed.head_valid fence.1
    have station : (o'.rob (o'.rs k).robIdx).valid = true := by
      rw [inv.placed.readyMask] at ready
      simp only [Bool.and_eq_true] at ready
      exact (inv.placed.waiting _ _ (occupant_station ready.1.1.1)).1
    have fence₀ : o.HeadFence := by
      unfold HeadFence at fence ⊢
      rwa [issuing.rob, issuing.head, issuing.count] at fence
    rw [issuing.rob, issuing.head] at valid ⊢
    rw [issuing.rob] at station
    cases done : (o.rob o.robHead).ready with
    | false => exact absurd trails (spaced fence₀ done _ station)
    | true =>
        have itype := (typed _ valid done).itype
        rw [show (irSelect (o.rob o.robHead).ir.raw).2.1 = .fence from fence₀.2] at itype
        exact itype
  have blocked := loadBlocked_of_fence inv fence executed buffered load
  rw [blocked, show opcode7Of (o'.rob (o'.rs k).robIdx).ir.raw = 0x03 from beq_iff_eq.mp load] at free
  exact absurd free (by decide)

theorem Issuing.issueSlot (issuing : o.Issuing o') (ok : o'.Ok) (typed : o.Typed) (spaced : o.Spaced) (eu : EU)
    (s : Fin 2) : o.Issuing (OOOState.issueSlot eu o' s) := by
  unfold OOOState.issueSlot
  split
  · exact issuing
  · split
    · exact issuing
    · next k chosen =>
        have issues := (selectIssue_some chosen).1
        have latch : ∀ t, (o'.latchFromRs eu s k).latch .lsu t =
            if EU.lsu = eu ∧ t = s then _ else o'.latch .lsu t := fun t => latch_setLatch o' eu s _ .lsu t
        refine ⟨issuing.rob, issuing.head, issuing.count, issuing.stores, ?_⟩
        refine issuing.fenced.congr rfl rfl rfl rfl fun t live load fence buffered trails => ?_
        by_cases here : EU.lsu = eu ∧ t = s
        · obtain ⟨rfl, rfl⟩ := here
          have entry : ((o'.latchFromRs .lsu t k).latch .lsu t).robIdx = (o'.rs k).robIdx := by
            rw [latch, if_pos ⟨rfl, rfl⟩]
          unfold slotEntry at load
          rw [entry] at load trails
          unfold Trails at trails
          rw [issuing.rob, issuing.head] at trails
          have none := issuing.chosen ok.inv typed spaced issues fence buffered trails
          cases none.symm.trans load
        · have same : (o'.latchFromRs eu s k).latch .lsu t = o'.latch .lsu t := by rw [latch, if_neg here]
          rw [same]
          exact ⟨⟨same ▸ live.valid, same ▸ live.kept⟩, rfl⟩

theorem Fenced.stageIs (fenced : o.Fenced) (ok : o.Ok) (typed : o.Typed) (spaced : o.Spaced) : o.stageIs.Fenced := by
  have unit : ∀ (eu : EU) {o' : OOOState}, o.Issuing o' → o'.Ok → o.Issuing (o'.issueUnit eu) ∧ (o'.issueUnit eu).Ok := by
    intro eu o' issuing ok'
    unfold issueUnit
    induction eu.slots generalizing o' with
    | nil => exact ⟨issuing, ok'⟩
    | cons s rest ih => exact ih (issuing.issueSlot ok' typed spaced eu s) (ok'.issueSlot eu s)
  obtain ⟨int, okInt⟩ := unit .int (show o.Issuing o from ⟨rfl, rfl, rfl, rfl, fenced⟩) ok
  obtain ⟨mul, okMul⟩ := unit .mul int okInt
  exact (unit .lsu mul okMul).1.fenced

end OOOState

/-! ## Cycles -/

namespace OOOState

variable {o o' : OOOState}

/-- A fence in a station was renamed in the last call of `ooo_stage_rn`. -/
def Grouped (o : OOOState) : Prop :=
  o.HeadFence → ∀ k, o.occupant (.station k) = some o.robHead → ∀ i, (o.rob i).valid = true → ¬o.Trails i

theorem Grouped.congr (grouped : o.Grouped) (rob : o'.rob = o.rob) (head : o'.robHead = o.robHead)
    (count : o'.robCount = o.robCount) (rs : o'.rs = o.rs) : o'.Grouped := by
  unfold Grouped HeadFence Trails occupant
  rw [rob, head, count, rs]
  exact grouped

/-- A fence executes in the INT unit. -/
theorem classify_fence {raw : Raw} (fence : (irSelect raw).2.1 = .fence) : classify raw = .int := by
  unfold classify
  split
  · next memory => exact absurd fence (not_fence_of_opcode (memory.imp_right .inl))
  · split
    · next mul => exact absurd fence (not_fence_of_opcode (.inr (.inr mul.1)))
    · rfl

/-- Nothing is in the INT unit. -/
def IntIdle (o : OOOState) : Prop := ∀ s, ¬o.Live .int s

/-- A fence that issue finds unexecuted came with the last group. -/
theorem Grouped.spaced (grouped : o.Grouped) (ok' : o'.Ok) (behind : o.Behind o') (idle : o'.IntIdle)
    (station : o'.HeadFence → ∀ k, o'.occupant (.station k) = some o'.robHead →
      ∃ j, o.occupant (.station j) = some o.robHead) : o'.Spaced := by
  intro fence unready i valid trails
  obtain ⟨fence₀, head, _⟩ := behind.fence fence
  have validHead := ok'.inv.renamed.head_valid fence.1
  obtain ⟨place, here⟩ := ok'.inv.placed.tracked _ validHead unready ((ok'.inv.renamed.valid _).mp validHead)
  cases place with
  | slot eu s =>
      obtain ⟨busy, kept, index⟩ := slot_of_occupant here
      have unit := (ok'.inv.placed.latched eu s busy kept).euType
      rw [index, classify_fence fence.2] at unit
      subst unit
      exact idle s ⟨busy, kept⟩
  | station k =>
      obtain ⟨j, before⟩ := station fence k here
      obtain ⟨valid₀, key⟩ := behind.keys i valid
      have same := (behind.keys _ validHead).2
      refine grouped fence₀ j before i valid₀ ?_
      unfold Trails at trails ⊢
      rw [← head, ← show (o'.rob o'.robHead).seq = (o.rob o'.robHead).seq from (Prod.ext_iff.mp same).1,
        ← show (o'.rob i).seq = (o.rob i).seq from (Prod.ext_iff.mp key).1]
      exact trails

theorem issueAll_rob (slots : List (EU × Fin 2)) (o : OOOState) :
    (issueAll slots o).rob = o.rob ∧ (issueAll slots o).robCount = o.robCount := by
  induction slots generalizing o with
  | nil => exact ⟨rfl, rfl⟩
  | cons p rest ih =>
      have first : (OOOState.issueSlot p.1 o p.2).rob = o.rob ∧ (OOOState.issueSlot p.1 o p.2).robCount = o.robCount := by
        unfold OOOState.issueSlot
        split
        · exact ⟨rfl, rfl⟩
        · split <;> exact ⟨rfl, rfl⟩
      exact ⟨(ih _).1.trans first.1, (ih _).2.trans first.2⟩

/-- Issue takes a fence out of its station. -/
theorem Ok.fence_issues (ok : o.Ok) (idle : o.IntIdle) (fence : o.stageIs.HeadFence) (k : RsIdx) :
    o.stageIs.occupant (.station k) ≠ some o.stageIs.robHead := by
  intro after
  rw [stageIs_eq] at after fence
  have nears := nears_issueAll issueOrder o
  have live : o.robCount ≠ 0 := by
    rw [← (issueAll_rob issueOrder o).2]
    exact fence.1
  have unit : classify (o.rob o.robHead).ir.raw = .int := by
    rw [← nears.unit live, ← nears.head]
    exact classify_fence fence.2
  have taken := ok.issueAll_taken live after (by decide) (s := 0) (by rw [unit]; decide)
  rw [unit] at taken
  refine idle 0 ⟨taken, ?_⟩
  cases flushed : (o.latch .int 0).flushed with
  | false => rfl
  | true => cases ok.inv.placed.flushed .int 0 flushed

end OOOState

namespace Engine

variable {σ β : Type} {vm : VMem σ} {cfg : OooConfig β} {e e' : Engine σ β}

/-- As long as a fence stays the oldest instruction, nothing commits. -/
theorem backSteps_nears (steps : ReflTransGen (BackStep vm cfg) e e') (ok : e.ooo.Ok) (serial : e.ooo.SerialOldest)
    (fence : e'.ooo.HeadFence) : e.ooo.Nears e'.ooo := by
  induction steps with
  | refl => exact .refl _
  | @tail b c before step ih =>
      have okB := backSteps_ok before ok
      have serialB : b.ooo.SerialOldest :=
        backSteps_keep (P := fun e => e.ooo.SerialOldest) (fun _ _ ok serial step => step.serialOldest ok serial) before
          ok serial
      obtain ⟨fenceB, head, _⟩ := (step.behind okB serialB).fence fence
      refine (ih fenceB).trans (step.nears okB fun commits => ?_)
      rw [commits.ooo, b.ooo.afterCommit_frame.head] at head
      exact absurd (add_eq_left.mp head) (by decide)

/-! ## The front end -/

/-- Everything in the reorder buffer was renamed from a number on. -/
structure Since (first : Nat) (e : Engine σ β) : Prop where
  next : first ≤ e.nextSeq
  entries : ∀ i, (e.ooo.rob i).valid = true → first ≤ (e.ooo.rob i).seq ∧ (e.ooo.rob i).seq < e.nextSeq

theorem FrontStep.since (step : e.FrontStep vm cfg e') {first : Nat} (since : e.Since first) : e'.Since first := by
  cases step with
  | rename valid inOrder alone room names renames =>
      refine ⟨Nat.le_succ_of_le since.next, fun i entry => ?_⟩
      rw [show _ = setAt e.ooo.rob e.ooo.robTail _ from renames.rob] at entry ⊢
      by_cases new : i = e.ooo.robTail
      · rw [new, setAt_self]
        exact ⟨since.next, Nat.lt_succ_self _⟩
      · rw [setAt_of_ne new] at entry ⊢
        obtain ⟨from_first, below⟩ := since.entries i entry
        exact ⟨from_first, Nat.lt_succ_of_lt below⟩
  | _ => exact ⟨since.next, since.entries⟩

theorem renameLoop_nextSeq {slots : List (Fin 2)} {used : Nat} (done : renameLoop slots used e = some e') :
    e'.nextSeq ≤ e.nextSeq + slots.length := by
  induction slots generalizing used e with
  | nil =>
      cases done
      exact Nat.le_refl _
  | cons n rest ih =>
      unfold renameLoop at done
      split at done
      · cases done
        exact Nat.le_add_right _ _
      · split at done
        · cases done
          exact Nat.le_add_right _ _
        · obtain ⟨e₁, one, later⟩ := Option.bind_eq_some_iff.mp done
          obtain ⟨o, _, rfl⟩ := Option.map_eq_some_iff.mp one
          have most := ih later
          rw [List.length_cons]
          dsimp only at most
          omega

/-- A call of `ooo_stage_rn` renames two instructions at most. -/
theorem stageRn_nextSeq (done : e.stageRn = some e') : e'.nextSeq ≤ e.nextSeq + 2 := by
  unfold stageRn at done
  split at done
  · cases done
    exact Nat.le_add_right _ _
  · obtain ⟨e₁, renamed, rfl⟩ := Option.map_eq_some_iff.mp done
    exact renameLoop_nextSeq renamed

theorem frontSteps_nears (steps : ReflTransGen (FrontStep vm cfg) e e') (ok : e.ooo.Ok) : e.ooo.Nears e'.ooo := by
  induction steps with
  | refl => exact .refl _
  | tail before step ih => exact ih.trans (step.nears (frontSteps_ok before ok))

/-- With every earlier fence out of its station, a fence in a station came with this group. -/
theorem stageRn_grouped (vm : VMem σ) (cfg : OooConfig β) (ok : e.ooo.Ok) (tidy : e.ooo.Tidy)
    (issued : e.ooo.HeadFence → ∀ k, e.ooo.occupant (.station k) ≠ some e.ooo.robHead) (done : e.stageRn = some e') :
    e'.ooo.Grouped := by
  have steps := (stageRn_steps vm cfg tidy done).1
  intro fence k station i valid
  have ok' := frontSteps_ok steps ok
  by_cases empty : e.ooo.robCount = 0
  · have since : e'.Since e.nextSeq := by
      clear done fence station valid ok'
      induction steps with
      | refl => exact ⟨Nat.le_refl _, fun i valid => absurd valid (ok.inv.dead empty i)⟩
      | tail _ step ih => exact step.since ih
    have most := stageRn_nextSeq done
    have head := since.entries _ (ok'.inv.renamed.head_valid fence.1)
    have entry := since.entries i valid
    unfold OOOState.Trails
    omega
  · have nears := frontSteps_nears steps ok
    obtain ⟨j, before⟩ := ok.station_before ok' empty nears station
    refine absurd before (issued ⟨empty, ?_⟩ j)
    have isFence := fence.2
    unfold ROBEntry.IsFence at isFence ⊢
    rwa [nears.head, nears.unit empty] at isFence

theorem stageId_grouped (grouped : e.ooo.Grouped) : e.stageId.ooo.Grouped := by
  unfold stageId
  dsimp only
  split
  · exact grouped
  · exact grouped.congr rfl rfl rfl rfl

theorem stageIf_grouped (grouped : e.ooo.Grouped) (done : e.stageIf vm cfg = some e') : e'.ooo.Grouped := by
  have loop : ∀ (slots : List (Fin 2)) (e : Engine σ β), e.ooo.Grouped → fetchLoop vm cfg slots e = some e' →
      e'.ooo.Grouped := by
    intro slots
    induction slots with
    | nil =>
        intro e grouped done
        cases done
        exact grouped
    | cons s rest ih =>
        intro e grouped done
        obtain ⟨⟨e₁, goesOn⟩, first, later⟩ := Option.bind_eq_some_iff.mp done
        have grouped₁ : e₁.ooo.Grouped := by
          rcases fetchSlot_cases first with ⟨_, _, same⟩ | ⟨ir, next, same⟩ <;> rw [same]
          · exact grouped.congr rfl rfl rfl rfl
          · exact grouped.congr rfl rfl rfl rfl
        dsimp only at later
        split at later
        · exact ih e₁ grouped₁ later
        · cases later
          exact grouped₁
  unfold stageIf at done
  split at done
  · cases done
    exact grouped
  · exact loop _ e grouped done

/-! ## Whole cycles -/

/-- What holds at every point of a cycle. -/
structure Guarded (e : Engine σ β) : Prop where
  ok : e.ooo.Ok
  ordered : InProgramOrder e
  fenced : e.ooo.Fenced
  clear : FillsClear e.log

theorem Guarded.congr (guarded : e.Guarded) (ooo : e'.ooo = e.ooo) (log : e'.log = e.log)
    (nextSeq : e'.nextSeq = e.nextSeq) : e'.Guarded := by
  obtain ⟨ok, ordered, fenced, clear⟩ := guarded
  refine ⟨ooo ▸ ok, ⟨ooo ▸ ordered.serial, ooo ▸ ordered.typed, ?_, ?_, log ▸ ordered.fences, ?_⟩,
    ooo ▸ fenced, log ▸ clear⟩
  · rw [ooo, log]
    exact ordered.stores
  · rw [ooo, log, nextSeq]
    exact ordered.numbered
  · rw [ooo, log, nextSeq]
    exact ordered.fills

/-- The back end keeps the loads in the load-store unit fenced. -/
theorem Fills.fenced (fills : e.Fills e') (guarded : e.Guarded) (ok : e'.ooo.Ok)
    (steps : ReflTransGen (BackStep vm cfg) e e') : e'.ooo.Fenced ∧ FillsClear e'.log := by
  have behind := backSteps_behind steps guarded.ok guarded.ordered.serial
  have key : ∀ i, (e'.ooo.rob i).valid = true → (e'.ooo.rob i).key = (e.ooo.rob i).key :=
    fun i valid => (behind.keys i valid).2
  constructor
  · intro fence s live load trails
    obtain ⟨fence₀, head, less⟩ := behind.fence fence
    obtain ⟨live₀, robIdx⟩ := fills.slots .lsu s live
    have entry := key _ (ok.inv.live_entry live).1
    have oldest := key _ (ok.inv.renamed.head_valid fence.1)
    refine Nat.eq_zero_of_le_zero (Nat.le_trans less (Nat.le_of_eq (guarded.fenced fence₀ s live₀ ?_ ?_)))
    · unfold OOOState.slotEntry at load ⊢
      rw [← robIdx]
      exact (isLoad_congr entry).symm.trans load
    · unfold OOOState.Trails at trails ⊢
      rw [← robIdx, ← head, ← show (e'.ooo.rob _).seq = (e.ooo.rob e'.ooo.robHead).seq from (Prod.ext_iff.mp oldest).1,
        ← show (e'.ooo.rob _).seq = (e.ooo.rob (e'.ooo.latch .lsu s).robIdx).seq from (Prod.ext_iff.mp entry).1]
      exact trails
  · intro before world i value member load fence trails
    rcases fills.fills before world i value member with old | new
    · exact guarded.clear before world i value old load fence trails
    · exact guarded.fenced.fill new load fence trails

theorem FrontStep.fenced (step : e.FrontStep vm cfg e') (guarded : e.Guarded) : e'.ooo.Fenced := by
  cases step with
  | rename valid inOrder alone room names renames =>
      rename_i n slot o
      intro fence s live load trails
      have before : e.ooo.Live .lsu s := by
        obtain ⟨valid, kept⟩ := live
        exact ⟨renames.latch ▸ valid, renames.latch ▸ kept⟩
      have entry := (guarded.ok.inv.live_entry before).1
      have inside := (guarded.ok.inv.renamed.valid _).mp entry
      have running : e.ooo.robCount ≠ 0 := Nat.ne_of_gt (Nat.lt_of_le_of_lt (Nat.zero_le _) inside)
      have oldest : o.rob o.robHead = e.ooo.rob e.ooo.robHead := renames.head_entry guarded.ok.inv room running
      have isFence : e.ooo.HeadFence := by
        refine ⟨running, ?_⟩
        rw [← oldest]
        exact fence.2
      have same : o.rob (o.latch .lsu s).robIdx = e.ooo.slotEntry .lsu s := by
        rw [renames.latch, renames.rob, setAt_of_ne]
        · rfl
        · intro last
          rw [last, OOOState.pos, guarded.ok.inv.renamed.tail, age_add _ room] at inside
          exact absurd inside (Nat.lt_irrefl _)
      have none := guarded.fenced isFence s before (same ▸ load) (by
        have apart : (o.rob o.robHead).seq + 2 ≤ (o.rob (o.latch .lsu s).robIdx).seq := trails
        rw [oldest, same] at apart
        exact apart)
      exact renames.sbuf.2.2.2.trans none
  | _ => exact guarded.fenced.congr rfl rfl rfl rfl fun _ live load _ _ _ => ⟨⟨live.valid, live.kept⟩, rfl⟩

theorem FrontStep.guarded (step : e.FrontStep vm cfg e') (guarded : e.Guarded) : e'.Guarded :=
  ⟨step.ok guarded.ok, step.inProgramOrder guarded.ok guarded.ordered, step.fenced guarded,
    fun before world i value member => guarded.clear before world i value (step.idles.fills before world i value member)⟩

theorem frontSteps_guarded (steps : ReflTransGen (FrontStep vm cfg) e e') (guarded : e.Guarded) : e'.Guarded := by
  induction steps with
  | refl => exact guarded
  | tail _ step ih => exact step.guarded ih

theorem backSteps_ordered (steps : ReflTransGen (BackStep vm cfg) e e') (guarded : e.Guarded) : InProgramOrder e' :=
  backSteps_keep (P := InProgramOrder) (fun _ _ ok ordered step => step.inProgramOrder ok ordered) steps
    guarded.ok guarded.ordered

theorem backSteps_guarded (steps : ReflTransGen (BackStep vm cfg) e e') (guarded : e.Guarded) (fills : e.Fills e') :
    e'.Guarded := by
  have ok := backSteps_ok steps guarded.ok
  obtain ⟨fenced, clear⟩ := fills.fenced guarded ok steps
  exact ⟨ok, backSteps_ordered steps guarded, fenced, clear⟩

/-- A part of a cycle that issues nothing. -/
structure Held (vm : VMem σ) (cfg : OooConfig β) (e e' : Engine σ β) : Prop where
  steps : ReflTransGen (BackStep vm cfg) e e'
  guarded : e'.Guarded
  slots : e.ooo.NoneIssued e'.ooo

theorem Held.trans {e₁ : Engine σ β} (first : Held vm cfg e e₁) (second : Held vm cfg e₁ e') : Held vm cfg e e' :=
  ⟨first.steps.trans second.steps, second.guarded, first.slots.trans second.slots⟩

theorem Fills.held (fills : e.Fills e') (guarded : e.Guarded) (steps : ReflTransGen (BackStep vm cfg) e e') :
    Held vm cfg e e' :=
  ⟨steps, backSteps_guarded steps guarded fills, fills.slots⟩

theorem drainStoreBuf_held (guarded : e.Guarded) (done : e.drainStoreBuf vm cfg = some e') : Held vm cfg e e' :=
  (drainStoreBuf_idles done).fill.held guarded (drainStoreBuf_steps done)

theorem stageCommit_held (guarded : e.Guarded) (done : e.stageCommit vm cfg = some e') : Held vm cfg e e' := by
  have idles : e.Idles e' := by
    refine Idles.trans ?_ (commitLoop_idles done)
    exact .same (.same rfl) rfl
  exact idles.fill.held guarded (stageCommit_steps done)

theorem mshrTick_held (guarded : e.Guarded) : Held vm cfg e { e with ooo := e.ooo.mshrTick } := by
  have idles : e.Idles { e with ooo := e.ooo.mshrTick } := .same (.same rfl) rfl
  exact idles.fill.held guarded (.single (mshrTick_step e))

theorem slot_held (guarded : e.Guarded) {eu : EU} {s : Fin 2} (done : (Phase.slot eu s).step vm cfg e = some e') :
    Held vm cfg e e' := by
  cases eu with
  | int => exact (intSlot_idles done).fill.held guarded (intSlot_steps guarded.ok done)
  | mul =>
      have steps : ReflTransGen (BackStep vm cfg) e e' := mulSlot_steps guarded.ok done
      exact (mulSlot_idles guarded.ok done).fill.held guarded steps
  | lsu =>
      have steps : ReflTransGen (BackStep vm cfg) e e' := lsuSlot_steps guarded.ok done
      exact (lsuSlot_fills cfg guarded.ok done).held guarded steps

/-- The INT unit takes one visit. -/
theorem intSlot_idle {s : Fin 2} (done : e.intSlot vm cfg s = some e') : ¬e'.ooo.Live .int s := by
  intro live
  obtain ⟨before, less | ⟨_, other, _⟩⟩ := (intSlot_visits done).own.slot live.valid
  · have left := OOOState.slotRem_pos live.valid
    rw [show e.ooo.slotRem .int s = 1 from if_pos before] at less
    omega
  · cases other

theorem visitAll_held {slots : List (EU × Fin 2)} (guarded : e.Guarded) (done : visitAll vm cfg slots e = some e') :
    Held vm cfg e e' ∧ ∀ s, (.int, s) ∈ slots → ¬e'.ooo.Live .int s := by
  induction slots generalizing e with
  | nil =>
      cases done
      exact ⟨⟨.refl, guarded, .same rfl⟩, fun s member => absurd member List.not_mem_nil⟩
  | cons p rest ih =>
      obtain ⟨e₁, first, later⟩ := Option.bind_eq_some_iff.mp done
      have held := slot_held guarded first
      obtain ⟨held', idle⟩ := ih held.guarded later
      refine ⟨held.trans held', fun s member live => ?_⟩
      rcases List.mem_cons.mp member with rfl | member
      · exact intSlot_idle first (held'.slots .int s live).1
      · exact idle s member live

/-- A whole cycle keeps the loads fenced. -/
theorem cycle_guarded (guarded : e.Guarded) (tidy : e.ooo.Tidy) (grouped : e.ooo.Grouped)
    (done : e.cycle vm cfg = some e') : e'.Guarded ∧ e'.ooo.Tidy ∧ e'.ooo.Grouped := by
  have tidy' : e'.ooo.Tidy := (cycle_steps guarded.ok tidy done).choose_spec.2.2
  rw [cycle_eq_visits] at done
  obtain ⟨e₁, drained, done⟩ := Option.bind_eq_some_iff.mp done
  obtain ⟨e₂, committed, done⟩ := Option.bind_eq_some_iff.mp done
  obtain ⟨e₃, visited, done⟩ := Option.bind_eq_some_iff.mp done
  obtain ⟨e₄, renamed, done⟩ := Option.bind_eq_some_iff.mp done
  obtain ⟨e₅, fetched, done⟩ := Option.bind_eq_some_iff.mp done
  cases done
  have held₁ := drainStoreBuf_held guarded drained
  have held₂ := held₁.trans (stageCommit_held held₁.guarded committed)
  have heldT := held₂.trans (mshrTick_held held₂.guarded)
  obtain ⟨visits, slots⟩ := visitAll_held heldT.guarded visited
  have held₃ := heldT.trans visits
  have guarded₃ := held₃.guarded
  have idle : e₃.ooo.IntIdle := by
    intro s
    refine slots s ?_
    match s with
    | 0 => decide
    | 1 => decide
  have spaced : e₃.ooo.Spaced := by
    refine grouped.spaced guarded₃.ok (backSteps_behind held₃.steps guarded.ok guarded.ordered.serial) idle fun fence k here => ?_
    have nears := backSteps_nears held₃.steps guarded.ok guarded.ordered.serial fence
    obtain ⟨before, _, _⟩ := (backSteps_behind held₃.steps guarded.ok guarded.ordered.serial).fence fence
    exact guarded.ok.station_before guarded₃.ok before.1 nears here
  have issues : ReflTransGen (BackStep vm cfg) e₃ { e₃ with ooo := e₃.ooo.stageIs } := stageIs_steps e₃
  have issued : Guarded { e₃ with ooo := e₃.ooo.stageIs } :=
    ⟨backSteps_ok issues guarded₃.ok, backSteps_ordered issues guarded₃,
      guarded₃.fenced.stageIs guarded₃.ok guarded₃.ordered.typed spaced, guarded₃.clear⟩
  have tidyIs : e₃.ooo.stageIs.Tidy := backSteps_tidy (held₃.steps.trans issues) tidy
  have grouped₄ := stageRn_grouped vm cfg issued.ok tidyIs (guarded₃.ok.fence_issues idle) renamed
  have guarded₄ := frontSteps_guarded (stageRn_steps vm cfg tidyIs renamed).1 issued
  have tidy₄ := (stageRn_steps vm cfg tidyIs renamed).2
  have guardedId := frontSteps_guarded (stageId_steps vm cfg guarded₄.ok tidy₄).1 guarded₄
  have guarded₅ := frontSteps_guarded (stageIf_steps guardedId.ok fetched).1 guardedId
  have grouped₅ := stageIf_grouped (stageId_grouped grouped₄) fetched
  exact ⟨(show FrontStep vm cfg _ _ from .tick).guarded guarded₅, tidy', grouped₅⟩

end Engine

namespace OooDual

variable {σ β : Type} {vm : VMem σ} {cfg : OooConfig β} {m m' : OooDual σ β}

theorem coreCycle_guarded {h : Fin 2}
    (guarded : ∀ h', (m.engine h').Guarded ∧ (m.engine h').ooo.Tidy ∧ (m.engine h').ooo.Grouped)
    (done : m.coreCycle vm cfg h = some m') (h' : Fin 2) :
    (m'.engine h').Guarded ∧ (m'.engine h').ooo.Tidy ∧ (m'.engine h').ooo.Grouped := by
  obtain ⟨e, cycled, rfl⟩ := Option.map_eq_some_iff.mp done
  by_cases same : h' = h
  · subst same
    obtain ⟨guarded₀, tidy₀, grouped₀⟩ := guarded h'
    obtain ⟨guarded', tidy', grouped'⟩ := Engine.cycle_guarded guarded₀ tidy₀ grouped₀ cycled
    obtain ⟨ooo, log⟩ := engine_save_self m h' e
    exact ⟨guarded'.congr ooo log (by simp [engine, save]), ooo ▸ tidy', ooo ▸ grouped'⟩
  · obtain ⟨guarded₀, tidy₀, grouped₀⟩ := guarded h'
    obtain ⟨ooo, log⟩ := engine_save_other m same e
    exact ⟨guarded₀.congr ooo log (by simp [engine, save, setAt_of_ne same]), ooo ▸ tidy₀, ooo ▸ grouped₀⟩

theorem run_guarded {schedule : List (Fin 2)}
    (guarded : ∀ h, (m.engine h).Guarded ∧ (m.engine h).ooo.Tidy ∧ (m.engine h).ooo.Grouped)
    (done : m.run vm cfg schedule = some m') (h : Fin 2) : (m'.engine h).Guarded := by
  induction schedule generalizing m with
  | nil =>
      cases done
      exact (guarded h).1
  | cons first rest ih =>
      obtain ⟨m₁, stepped, done⟩ := Option.bind_eq_some_iff.mp done
      exact ih (coreCycle_guarded guarded stepped) done

theorem init_guarded (cfg : OooConfig β) (arch : Fin 2 → CoreArch) (world : World σ) (bpred : Fin 2 → β) (h : Fin 2) :
    ((init cfg arch world bpred).engine h).Guarded ∧ ((init cfg arch world bpred).engine h).ooo.Tidy ∧
      ((init cfg arch world bpred).engine h).ooo.Grouped := by
  refine ⟨⟨oooInit_ok _, ⟨?_, ?_, oooInit_storesKept _, ?_, recorded_nil, recorded_nil⟩, ?_, ?_⟩, oooInit_tidy _, ?_⟩
  · exact fun i valid => absurd valid Bool.false_ne_true
  · exact fun i valid => absurd valid Bool.false_ne_true
  · exact ⟨List.Pairwise.nil, fun x member => absurd member List.not_mem_nil⟩
  · exact fun fence => absurd rfl fence.1
  · exact fun before world i value member => absurd member List.not_mem_nil
  · exact fun fence => absurd rfl fence.1

end OooDual

/-- In every run of two harts a committed fence orders the stores in front of it before every load behind it, except
the instruction right after it. -/
theorem fence_orders_loads {σ β : Type} (vm : VMem σ) (cfg : OooConfig β) (arch : Fin 2 → CoreArch) (world : World σ)
    (bpred : Fin 2 → β) (schedule : List (Fin 2)) (m : OooDual σ β)
    (done : OooDual.run vm cfg schedule (.init cfg arch world bpred) = some m) (h : Fin 2) :
    FenceOrders 2 (m.core h).log := by
  have guarded := OooDual.run_guarded (OooDual.init_guarded cfg arch world bpred) done h
  exact guarded.ordered.fenceOrders guarded.clear

/-- Two harts at reset with a program at the reset address and different addresses in `x5`. -/
def fenceStart (words : List Raw) : OooDual (MemState Unit) Unit :=
  .init .duo (fun h => .save ⟨RegFile.empty.set 5 (0x80000100 + BitVec.ofNat 64 (0x400 * h.val)), mbase⟩ Sys.init)
    ⟨Sys.init, MemState.init (image words) ()⟩ fun _ => ()

/-- Rounds in which either hart gets one cycle. -/
def rounds (n : Nat) : List (Fin 2) := (List.replicate n [0, 1]).flatten

/-- `sd x0, 0(x5)`, `fence`, `nop`, `ld x7, 8(x5)`: the load is not the instruction right after the fence. -/
theorem fence_orders_loads_apart : ∃ m, (fenceStart [0x0002b023, 0x0000000f, 0x00000013, 0x0082b383]).run
      (hierarchy (.plain 2)) .duo (rounds 12) = some m ∧
    ((commits (m.core 0).log)[3]?.any fun entry => entry.isLoad) = true ∧ (drains (m.core 0).log).length = 1 ∧
    FenceOrders 2 (m.core 0).log := by
  have ran : ((fenceStart [0x0002b023, 0x0000000f, 0x00000013, 0x0082b383]).run (hierarchy (.plain 2)) .duo
      (rounds 12)).any (fun m => ((commits (m.core 0).log)[3]?.any fun entry => entry.isLoad) &&
        (drains (m.core 0).log).length == 1) = true := by decide +kernel
  obtain ⟨m, done, facts⟩ := (Option.any_eq_true _ _).mp ran
  obtain ⟨load, drained⟩ := Bool.and_eq_true_iff.mp facts
  have orders := fence_orders_loads (hierarchy (.plain 2)) .duo _ _ _ (rounds 12) m done 0
  exact ⟨m, done, load, beq_iff_eq.mp drained, orders⟩

/-- `sd x0, 0(x5)` twice, `fence`, `ld x7, 8(x5)`: renamed together with the fence, the load reads while the second
store is still buffered, and commits. -/
theorem fence_passed : ∃ m, (fenceStart [0x0002b023, 0x0002b023, 0x0000000f, 0x0082b383]).run
      (hierarchy (.plain 2)) .duo (rounds 15) = some m ∧ ¬FenceOrders 1 (m.core 0).log := by
  have ran : ((fenceStart [0x0002b023, 0x0002b023, 0x0000000f, 0x0082b383]).run (hierarchy (.plain 2)) .duo
      (rounds 15)).any (fun m =>
        ((m.core 0).log[4]?.bind Event.filled == some 3) &&
          ((commits (m.core 0).log)[2]?.any fun entry => decide entry.IsFence) &&
          ((commits (m.core 0).log)[3]?.any fun entry => entry.isLoad && entry.seq == 3) &&
          (((commits (m.core 0).log).take 2).filterMap ROBEntry.cacheableStore).length == 2 &&
          (drains ((m.core 0).log.take 4)).length == 1) = true := by decide +kernel
  obtain ⟨m, done, facts⟩ := (Option.any_eq_true _ _).mp ran
  simp only [Bool.and_eq_true, beq_iff_eq] at facts
  obtain ⟨⟨⟨⟨filled, fence⟩, load⟩, stores⟩, drained⟩ := facts
  obtain ⟨fence, atFence, isFence⟩ := (Option.any_eq_true _ _).mp fence
  obtain ⟨load, atLoad, isLoad⟩ := (Option.any_eq_true _ _).mp load
  obtain ⟨isLoad, number⟩ := Bool.and_eq_true_iff.mp isLoad
  refine ⟨m, done, fun orders => ?_⟩
  have all := (orders 4 2 3 (by decide) fence atFence (of_decide_eq_true isFence) load atLoad isLoad
    (by rw [beq_iff_eq.mp number]; exact filled)).length_le
  rw [stores, List.length_map, drained] at all
  exact absurd all (by decide)

end Sustemu
