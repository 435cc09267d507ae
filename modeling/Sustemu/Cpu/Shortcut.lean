import Sustemu.Cpu.Counters
import Sustemu.Isa.Pmp
import Sustemu.Lib.Alike
import Mathlib.Algebra.BigOperators.Fin
import Mathlib.Algebra.Order.BigOperators.Group.Finset

/-!
# The count of active PMP entries

`pmp_check` skips its scan in machine mode while no entry is active. It learns
this from a count that is not swapped with the entries of a hart: the count is
that of both harts together, and a zero therefore says something about each of
them.
-/

set_option autoImplicit false

namespace Sustemu

open Lib

/-! ## One hart -/

/-- The scan of `pmp_check`, without the shortcut. -/
def pmpScan (sys : Sys) (addr : Word) (isExecute isWrite : Bool) : Bool :=
  let matching := (List.finRange 8).find? fun i =>
    pmpField (sys.pmpcfg i) != 0 && decide ((pmpRange sys i).1 ≤ addr) && decide (addr < (pmpRange sys i).2)
  match matching with
  | some i => pmpGrants sys (sys.pmpcfg i) isExecute isWrite
  | none => decide (sys.privLevel = machineLevel)

theorem pmpCheck_scan (sys : Sys) (addr : Word) (isExecute isWrite : Bool) : (pmpCheck sys addr isExecute isWrite).1 =
    if sys.pmpOnCount = 0 ∧ sys.privLevel = machineLevel then true else pmpScan sys addr isExecute isWrite := by
  unfold pmpCheck pmpScan
  simp only
  generalize (List.finRange 8).find? _ = matching
  split
  · rfl
  · cases matching with
    | some i =>
        simp only
        split
        · next granted => exact granted.symm
        · next denied => exact (Bool.eq_false_iff.mpr denied).symm
    | none =>
        simp only
        split
        · next machine => exact (decide_eq_true machine).symm
        · next below => exact (decide_eq_false below).symm

/-- Where `pmp_check` takes the shortcut, the scan would grant the access too. -/
def Sys.ShortcutSound (sys : Sys) : Prop :=
  sys.pmpOnCount = 0 → sys.privLevel = machineLevel → ∀ addr isExecute isWrite, pmpScan sys addr isExecute isWrite = true

/-- The entries of a hart that are on. -/
def pmpActive (pmpcfg : Fin 8 → BitVec 8) : Nat := ∑ i, if pmpField (pmpcfg i) = 0 then 0 else 1

theorem pmpActive_le (pmpcfg : Fin 8 → BitVec 8) : pmpActive pmpcfg ≤ 8 := by
  have each : ∀ i ∈ Finset.univ, (if pmpField (pmpcfg i) = 0 then 0 else 1) ≤ 1 := by
    intro i _
    split <;> decide
  exact Finset.sum_le_card_nsmul _ _ 1 each

theorem pmpActive_update (pmpcfg : Fin 8 → BitVec 8) (id : Fin 8) (data : BitVec 8) :
    pmpActive (setAt pmpcfg id data) + (if pmpField (pmpcfg id) = 0 then 0 else 1) =
      pmpActive pmpcfg + (if pmpField data = 0 then 0 else 1) := by
  unfold pmpActive
  have others : ∑ i ∈ {id}ᶜ, (if pmpField (setAt pmpcfg id data i) = 0 then 0 else 1) =
      ∑ i ∈ {id}ᶜ, if pmpField (pmpcfg i) = 0 then 0 else 1 := by
    apply Finset.sum_congr rfl
    intro i other
    rw [setAt_of_ne (by simpa using other)]
  rw [Fintype.sum_eq_add_sum_compl id, Fintype.sum_eq_add_sum_compl id, others, setAt_self]
  omega

/-- With no entry on, the scan finds none. -/
theorem pmpScan_inactive {sys : Sys} (inactive : pmpActive sys.pmpcfg = 0) (machine : sys.privLevel = machineLevel)
    (addr : Word) (isExecute isWrite : Bool) : pmpScan sys addr isExecute isWrite = true := by
  have off : ∀ i, pmpField (sys.pmpcfg i) = 0 := by
    intro i
    have zero := Finset.sum_eq_zero_iff.mp inactive i (Finset.mem_univ i)
    by_contra on
    rw [if_neg on] at zero
    cases zero
  have none : (List.finRange 8).find? (fun i => pmpField (sys.pmpcfg i) != 0 && decide ((pmpRange sys i).1 ≤ addr) &&
      decide (addr < (pmpRange sys i).2)) = none := by
    apply List.find?_eq_none.mpr
    intro i _
    simp [off i]
  unfold pmpScan
  rw [none]
  exact decide_eq_true machine

/-- The count is right for the entries installed and `others` more. -/
def Sys.Counts (others : Nat) (sys : Sys) : Prop := sys.pmpOnCount = BitVec.ofNat 8 (pmpActive sys.pmpcfg + others)

theorem Sys.Counts.shortcutSound {others : Nat} {sys : Sys} (counts : sys.Counts others) (few : others ≤ 8) :
    sys.ShortcutSound := by
  intro shortcut machine
  have value : (pmpActive sys.pmpcfg + others) % 256 = 0 := by
    rw [counts] at shortcut
    exact congrArg BitVec.toNat shortcut
  have active := pmpActive_le sys.pmpcfg
  exact pmpScan_inactive (by omega) machine

/-- Switching entries on and off is counted. -/
theorem Sys.closed_counts (others : Nat) : Sys.Closed (Sys.Counts others) where
  abort := fun counts => counts
  registers := fun counts _ _ _ => counts
  configured := by
    intro sys counts id data
    unfold Sys.Counts at counts
    unfold setPmpcfg
    split
    · next inside =>
        have active := pmpActive_update sys.pmpcfg ⟨id, inside⟩ data
        have plus : ∀ n : Nat, BitVec.ofNat 8 (n + 1) = BitVec.ofNat 8 n + 1 := fun n => BitVec.ofNat_add n 1
        simp only [isPmpOn, setAt_self, Bool.and_eq_true, Bool.not_eq_true', bne_iff_ne, bne_eq_false_iff_eq]
        split
        · next off =>
            rw [if_neg off.1, if_pos off.2, Nat.add_zero (pmpActive sys.pmpcfg)] at active
            change sys.pmpOnCount - 1 = BitVec.ofNat 8 (pmpActive (setAt sys.pmpcfg ⟨id, inside⟩ data) + others)
            rw [counts, ← active, Nat.add_right_comm, plus, BitVec.add_sub_cancel]
        · split
          · next on =>
              rw [if_pos on.1, if_neg on.2, Nat.add_zero] at active
              change sys.pmpOnCount + 1 = BitVec.ofNat 8 (pmpActive (setAt sys.pmpcfg ⟨id, inside⟩ data) + others)
              rw [counts, active, Nat.add_right_comm, plus]
          · next notOff notOn =>
              have same : (if pmpField (sys.pmpcfg ⟨id, inside⟩) = 0 then 0 else 1) = if pmpField data = 0 then 0 else 1 := by
                by_cases off : pmpField data = 0
                · have before : pmpField (sys.pmpcfg ⟨id, inside⟩) = 0 := by
                    by_contra on
                    exact notOff ⟨on, off⟩
                  rw [if_pos before, if_pos off]
                · have before : pmpField (sys.pmpcfg ⟨id, inside⟩) ≠ 0 := fun on => notOn ⟨on, off⟩
                  rw [if_neg before, if_neg off]
              rw [same, Nat.add_right_cancel_iff] at active
              change sys.pmpOnCount = BitVec.ofNat 8 (pmpActive (setAt sys.pmpcfg ⟨id, inside⟩ data) + others)
              rw [counts, active]
    · exact counts

/-! ## Memory that audits its calls -/

/-- What is asked of the globals at every call of the memory system. Nothing is, once `PMPCFG2` has been written outside
the array of entries. -/
def Sys.Audited (sys : Sys) : Prop := sys.outOfBounds = true ∨ sys.ShortcutSound

open Classical in
/-- A memory system that refuses every call whose `pmp_check` would take the shortcut wrongly. -/
noncomputable def VMem.audited {σ : Type} (vm : VMem σ) : VMem σ where
  ifetch := fun w addr len => if w.sys.Audited then vm.ifetch w addr len else none
  read := fun w addr len => if w.sys.Audited then vm.read w addr len else none
  readLevel := fun w addr len => if w.sys.Audited then vm.readLevel w addr len else none
  probeLevel := vm.probeLevel
  fillAndRead := fun w addr len => if w.sys.Audited then vm.fillAndRead w addr len else none
  write := fun w addr len data => if w.sys.Audited then vm.write w addr len data else none
  perf := vm.perf

/-- Two memory systems that answer alike as long as the globals satisfy `P`, which they keep. -/
structure VMem.Alike {σ : Type} (vm vm' : VMem σ) (P : Sys → Prop) : Prop where
  ifetch : ∀ {w}, P w.sys → ∀ addr len, Lib.Alike (vm.ifetch w addr len) (vm'.ifetch w addr len) fun r => P r.2.sys
  read : ∀ {w}, P w.sys → ∀ addr len, Lib.Alike (vm.read w addr len) (vm'.read w addr len) fun r => P r.2.sys
  readLevel : ∀ {w}, P w.sys → ∀ addr len,
    Lib.Alike (vm.readLevel w addr len) (vm'.readLevel w addr len) fun r => P r.2.2.sys
  probeLevel : vm'.probeLevel = vm.probeLevel
  probed : ∀ w addr, (vm.probeLevel w addr).2.sys = w.sys
  fillAndRead : ∀ {w}, P w.sys → ∀ addr len,
    Lib.Alike (vm.fillAndRead w addr len) (vm'.fillAndRead w addr len) fun r => P r.2.sys
  write : ∀ {w}, P w.sys → ∀ addr len data, Lib.Alike (vm.write w addr len data) (vm'.write w addr len data) fun w' => P w'.sys
  perf : vm'.perf = vm.perf

/-- A property of the globals that whole cycles keep. -/
structure Sys.Lasting (P : Sys → Prop) : Prop extends Sys.Closed P where
  halted : ∀ {sys}, P sys → P { sys with state := .end }
  counted : ∀ {sys}, P sys → ∀ cycles instret, P { sys with simCycles := cycles, simInstret := instret }

theorem Sys.lasting_counts (others : Nat) : Sys.Lasting (Sys.Counts others) where
  toClosed := Sys.closed_counts others
  halted := fun counts => counts
  counted := fun counts _ _ => counts

theorem Sys.Lasting.irExecute_alike {P : Sys → Prop} (lasting : Sys.Lasting P) {sys : Sys} (holds : P sys) (perf : Perf)
    (ir : IRInst) : Alike (irExecute perf ir sys) (irExecute perf ir sys) fun r => P r.2 :=
  .refl fun executed => lasting.irExecute holds (fun _ => lasting.halted holds) executed

/-- The audit passes where the count is right. -/
theorem VMem.audited_alike {σ : Type} {vm : VMem σ} (reports : vm.Reports) {others : Nat} (few : others ≤ 8) :
    vm.Alike vm.audited (Sys.Counts others) := by
  have audited : ∀ {sys : Sys}, sys.Counts others → sys.Audited := fun counts => .inr (counts.shortcutSound few)
  have kept : ∀ {sys sys' : Sys}, sys.Reported sys' → sys.Counts others → sys'.Counts others :=
    (Sys.closed_counts others).reported
  constructor
  · intro w counts addr len
    exact ⟨if_pos (audited counts), fun done => kept (reports.ifetch done) counts⟩
  · intro w counts addr len
    exact ⟨if_pos (audited counts), fun done => kept (reports.read done) counts⟩
  · intro w counts addr len
    exact ⟨if_pos (audited counts), fun done => kept (reports.readLevel done) counts⟩
  · rfl
  · exact reports.probeLevel
  · intro w counts addr len
    exact ⟨if_pos (audited counts), fun done => kept (reports.fillAndRead done) counts⟩
  · intro w counts addr len data
    exact ⟨if_pos (audited counts), fun done => kept (reports.write done) counts⟩
  · rfl

section Stages

variable {σ β : Type} {vm vm' : VMem σ} {P : Sys → Prop} (agree : vm.Alike vm' P) (lasting : Sys.Lasting P)

/-! ## Functional mode -/

include agree in
theorem irMemAccess_alike {w : World σ} (holds : P w.sys) (ir : IRInst) :
    Alike (irMemAccess vm ir w) (irMemAccess vm' ir w) fun r => P r.2.sys := by
  unfold irMemAccess
  split
  · exact (agree.read holds _ _).map fun _ kept => kept
  · exact (agree.write holds _ _ _).map fun _ kept => kept
  · exact .pure holds

include agree lasting in
theorem execOnce_alike {m : Machine σ} (holds : P m.world.sys) (stack : IRInst) :
    Alike (execOnce vm stack m) (execOnce vm' stack m) fun r => P r.2.world.sys := by
  have checked := lasting.reported (pmpCheck_reported m.world.sys m.cpu.pc true false) holds
  unfold execOnce
  rw [agree.perf]
  refine (agree.ifetch checked _ _).bind fun ⟨raw, w⟩ fetched => ?_
  refine (lasting.irExecute_alike fetched _ _).bind fun ⟨ir, sys⟩ executed => ?_
  refine (irMemAccess_alike agree executed ir).bind fun ⟨ir, w⟩ accessed => ?_
  exact .pure (lasting.counted accessed _ _)

/-! ## In-order mode -/

namespace Inorder

variable {cfg : PipeConfig β} {e : Inorder σ β}

include agree lasting in
theorem difftestStep_alike (holds : P e.world.sys) (committed : IRInst) :
    Alike (difftestStep vm cfg committed e) (difftestStep vm' cfg committed e) fun e => P e.world.sys := by
  unfold difftestStep
  dsimp only
  split
  · split
    · exact .none
    · refine Alike.bind (P := fun r => P r.2.sys) ?_ fun ⟨ir, world⟩ kept => ?_
      · unfold difftestRef
        rw [agree.perf]
        refine (lasting.irExecute_alike holds _ _).bind fun ⟨ir, sys⟩ executed => ?_
        exact irMemAccess_alike agree executed ir
      · dsimp only
        split
        · split
          · exact .pure kept
          · split
            · exact .none
            · exact .pure kept
        · exact .pure kept
  · exact .pure holds

include agree lasting in
theorem stageWB_alike (holds : P e.world.sys) : Alike (stageWB vm cfg e) (stageWB vm' cfg e) fun e => P e.world.sys := by
  unfold stageWB
  dsimp only
  split
  · exact (difftestStep_alike agree lasting holds _).map fun _ kept => kept
  · exact .pure holds

theorem accessed_world (e : Inorder σ β) (ir : IRInst) : (e.accessed ir).world = e.world := by
  unfold accessed
  split <;> rfl

theorem missed_world (e : Inorder σ β) (ir : IRInst) (lat : Nat) : (e.missed ir lat).world = e.world := by
  unfold missed
  split <;> rfl

theorem resolved_world (e : Inorder σ β) (ir : IRInst) : (e.resolved cfg ir).world = e.world := by
  unfold resolved
  split
  · dsimp only
    split <;> split <;> rfl
  · split <;> rfl

include agree in
theorem stageMEM_alike (holds : P e.world.sys) : Alike (stageMEM vm e) (stageMEM vm' e) fun e => P e.world.sys := by
  have access : ∀ ir, Alike (irMemAccessLat vm ir e.world) (irMemAccessLat vm' ir e.world) fun r => P r.2.2.sys := by
    intro ir
    unfold irMemAccessLat
    split
    · exact (agree.readLevel holds _ _).map fun _ kept => kept
    · exact (agree.write holds _ _ _).map fun _ kept => kept
    · exact .pure holds
  unfold stageMEM
  dsimp only
  split
  · refine (access _).map fun ⟨ir, lat, world⟩ kept => ?_
    rw [missed_world, accessed_world]
    exact kept
  · exact .pure holds

include agree lasting in
theorem stageEX_alike (holds : P e.world.sys) : Alike (stageEX vm cfg e) (stageEX vm' cfg e) fun e => P e.world.sys := by
  unfold stageEX
  rw [agree.perf]
  dsimp only
  split
  · refine (lasting.irExecute_alike holds _ _).map fun ⟨ir, sys⟩ executed => ?_
    rw [resolved_world]
    change P (if ir.fault then sys.abort else sys)
    split
    · exact lasting.abort executed
    · exact executed
  · exact .pure holds

theorem stageID_world (e : Inorder σ β) : (stageID e).1.world = e.world := by
  unfold stageID
  dsimp only
  split
  · split <;> rfl
  · rfl

include agree in
theorem stageIF_alike (holds : P e.world.sys) (stalled : Bool) :
    Alike (stageIF vm cfg stalled e) (stageIF vm' cfg stalled e) fun e => P e.world.sys := by
  unfold stageIF
  split
  · exact .pure holds
  · exact (agree.ifetch holds _ _).map fun _ kept => kept

include agree lasting in
theorem pipelineCycleCore_alike (holds : P e.world.sys) :
    Alike (pipelineCycleCore vm cfg e) (pipelineCycleCore vm' cfg e) fun e => P e.world.sys := by
  unfold pipelineCycleCore
  refine Alike.map (P := fun e => P e.world.sys) ?_ fun e kept => lasting.counted kept _ _
  split
  · exact .pure holds
  · unfold stages
    refine (stageWB_alike agree lasting holds).bind fun e₁ written => ?_
    refine (stageMEM_alike agree written).bind fun e₂ accessed => ?_
    refine (stageEX_alike agree lasting accessed).bind fun e₃ executed => ?_
    have decoded : P (stageID e₃).1.world.sys := by
      rw [stageID_world]
      exact executed
    exact (stageIF_alike agree decoded _).bind fun e₄ fetched => .pure fetched

end Inorder

/-! ## Out-of-order mode -/

namespace Engine

variable {cfg : OooConfig β} {e : Engine σ β}

include agree in
theorem drainStoreBuf_alike (holds : P e.world.sys) :
    Alike (e.drainStoreBuf vm cfg) (e.drainStoreBuf vm' cfg) fun e => P e.world.sys := by
  unfold drainStoreBuf
  dsimp only
  split
  · exact .pure holds
  · split
    · exact .pure holds
    · exact (agree.write holds _ _ _).map fun _ kept => kept

include agree lasting in
theorem difftestStep_alike (holds : P e.world.sys) :
    Alike (e.difftestStep vm cfg) (e.difftestStep vm' cfg) fun e => P e.world.sys := by
  unfold difftestStep
  rw [agree.perf]
  refine (agree.read holds _ _).bind fun ⟨raw, w⟩ fetched => ?_
  refine (lasting.irExecute_alike fetched _ _).bind fun ⟨ir, sys⟩ executed => ?_
  dsimp only
  split
  · exact (irMemAccess_alike agree executed _).bind fun _ accessed => .pure accessed
  · exact .pure executed

include agree lasting in
theorem difftestCheck_alike (holds : P e.world.sys) (entry : ROBEntry) :
    Alike (e.difftestCheck vm cfg entry) (e.difftestCheck vm' cfg entry) fun e => P e.world.sys := by
  unfold difftestCheck
  refine (difftestStep_alike agree lasting holds).bind fun e₁ kept => ?_
  dsimp only
  split
  · exact .pure kept
  · exact .pure kept
  · split
    · split
      · exact .pure kept
      · split
        · exact .pure kept
        · exact .pure kept
    · split
      · exact .pure kept
      · exact .pure kept

theorem commitTrace_world (e : Engine σ β) (ir : IRInst) : (e.commitTrace cfg ir).world = e.world := by
  unfold commitTrace
  dsimp only
  split <;> split <;> rfl

include agree in
theorem commitStore_alike (holds : P e.world.sys) (entry : ROBEntry) :
    Alike (e.commitStore vm entry) (e.commitStore vm' entry) fun e => P e.world.sys := by
  unfold commitStore
  dsimp only
  split
  · split
    · exact .pure holds
    · exact (agree.write holds _ _ _).map fun _ kept => kept
  · exact .pure holds

include agree lasting in
theorem commitOne_alike (holds : P e.world.sys) :
    Alike (e.commitOne vm cfg) (e.commitOne vm' cfg) fun r => P r.1.world.sys := by
  have traced : P (e.commitTrace cfg (e.ooo.rob e.ooo.robHead).ir).world.sys := by
    rw [commitTrace_world]
    exact holds
  unfold commitOne
  dsimp only
  split
  · exact .pure holds
  · split
    · exact .pure traced
    · split
      · exact .none
      · split
        · exact .pure traced
        · refine (commitStore_alike agree traced _).bind fun e₁ stored => ?_
          split
          · refine (difftestCheck_alike agree lasting ?_ _).bind fun _ checked => .pure checked
            exact stored
          · exact .pure stored

include agree lasting in
theorem commitLoop_alike (holds : P e.world.sys) (turns : Nat) :
    Alike (commitLoop vm cfg turns e) (commitLoop vm' cfg turns e) fun e => P e.world.sys := by
  induction turns generalizing e with
  | zero => exact .pure holds
  | succ turns ih =>
      unfold commitLoop
      refine (commitOne_alike agree lasting holds).bind ?_
      rintro ⟨e₁, goesOn⟩ committed
      dsimp only
      split
      · exact ih committed
      · exact .pure committed

include agree lasting in
theorem stageCommit_alike (holds : P e.world.sys) :
    Alike (e.stageCommit vm cfg) (e.stageCommit vm' cfg) fun e => P e.world.sys := by
  unfold stageCommit
  refine commitLoop_alike agree lasting ?_ _
  exact holds

theorem resolveBranch_world (e : Engine σ β) (i : RobIdx) (ir : IRInst) : (e.resolveBranch cfg i ir).world = e.world := by
  unfold resolveBranch
  dsimp only
  generalize (if ir.bpPredictedPc ≠ 0 then ir.bpPredictedPc else ir.snpc) = predicted
  split
  · split <;> rfl
  · rfl

include agree lasting in
theorem intSlot_alike (holds : P e.world.sys) (s : Fin 2) :
    Alike (e.intSlot vm cfg s) (e.intSlot vm' cfg s) fun e => P e.world.sys := by
  unfold intSlot
  rw [agree.perf]
  dsimp only
  split
  · exact .pure holds
  · split
    · exact .pure holds
    · refine (lasting.irExecute_alike holds _ _).map fun ⟨ir, sys⟩ executed => ?_
      dsimp only
      split
      · rw [resolveBranch_world]
        exact executed
      · exact executed

include agree lasting in
theorem mulFinish_alike (holds : P e.world.sys) (s : Fin 2) :
    Alike (e.mulFinish vm s) (e.mulFinish vm' s) fun e => P e.world.sys := by
  unfold mulFinish
  rw [agree.perf]
  dsimp only
  split
  · exact .pure holds
  · exact (lasting.irExecute_alike holds _ _).map fun _ executed => executed

include agree lasting in
theorem mulSlot_alike (holds : P e.world.sys) (s : Fin 2) :
    Alike (e.mulSlot vm s) (e.mulSlot vm' s) fun e => P e.world.sys := by
  unfold mulSlot
  dsimp only
  split
  · exact .pure holds
  · split
    · split
      · exact .pure holds
      · refine mulFinish_alike agree lasting ?_ s
        exact holds
    · split
      · split
        · exact .pure holds
        · exact .pure holds
      · exact mulFinish_alike agree lasting holds s

include agree in
theorem lsuFill_alike (holds : P e.world.sys) (s : Fin 2) (mshr : Option MshrIdx) :
    Alike (e.lsuFill vm s mshr) (e.lsuFill vm' s mshr) fun e => P e.world.sys := by
  unfold lsuFill
  dsimp only
  split
  · exact .pure holds
  · exact (agree.fillAndRead holds _ _).map fun _ kept => kept

include agree in
theorem lsuFlushed_alike (holds : P e.world.sys) (s : Fin 2) :
    Alike (e.lsuFlushed vm s) (e.lsuFlushed vm' s) fun e => P e.world.sys := by
  unfold lsuFlushed
  dsimp only
  split
  · exact .pure holds
  · split
    · exact .pure holds
    · exact (agree.fillAndRead holds _ _).map fun _ kept => kept

include agree in
theorem lsuStart_alike (holds : P e.world.sys) (s : Fin 2) :
    Alike (e.lsuStart vm s) (e.lsuStart vm' s) fun e => P e.world.sys := by
  unfold lsuStart
  rw [agree.probeLevel]
  dsimp only
  split
  · exact .pure holds
  · split
    · split
      · exact .pure holds
      · exact lsuFill_alike agree holds s none
    · have probed : P (vm.probeLevel e.world (e.ooo.rob (e.ooo.latch .lsu s).robIdx).ir.memAddr).2.sys := by
        rw [agree.probed]
        exact holds
      split
      · exact lsuFill_alike agree probed s none
      · split
        · exact .pure probed
        · exact .pure probed

include agree lasting in
theorem lsuSlot_alike (holds : P e.world.sys) (s : Fin 2) :
    Alike (e.lsuSlot vm s) (e.lsuSlot vm' s) fun e => P e.world.sys := by
  unfold lsuSlot
  rw [agree.perf]
  dsimp only
  split
  · exact .pure holds
  · split
    · exact lsuFlushed_alike agree holds s
    · split
      · split
        · refine (lasting.irExecute_alike holds _ _).bind fun ⟨ir, sys⟩ executed => ?_
          exact lsuStart_alike agree executed s
        · split
          · exact .pure holds
          · exact lsuFill_alike agree holds s none
      · split
        · exact .pure holds
        · exact lsuFill_alike agree holds s _

theorem renameLoop_world {slots : List (Fin 2)} {used : Nat} {e' : Engine σ β} (done : renameLoop slots used e = some e') :
    e'.world = e.world := by
  induction slots generalizing e used with
  | nil =>
      cases done
      rfl
  | cons n rest ih =>
      unfold renameLoop at done
      split at done
      · cases done
        rfl
      · split at done
        · cases done
          rfl
        · obtain ⟨e₁, renamed, done⟩ := Option.bind_eq_some_iff.mp done
          obtain ⟨o, _, rfl⟩ := Option.map_eq_some_iff.mp renamed
          have kept := ih done
          exact kept

theorem stageRn_world {e' : Engine σ β} (done : e.stageRn = some e') : e'.world = e.world := by
  unfold stageRn at done
  split at done
  · cases done
    rfl
  · obtain ⟨e₁, renamed, rfl⟩ := Option.map_eq_some_iff.mp done
    have kept := renameLoop_world renamed
    exact kept

theorem stageId_world (e : Engine σ β) : e.stageId.world = e.world := by
  unfold stageId
  dsimp only
  split <;> rfl

include agree in
theorem fetchSlot_alike (holds : P e.world.sys) (s : Fin 2) :
    Alike (e.fetchSlot vm cfg s) (e.fetchSlot vm' cfg s) fun r => P r.1.world.sys := by
  unfold fetchSlot
  dsimp only
  split
  · exact .pure holds
  · refine (agree.ifetch holds _ _).map fun ⟨word, world⟩ kept => ?_
    dsimp only
    split
    · split
      · exact kept
      · exact kept
    · exact kept

include agree in
theorem fetchLoop_alike (holds : P e.world.sys) (slots : List (Fin 2)) :
    Alike (fetchLoop vm cfg slots e) (fetchLoop vm' cfg slots e) fun e => P e.world.sys := by
  induction slots generalizing e with
  | nil => exact .pure holds
  | cons s rest ih =>
      unfold fetchLoop
      refine (fetchSlot_alike agree holds s).bind ?_
      rintro ⟨e₁, goesOn⟩ fetched
      dsimp only
      split
      · exact ih fetched
      · exact .pure fetched

include agree in
theorem stageIf_alike (holds : P e.world.sys) : Alike (e.stageIf vm cfg) (e.stageIf vm' cfg) fun e => P e.world.sys := by
  unfold stageIf
  split
  · exact .pure holds
  · exact fetchLoop_alike agree holds _

include agree lasting in
theorem cycle_alike (holds : P e.world.sys) : Alike (e.cycle vm cfg) (e.cycle vm' cfg) fun e => P e.world.sys := by
  unfold cycle
  refine (drainStoreBuf_alike agree holds).bind fun e₁ drained => ?_
  refine (stageCommit_alike agree lasting drained).bind fun e₂ committed => ?_
  have ticked : P ({ e₂ with ooo := e₂.ooo.mshrTick } : Engine σ β).world.sys := committed
  refine (Alike.foldlM (fun e s holds => intSlot_alike agree lasting holds s) ticked _).bind fun e₃ executed => ?_
  refine (Alike.foldlM (fun e s holds => mulSlot_alike agree lasting holds s) executed _).bind fun e₄ multiplied => ?_
  refine (Alike.foldlM (fun e s holds => lsuSlot_alike agree lasting holds s) multiplied _).bind fun e₅ accessed => ?_
  have renamed : Alike (stageRn { e₅ with ooo := e₅.ooo.stageIs }) (stageRn { e₅ with ooo := e₅.ooo.stageIs })
      fun e => P e.world.sys := .refl fun done => by
    rw [stageRn_world done]
    exact accessed
  refine renamed.bind fun e₆ kept => ?_
  have decoded : P e₆.stageId.world.sys := by
    rw [stageId_world]
    exact kept
  exact (stageIf_alike agree decoded).bind fun e₇ fetched => .pure (lasting.counted fetched _ _)

end Engine

end Stages

/-! ## Two harts -/

/-- The count is that of both harts together. -/
def CountsBoth (arch : Fin 2 → CoreArch) (sys : Sys) : Prop :=
  sys.pmpOnCount = BitVec.ofNat 8 (pmpActive (arch 0).pmpcfg + pmpActive (arch 1).pmpcfg)

theorem CountsBoth.install {arch : Fin 2 → CoreArch} {sys : Sys} (counts : CountsBoth arch sys) (h : Fin 2) :
    ((arch h).install h sys).Counts (pmpActive (arch (otherHart h)).pmpcfg) := by
  unfold CountsBoth at counts
  unfold Sys.Counts CoreArch.install
  rw [counts]
  match h with
  | 0 => rfl
  | 1 => exact congrArg _ (Nat.add_comm _ _)

theorem CountsBoth.save (arch : Fin 2 → CoreArch) {arch' : Fin 2 → CoreArch} {sys : Sys} {h : Fin 2}
    (counts : sys.Counts (pmpActive (arch (otherHart h)).pmpcfg)) (own : (arch' h).pmpcfg = sys.pmpcfg)
    (other : arch' (otherHart h) = arch (otherHart h)) : CountsBoth arch' sys := by
  unfold Sys.Counts at counts
  unfold CountsBoth
  rw [counts, ← own, ← other]
  match h with
  | 0 => rfl
  | 1 => exact congrArg _ (Nat.add_comm _ _)

section Dual

variable {σ β : Type} {vm : VMem σ} (reports : vm.Reports)

include reports in
theorem FunctionalDual.coreCycle_alike {m : FunctionalDual σ} (counts : CountsBoth (fun h => (m.core h).arch) m.world.sys)
    (turn : Fin 2 × IRInst) : Alike (m.coreCycle vm turn) (m.coreCycle vm.audited turn)
      fun m => CountsBoth (fun h => (m.core h).arch) m.world.sys := by
  have installed : (m.machine turn.1).world.sys.Counts (pmpActive (m.core (otherHart turn.1)).arch.pmpcfg) :=
    counts.install turn.1
  have agree := VMem.audited_alike reports (pmpActive_le (m.core (otherHart turn.1)).arch.pmpcfg)
  unfold coreCycle
  refine (execOnce_alike agree (Sys.lasting_counts _) installed turn.2).map fun ⟨ir, after⟩ kept => ?_
  refine CountsBoth.save (fun h => (m.core h).arch) kept ?_ ?_
  · simp [save, CoreArch.save]
  · simp [save, otherHart_ne]

include reports in
theorem FunctionalDual.run_audited {m : FunctionalDual σ} (counts : CountsBoth (fun h => (m.core h).arch) m.world.sys)
    (turns : List (Fin 2 × IRInst)) : m.run vm.audited turns = m.run vm turns :=
  (Alike.foldlM (P := fun m : FunctionalDual σ => CountsBoth (fun h => (m.core h).arch) m.world.sys)
    (fun _ turn counts => coreCycle_alike reports counts turn) counts turns).same

include reports in
theorem InorderDual.coreCycle_alike {cfg : PipeConfig β} {m : InorderDual σ β}
    (counts : CountsBoth (fun h => (m.core h).arch) m.world.sys) (h : Fin 2) :
    Alike (m.coreCycle vm cfg h) (m.coreCycle vm.audited cfg h) fun m => CountsBoth (fun h => (m.core h).arch) m.world.sys := by
  have installed : (m.engine h).world.sys.Counts (pmpActive (m.core (otherHart h)).arch.pmpcfg) := counts.install h
  have agree := VMem.audited_alike reports (pmpActive_le (m.core (otherHart h)).arch.pmpcfg)
  unfold coreCycle
  refine (Inorder.pipelineCycleCore_alike agree (Sys.lasting_counts _) installed).map fun e kept => ?_
  refine CountsBoth.save (fun h => (m.core h).arch) kept ?_ ?_
  · simp [save, CoreArch.save]
  · simp [save, otherHart_ne]

include reports in
theorem InorderDual.run_audited {cfg : PipeConfig β} {m : InorderDual σ β}
    (counts : CountsBoth (fun h => (m.core h).arch) m.world.sys) (schedule : List (Fin 2)) :
    m.run vm.audited cfg schedule = m.run vm cfg schedule :=
  (Alike.foldlM (P := fun m : InorderDual σ β => CountsBoth (fun h => (m.core h).arch) m.world.sys)
    (fun _ h counts => coreCycle_alike reports counts h) counts schedule).same

include reports in
theorem OooDual.coreCycle_alike {cfg : OooConfig β} {m : OooDual σ β}
    (counts : CountsBoth (fun h => (m.core h).arch) m.world.sys) (h : Fin 2) :
    Alike (m.coreCycle vm cfg h) (m.coreCycle vm.audited cfg h) fun m => CountsBoth (fun h => (m.core h).arch) m.world.sys := by
  have installed : (m.engine h).world.sys.Counts (pmpActive (m.core (otherHart h)).arch.pmpcfg) := counts.install h
  have agree := VMem.audited_alike reports (pmpActive_le (m.core (otherHart h)).arch.pmpcfg)
  unfold coreCycle
  refine (Engine.cycle_alike agree (Sys.lasting_counts _) installed).map fun e kept => ?_
  refine CountsBoth.save (fun h => (m.core h).arch) kept ?_ ?_
  · simp [save, CoreArch.save]
  · simp [save, otherHart_ne]

include reports in
theorem OooDual.run_audited {cfg : OooConfig β} {m : OooDual σ β}
    (counts : CountsBoth (fun h => (m.core h).arch) m.world.sys) (schedule : List (Fin 2)) :
    m.run vm.audited cfg schedule = m.run vm cfg schedule :=
  (Alike.foldlM (P := fun m : OooDual σ β => CountsBoth (fun h => (m.core h).arch) m.world.sys)
    (fun _ h counts => coreCycle_alike reports counts h) counts schedule).same

end Dual

/-- In every mode and for every order of `core_cycle` steps from reset, no call of the memory system finds globals for
which the shortcut of `pmp_check` grants what its scan would deny: a memory that refuses such calls gives the same runs.
The check that `exec_once_core` makes by itself reads the globals of the fetch that follows it. -/
theorem shortcut_sound {δ β γ : Type} (mem : MemConfig δ) (cpu : Fin 2 → CPUState) (pmem : ByteMem) (dev : δ) :
    (∀ turns, (FunctionalDual.init (fun h => .save (cpu h) Sys.init) ⟨Sys.init, MemState.init pmem dev⟩).run
        (hierarchy mem).audited turns =
      (FunctionalDual.init (fun h => .save (cpu h) Sys.init) ⟨Sys.init, MemState.init pmem dev⟩).run (hierarchy mem) turns) ∧
    (∀ (cfg : PipeConfig β) (bpred : Fin 2 → β) schedule,
      (InorderDual.init cfg (fun h => .save (cpu h) Sys.init) ⟨Sys.init, MemState.init pmem dev⟩ bpred).run
        (hierarchy mem).audited cfg schedule =
      (InorderDual.init cfg (fun h => .save (cpu h) Sys.init) ⟨Sys.init, MemState.init pmem dev⟩ bpred).run
        (hierarchy mem) cfg schedule) ∧
    (∀ (cfg : OooConfig γ) (bpred : Fin 2 → γ) schedule,
      (OooDual.init cfg (fun h => .save (cpu h) Sys.init) ⟨Sys.init, MemState.init pmem dev⟩ bpred).run
        (hierarchy mem).audited cfg schedule =
      (OooDual.init cfg (fun h => .save (cpu h) Sys.init) ⟨Sys.init, MemState.init pmem dev⟩ bpred).run
        (hierarchy mem) cfg schedule) := by
  have reports := hierarchy_reports mem
  have start : CountsBoth (fun h => .save (cpu h) Sys.init) Sys.init := by
    have inactive : pmpActive Sys.init.pmpcfg = 0 := by decide
    change _ = BitVec.ofNat 8 (pmpActive Sys.init.pmpcfg + pmpActive Sys.init.pmpcfg)
    rw [inactive]
    rfl
  refine ⟨fun turns => ?_, fun cfg bpred schedule => ?_, fun cfg bpred schedule => ?_⟩
  · apply FunctionalDual.run_audited reports
    exact start
  · apply InorderDual.run_audited reports
    exact start
  · apply OooDual.run_audited reports
    exact start

end Sustemu
