import Sustemu.Inorder.Isolation
import Sustemu.Ooo.Isolation

/-!
# Harts with disjoint data

Whatever the schedule and the predictor, and whatever the other hart does, a
hart retires what its program retires when the hart runs alone in functional
mode.
-/

set_option autoImplicit false

namespace Sustemu

open Lib Lib.Rv64i

/-- The machine in which hart `h` runs alone. -/
def CoreArch.alone {σ : Type} (arch : CoreArch) (h : Fin 2) (world : World σ) : Machine σ :=
  ⟨arch.cpu, { world with sys := arch.install h world.sys }⟩

/-- In every dual-core run of programs that share no line of data and do not store to code, each hart retires a prefix of
what it retires alone, in in-order and in out-of-order mode. -/
theorem harts_isolated {δ β γ : Type} (devices : Devices δ) (arch : Fin 2 → CoreArch) (sys : Sys) (pmem : ByteMem) (dev : δ)
    (t : Fin 2 → Trace (hierarchy ⟨2, prefetchHint, devices⟩))
    (start : ∀ h, (t h).state 0 = (arch h).alone h ⟨sys, MemState.init pmem dev⟩)
    (isolated : ∀ h, (t h).Isolated (t (otherHart h))) (schedule : List (Fin 2)) :
    (∀ (cfg : PipeConfig β) (bpred : Fin 2 → β), cfg.difftestEn = false →
      (cfg.bpred.enabled = true → ∀ state pc raw, (cfg.bpred.predict state pc raw).1.taken = true →
        (cfg.bpred.predict state pc raw).1.btbHit = true → inDram (cfg.bpred.predict state pc raw).1.target = true) →
      (∀ h, (t h).Regular) → ∃ m,
        (InorderDual.init cfg arch ⟨sys, MemState.init pmem dev⟩ bpred).run (hierarchy ⟨2, prefetchHint, devices⟩) cfg
          schedule = some m ∧
        ∀ h, ∃ n, (retiredOf (logOf h m.log)).map IRInst.outcome = (List.range n).map fun i => ((t h).inst i).outcome) ∧
    (∀ (cfg : OooConfig γ) (bpred : Fin 2 → γ) (m : OooDual (MemState δ) γ), cfg.numCores = 2 →
      (∀ state pc raw, (cfg.bpred.predict state pc raw).1.taken = true →
        (cfg.bpred.predict state pc raw).1.btbHit = true → (cfg.bpred.predict state pc raw).1.target ≠ 0) →
      (∀ h, (t h).Standard) →
      (OooDual.init cfg arch ⟨sys, MemState.init pmem dev⟩ bpred).run (hierarchy ⟨2, prefetchHint, devices⟩) cfg
        schedule = some m →
        ∀ h, ∃ n, retirements (m.core h).log = (List.range n).map fun i => ((t h).inst i).retired) := by
  have law : CoherentMemory (hierarchy ⟨2, prefetchHint, devices⟩)
      fun w f => Represents ⟨2, prefetchHint, devices⟩ f w := hierarchy_coherent rfl
  have rep : ∀ sys, Represents ⟨2, prefetchHint, devices⟩ ⟨pmem, ∅⟩ ⟨sys, MemState.init pmem dev⟩ := fun _ =>
    ⟨init_represents _ pmem dev, fun one => absurd one (Nat.not_succ_le_self 1)⟩
  have shared : ∀ {w : World (MemState δ)} {f} (sys : Sys), Represents ⟨2, prefetchHint, devices⟩ f w →
      Represents ⟨2, prefetchHint, devices⟩ f { w with sys := sys } := fun _ rep =>
    ⟨rep.mem, fun one => absurd one (Nat.not_succ_le_self 1)⟩
  have rep₀ : ∀ h, Represents ⟨2, prefetchHint, devices⟩ ⟨pmem, ∅⟩ ((t h).state 0).world := by
    intro h
    rw [start]
    exact rep _
  constructor
  · intro cfg bpred off targets regular
    have determined : ∀ h n, (t h).Determined ⟨pmem, ∅⟩ n := fun h => (regular h).determined law rfl (rep₀ h)
    have harts : ∀ h n, ((t h).state n).world.sys.hartid = h := by
      intro h n
      rw [(regular h).contained.hart law rfl (rep₀ h), start]
      rfl
    have init : (InorderDual.init cfg arch ⟨sys, MemState.init pmem dev⟩ bpred).Mirrors cfg
        (fun w f => Represents ⟨2, prefetchHint, devices⟩ f w) t ⟨pmem, ∅⟩ fun _ => 0 := by
      refine InorderDual.init_mirrors bpred (fun h => ?_) (rep _) rfl shared
      unfold Trace.arch
      rw [start]
      rfl
    obtain ⟨m, n, done, mirrors⟩ := init.run off (hierarchy_tame _) law shared targets regular determined harts isolated schedule
    refine ⟨m, done, fun h => ?_⟩
    obtain ⟨k, _, _, retired⟩ := (mirrors h).prefixes
    exact ⟨k, retired⟩
  · intro cfg bpred m two targets standard done h
    have known : ∀ h n, (t h).Known ⟨pmem, ∅⟩ n := fun h n =>
      (standard h).contained.known law rfl (rep₀ h) ((standard h).plain n)
    have init : ∀ h, (OooDual.init cfg arch ⟨sys, MemState.init pmem dev⟩ bpred).Refines
        (fun w f => Represents ⟨2, prefetchHint, devices⟩ f w) ⟨pmem, ∅⟩ t h :=
      OooDual.init_refines bpred (fun h => by rw [start]; rfl) (fun h => (standard h).contained.mapped 0) (rep sys) shared
    have reached := OooDual.Refines.run standard known rfl isolated law shared targets init done h
    exact ⟨_, reached.refines.retired⟩

/-! ## Two counting loops -/

/-- The second hart takes four turns for each of the first. -/
def countingSchedule : List (Fin 2) := (List.replicate 16 [0, 1, 1, 1, 1]).flatten

/-- Each in-order hart counts in its own word. -/
def countingPair : Option (InorderDual (MemState Unit) Unit) :=
  (InorderDual.init .plain countingArch ⟨Sys.init, MemState.init (image (counting.map Instr.encode)) ()⟩ fun _ => ()).run
    (hierarchy (.plain 2)) .plain countingSchedule

/-- Each out-of-order hart counts in its own word. -/
def countingDuo : Option (OooDual (MemState Unit) Unit) :=
  (OooDual.init .duo countingArch ⟨Sys.init, MemState.init (image (counting.map Instr.encode)) ()⟩ fun _ => ()).run
    (hierarchy (.plain 2)) .duo countingSchedule

/-- Each hart gets through at least one turn of its loop. -/
theorem countingPair_counts : countingPair.any (fun m => decide (∀ h, 4 ≤ (retiredOf (logOf h m.log)).length)) = true := by
  decide +kernel

theorem countingDuo_counts : countingDuo.any (fun m => decide (∀ h, 5 ≤ (retirements (m.core h).log).length)) = true := by
  decide +kernel

theorem countingArch_traces : ∃ (c : Fin 2 → Computation (.ofList mbase counting)) (t : Fin 2 → Trace (hierarchy (.plain 2))),
    (∀ h, (t h).state 0 =
      (countingArch h).alone h ⟨Sys.init, MemState.init (image (counting.map Instr.encode)) ()⟩) ∧
    (∀ h, (t h).Computes (fun w f => Represents (.plain 2) f w) (c h)) ∧
    ∀ h n, CountsBy (countingWord h) ((c h).inst n) ((c h).state n) := by
  have traces := fun h => counting_trace 2 (countingWord_behind h) ((countingArch h).install h Sys.init)
    fun one => absurd one (Nat.not_succ_le_self 1)
  choose c t start computes counts using traces
  exact ⟨c, t, start, computes, counts⟩

/-- The harts count in words of different lines. -/
theorem harts_isolated_counting : ∃ t : Fin 2 → Trace (hierarchy (.plain 2)),
    (∀ h, (t h).Regular ∧ (t h).Standard ∧ (t h).Isolated (t (otherHart h))) ∧
    (∃ m, countingPair = some m ∧ ∀ h, 4 ≤ (retiredOf (logOf h m.log)).length ∧
      ∃ n, (retiredOf (logOf h m.log)).map IRInst.outcome = (List.range n).map fun i => ((t h).inst i).outcome) ∧
    ∃ m, countingDuo = some m ∧ ∀ h, 5 ≤ (retirements (m.core h).log).length ∧
      ∃ n, retirements (m.core h).log = (List.range n).map fun i => ((t h).inst i).retired := by
  obtain ⟨c, t, start, computes, counts⟩ := countingArch_traces
  have contained : ∀ h, (c h).Contained := fun h n => (counts h n).contained
  have regular : ∀ h, (t h).Regular := fun h =>
    (computes h).regular (contained h) (fun n => (counts h n).within) (by rw [start]; rfl) (by rw [start]; rfl)
  have standard : ∀ h, (t h).Standard := fun h => (computes h).standard (contained h) (CountsBy.nested (counts h))
  have isolated : ∀ h, (t h).Isolated (t (otherHart h)) := fun h =>
    (computes h).isolated (computes (otherHart h)) (CountsBy.isolated (counts h) (counts (otherHart h)) (countingWord_apart h))
  obtain ⟨inorder, ooo⟩ := harts_isolated Devices.none countingArch Sys.init (image (counting.map Instr.encode)) () t start
    isolated countingSchedule
  obtain ⟨m, done, prefixes⟩ := inorder .plain (fun _ => ()) rfl nofun regular
  have paired : countingPair = some m := done
  have turns := countingPair_counts
  rw [paired, Option.any_some, decide_eq_true_eq] at turns
  obtain ⟨m', done', turns'⟩ := (Option.any_eq_true _ _).mp countingDuo_counts
  have prefixes' := ooo .duo (fun _ => ()) m' rfl (fun _ _ _ taken => nomatch taken) standard done'
  exact ⟨t, fun h => ⟨regular h, standard h, isolated h⟩, ⟨m, done, fun h => ⟨turns h, prefixes h⟩⟩,
    m', done', fun h => ⟨of_decide_eq_true turns' h, prefixes' h⟩⟩

/-! ## A load without the lowest opcode bits -/

/-- Hart 0 starts at the reset address and hart 1 at the jump. -/
def unencodedArch (h : Fin 2) : CoreArch := .save (unencodedStart (h == 1)) Sys.init

def unencodedDuo (schedule : List (Fin 2)) : Option (OooDual (MemState Unit) Unit) :=
  (OooDual.init .duo unencodedArch ⟨Sys.init, MemState.init (image unencodedLoad) ()⟩ fun _ => ()).run
    (hierarchy (.plain 2)) .duo schedule

/-- The out-of-order hart 0 commits 0 where alone in functional mode it retires the word at the reset address, while
hart 1 jumps to itself. -/
theorem unencoded_load_lost_duo : ∃ (t : Fin 2 → Trace (hierarchy (.plain 2))) (m : OooDual (MemState Unit) Unit),
    (∀ h, (t h).state 0 = (unencodedArch h).alone h ⟨Sys.init, MemState.init (image unencodedLoad) ()⟩) ∧
    (∀ h, (t h).Ordinary ∧ (t h).Isolated (t (otherHart h))) ∧
    unencodedDuo [0, 1, 0, 1, 0, 1, 0, 1, 0, 1, 0, 1, 0, 1] = some m ∧
    ⟨0x80000004, some (7, 0), none⟩ ∈ retirements (m.core 0).log ∧
    ∀ n, retirements (m.core 0).log ≠ (List.range n).map fun i => ((t 0).inst i).retired := by
  have traces := fun h => unencodedLoad_trace 2 (h == 1) ((unencodedArch h).install h Sys.init) rfl rfl
    fun one => absurd one (Nat.not_succ_le_self 1)
  choose t start ordinary insts using traces
  -- One of the harts only jumps.
  have jumps : ∀ h : Fin 2, h = 1 ∨ otherHart h = 1 := by decide
  have isolated : ∀ h, (t h).Isolated (t (otherHart h)) := by
    intro h
    refine ⟨fun i j memory memory' => ?_, fun i n w write => ?_⟩
    · obtain ⟨_, store, idle⟩ := insts h i
      obtain ⟨_, store', idle'⟩ := insts (otherHart h) j
      have load := memory.resolve_right store
      have load' := memory'.resolve_right store'
      rcases jumps h with one | one
      · exact absurd load (idle (beq_iff_eq.mpr one))
      · exact absurd load' (idle' (beq_iff_eq.mpr one))
    · rw [IRInst.write, if_neg (insts h i).2.1] at write
      cases write
  have reached : (unencodedDuo [0, 1, 0, 1, 0, 1, 0, 1, 0, 1, 0, 1, 0, 1]).any (fun m =>
      decide ((⟨0x80000004, some (7, 0), none⟩ : Retired) ∈ retirements (m.core 0).log)) = true := by
    decide +kernel
  obtain ⟨m, done, holds⟩ := (Option.any_eq_true _ _).mp reached
  have lost := of_decide_eq_true holds
  exact ⟨t, m, start, fun h => ⟨ordinary h, isolated h⟩, done, lost, unencodedLoad_lost (fun n => (insts 0 n).1) lost⟩

end Sustemu
