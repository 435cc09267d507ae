import Sustemu.Inorder.Stages

/-!
# Every cycle is accounted for

Without a branch predictor, a cycle of the pipeline retires an instruction,
waits for memory, stalls on a load or throws one fetched instruction away. What
the counters and the latches still owe is kept in balance stage by stage. A
control transfer that found the decode latch empty would count a cycle that is
not lost; it never does, because only the first cycle starts with an empty
decode latch.
-/

set_option autoImplicit false

namespace Sustemu

namespace Inorder

variable {σ β : Type} {vm : VMem σ} {cfg : PipeConfig β} {e e' : Inorder σ β}

/-- The latches that hold no instruction. -/
def bubbles (e : Inorder σ β) : Nat := [Latch.id, .ex, .mem, .wb].countP fun l => !(e.pipe.reg l).valid

/-- The cycles that went by, with those that a freeze has still to last and those that the empty latches cost. -/
def spent (e : Inorder σ β) : Nat := e.stats.cycles + e.bubbles + e.pipe.memStallRem

/-- The cycles attributed to a retired instruction, to filling the pipeline or to one of the reported causes. -/
def attributed (e : Inorder σ β) : Nat :=
  e.stats.insts + 4 + e.stats.stallLoadUse + e.stats.stallControl + e.stats.stallCacheMiss

theorem bubbles_eq (e : Inorder σ β) : e.bubbles = (!(e.pipe.reg .id).valid).toNat + (!(e.pipe.reg .ex).valid).toNat +
    (!(e.pipe.reg .mem).valid).toNat + (!(e.pipe.reg .wb).valid).toNat := by
  unfold bubbles
  simp only [List.countP_cons, List.countP_nil]
  cases (e.pipe.reg .id).valid <;> cases (e.pipe.reg .ex).valid <;> cases (e.pipe.reg .mem).valid <;>
    cases (e.pipe.reg .wb).valid <;> rfl

theorem bubbles_congr (same : ∀ l, (e'.pipe.reg l).valid = (e.pipe.reg l).valid) : e'.bubbles = e.bubbles := by
  unfold bubbles
  simp only [same]

/-! ## The stages -/

theorem stageWB_balanced (balanced : e.spent = e.attributed) (done : stageWB vm cfg e = some e') :
    e'.spent = e'.attributed := by
  obtain ⟨_, _, _, _, _, _, _, _, empty, latch, _, rem⟩ := stageWB_spec done
  have stats : e'.stats = { e.stats with insts := e.stats.insts + (e.pipe.reg .wb).valid.toNat } := by
    unfold stageWB at done
    simp only at done
    cases valid : (e.pipe.reg .wb).valid with
    | true =>
        rw [valid, if_pos rfl] at done
        obtain ⟨e₀, checked, rfl⟩ := Option.map_eq_some_iff.mp done
        obtain ⟨_, stats, _⟩ := difftestStep_keeps checked
        change { e₀.stats with insts := e₀.stats.insts + 1 } = _
        rw [stats]
        rfl
    | false =>
        rw [valid, if_neg Bool.false_ne_true] at done
        cases done
        rfl
  have emptied : e'.bubbles = e.bubbles + (e.pipe.reg .wb).valid.toNat := by
    rw [bubbles_eq, bubbles_eq, empty, latch .id (by decide), latch .ex (by decide), latch .mem (by decide)]
    cases (e.pipe.reg .wb).valid <;> rfl
  unfold spent attributed at balanced ⊢
  rw [stats, rem, emptied]
  dsimp only
  omega

/-- The freeze that a miss starts is counted when it starts. -/
theorem stageMEM_balanced (balanced : e.spent = e.attributed) (thawed : e.pipe.memStallRem = 0)
    (done : stageMEM vm e = some e') : e'.spent = e'.attributed := by
  obtain ⟨mem, memory, _, memLatch, latch, _⟩ := stageMEM_spec done
  have stats : e'.stats = { e.stats with stallCacheMiss := e.stats.stallCacheMiss + e'.pipe.memStallRem } := by
    unfold stageMEM at done
    simp only at done
    split at done
    · obtain ⟨⟨ir, lat, world⟩, _, rfl⟩ := Option.map_eq_some_iff.mp done
      simp only
      generalize stored : ({ e with world := world, pipe := e.pipe.set .mem ⟨ir, (e.pipe.reg .mem).valid⟩ } :
        Inorder σ β) = s
      have stats : (s.accessed ir).stats = e.stats := by
        subst stored
        unfold accessed
        split <;> rfl
      have rem : (s.accessed ir).pipe.memStallRem = 0 := by
        rw [(s.accessed_spec ir).1]
        subst stored
        exact thawed
      unfold missed
      split
      · rw [← stats]
      · rw [stats, rem]
        rfl
    · cases done
      rw [thawed]
      rfl
  have kept : e'.bubbles = e.bubbles := by
    refine bubbles_congr fun l => ?_
    by_cases same : l = .mem
    · subst same
      rw [memLatch, memory.valid]
    · rw [latch l same]
  unfold spent attributed at balanced ⊢
  rw [stats, kept]
  dsimp only
  omega

/-- Without a predictor, every redirected fetch is counted. -/
theorem stageEX_counts (off : cfg.bpred.enabled = false) (done : stageEX vm cfg e = some e') :
    e'.stats = { e.stats with
      stallControl := e.stats.stallControl + (decide (cfg.redirects (e'.pipe.reg .ex))).toNat } ∧
      e'.pipe.memStallRem = e.pipe.memStallRem := by
  unfold stageEX at done
  simp only at done
  split at done
  · next valid =>
      obtain ⟨⟨ir, sys⟩, _, rfl⟩ := Option.map_eq_some_iff.mp done
      simp only
      generalize stored : (({ e with pipe := e.pipe.set .ex ⟨ir, (e.pipe.reg .ex).valid⟩ } : Inorder σ β).setSys
        (if ir.fault then sys.abort else sys)) = s
      have stats : s.stats = e.stats := by
        subst stored
        rfl
      have rem : s.pipe.memStallRem = e.pipe.memStallRem := by
        subst stored
        rfl
      have executed : s.pipe.reg .ex = ⟨ir, true⟩ := by
        rw [← stored, ← valid]
        exact Pipeline.reg_set_self ..
      have redirects : cfg.redirects ⟨ir, true⟩ ↔ ir.dnpc ≠ ir.snpc := by
        unfold PipeConfig.redirects PipeConfig.predicted
        rw [off]
        exact and_iff_right rfl
      unfold resolved
      rw [off, if_neg Bool.false_ne_true]
      split
      · next away =>
          rw [← stats, ← rem]
          have kept : (s.pipe.redirect ir.dnpc).reg .ex = ⟨ir, true⟩ := (reg_redirect _ _ _).trans executed
          simp only [kept, decide_eq_true (redirects.mpr away)]
          exact ⟨rfl, rfl⟩
      · next straight =>
          rw [executed, decide_eq_false (mt redirects.mp straight), stats, rem]
          exact ⟨rfl, rfl⟩
  · next bubble =>
      cases done
      have straight : ¬cfg.redirects (e.pipe.reg .ex) := fun both => bubble both.1
      rw [decide_eq_false straight]
      exact ⟨rfl, rfl⟩

/-- A redirected fetch empties the decode latch, which was not empty. -/
theorem stageEX_balanced (off : cfg.bpred.enabled = false) (balanced : e.spent = e.attributed)
    (empty : (e.pipe.reg .wb).valid = false) (filled : (e.pipe.reg .ex).valid = true → (e.pipe.reg .id).valid = true)
    (done : stageEX vm cfg e = some e') : e'.spent = e'.attributed := by
  obtain ⟨ex, execute, _, _, exLatch, memLatch, emptied, steer⟩ := stageEX_spec done empty
  obtain ⟨stats, rem⟩ := stageEX_counts off done
  have thrown : e'.bubbles = e.bubbles + (decide (cfg.redirects (e'.pipe.reg .ex))).toNat := by
    have idLatch : e'.pipe.reg .id = (cfg.steer ex (e.pipe.reg .id) e.pipe.fetchPc).1 := congrArg Prod.fst steer
    unfold PipeConfig.steer at idLatch
    rw [bubbles_eq, bubbles_eq, memLatch, emptied, empty, exLatch, execute.valid]
    by_cases away : cfg.redirects ex
    · rw [if_pos away] at idLatch
      rw [idLatch, decide_eq_true away, filled (execute.valid.symm.trans away.1)]
      simp only [Bool.not_true, Bool.not_false, Bool.toNat_true, Bool.toNat_false]
      omega
    · rw [if_neg away] at idLatch
      rw [idLatch, decide_eq_false away]
      rfl
  unfold spent attributed at balanced ⊢
  rw [stats, rem, thrown]
  dsimp only
  omega

/-- A stall is counted where it is found. -/
theorem stageID_balanced (balanced : e.spent = e.attributed) :
    (stageID e).1.spent + (stageID e).2.toNat = (stageID e).1.attributed := by
  have counts : (stageID e).1.stats = { e.stats with
      stallLoadUse := e.stats.stallLoadUse + (stageID e).2.toNat } ∧
      (stageID e).1.pipe.memStallRem = e.pipe.memStallRem := by
    unfold stageID
    simp only
    split
    · split <;> exact ⟨rfl, rfl⟩
    · exact ⟨rfl, rfl⟩
  have kept : (stageID e).1.bubbles = e.bubbles := by
    obtain ⟨_, _, _, latch, _, decode⟩ := stageID_spec e
    have valid : (decodeStage e.cpu.gpr (e.pipe.reg .mem) (e.pipe.reg .ex) (e.pipe.reg .id)).1.valid =
        (e.pipe.reg .id).valid := by
      unfold decodeStage
      cases valid : (e.pipe.reg .id).valid with
      | false => exact valid
      | true =>
          rw [if_pos rfl]
          split <;> rfl
    rw [← decode] at valid
    refine bubbles_congr fun l => ?_
    by_cases same : l = .id
    · subst same
      exact valid
    · rw [latch l same]
  unfold spent attributed at balanced ⊢
  rw [counts.1, counts.2, kept]
  dsimp only
  omega

/-- An instruction is fetched unless the stage stalls. -/
theorem stageIF_balanced {stalled : Bool} (balanced : e.spent + stalled.toNat = e.attributed)
    (empty : (e.pipe.reg .wb).valid = false) (done : stageIF vm cfg stalled e = some e') :
    e'.spent + 1 = e'.attributed := by
  unfold stageIF at done
  cases stalled with
  | true =>
      cases done
      exact balanced
  | false =>
      simp only [Bool.false_eq_true, if_false] at done
      obtain ⟨⟨word, world⟩, _, rfl⟩ := Option.map_eq_some_iff.mp done
      have fetched : ∀ ir next, (e.pipe.fetch ir next).reg .wb = ⟨ir, true⟩ ∧
          ∀ l, l ≠ .wb → (e.pipe.fetch ir next).reg l = e.pipe.reg l := fun ir next =>
        ⟨Pipeline.reg_fetch_self .., fun l other => Pipeline.reg_fetch_of_ne _ other ..⟩
      unfold spent attributed at balanced ⊢
      rw [bubbles_eq] at balanced ⊢
      dsimp only
      rw [(fetched _ _).1, (fetched _ _).2 .id (by decide), (fetched _ _).2 .ex (by decide), (fetched _ _).2 .mem (by decide)]
      rw [empty] at balanced
      simp only [Bool.not_true, Bool.not_false, Bool.toNat_true, Bool.toNat_false] at balanced ⊢
      change e.stats.cycles + (_ + 0) + e.pipe.memStallRem + 1 = _
      omega

/-! ## Cycles -/

/-- The decode latch is filled behind a filled execute latch, and the account balances. -/
structure Accounted (e : Inorder σ β) : Prop where
  filled : (e.pipe.reg .ex).valid = true → (e.pipe.reg .id).valid = true
  balanced : e.spent = e.attributed

theorem Cycle.filled {e₀ : Inorder σ β} {mem ex : PipeReg} {w₁ w₂ : World σ} (cycle : Cycle vm cfg e e' e₀ mem ex w₁ w₂) :
    (e'.pipe.reg .ex).valid = true → (e'.pipe.reg .id).valid = true := by
  intro valid
  have front := cycle.front
  generalize (decodeStage e.written.gpr mem ex (cfg.steer ex (e.pipe.reg .id) e.pipe.fetchPc).1).2 = stalled at front
  cases front with
  | stall empty =>
      rw [empty] at valid
      cases valid
  | fetch _ _ _ id =>
      rw [id]

/-- One cycle that is not frozen, up to its tick. -/
theorem stages_balanced (off : cfg.bpred.enabled = false) (account : e.Accounted) (thawed : e.pipe.memStallRem = 0)
    (done : stages vm cfg e = some e') : e'.spent + 1 = e'.attributed := by
  simp only [stages, Option.bind_eq_bind, Option.bind_eq_some_iff] at done
  obtain ⟨e₁, wrote, e₂, accessed, e₃, executed, e₅, fetched, same⟩ := done
  cases same
  obtain ⟨_, _, _, _, _, _, _, _, empty₁, latch₁, _, rem₁⟩ := stageWB_spec wrote
  obtain ⟨_, _, _, _, latch₂, _⟩ := stageMEM_spec accessed
  have empty₂ : (e₂.pipe.reg .wb).valid = false := by
    rw [latch₂ _ (by decide)]
    exact empty₁
  have filled₂ : (e₂.pipe.reg .ex).valid = true → (e₂.pipe.reg .id).valid = true := by
    rw [latch₂ _ (by decide), latch₂ _ (by decide), latch₁ _ (by decide), latch₁ _ (by decide)]
    exact account.filled
  obtain ⟨_, _, _, _, _, _, empty₃, _⟩ := stageEX_spec executed empty₂
  obtain ⟨_, _, _, latch₄, _⟩ := stageID_spec e₃
  have balanced₁ := stageWB_balanced account.balanced wrote
  have balanced₂ := stageMEM_balanced balanced₁ (rem₁.trans thawed) accessed
  have balanced₃ := stageEX_balanced off balanced₂ empty₂ filled₂ executed
  have balanced₅ := stageIF_balanced (stageID_balanced balanced₃) (by rw [latch₄ _ (by decide)]; exact empty₃) fetched
  have rotated : ({ e₅ with pipe := e₅.pipe.rotate (stageID e₃).2 } : Inorder σ β).bubbles = e₅.bubbles := by
    rw [bubbles_eq, bubbles_eq]
    simp only [Pipeline.reg_rotate]
    cases (stageID e₃).2 <;> simp only [Pipeline.source, Bool.false_eq_true, if_true, if_false] <;> omega
  unfold spent attributed at balanced₅ ⊢
  rw [rotated]
  exact balanced₅

theorem pipelineCycle_accounted (off : cfg.bpred.enabled = false) (account : e.Accounted)
    (done : pipelineCycle vm cfg e = some e') : e'.Accounted := by
  unfold pipelineCycle at done
  split at done
  · next frozen =>
      cases done
      refine ⟨account.filled, ?_⟩
      have balanced := account.balanced
      change e.stats.cycles + 1 + e.bubbles + (e.pipe.memStallRem - 1) = e.attributed
      unfold spent at balanced
      omega
  · next thawed =>
      obtain ⟨e₁, ran, rfl⟩ := Option.map_eq_some_iff.mp done
      obtain ⟨_, _, _, _, _, cycle⟩ := stages_cycle ran
      have balanced := stages_balanced off account (Nat.eq_zero_of_not_pos thawed) ran
      refine ⟨cycle.filled, ?_⟩
      change e₁.stats.cycles + 1 + e₁.bubbles + e₁.pipe.memStallRem = e₁.attributed
      unfold spent at balanced
      omega

theorem run_accounted (off : cfg.bpred.enabled = false) {n : Nat} (account : e.Accounted)
    (ran : run vm cfg n e = some e') : e'.Accounted := by
  induction n generalizing e with
  | zero =>
      cases ran
      exact account
  | succ n ih =>
      obtain ⟨e₁, cycled, later⟩ := Option.bind_eq_some_iff.mp ran
      exact ih (pipelineCycle_accounted off account cycled) later

variable (cfg) in
theorem init_accounted (slots : Fin 4 → PipeReg) (cpu : CPUState) (world : World σ) (bpred : β) (diffCpu : CPUState)
    (diffInit : Bool) : (init cfg slots cpu world bpred diffCpu diffInit).Accounted where
  filled := fun valid => by cases valid
  balanced := rfl

/-- Every cycle since `pipeline_init` retires an instruction or has exactly one reported cause. -/
theorem cycles_accounted (vm : VMem σ) (cfg : PipeConfig β) (off : cfg.bpred.enabled = false) (slots : Fin 4 → PipeReg)
    (cpu : CPUState) (world : World σ) (bpred : β) (diffCpu : CPUState) (diffInit : Bool) (n : Nat)
    (ran : run vm cfg n (init cfg slots cpu world bpred diffCpu diffInit) = some e) :
    e.stats.cycles + e.bubbles = e.stats.insts + 4 + e.stats.stallLoadUse + e.stats.stallControl +
      e.stats.stallCacheMiss - e.pipe.memStallRem := by
  have account := run_accounted off (init_accounted cfg slots cpu world bpred diffCpu diffInit) ran
  have balanced := account.balanced
  unfold spent attributed at balanced
  omega

/-- A load and its use, then a jump. -/
def stallingProgram : World (MemState Unit) :=
  ⟨Sys.init, MemState.init (image ([0x00000097, 0x0000a103, 0x00110193, 0x0080006f] ++ List.replicate 12 0x00000013)) ()⟩

theorem cycles_accounted_stalling : ∃ e : Inorder (MemState Unit) Unit,
    run (hierarchy (.plain 1)) .plain 12 (init .plain (fun _ => .zero) ⟨.empty, mbase⟩ stallingProgram () ⟨.empty, mbase⟩ false) =
      some e ∧ e.stats.cycles + e.bubbles = e.stats.insts + 4 + e.stats.stallLoadUse + e.stats.stallControl +
        e.stats.stallCacheMiss - e.pipe.memStallRem := by
  have goes : (run (hierarchy (.plain 1)) .plain 12
      (init .plain (fun _ => .zero) ⟨.empty, mbase⟩ stallingProgram () ⟨.empty, mbase⟩ false)).isSome = true := by
    decide +kernel
  obtain ⟨e, ran⟩ := Option.isSome_iff_exists.mp goes
  exact ⟨e, ran, cycles_accounted _ _ rfl _ _ _ _ _ _ 12 ran⟩

end Inorder

end Sustemu
