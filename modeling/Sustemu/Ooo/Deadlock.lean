import Sustemu.Ooo.FetchedPath
import Sustemu.Ooo.Liveness

/-!
# Deadlock

Two device loads that have taken both slots of the LSU wait there to become the
oldest instruction. An older load that gets its address only later finds no
slot, and so neither it nor anything else ever commits: nothing but a
misprediction of a still older branch can take the device loads out again.
-/

set_option autoImplicit false

namespace Sustemu

open Lib Relation

namespace OOOState

variable {o o' : OOOState}

/-- The LSU is jammed, and every unfinished branch or jump is younger than the loads in its slots. -/
structure Deadlocked (o : OOOState) : Prop where
  jammed : o.Jammed
  resolved : ∀ i, (o.rob i).valid = true → (o.rob i).ready = false → controlOpcode (o.rob i).ir.raw = true →
    ∀ s, o.pos (o.latch .lsu s).robIdx < o.pos i

instance (o : OOOState) : Decidable o.Deadlocked :=
  decidable_of_iff (o.Jammed ∧ ∀ i, (o.rob i).valid = true → (o.rob i).ready = false →
      controlOpcode (o.rob i).ir.raw = true → ∀ s, o.pos (o.latch .lsu s).robIdx < o.pos i)
    ⟨fun both => ⟨both.1, both.2⟩, fun dead => ⟨dead.jammed, dead.resolved⟩⟩

/-- The oldest instruction and the slots of the LSU are left alone, and unfinished instructions are not reordered. -/
structure Bides (o o' : OOOState) : Prop where
  head : o'.robHead = o.robHead
  live : o'.robCount ≠ 0
  oldest : o'.rob o.robHead = o.rob o.robHead
  slots : ∀ s, o'.latch .lsu s = o.latch .lsu s
  younger : ∀ i, (o'.rob i).valid = true → (o'.rob i).ready = false →
    ((o.rob i).valid = true ∧ (o.rob i).ready = false ∧ (o'.rob i).ir.raw = (o.rob i).ir.raw) ∨ o.robCount ≤ o.pos i

theorem Bides.same (live : o.robCount ≠ 0) (rob : o'.rob = o.rob) (head : o'.robHead = o.robHead)
    (count : o'.robCount = o.robCount) (slots : ∀ s, o'.latch .lsu s = o.latch .lsu s) : o.Bides o' where
  head := head
  live := count ▸ live
  oldest := congrFun rob _
  slots := slots
  younger := fun i valid unready => .inl (by rw [rob] at valid unready ⊢; exact ⟨valid, unready, rfl⟩)

namespace Deadlocked

/-- The oldest instruction is in no slot. -/
theorem head_elsewhere (dead : o.Deadlocked) (ok : o.Ok) {eu : EU} {s : Fin 2} (live : o.Live eu s) :
    o.robHead ≠ (o.latch eu s).robIdx := by
  intro here
  obtain ⟨k, waits⟩ := dead.jammed.waits
  have place := occupant_slot live.valid live.kept
  rw [← here] at place
  cases ok.inv.placed.unique _ _ _ waits place

theorem keep (dead : o.Deadlocked) (ok : o.Ok) (ok' : o'.Ok) (bides : o.Bides o') : o'.Deadlocked := by
  have unit : o'.headUnit = .lsu := by
    unfold headUnit
    rw [bides.head, bides.oldest]
    exact dead.jammed.unit
  have waiting : (o'.rob o'.robHead).ready = false := by
    rw [bides.head, bides.oldest]
    exact dead.jammed.unready ok
  have parked : ∀ s, o'.Parked s := by
    intro s
    obtain ⟨⟨valid, kept⟩, idle, waits, younger⟩ := dead.jammed.parked s
    rw [← bides.slots s] at valid kept idle waits younger
    rw [← bides.head] at younger
    exact ⟨⟨valid, kept⟩, idle, waits, younger⟩
  refine ⟨⟨bides.live, ?_, unit, parked⟩, fun i valid unready control s => ?_⟩
  · obtain ⟨place, here⟩ := ok'.inv.head_place bides.live waiting
    cases place with
    | station k => exact ⟨k, here⟩
    | slot eu s =>
        -- Its own unit is the LSU, whose slots are taken by others.
        obtain ⟨valid, kept, index⟩ := slot_of_occupant here
        have own : eu = o'.headUnit := by
          rw [(ok'.inv.placed.latched eu s valid kept).euType, index]
          rfl
        rw [unit] at own
        subst own
        exact absurd index (parked s).younger
  · have position : ∀ j, o'.pos j = o.pos j := fun j => by
      unfold pos
      rw [bides.head]
    rw [position, position, bides.slots s]
    rcases bides.younger i valid unready with ⟨valid₀, unready₀, raw⟩ | fresh
    · rw [raw] at control
      exact dead.resolved i valid₀ unready₀ control s
    · have inside := (ok.inv.renamed.valid _).mp (ok.inv.live_entry (dead.jammed.parked s).live).1
      exact Nat.lt_of_lt_of_le inside fresh

end Deadlocked

/-- An instruction of another unit completes. -/
theorem Deadlocked.completes (dead : o.Deadlocked) (ok : o.Ok) {eu : EU} {s : Fin 2} (live : o.Live eu s) (unit : eu ≠ .lsu)
    {entry : ROBEntry} {result : Word} (completes : o.Completes eu s entry result o') (ready : entry.ready = true) :
    o.Bides o' where
  head := completes.head
  live := completes.count ▸ dead.jammed.live
  oldest := by rw [completes.rob, setAt_of_ne (dead.head_elsewhere ok live)]
  slots := fun t => by
    rw [completes.latch, latch_dropLatch, if_neg]
    rintro ⟨rfl, _⟩
    exact unit rfl
  younger := fun i valid unready => by
    rw [completes.rob] at valid unready ⊢
    by_cases here : i = (o.latch eu s).robIdx
    · rw [here, setAt_self, ready] at unready
      cases unready
    · rw [setAt_of_ne here] at valid unready ⊢
      exact .inl ⟨valid, unready, rfl⟩

/-- An instruction younger than the loads in the LSU flushes what is younger still. -/
theorem Bides.flushes {b : RobIdx} (flushes : o.Flushes b (o.flushAfter b))
    (newer : ∀ s, o.pos (o.latch .lsu s).robIdx < o.pos b) : o.Bides (o.flushAfter b) where
  head := flushes.head
  live := flushes.head_entry.2
  oldest := by
    have entry := flushes.head_entry.1
    rwa [flushes.head] at entry
  slots := fun s => by
    have frame := rollback_frame (o.robTail - (b + 1)).val o
    have older : (rollback (o.robTail - (b + 1)).val o).robNewerThan
        ((rollback (o.robTail - (b + 1)).val o).latch .lsu s).robIdx b = false := by
      cases hit : (rollback (o.robTail - (b + 1)).val o).robNewerThan
          ((rollback (o.robTail - (b + 1)).val o).latch .lsu s).robIdx b with
      | false => rfl
      | true =>
          have after := robNewerThan_iff.mp hit
          unfold pos at after
          rw [frame.head, frame.latch] at after
          exact absurd after (Nat.not_lt_of_gt (newer s))
    unfold flushAfter squash
    dsimp only
    refine (if_neg fun hit => ?_).trans (by rw [frame.latch])
    exact Bool.false_ne_true (older.symm.trans (Bool.and_eq_true_iff.mp hit).2)
  younger := fun i valid unready => by
    have older : o.pos i ≤ o.pos b := by
      by_contra beyond
      exact Bool.false_ne_true ((flushes.newer i (Nat.lt_of_not_le beyond)).symm.trans valid)
    rw [flushes.older i older] at valid unready ⊢
    exact .inl ⟨valid, unready, rfl⟩

/-- A new instruction is younger than all others. -/
theorem Bides.renames (live : o.robCount ≠ 0) {ir : IRInst} {seq : Nat} {slot : RsIdx} (renames : o.Renames ir seq slot o')
    (inv : o.Inv) (room : o.robCount < 32) : o.Bides o' where
  head := renames.head
  live := by
    rw [renames.count]
    exact Nat.succ_ne_zero _
  oldest := by
    have entry := renames.head_entry inv room live
    rwa [renames.head] at entry
  slots := fun s => by rw [renames.latch]
  younger := fun i valid unready => by
    by_cases here : i = o.robTail
    · right
      rw [here, pos, inv.renamed.tail, age_add _ room]
    · rw [renames.rob, setAt_of_ne here] at valid unready ⊢
      exact .inl ⟨valid, unready, rfl⟩

/-- Both slots of the LSU are taken, so an instruction is only issued to another unit. -/
theorem Deadlocked.issueAll (dead : o.Deadlocked) (slots : List (EU × Fin 2)) : o.Bides (issueAll slots o) := by
  have same : (OOOState.issueAll slots o).rob = o.rob ∧ (OOOState.issueAll slots o).robHead = o.robHead ∧
      (OOOState.issueAll slots o).robCount = o.robCount := by
    clear dead
    induction slots generalizing o with
    | nil => exact ⟨rfl, rfl, rfl⟩
    | cons p rest ih =>
        have first : (issueSlot p.1 o p.2).rob = o.rob ∧ (issueSlot p.1 o p.2).robHead = o.robHead ∧
            (issueSlot p.1 o p.2).robCount = o.robCount := by
          unfold issueSlot
          split
          · exact ⟨rfl, rfl, rfl⟩
          · split <;> exact ⟨rfl, rfl, rfl⟩
        obtain ⟨rob, head, count⟩ := ih (o := issueSlot p.1 o p.2)
        exact ⟨rob.trans first.1, head.trans first.2.1, count.trans first.2.2⟩
  exact .same dead.jammed.live same.1 same.2.1 same.2.2 fun s => issueAll_latch (dead.jammed.parked s).live.valid

end OOOState

namespace Engine

variable {σ β : Type} {vm : VMem σ} {cfg : OooConfig β} {e e' : Engine σ β}

/-! ## The phases of a deadlocked cycle -/

theorem drainStoreBuf_bides (dead : e.ooo.Deadlocked) (done : e.drainStoreBuf vm cfg = some e') : e.ooo.Bides e'.ooo := by
  obtain ⟨rob, head, count, latch⟩ := drainStoreBuf_frame done
  exact .same dead.jammed.live rob head count fun _ => by rw [latch]

theorem intSlot_deadlocked (dead : e.ooo.Deadlocked) (ok : e.ooo.Ok) {s : Fin 2} (done : e.intSlot vm cfg s = some e')
    (ok' : e'.ooo.Ok) : e'.ooo.Deadlocked := by
  unfold intSlot at done
  dsimp only at done
  split at done
  · cases done
    exact dead
  · next valid =>
      have live : e.ooo.Live .int s := live_of_valid ok.inv (by decide) (by simpa using valid)
      have entryValid : ((e.ooo.dropLatch .int s).rob (e.ooo.latch .int s).robIdx).valid = true :=
        (ok.inv.live_entry live).1
      rw [if_neg (by simp [entryValid])] at done
      obtain ⟨⟨ir, sys⟩, run, same⟩ := Option.map_eq_some_iff.mp done
      have completes := ok.inv.completes_finishExec live ir
      have bides := OOOState.Deadlocked.completes dead ok live (by decide) completes rfl
      dsimp only at same
      split at same
      · next control =>
          rcases resolveBranch_cases cfg _ (e.ooo.latch .int s).robIdx ir with
            ⟨right, resolved⟩ | ⟨outside, resolved⟩ | ⟨wrong, target, resolved⟩
          · rw [resolved] at same
            rw [← same] at ok' ⊢
            exact dead.keep ok ok' bides
          · rw [resolved] at same
            rw [← same] at ok' ⊢
            have entry := congrFun completes.rob (e.ooo.latch .int s).robIdx
            rw [setAt_self] at entry
            refine dead.keep ok ok' (OOOState.Deadlocked.completes dead ok live (by decide) completes.setEntry ?_)
            exact congrArg ROBEntry.ready entry
          · rw [resolved] at same
            rw [← same] at ok' ⊢
            -- The branch is younger than the loads in the LSU, and so is all that it flushes.
            obtain ⟨ok₁, flushes⟩ := redirect_flushes ok live run completes
            have executed := irExecute_itype run
            have kind : ir.itype = (e.ooo.slotEntry .int s).ir.execFn.itype := executed
            have unready := (ok.inv.placed.waiting _ _ (OOOState.occupant_slot live.valid live.kept)).2
            have newer := dead.resolved _ entryValid unready (ok.control live kind control)
            have flushed := OOOState.Bides.flushes flushes fun t => by
              rw [bides.slots t]
              unfold OOOState.pos at newer ⊢
              rw [bides.head]
              exact newer t
            exact (dead.keep ok ok₁ bides).keep ok₁ ok' ⟨flushed.head, flushed.live, flushed.oldest, flushed.slots, flushed.younger⟩
      · rw [← same] at ok' ⊢
        exact dead.keep ok ok' bides

theorem mulFinish_deadlocked (dead : e.ooo.Deadlocked) (ok : e.ooo.Ok) {s : Fin 2} (live : e.ooo.Live .mul s)
    (done : e.mulFinish vm s = some e') (ok' : e'.ooo.Ok) : e'.ooo.Deadlocked := by
  have entryValid : ((e.ooo.dropLatch .mul s).rob (e.ooo.latch .mul s).robIdx).valid = true := (ok.inv.live_entry live).1
  unfold mulFinish at done
  dsimp only at done
  rw [if_neg (by simp [entryValid])] at done
  obtain ⟨⟨ir, sys⟩, _, same⟩ := Option.map_eq_some_iff.mp done
  rw [← same] at ok' ⊢
  exact dead.keep ok ok' (OOOState.Deadlocked.completes dead ok live (by decide) (ok.inv.completes_finishExec live ir) rfl)

/-- A slot of the MUL unit counts down. -/
theorem count_deadlocked {o : OOOState} (dead : o.Deadlocked) (ok : o.Ok) {s : Fin 2} {l : OOOLatch}
    (ok' : (o.setLatch .mul s l).Ok) : (o.setLatch .mul s l).Deadlocked := by
  refine dead.keep ok ok' (.same dead.jammed.live rfl rfl rfl fun t => ?_)
  rw [OOOState.latch_setLatch, if_neg]
  rintro ⟨absurdity, _⟩
  cases absurdity

theorem mulSlot_deadlocked (dead : e.ooo.Deadlocked) (ok : e.ooo.Ok) {s : Fin 2} (done : e.mulSlot vm s = some e')
    (ok' : e'.ooo.Ok) : e'.ooo.Deadlocked := by
  cases mulSlot_visit ok done with
  | idle same => exact same ▸ dead
  | count live same =>
      rw [same] at ok' ⊢
      exact count_deadlocked dead ok ok'
  | first live finished =>
      obtain ⟨ok₁, -, live₁⟩ := live_counted ok live _
      exact mulFinish_deadlocked (count_deadlocked dead ok ok₁) ok₁ live₁ finished ok'
  | last live finished => exact mulFinish_deadlocked dead ok live finished ok'

/-- The loads in the LSU wait. -/
theorem lsuSlot_deadlocked (dead : e.ooo.Deadlocked) (ok : e.ooo.Ok) {s : Fin 2} (done : e.lsuSlot vm s = some e') : e' = e := by
  obtain ⟨live, idle, waits, younger⟩ := dead.jammed.parked s
  have entryValid : (e.ooo.rob (e.ooo.latch .lsu s).robIdx).valid = true := (ok.inv.live_entry live).1
  unfold lsuSlot at done
  dsimp only at done
  rw [if_neg (by rw [live.valid]; exact Bool.false_ne_true), if_neg (by rw [entryValid, live.kept]; exact Bool.false_ne_true),
    idle] at done
  dsimp only at done
  rw [waits, if_neg (by decide), if_pos ⟨rfl, younger⟩] at done
  exact (Option.some.inj done).symm

theorem frontStep_deadlocked (dead : e.ooo.Deadlocked) (ok : e.ooo.Ok) (step : e.FrontStep vm cfg e') : e'.ooo.Deadlocked := by
  have live := dead.jammed.live
  refine dead.keep ok (step.ok ok) ?_
  cases step with
  | rename valid inOrder alone room names renames =>
      have bides := OOOState.Bides.renames live renames ok.inv room
      exact ⟨bides.head, bides.live, bides.oldest, bides.slots, bides.younger⟩
  | _ => exact .same live rfl rfl rfl fun _ => rfl

/-- No phase of a cycle ends a deadlock. -/
theorem Phase.deadlocked (dead : e.ooo.Deadlocked) (ok : e.ooo.Ok) (tidy : e.ooo.Tidy) {phase : Phase}
    (done : phase.step vm cfg e = some e') : e'.ooo.Deadlocked := by
  obtain ⟨ok', _, _⟩ := phase.keeps (P := fun _ => True) (fun _ _ _ _ _ => trivial) ok tidy trivial done
  have front : ∀ {e'}, ReflTransGen (FrontStep vm cfg) e e' → e'.ooo.Deadlocked := by
    intro e' steps
    exact frontSteps_keep (P := fun e => e.ooo.Deadlocked) (fun _ _ ok dead step => frontStep_deadlocked dead ok step) steps ok dead
  cases phase with
  | drain => exact dead.keep ok ok' (drainStoreBuf_bides dead done)
  | commit =>
      rw [← Option.some.inj ((stageCommit_unready (dead.jammed.unready ok)).symm.trans done)]
      exact dead
  | mshr =>
      cases done
      exact dead.keep ok ok' (.same dead.jammed.live rfl rfl rfl fun _ => rfl)
  | slot eu s =>
      cases eu with
      | int => exact intSlot_deadlocked dead ok done ok'
      | mul => exact mulSlot_deadlocked dead ok done ok'
      | lsu =>
          rw [lsuSlot_deadlocked dead ok done]
          exact dead
  | issue =>
      cases done
      exact dead.keep ok ok' (dead.issueAll OOOState.issueOrder)
  | rename => exact front (stageRn_steps vm cfg tidy done).1
  | decode =>
      cases done
      exact front (stageId_steps vm cfg ok tidy).1
  | fetch => exact front (stageIf_steps ok done).1
  | tick =>
      cases done
      exact dead

theorem runPhases_deadlocked (dead : e.ooo.Deadlocked) (ok : e.ooo.Ok) (tidy : e.ooo.Tidy) {n k : Nat}
    (done : runPhases vm cfg n k e = some e') : e'.ooo.Deadlocked := by
  induction k generalizing n e with
  | zero =>
      cases done
      exact dead
  | succ k ih =>
      obtain ⟨e₁, first, rest⟩ := Option.bind_eq_some_iff.mp done
      obtain ⟨ok₁, tidy₁, _⟩ := Phase.keeps (P := fun _ => True) (fun _ _ _ _ _ => trivial) ok tidy trivial first
      exact ih (Phase.deadlocked dead ok tidy first) ok₁ tidy₁ rest

end Engine

/-! ## A machine that stands still -/

/-- The oldest instruction waits, both slots of the LSU wait for it, nothing else is under way, and all is full. -/
structure OOOState.Frozen (o : OOOState) : Prop where
  unready : (o.rob o.robHead).ready = false
  parked : ∀ s, o.Parked s ∧ (o.rob (o.latch .lsu s).robIdx).valid = true
  int : ∀ s, (o.latch .int s).valid = false
  mul : (o.latch .mul 0).valid = false
  noInt : o.selectIssue .int = none
  noMul : o.selectIssue .mul = none
  stores : o.sbufCount = 0
  misses : ∀ m, ((o.mshr m).valid && decide ((o.mshr m).cyclesRem > 0)) = false
  full : o.robCount = 32
  decoded : (o.latchIdRn 0).valid = true
  fetched : (o.latchIfId 0).valid = true

instance (o : OOOState) : Decidable o.Frozen :=
  decidable_of_iff ((o.rob o.robHead).ready = false ∧ (∀ s, o.Parked s ∧ (o.rob (o.latch .lsu s).robIdx).valid = true) ∧
      (∀ s, (o.latch .int s).valid = false) ∧ (o.latch .mul 0).valid = false ∧ o.selectIssue .int = none ∧
      o.selectIssue .mul = none ∧ o.sbufCount = 0 ∧
      (∀ m, ((o.mshr m).valid && decide ((o.mshr m).cyclesRem > 0)) = false) ∧ o.robCount = 32 ∧
      (o.latchIdRn 0).valid = true ∧ (o.latchIfId 0).valid = true)
    ⟨fun ⟨a, b, c, d, e, f, g, h, i, j, k⟩ => ⟨a, b, c, d, e, f, g, h, i, j, k⟩,
      fun z => ⟨z.unready, z.parked, z.int, z.mul, z.noInt, z.noMul, z.stores, z.misses, z.full, z.decoded, z.fetched⟩⟩

namespace OOOState.Frozen

variable {o : OOOState} (frozen : o.Frozen)

include frozen

theorem mshrTick : o.mshrTick = o := by
  have same : o.mshrTick.mshr = o.mshr := by
    funext m
    unfold OOOState.mshrTick
    dsimp only
    rw [frozen.misses m]
    rfl
  unfold OOOState.mshrTick at same ⊢
  dsimp only at same
  rw [same]

theorem stageIs : o.stageIs = o := by
  have stays (eu : EU) (s : Fin 2) (stuck : (o.latch eu s).valid = true ∨ o.selectIssue eu = none) :
      OOOState.issueSlot eu o s = o := by
    unfold OOOState.issueSlot
    rcases stuck with taken | nobody
    · exact if_pos taken
    · rw [nobody]
      split <;> rfl
  unfold OOOState.stageIs issueUnit EU.slots
  simp only [List.foldl_cons, List.foldl_nil]
  rw [stays .int 0 (.inr frozen.noInt), stays .int 1 (.inr frozen.noInt), stays .mul 0 (.inr frozen.noMul),
    stays .lsu 0 (.inl (frozen.parked 0).1.live.valid), stays .lsu 1 (.inl (frozen.parked 1).1.live.valid)]

end OOOState.Frozen

namespace Engine

variable {σ β : Type} {vm : VMem σ} {cfg : OooConfig β} {e e' : Engine σ β}

variable (vm cfg) in
/-- The cycle of a machine that stands still succeeds, whatever the memory holds. -/
theorem cycle_frozen (frozen : e.ooo.Frozen) : ∃ e', e.cycle vm cfg = some e' ∧ e'.ooo = e.ooo := by
  have drain : e.drainStoreBuf vm cfg = some e := if_pos frozen.stores
  have commit : e.stageCommit vm cfg = some { e with tcIr := [] } := stageCommit_unready frozen.unready
  have units : ∀ a : Engine σ β, a.ooo = e.ooo → visitAll vm cfg OOOState.issueOrder a = some a := by
    intro a same
    have int (s : Fin 2) : a.intSlot vm cfg s = some a := if_pos (by rw [same, frozen.int s]; rfl)
    have mul : a.mulSlot vm 0 = some a := if_pos (by rw [same, frozen.mul]; rfl)
    have lsu (s : Fin 2) : a.lsuSlot vm s = some a := by
      obtain ⟨⟨⟨valid, kept⟩, idle, waits, younger⟩, entry⟩ := frozen.parked s
      unfold lsuSlot
      dsimp only
      rw [same, if_neg (by rw [valid]; exact Bool.false_ne_true), if_neg (by rw [entry, kept]; exact Bool.false_ne_true), idle]
      dsimp only
      rw [waits, if_neg (by decide), if_pos ⟨rfl, younger⟩]
    simp [visitAll, OOOState.issueOrder, Phase.step, int, mul, lsu]
  have rename : ∀ a : Engine σ β, a.ooo = e.ooo → ∃ stats, a.stageRn = some { a with stats := stats } := by
    intro a same
    have decoded : (a.ooo.latchIdRn 0).valid = true := by rw [same]; exact frozen.decoded
    have full : a.ooo.robCount = 32 := by rw [same]; exact frozen.full
    obtain ⟨count, stall⟩ : ∃ count, renameStall a.ooo 0 (a.ooo.latchIdRn 0).ir (rsUsed a.ooo) = some count := by
      unfold renameStall
      rw [full]
      split
      · exact ⟨_, rfl⟩
      · exact ⟨_, if_pos (Nat.le_refl 32)⟩
    have kept : compact a.ooo = a.ooo := if_neg (by rw [decoded]; exact Bool.false_ne_true)
    refine ⟨count a.stats, ?_⟩
    unfold stageRn renameLoop
    rw [if_neg (by rw [decoded]; exact Bool.false_ne_true), if_neg (by rw [decoded]; exact Bool.false_ne_true), stall]
    dsimp only [Option.map_some]
    rw [kept]
  have decode : ∀ a : Engine σ β, a.ooo = e.ooo → a.stageId = a := by
    intro a same
    refine if_pos ?_
    rw [same, frozen.decoded, Bool.or_true]
  have fetch : ∀ a : Engine σ β, a.ooo = e.ooo → a.stageIf vm cfg = some a := by
    intro a same
    exact if_pos (by rw [same]; exact frozen.fetched)
  obtain ⟨stats, renamed⟩ := rename { e with tcIr := [], ooo := e.ooo.mshrTick.stageIs } (by rw [frozen.mshrTick, frozen.stageIs])
  have same : e.ooo.mshrTick.stageIs = e.ooo := by rw [frozen.mshrTick, frozen.stageIs]
  refine ⟨tick { e with tcIr := [], ooo := e.ooo.mshrTick.stageIs, stats := stats }, ?_, same⟩
  rw [cycle_eq_visits, drain]
  simp only [Option.bind_eq_bind, Option.bind_some, commit]
  rw [units { e with tcIr := [], ooo := e.ooo.mshrTick } frozen.mshrTick, Option.bind_some, renamed, Option.bind_some,
    decode { e with tcIr := [], ooo := e.ooo.mshrTick.stageIs, stats := stats } same,
    fetch { e with tcIr := [], ooo := e.ooo.mshrTick.stageIs, stats := stats } same]
  rfl

theorem runs_frozen {start : Engine σ β} {n : Nat} (done : run vm cfg n start = some e) (frozen : e.ooo.Frozen) (k : Nat) :
    ∃ e', run vm cfg (n + k) start = some e' ∧ e'.ooo = e.ooo := by
  induction k with
  | zero => exact ⟨e, done, rfl⟩
  | succ k ih =>
      obtain ⟨e₁, before, same⟩ := ih
      obtain ⟨e₂, cycled, kept⟩ := cycle_frozen vm cfg (e := e₁) (same ▸ frozen)
      refine ⟨e₂, ?_, kept.trans same⟩
      rw [Nat.add_succ, run_succ, before]
      exact cycled

end Engine

/-! ## Runs -/

section Hart

variable {δ β : Type} {mem : MemConfig δ} {cfg : OooConfig β}

theorem Engine.cycle_deadlocked {e e' : Engine (MemState δ) β} (dead : e.ooo.Deadlocked) (ok : e.ooo.Ok) (tidy : e.ooo.Tidy)
    (done : e.cycle (hierarchy mem) cfg = some e') : e'.ooo.Deadlocked := by
  rw [cycle_eq_phases] at done
  exact runPhases_deadlocked dead ok tidy done

/-- Both slots of the LSU are held for good. -/
theorem HartRun.deadlocked {active : Nat → Prop} {ooo : Nat → OOOState} {log : Nat → List (Event (MemState δ))} {n d : Nat}
    (hart : HartRun mem cfg active ooo log (n + d)) (dead : (ooo n).Deadlocked) :
    (ooo (n + d)).Deadlocked ∧ commits (log (n + d)) = commits (log n) := by
  induction d with
  | zero => exact ⟨dead, rfl⟩
  | succ d ih =>
      have before : HartRun mem cfg active ooo log (n + d) := hart.of_le (Nat.le_succ _)
      obtain ⟨stuck, same⟩ := ih before
      obtain ⟨counted, _⟩ := before.counted
      by_cases turn : active (n + d)
      · obtain ⟨e, e', ooo₀, log₀, done, ooo₁, log₁⟩ := hart.cycles (n + d) (Nat.lt_succ_self _) turn
        rw [← ooo₀] at stuck counted
        have stuck' := Engine.cycle_deadlocked stuck counted.ok counted.tidy done
        have quiet := Engine.cycle_unready (stuck.jammed.unready counted.ok) done
        rw [ooo₁] at stuck'
        rw [log₀, log₁] at quiet
        exact ⟨stuck', quiet.trans same⟩
      · obtain ⟨sameOoo, sameLog⟩ := hart.rests (n + d) (Nat.lt_succ_self _) turn
        change (ooo (n + d + 1)).Deadlocked ∧ commits (log (n + d + 1)) = commits (log n)
        rw [sameOoo, sameLog]
        exact ⟨stuck, same⟩

end Hart

theorem Engine.run_add {σ β : Type} {vm : VMem σ} {cfg : OooConfig β} (a b : Nat) (e : Engine σ β) :
    run vm cfg (a + b) e = (run vm cfg a e).bind (run vm cfg b) := by
  induction a generalizing e with
  | zero =>
      rw [Nat.zero_add]
      rfl
  | succ a ih =>
      rw [Nat.succ_add, run, run, Option.bind_assoc]
      congr 1
      funext e₁
      exact ih e₁

/-- A run that never ends. -/
theorem Engine.exists_states_of_runs {σ β : Type} {vm : VMem σ} {cfg : OooConfig β} {start : Engine σ β}
    (runs : ∀ k, ∃ e, run vm cfg k start = some e) : ∃ state : Nat → Engine σ β, state 0 = start ∧
      (∀ k, run vm cfg k start = some (state k)) ∧ ∀ i, (state i).cycle vm cfg = some (state (i + 1)) := by
  choose state reached using runs
  refine ⟨state, (Option.some.inj (reached 0)).symm, reached, fun i => ?_⟩
  have next := reached (i + 1)
  rw [run_succ, reached i] at next
  exact next

/-! ## A program that hangs -/

/-- `auipc x5, 0`, `lui x8, 0xa0000`, `mul x6, x0, x5`, `add x6, x6, x5`, `lw x7, 0(x6)`, `lw x9, 0(x8)`,
`lw x10, 4(x8)` and a row of `nop`: the first load gets its address after the device loads have taken the LSU. -/
def hangProgram : List Raw :=
  [0x00000297, 0xa0000437, 0x02500333, 0x00530333, 0x00032383, 0x00042483, 0x00442503] ++ List.replicate 36 0x00000013

/-- After 23 cycles the machine stands still, and it does so for ever. -/
theorem hangProgram_hangs : ∃ state : Nat → Engine (MemState Unit) Unit, state 0 = boot hangProgram ∧
    (∀ i, (state i).cycle (hierarchy (.plain 1)) .solo = some (state (i + 1))) ∧
    (∀ k, (state (23 + k)).ooo.Deadlocked) ∧ (commits (state 23).log).length = 4 := by
  have reached : (bootRun hangProgram 23).any (fun e =>
      decide e.ooo.Deadlocked && decide e.ooo.Frozen && decide ((commits e.log).length = 4)) = true := by
    decide +kernel
  obtain ⟨e, done, facts⟩ := (Option.any_eq_true _ _).mp reached
  simp only [Bool.and_eq_true, decide_eq_true_eq] at facts
  obtain ⟨⟨dead, frozen⟩, four⟩ := facts
  have runs : ∀ k, ∃ e, Engine.run (hierarchy (.plain 1)) .solo k (boot hangProgram) = some e := by
    intro k
    by_cases early : k ≤ 23
    · rw [← Nat.add_sub_cancel' early] at done
      obtain ⟨e', first, _⟩ := Option.bind_eq_some_iff.mp ((Engine.run_add ..).symm.trans done)
      exact ⟨e', first⟩
    · obtain ⟨e', later, _⟩ := Engine.runs_frozen done frozen (k - 23)
      rw [Nat.add_sub_cancel' (Nat.le_of_not_le early)] at later
      exact ⟨e', later⟩
  obtain ⟨state, initial, reaches, cycles⟩ := Engine.exists_states_of_runs runs
  have here : state 23 = e := Option.some.inj ((reaches 23).symm.trans done)
  refine ⟨state, initial, cycles, fun k => ?_, by rw [here]; exact four⟩
  obtain ⟨e', later, same⟩ := Engine.runs_frozen done frozen k
  have there : state (23 + k) = e' := Option.some.inj ((reaches (23 + k)).symm.trans later)
  rw [there, same]
  exact dead

/-! ## Results -/

section Results

variable {δ β : Type} (mem : MemConfig δ) (cfg : OooConfig β)

/-- A run without end stops committing exactly if the LSU is jammed in every cycle from some cycle on. -/
theorem commits_stop_iff :
    (∀ (cpu : CPUState) (world : World (MemState δ)) (bpred : β) (state : Nat → Engine (MemState δ) β),
      state 0 = .init cfg cpu world bpred → (∀ i, (state i).cycle (hierarchy mem) cfg = some (state (i + 1))) →
      ((∃ n, ∀ m, n ≤ m → (commits (state m).log).length = (commits (state n).log).length) ↔
        ∃ n, ∀ m, n ≤ m → (state m).ooo.Jammed)) ∧
    ∀ (arch : Fin 2 → CoreArch) (world : World (MemState δ)) (bpred : Fin 2 → β) (turn : Nat → Fin 2)
      (state : Nat → OooDual (MemState δ) β), state 0 = .init cfg arch world bpred →
      (∀ i, (state i).coreCycle (hierarchy mem) cfg (turn i) = some (state (i + 1))) → ∀ h,
      ((∃ n, ∀ m, n ≤ m → (commits ((state m).core h).log).length = (commits ((state n).core h).log).length) ↔
        ∃ n, ∀ m, n ≤ m → turn m = h → ((state m).core h).ooo.Jammed) := by
  constructor
  · intro cpu world bpred state initial cycles
    have hart (k : Nat) := Engine.hartRun initial (k := k) fun i _ => cycles i
    rw [Paid.stops_iff (fun k => (hart k).paid) fun i => (hart (i + 1)).still (Nat.lt_succ_self i)]
    simp only [not_true_eq_false, false_or]
  · intro arch world bpred turn state initial cycles h
    have hart (k : Nat) := OooDual.hartRun initial (k := k) (fun i _ => cycles i) h
    rw [Paid.stops_iff (fun k => (hart k).paid) fun i => (hart (i + 1)).still (Nat.lt_succ_self i)]
    simp only [imp_iff_not_or]

end Results

/-- The program that hangs is jammed from its 23rd cycle on, so its commits stop. -/
theorem commits_stop_iff_hang : ∃ state : Nat → Engine (MemState Unit) Unit, state 0 = boot hangProgram ∧
    (∀ i, (state i).cycle (hierarchy (.plain 1)) .solo = some (state (i + 1))) ∧
    ∃ n, ∀ m, n ≤ m → (commits (state m).log).length = (commits (state n).log).length := by
  obtain ⟨state, initial, cycles, dead, _⟩ := hangProgram_hangs
  refine ⟨state, initial, cycles, ((commits_stop_iff (.plain 1) .solo).1 _ _ _ state initial cycles).mpr ⟨23, fun m later => ?_⟩⟩
  obtain ⟨d, rfl⟩ := Nat.exists_eq_add_of_le later
  exact (dead d).jammed

section Results

variable {δ β : Type} (mem : MemConfig δ) (cfg : OooConfig β)

/-- From a deadlock on, the hart never commits again and the deadlock never ends. -/
theorem deadlock_permanent :
    (∀ (cpu : CPUState) (world : World (MemState δ)) (bpred : β) (state : Nat → Engine (MemState δ) β) (n d : Nat),
      state 0 = .init cfg cpu world bpred →
      (∀ i, i < n + d → (state i).cycle (hierarchy mem) cfg = some (state (i + 1))) → (state n).ooo.Deadlocked →
      (state (n + d)).ooo.Deadlocked ∧ commits (state (n + d)).log = commits (state n).log) ∧
    ∀ (arch : Fin 2 → CoreArch) (world : World (MemState δ)) (bpred : Fin 2 → β) (turn : Nat → Fin 2)
      (state : Nat → OooDual (MemState δ) β) (n d : Nat), state 0 = .init cfg arch world bpred →
      (∀ i, i < n + d → (state i).coreCycle (hierarchy mem) cfg (turn i) = some (state (i + 1))) →
      ∀ h, ((state n).core h).ooo.Deadlocked →
        ((state (n + d)).core h).ooo.Deadlocked ∧
          commits ((state (n + d)).core h).log = commits ((state n).core h).log := by
  constructor
  · intro cpu world bpred state n d initial cycles dead
    exact (Engine.hartRun initial cycles).deadlocked dead
  · intro arch world bpred turn state n d initial cycles h dead
    exact (OooDual.hartRun initial cycles h).deadlocked dead

end Results

/-- The program that hangs commits four instructions and no more, however long it runs. -/
theorem deadlock_permanent_hang : ∃ state : Nat → Engine (MemState Unit) Unit, state 0 = boot hangProgram ∧
    (∀ i, (state i).cycle (hierarchy (.plain 1)) .solo = some (state (i + 1))) ∧
    ∀ d, (commits (state (23 + d)).log).length = 4 := by
  obtain ⟨state, initial, cycles, dead, four⟩ := hangProgram_hangs
  refine ⟨state, initial, cycles, fun d => ?_⟩
  have stuck := (deadlock_permanent (.plain 1) .solo).1 _ _ _ state 23 d initial (fun i _ => cycles i) (dead 0)
  rw [stuck.2]
  exact four

end Sustemu
