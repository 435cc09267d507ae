import Sustemu.Ooo.Oldest

/-!
# Every cycle gets closer to a commit

The measure of a state counts what stands between it and the next commit: the
store buffer to be drained and, for the oldest instruction, the slots of its
unit to be freed, then its own slot; with an empty reorder buffer, the front
end. A cycle without a commit lowers the measure, unless both slots of the LSU
hold device loads that wait for the oldest instruction, which itself waits for
a slot of the LSU.
-/

set_option autoImplicit false

namespace Sustemu

open Lib Relation

namespace OOOState

variable {o o' o'' : OOOState}

/-! ## What most phases leave alone -/

/-- Every slot and every counter is the same. -/
structure Still (o o' : OOOState) : Prop where
  timers : o.SameTimers o'
  latch : o'.latch = o.latch

namespace Still

theorem refl (o : OOOState) : o.Still o := ⟨⟨rfl, rfl, rfl, rfl⟩, rfl⟩

theorem trans (first : o.Still o') (second : o'.Still o'') : o.Still o'' :=
  ⟨first.timers.trans second.timers, second.latch.trans first.latch⟩

theorem stays (still : o.Still o') (eu : EU) (s : Fin 2) : Stays eu s o o' :=
  .of_latch still.timers.head (by rw [still.latch]) still.timers.mshr

theorem timed (still : o.Still o') (timed : o.Timed) : o'.Timed :=
  timed.keep (by rw [still.timers.mshr]; exact timed.mshr) (still.stays .mul) (still.timers.tick.trans_le timed.drain)

end Still

theorem renameInst_still {ir : IRInst} {seq : Nat} (done : o.renameInst ir seq = some o') : o.Still o' := by
  obtain ⟨_, renames⟩ := renames_of_renameInst done
  refine ⟨⟨renames.head, renames.mshr, ?_, renames.sbuf.2.2.2⟩, renames.latch⟩
  unfold renameInst at done
  simp only [Option.map_eq_some_iff] at done
  obtain ⟨_, _, rfl⟩ := done
  cases ir.rd with
  | none => rfl
  | some a =>
      by_cases zero : a = 0
      · simp [renameDest, zero, rsMaskUpdate, setRob]
      · simp [renameDest, zero, rsMaskUpdate, setRob, setPrf, freelistPop]

/-! ## The measure -/

/-- Cycles in which the slots of a unit are not all taken any more. -/
def unitRem (o : OOOState) (eu : EU) : Nat := (eu.slots.map (o.slotRem eu)).sum

/-- Cycles of fetching outside of memory. -/
def skipRem (pc : Word) : Nat :=
  if inDram (Engine.truncPc pc) then 0 else ((0x180000000 - (Engine.truncPc pc).toNat) % 0x100000000 + 3) / 4

/-- Cycles until the front end has an instruction to rename. -/
def frontRem (o : OOOState) : Nat :=
  if (o.latchIdRn 0).valid then 1 else if (o.latchIfId 0).valid then 2 else 3 + skipRem o.fetchPc

/-- Kind of unit that the oldest instruction needs. -/
def headUnit (o : OOOState) : EU := classify (o.rob o.robHead).ir.raw

/-- What the oldest instruction still waits for. -/
def headRem (o : OOOState) : Nat :=
  if o.robCount = 0 then 300 + o.frontRem
  else if (o.rob o.robHead).ready then 0
  else if ∃ k, o.occupant (.station k) = some o.robHead then 100 + o.unitRem o.headUnit
  else if o.occupant (.slot o.headUnit 0) = some o.robHead then o.slotRem o.headUnit 0
  else o.slotRem o.headUnit 1

/-- Cycles until the store buffer is empty. -/
def bufferRem (o : OOOState) : Nat := 8 * o.sbufCount + o.sbufDrainTick

def commitRem (o : OOOState) : Nat := o.headRem + o.bufferRem

/-- The oldest instruction waits for a slot of the LSU, and the loads in both slots wait for it. -/
structure Jammed (o : OOOState) : Prop where
  live : o.robCount ≠ 0
  waits : ∃ k, o.occupant (.station k) = some o.robHead
  unit : o.headUnit = .lsu
  parked : ∀ s, o.Parked s

instance (o : OOOState) : Decidable o.Jammed :=
  decidable_of_iff (o.robCount ≠ 0 ∧ (∃ k, o.occupant (.station k) = some o.robHead) ∧ o.headUnit = .lsu ∧ ∀ s, o.Parked s)
    ⟨fun all => ⟨all.1, all.2.1, all.2.2.1, all.2.2.2⟩, fun jammed => ⟨jammed.live, jammed.waits, jammed.unit, jammed.parked⟩⟩

/-- Only the slots of the units are ever taken. -/
theorem Timed.listed (timed : o.Timed) {eu : EU} {s : Fin 2} (valid : (o.latch eu s).valid = true) : s ∈ eu.slots := by
  cases eu with
  | int | lsu => cases s using Fin.cases with
    | zero => exact List.mem_cons_self
    | succ s => exact List.mem_cons_of_mem _ (by rw [Subsingleton.elim s 0]; exact List.mem_cons_self)
  | mul =>
      have first : s = 0 := by
        by_contra other
        have second : s = 1 := by omega
        exact Bool.false_ne_true (timed.unused.symm.trans (second ▸ valid))
      exact first ▸ List.mem_cons_self

theorem unitRem_pair {eu : EU} (pair : eu.slots = [0, 1]) : o.unitRem eu = o.slotRem eu 0 + o.slotRem eu 1 := by
  unfold unitRem
  rw [pair]
  rfl

theorem Timed.unitRem_le (timed : o.Timed) (eu : EU) : o.unitRem eu ≤ 82 := by
  have slots := timed.slotRem_le
  cases eu with
  | int | lsu => exact (Nat.add_le_add (slots _ 0) (Nat.add_le_add (slots _ 1) (Nat.le_refl 0)))
  | mul => exact (Nat.add_le_add (slots _ 0) (Nat.le_refl 0)).trans (by decide)

theorem skipRem_le (pc : Word) : skipRem pc ≤ 0x40000000 := by
  unfold skipRem
  split
  · exact Nat.zero_le _
  · omega

/-- The bound of the measure. -/
def patience : Nat := 0x40000000 + 438

theorem Timed.headRem_le (timed : o.Timed) (live : o.robCount ≠ 0) : o.headRem ≤ 182 := by
  have unit := timed.unitRem_le o.headUnit
  have first := timed.slotRem_le o.headUnit 0
  have second := timed.slotRem_le o.headUnit 1
  unfold headRem
  rw [if_neg live]
  split
  · omega
  · split
    · omega
    · split <;> omega

theorem Timed.commitRem_le (timed : o.Timed) (buffered : o.sbufCount ≤ 16) : o.commitRem ≤ patience := by
  have skip := skipRem_le o.fetchPc
  have tick := timed.drain
  have front : o.frontRem ≤ 0x40000000 + 3 := by
    unfold frontRem
    split
    · omega
    · split <;> omega
  have head : o.headRem ≤ 0x40000000 + 303 := by
    by_cases empty : o.robCount = 0
    · unfold headRem
      rw [if_pos empty]
      omega
    · have bound := timed.headRem_le empty
      omega
  unfold commitRem bufferRem patience
  omega

theorem headRem_ready (live : o.robCount ≠ 0) (ready : (o.rob o.robHead).ready = true) : o.headRem = 0 := by
  unfold headRem
  rw [if_neg live, if_pos ready]

theorem Inv.dead (inv : o.Inv) (empty : o.robCount = 0) (i : RobIdx) : (o.rob i).valid ≠ true := by
  rw [Ne, inv.renamed.valid, empty]
  exact Nat.not_lt_zero _

section Head

variable (inv : o.Inv) (live : o.robCount ≠ 0)

include inv live

theorem Inv.head_place (unready : (o.rob o.robHead).ready = false) : ∃ place, o.occupant place = some o.robHead := by
  have valid := inv.renamed.head_valid live
  exact inv.placed.tracked _ valid unready ((inv.renamed.valid _).mp valid)

theorem Inv.headRem_station {k : RsIdx} (waits : o.occupant (.station k) = some o.robHead) :
    o.headRem = 100 + o.unitRem o.headUnit := by
  have unready := (inv.placed.waiting _ _ waits).2
  unfold headRem
  rw [if_neg live, if_neg (by rw [unready]; exact Bool.false_ne_true), if_pos ⟨k, waits⟩]

theorem Inv.headRem_slot {eu : EU} {s : Fin 2} (here : o.occupant (.slot eu s) = some o.robHead) :
    o.headRem = o.slotRem eu s := by
  have unready := (inv.placed.waiting _ _ here).2
  obtain ⟨valid, kept, index⟩ := slot_of_occupant here
  have unit : eu = o.headUnit := by
    rw [(inv.placed.latched eu s valid kept).euType, index]
    rfl
  have noStation : ¬∃ k, o.occupant (.station k) = some o.robHead := by
    rintro ⟨k, there⟩
    cases inv.placed.unique _ _ _ here there
  unfold headRem
  rw [if_neg live, if_neg (by rw [unready]; exact Bool.false_ne_true), if_neg noStation, ← unit]
  by_cases first : s = 0
  · rw [if_pos (first ▸ here), first]
  · have second : s = 1 := by omega
    rw [if_neg, second]
    intro there
    cases inv.placed.unique _ _ _ here there
    exact first rfl

end Head

/-! ## One cycle -/

/-- The instruction of a slot has left, is closer to leaving, or is a device load that waits to be the oldest. -/
def Falls (eu : EU) (s : Fin 2) (o o' : OOOState) : Prop :=
  (o'.latch eu s).valid = true → (o.latch eu s).valid = true ∧
    (o'.slotRem eu s < o.slotRem eu s ∨ o'.slotRem eu s ≤ o.slotRem eu s ∧ eu = .lsu ∧ o.Parked s)

section Falls

variable {eu : EU} {s : Fin 2}

/-- A slot is left alone before its visit. -/
theorem Works.after (works : Works eu s o' o'') (stays : Stays eu s o o') : Works eu s o o'' := by
  refine ⟨works.head.trans stays.head, fun valid => ?_⟩
  obtain ⟨valid', rem⟩ := works.slot valid
  refine ⟨stays.valid valid', ?_⟩
  rw [← stays.slotRem valid']
  rcases rem with less | ⟨same, rfl, ⟨m, waits, running⟩ | parked⟩
  · exact .inl less
  · obtain ⟨flushed, latch, _⟩ := stays.latch valid'
    have index : (o.latch .lsu s).mshrIdx = some m := by rw [← waits.index, latch]
    rw [stays.mshr valid' rfl m index] at running
    exact .inr ⟨same, rfl, .inl ⟨m, ⟨stays.valid valid', index⟩, running⟩⟩
  · exact .inr ⟨same, rfl, .inr (stays.parked parked)⟩

/-- A slot is left alone after its visit. -/
theorem Works.before (works : Works eu s o o') (stays : Stays eu s o' o'') : Works eu s o o'' := by
  refine ⟨stays.head.trans works.head, fun valid => ?_⟩
  rw [stays.slotRem valid]
  exact works.slot (stays.valid valid)

theorem Falls.after (falls : Falls eu s o' o'') (stays : Stays eu s o o') : Falls eu s o o'' := by
  intro valid
  obtain ⟨valid', rem⟩ := falls valid
  refine ⟨stays.valid valid', ?_⟩
  rw [← stays.slotRem valid']
  refine rem.imp_right fun waits => ?_
  obtain ⟨most, rfl, parked⟩ := waits
  exact ⟨most, rfl, stays.parked parked⟩

/-- A tick of the MSHR file and a visit bring the instruction closer to leaving. -/
theorem Works.falls (works : Works eu s o.mshrTick o') (mshrOk : o.MshrOk) : Falls eu s o o' := by
  intro valid
  obtain ⟨valid', rem⟩ := works.slot valid
  obtain ⟨ticked, counted⟩ := mshrTick_slotRem mshrOk eu s
  refine ⟨valid', ?_⟩
  rcases rem with less | ⟨same, rfl, ⟨m, waits, running⟩ | parked⟩
  · exact .inl (Nat.lt_of_lt_of_le less ticked)
  · left
    rw [same]
    exact counted m ⟨waits.valid, waits.index⟩ running
  · right
    rw [same]
    exact ⟨ticked, rfl, ⟨⟨parked.live.valid, parked.live.kept⟩, parked.idle, parked.waits, parked.younger⟩⟩

/-- All slots of a unit are taken: they get free sooner, unless device loads block the LSU. -/
theorem unitRem_falls (falls : ∀ s ∈ eu.slots, Falls eu s o o') (taken : ∀ s ∈ eu.slots, (o'.latch eu s).valid = true) :
    o'.unitRem eu ≤ o.unitRem eu ∧ (o'.unitRem eu < o.unitRem eu ∨ eu = .lsu ∧ ∀ s, o.Parked s) := by
  have slot : ∀ s ∈ eu.slots, o'.slotRem eu s < o.slotRem eu s ∨ o'.slotRem eu s ≤ o.slotRem eu s ∧ eu = .lsu ∧ o.Parked s :=
    fun s listed => (falls s listed (taken s listed)).2
  cases eu with
  | mul =>
      have only := slot 0 List.mem_cons_self
      have single : ∀ o : OOOState, o.unitRem .mul = o.slotRem .mul 0 := fun _ => rfl
      rw [single, single]
      rcases only with less | ⟨_, other, _⟩
      · omega
      · cases other
  | int | lsu =>
      have first := slot 0 List.mem_cons_self
      have second := slot 1 (List.mem_cons_of_mem _ List.mem_cons_self)
      rw [unitRem_pair rfl, unitRem_pair rfl]
      rcases first with less | ⟨most, unit, parked⟩
      · rcases second with less' | ⟨most', _, _⟩ <;> omega
      · rcases second with less' | ⟨most', _, parked'⟩
        · omega
        · refine ⟨by omega, .inr ⟨unit, fun s => ?_⟩⟩
          cases s using Fin.cases with
          | zero => exact parked
          | succ s =>
              cases s using Fin.cases with
              | zero => exact parked'
              | succ s => exact s.elim0

end Falls

/-- What the counters rely on. -/
structure Counted (o : OOOState) : Prop where
  ok : o.Ok
  tidy : o.Tidy
  cached : o.WaitsCached
  mshrOk : o.MshrOk
  timed : o.Timed

/-- Each of the listed slots has been visited once. -/
structure Visited (slots : List (EU × Fin 2)) (o o' : OOOState) : Prop where
  works : ∀ p ∈ slots, Works p.1 p.2 o o'
  others : ∀ p, p ∉ slots → Stays p.1 p.2 o o'
  tick : o'.sbufDrainTick = o.sbufDrainTick
  stores : o'.sbufCount = o.sbufCount
  timed : o.Timed → o'.Timed

namespace Visited

theorem nil (o : OOOState) : Visited [] o o := ⟨fun _ listed => absurd listed List.not_mem_nil, fun _ _ => .refl _ _ o, rfl, rfl, id⟩

theorem cons {p : EU × Fin 2} {rest : List (EU × Fin 2)} (first : Visits p.1 p.2 o o') (later : Visited rest o' o'')
    (different : p ∉ rest) : Visited (p :: rest) o o'' where
  works := fun q listed => by
    rcases List.mem_cons.mp listed with rfl | after
    · exact first.own.before (later.others q different)
    · have other : q ≠ p := fun same => different (same ▸ after)
      exact (later.works q after).after (first.others q.1 q.2 fun same => other (Prod.ext same.1 same.2))
  others := fun q unlisted => by
    have other := List.ne_of_not_mem_cons unlisted
    have stays := first.others q.1 q.2 fun same => other (Prod.ext same.1 same.2)
    exact stays.trans (later.others q (List.not_mem_of_not_mem_cons unlisted))
  tick := later.tick.trans first.tick
  stores := later.stores.trans first.stores
  timed := fun timed => later.timed (first.timed timed)

end Visited

/-! ## Counters between phases -/

theorem Timed.same (timed : o.Timed) (mshr : o'.mshr = o.mshr) (latch : o'.latch = o.latch)
    (tick : o'.sbufDrainTick = o.sbufDrainTick) : o'.Timed where
  mshr := by rw [mshr]; exact timed.mshr
  mul := by rw [latch]; exact timed.mul
  drain := tick.trans_le timed.drain
  unused := by rw [latch]; exact timed.unused

theorem Timed.mshrTick (timed : o.Timed) : o.mshrTick.Timed := by
  refine ⟨fun m => ?_, timed.mul, timed.drain, timed.unused⟩
  have before := timed.mshr m
  unfold OOOState.mshrTick
  dsimp only
  split
  · dsimp only
    omega
  · exact before

theorem Timed.afterCommit (timed : o.Timed) : o.afterCommit.Timed := by
  have tick : o.afterCommit.sbufDrainTick = o.sbufDrainTick := by
    unfold OOOState.afterCommit commitRename
    dsimp only
    split <;> split <;> rfl
  exact timed.same o.afterCommit_frame.mshr o.afterCommit_frame.latch tick

theorem Timed.issueSlot (timed : o.Timed) {eu : EU} {s : Fin 2} (listed : s ∈ eu.slots) : (issueSlot eu o s).Timed := by
  unfold OOOState.issueSlot
  split
  · exact timed
  · split
    · exact timed
    · next k _ =>
        have latch : ∀ t, (o.latchFromRs eu s k).latch .mul t = if EU.mul = eu ∧ t = s then
            { robIdx := (o.rs k).robIdx, physRd := (o.rs k).physRd, valid := true, cyclesRem := -1, mshrIdx := none,
              flushed := false, src1Val := (o.rs k).src1Val, src2Val := (o.rs k).src2Val } else o.latch .mul t :=
          fun t => latch_setLatch o eu s _ .mul t
        refine ⟨timed.mshr, fun t valid => ?_, timed.drain, ?_⟩
        · rw [latch] at valid ⊢
          split at valid
          · next here =>
              rw [if_pos here]
              exact (by decide : (-1 : Int) ≤ 19)
          · next other =>
              rw [if_neg other]
              exact timed.mul t valid
        · rw [latch, if_neg]
          · exact timed.unused
          · rintro ⟨rfl, rfl⟩
            cases listed with
            | tail _ later => cases later

theorem Timed.issueAll (timed : o.Timed) {slots : List (EU × Fin 2)} (listed : ∀ p ∈ slots, p.2 ∈ p.1.slots) :
    (OOOState.issueAll slots o).Timed := by
  induction slots generalizing o with
  | nil => exact timed
  | cons p rest ih =>
      exact ih (timed.issueSlot (listed p List.mem_cons_self)) fun q later => listed q (List.mem_cons_of_mem _ later)

theorem Timed.stageIs (timed : o.Timed) : o.stageIs.Timed := by
  rw [stageIs_eq]
  exact timed.issueAll (by decide)

/-- A cycle in which nothing commits; `o₁` is the state after the functional units. -/
structure Waited (o o₁ o' : OOOState) : Prop where
  before : o.Ok
  between : o₁.Ok
  after : o'.Ok
  timed : o.Timed
  timed' : o'.Timed
  units : o.Nears o₁
  falls : ∀ p ∈ issueOrder, Falls p.1 p.2 o o₁
  front : o₁.stageIs.Nears o'
  still : o₁.stageIs.Still o'

namespace Waited

variable {o₁ : OOOState} {eu : EU} {s : Fin 2} (waited : Waited o o₁ o')

include waited

theorem nears : o.Nears o' := waited.units.trans ((nears_issueAll issueOrder o₁).trans waited.front)

/-- A slot taken after the units is not issued to. -/
theorem slotRem_taken (valid : (o₁.latch eu s).valid = true) : o'.slotRem eu s = o₁.slotRem eu s := by
  have latch : o'.latch eu s = o₁.latch eu s := by
    rw [waited.still.latch, stageIs_eq]
    exact issueAll_latch valid
  have mshr : o'.mshr = o₁.mshr := by
    rw [waited.still.timers.mshr, stageIs_eq]
    exact issueAll_mshr issueOrder o₁
  unfold slotRem
  rw [latch, mshr]
  cases eu with
  | int => rfl
  | mul | lsu => rw [latch]

/-- The oldest instruction is in a slot throughout. -/
theorem slot_lt (live : o.robCount ≠ 0) (here : o.occupant (.slot eu s) = some o.robHead)
    (there : o'.occupant (.slot eu s) = some o.robHead) : o'.slotRem eu s < o.slotRem eu s := by
  have unready := (waited.after.inv.placed.waiting _ _ there).2
  have later := (nears_issueAll issueOrder o₁).trans waited.front
  have held : o₁.occupant (.slot eu s) = some o.robHead := by
    refine (waited.units.slot live eu s here).resolve_left fun ready => ?_
    have done := later.ready (waited.units.live live)
    rw [waited.units.head] at done
    exact Bool.false_ne_true (unready.symm.trans (done ready))
  obtain ⟨valid, _, _⟩ := slot_of_occupant held
  obtain ⟨valid₀, _, index⟩ := slot_of_occupant here
  have listed := mem_issueOrder (waited.timed.listed valid₀)
  rw [waited.slotRem_taken valid]
  rcases (waited.falls _ listed valid).2 with less | ⟨_, rfl, parked⟩
  · exact less
  · exact absurd index parked.younger

/-- The oldest instruction is in a station after the cycle. -/
theorem station_le (live : o.robCount ≠ 0) {k : RsIdx} (waits : o'.occupant (.station k) = some o'.robHead) :
    o'.headRem ≤ o.headRem ∧ (o'.headRem < o.headRem ∨ o.Jammed) := by
  have live₁ := waited.units.live live
  have live' := waited.nears.live live
  obtain ⟨j, station⟩ := waited.before.station_before waited.after live waited.nears waits
  have issued : ∃ i, (issueAll issueOrder o₁).occupant (.station i) = some (issueAll issueOrder o₁).robHead :=
    (waited.between.issueAll issueOrder).station_before waited.after ((nears_issueAll issueOrder o₁).live live₁) waited.front waits
  obtain ⟨i, stuck⟩ := issued
  have unit₁ : classify (o₁.rob o₁.robHead).ir.raw = o.headUnit := by
    rw [waited.units.head, waited.units.unit live]
    rfl
  have unit' : o'.headUnit = o.headUnit := by
    unfold headUnit
    rw [waited.nears.head, waited.nears.unit live]
  have taken : ∀ s ∈ o.headUnit.slots, (o₁.latch o.headUnit s).valid = true := by
    intro s listed
    have valid := waited.between.issueAll_taken live₁ stuck (by decide) (unit₁.symm ▸ mem_issueOrder listed)
    rwa [unit₁] at valid
  have falls : ∀ s ∈ o.headUnit.slots, Falls o.headUnit s o o' := by
    intro s listed _
    rw [waited.slotRem_taken (taken s listed)]
    exact waited.falls _ (mem_issueOrder listed) (taken s listed)
  have taken' : ∀ s ∈ o.headUnit.slots, (o'.latch o.headUnit s).valid = true := by
    intro s listed
    rw [waited.still.latch, stageIs_eq, issueAll_latch (taken s listed)]
    exact taken s listed
  obtain ⟨most, less⟩ := unitRem_falls falls taken'
  rw [waited.before.inv.headRem_station live station, waited.after.inv.headRem_station live' waits, unit']
  refine ⟨Nat.add_le_add_left most 100, less.imp (fun less => Nat.add_lt_add_left less 100) fun jammed => ?_⟩
  exact ⟨live, ⟨j, station⟩, jammed.1, jammed.2⟩

/-- An unfinished oldest instruction gets closer to its result. -/
theorem headRem_le (live : o.robCount ≠ 0) (unready : (o.rob o.robHead).ready = false) :
    o'.headRem ≤ o.headRem ∧ (o'.headRem < o.headRem ∨ o.Jammed) := by
  have live' := waited.nears.live live
  have lower : o'.headRem < o.headRem → o'.headRem ≤ o.headRem ∧ (o'.headRem < o.headRem ∨ o.Jammed) :=
    fun less => ⟨Nat.le_of_lt less, .inl less⟩
  obtain ⟨place, here⟩ := waited.before.inv.head_place live unready
  cases ready : (o'.rob o'.robHead).ready with
  | true =>
      apply lower
      rw [headRem_ready live' ready]
      cases place with
      | station k =>
          rw [waited.before.inv.headRem_station live here]
          omega
      | slot eu s =>
          rw [waited.before.inv.headRem_slot live here]
          exact slotRem_pos (slot_of_occupant here).1
  | false =>
      obtain ⟨place', there⟩ := waited.after.inv.head_place live' ready
      cases place' with
      | station k => exact waited.station_le live there
      | slot eu s =>
          apply lower
          rw [waited.after.inv.headRem_slot live' there]
          cases place with
          | station k =>
              have bound := waited.timed'.slotRem_le eu s
              rw [waited.before.inv.headRem_station live here]
              omega
          | slot eu₀ s₀ =>
              rw [waited.nears.head] at ready there
              have stays := waited.nears.slot live eu₀ s₀ here
              rw [ready] at stays
              have stays := stays.resolve_left Bool.false_ne_true
              cases waited.after.inv.placed.unique _ _ _ there stays
              rw [waited.before.inv.headRem_slot live here]
              exact waited.slot_lt live here stays

end Waited

end OOOState

end Sustemu
