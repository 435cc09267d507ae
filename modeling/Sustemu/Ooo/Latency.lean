import Sustemu.Ooo.Misses
import Sustemu.Ooo.StoreOrder

/-!
# How long a slot is taken

For each slot of a functional unit, a number of cycles after which its
instruction has left it. The number never grows between the moment an
instruction is issued and the moment it leaves, and every cycle lowers it, with
one exception: a device load that is not the oldest instruction stays in its
slot for as long as it is not.
-/

set_option autoImplicit false

namespace Sustemu

open Lib

/-- Cycles until the line of a load is there, or until it is requested. -/
def OOOLatch.lineRem (l : OOOLatch) (mshr : MshrIdx → MSHREntry) : Nat :=
  match l.mshrIdx with
  | some m => (mshr m).cyclesRem.toNat + 1
  | none => if l.cyclesRem = -1 then 41 else 1

theorem OOOLatch.lineRem_mono (l : OOOLatch) {mshr mshr' : MshrIdx → MSHREntry}
    (less : ∀ m, (mshr' m).cyclesRem ≤ (mshr m).cyclesRem) : l.lineRem mshr' ≤ l.lineRem mshr := by
  unfold lineRem
  split
  · next m _ =>
      have entry := less m
      omega
  · exact Nat.le_refl _

theorem OOOLatch.lineRem_of_index {l : OOOLatch} {m : MshrIdx} (index : l.mshrIdx = some m)
    (mshr : MshrIdx → MSHREntry) : l.lineRem mshr = (mshr m).cyclesRem.toNat + 1 := by
  unfold lineRem
  rw [index]

namespace OOOState

variable {o o' o'' : OOOState}

/-- Cycles that the instruction in a slot still takes. -/
def slotRem (o : OOOState) (eu : EU) (s : Fin 2) : Nat :=
  if (o.latch eu s).valid then
    match eu with
    | .int => 1
    | .mul => if (o.latch .mul s).cyclesRem = -1 then 21 else (o.latch .mul s).cyclesRem.toNat + 1
    | .lsu => (o.latch .lsu s).lineRem o.mshr
  else 0

/-- A device load that waits in its slot to become the oldest instruction. -/
structure Parked (o : OOOState) (s : Fin 2) : Prop where
  live : o.Live .lsu s
  idle : (o.latch .lsu s).mshrIdx = none
  waits : (o.latch .lsu s).cyclesRem = -2
  younger : (o.latch .lsu s).robIdx ≠ o.robHead

instance (o : OOOState) (s : Fin 2) : Decidable (o.Parked s) :=
  decidable_of_iff (((o.latch .lsu s).valid = true ∧ (o.latch .lsu s).flushed = false) ∧ (o.latch .lsu s).mshrIdx = none ∧
    (o.latch .lsu s).cyclesRem = -2 ∧ (o.latch .lsu s).robIdx ≠ o.robHead)
    ⟨fun all => ⟨⟨all.1.1, all.1.2⟩, all.2.1, all.2.2.1, all.2.2.2⟩,
      fun parked => ⟨⟨parked.live.valid, parked.live.kept⟩, parked.idle, parked.waits, parked.younger⟩⟩

/-- Counters are within the latencies of their units. -/
structure Timed (o : OOOState) : Prop where
  mshr : ∀ m, (o.mshr m).cyclesRem ≤ 39
  mul : ∀ s, (o.latch .mul s).valid = true → (o.latch .mul s).cyclesRem ≤ 19
  drain : o.sbufDrainTick ≤ 7
  /-- There is one slot for multiplications. -/
  unused : (o.latch .mul 1).valid = false

theorem Timed.slotRem_le (timed : o.Timed) (eu : EU) (s : Fin 2) : o.slotRem eu s ≤ 41 := by
  unfold slotRem
  split
  · next valid =>
    cases eu with
    | int => exact Nat.succ_le_succ (Nat.zero_le 40)
    | mul =>
        have mul := timed.mul s valid
        dsimp only
        split <;> omega
    | lsu =>
        unfold OOOLatch.lineRem
        dsimp only
        split
        · next m _ =>
            have mshr := timed.mshr m
            omega
        · split <;> omega
  · exact Nat.zero_le _

theorem slotRem_pos {eu : EU} {s : Fin 2} (valid : (o.latch eu s).valid = true) : 0 < o.slotRem eu s := by
  unfold slotRem OOOLatch.lineRem
  rw [if_pos valid]
  cases eu with
  | int => exact Nat.one_pos
  | mul =>
      dsimp only
      split
      · exact Nat.succ_pos 20
      · exact Nat.succ_pos _
  | lsu =>
      dsimp only
      split
      · exact Nat.succ_pos _
      · split
        · exact Nat.succ_pos 40
        · exact Nat.one_pos

/-- What a cycle counts elsewhere is the same. -/
structure SameTimers (o o' : OOOState) : Prop where
  head : o'.robHead = o.robHead
  mshr : o'.mshr = o.mshr
  tick : o'.sbufDrainTick = o.sbufDrainTick
  stores : o'.sbufCount = o.sbufCount

theorem SameTimers.trans (first : o.SameTimers o') (second : o'.SameTimers o'') : o.SameTimers o'' :=
  ⟨second.head.trans first.head, second.mshr.trans first.mshr, second.tick.trans first.tick,
    second.stores.trans first.stores⟩

/-- An instruction stays in its slot as it is, except that it may be flushed. -/
structure Stays (eu : EU) (s : Fin 2) (o o' : OOOState) : Prop where
  head : o'.robHead = o.robHead
  latch : (o'.latch eu s).valid = true → ∃ flushed, o'.latch eu s = { o.latch eu s with flushed := flushed } ∧
    ((o.latch eu s).flushed = true → flushed = true)
  mshr : (o'.latch eu s).valid = true → eu = .lsu → ∀ m, (o.latch eu s).mshrIdx = some m → o'.mshr m = o.mshr m

namespace Stays

variable {eu : EU} {s : Fin 2}

theorem of_latch (head : o'.robHead = o.robHead) (latch : o'.latch eu s = o.latch eu s) (mshr : o'.mshr = o.mshr) :
    Stays eu s o o' :=
  ⟨head, fun _ => ⟨(o.latch eu s).flushed, latch, id⟩, fun _ _ m _ => congrFun mshr m⟩

theorem refl (eu : EU) (s : Fin 2) (o : OOOState) : Stays eu s o o := .of_latch rfl rfl rfl

theorem of_empty (head : o'.robHead = o.robHead) (empty : (o'.latch eu s).valid = false) : Stays eu s o o' :=
  ⟨head, fun valid => absurd (empty.symm.trans valid) Bool.false_ne_true,
    fun valid => absurd (empty.symm.trans valid) Bool.false_ne_true⟩

theorem valid (stays : Stays eu s o o') (valid : (o'.latch eu s).valid = true) : (o.latch eu s).valid = true := by
  obtain ⟨flushed, latch, _⟩ := stays.latch valid
  rwa [latch] at valid

theorem trans (first : Stays eu s o o') (second : Stays eu s o' o'') : Stays eu s o o'' := by
  refine ⟨second.head.trans first.head, fun valid => ?_, fun valid unit m index => ?_⟩
  · obtain ⟨flushed, latch, kept⟩ := second.latch valid
    obtain ⟨flushed', latch', kept'⟩ := first.latch (second.valid valid)
    refine ⟨flushed, by rw [latch, latch'], fun before => kept ?_⟩
    rw [latch']
    exact kept' before
  · obtain ⟨flushed', latch', _⟩ := first.latch (second.valid valid)
    have index' : (o'.latch eu s).mshrIdx = some m := by rw [latch', ← index]
    rw [second.mshr valid unit m index', first.mshr (second.valid valid) unit m index]

theorem slotRem (stays : Stays eu s o o') (valid : (o'.latch eu s).valid = true) : o'.slotRem eu s = o.slotRem eu s := by
  obtain ⟨flushed, latch, _⟩ := stays.latch valid
  have before := stays.valid valid
  unfold OOOState.slotRem
  rw [if_pos valid, if_pos before]
  cases eu with
  | int => rfl
  | mul => rw [latch]
  | lsu =>
      rw [latch]
      unfold OOOLatch.lineRem
      dsimp only
      split
      · next m index => rw [stays.mshr valid rfl m index]
      · rfl

/-- A load that waits for the head does so before it was left alone. -/
theorem parked {s : Fin 2} (stays : Stays .lsu s o o') (parked : o'.Parked s) : o.Parked s := by
  obtain ⟨flushed, latch, kept⟩ := stays.latch parked.live.valid
  obtain ⟨⟨valid, live⟩, idle, waits, younger⟩ := parked
  rw [latch] at valid live idle waits younger
  rw [stays.head] at younger
  refine ⟨⟨valid, ?_⟩, idle, waits, younger⟩
  cases flag : (o.latch .lsu s).flushed with
  | false => rfl
  | true => exact (kept flag).symm.trans live

end Stays

/-- The instruction of a slot leaves, gets closer to leaving, or waits for its line or for the head. -/
structure Works (eu : EU) (s : Fin 2) (o o' : OOOState) : Prop where
  head : o'.robHead = o.robHead
  slot : (o'.latch eu s).valid = true → (o.latch eu s).valid = true ∧ (o'.slotRem eu s < o.slotRem eu s ∨
    o'.slotRem eu s = o.slotRem eu s ∧ eu = .lsu ∧
      ((∃ m, (o.latch .lsu s).Waits m ∧ 0 < (o.mshr m).cyclesRem) ∨ o.Parked s))

/-- One visit to a slot. -/
structure Visits (eu : EU) (s : Fin 2) (o o' : OOOState) : Prop where
  own : Works eu s o o'
  others : ∀ eu' t, ¬(eu' = eu ∧ t = s) → Stays eu' t o o'
  tick : o'.sbufDrainTick = o.sbufDrainTick
  stores : o'.sbufCount = o.sbufCount
  timed : o.Timed → o'.Timed

theorem Timed.keep (timed : o.Timed) (mshr : ∀ m, (o'.mshr m).cyclesRem ≤ 39) (mul : ∀ s, Stays .mul s o o')
    (tick : o'.sbufDrainTick ≤ 7) : o'.Timed := by
  refine ⟨mshr, fun s valid => ?_, tick, ?_⟩
  · obtain ⟨flushed, latch, _⟩ := (mul s).latch valid
    rw [latch]
    exact timed.mul s ((mul s).valid valid)
  · cases valid : (o'.latch .mul 1).valid with
    | false => rfl
    | true => exact ((mul 1).valid valid).symm.trans timed.unused

section Visits

variable {eu : EU} {s : Fin 2}

theorem Works.of_empty (head : o'.robHead = o.robHead) (empty : (o'.latch eu s).valid = false) : Works eu s o o' :=
  ⟨head, fun valid => absurd (empty.symm.trans valid) Bool.false_ne_true⟩

/-- The slot is emptied, and nothing else that counts changes. -/
theorem Visits.of_drop (timers : o.SameTimers o') (latch : o'.latch = (o.dropLatch eu s).latch) : Visits eu s o o' := by
  have empty : (o'.latch eu s).valid = false := by rw [latch, latch_dropLatch, if_pos ⟨rfl, rfl⟩]
  have others : ∀ eu' t, ¬(eu' = eu ∧ t = s) → Stays eu' t o o' := fun eu' t other =>
    .of_latch timers.head (by rw [latch, latch_dropLatch, if_neg other]) timers.mshr
  refine ⟨.of_empty timers.head empty, others, timers.tick, timers.stores, fun timed => ?_⟩
  refine timed.keep (by rw [timers.mshr]; exact timed.mshr) (fun t => ?_) (timers.tick.trans_le timed.drain)
  by_cases here : EU.mul = eu ∧ t = s
  · obtain ⟨rfl, rfl⟩ := here
    exact .of_empty timers.head empty
  · exact others .mul t here

/-- The slot is emptied and its entry of the MSHR file released. -/
theorem Visits.of_release {m : MshrIdx} (head : o'.robHead = o.robHead)
    (latch : o'.latch = (o.dropLatch .lsu s).latch) (mshr : o'.mshr = (o.mshrRelease s m).mshr)
    (tick : o'.sbufDrainTick = o.sbufDrainTick) (stores : o'.sbufCount = o.sbufCount)
    (counts : ∀ n, (o'.mshr n).cyclesRem = (o.mshr n).cyclesRem) : Visits .lsu s o o' := by
  refine ⟨.of_empty head ?_, fun eu t other => ?_, tick, stores, fun timed => ?_⟩
  · rw [latch, latch_dropLatch, if_pos ⟨rfl, rfl⟩]
  · have same : o'.latch eu t = o.latch eu t := by rw [latch, latch_dropLatch, if_neg other]
    refine ⟨head, fun _ => ⟨(o.latch eu t).flushed, same, id⟩, ?_⟩
    rintro valid rfl n index
    rw [same] at valid
    rcases o.mshrRelease_mshr s m with ⟨kept, _⟩ | ⟨cleared, unused⟩
    · rw [mshr, kept]
    · have different : n ≠ m := by
        rintro rfl
        exact unused t (fun here => other ⟨rfl, here⟩) ⟨valid, index⟩
      rw [mshr, cleared, setAt_of_ne different]
  · refine timed.keep (fun n => (counts n).trans_le (timed.mshr n)) (fun t => ?_) (tick.trans_le timed.drain)
    have same : o'.latch .mul t = o.latch .mul t := by rw [latch, latch_dropLatch, if_neg (by rintro ⟨⟨⟩, _⟩)]
    exact ⟨head, fun _ => ⟨(o.latch .mul t).flushed, same, id⟩, fun _ unit => nomatch unit⟩

/-- Something that leaves every slot alone happens after a visit. -/
theorem Visits.stays (visits : Visits eu s o o') (stays : ∀ eu t, Stays eu t o' o'')
    (tick : o''.sbufDrainTick = o'.sbufDrainTick) (stores : o''.sbufCount = o'.sbufCount) (mshr : o''.mshr = o'.mshr)
    (empty : (o'.latch eu s).valid = false) : Visits eu s o o'' := by
  refine ⟨.of_empty ((stays eu s).head.trans visits.own.head) ?_, fun eu' t other => (visits.others eu' t other).trans (stays eu' t),
    tick.trans visits.tick, stores.trans visits.stores, fun timed => ?_⟩
  · cases valid : (o''.latch eu s).valid with
    | false => rfl
    | true => exact ((stays eu s).valid valid).symm.trans empty
  · have timed' := visits.timed timed
    exact timed'.keep (by rw [mshr]; exact timed'.mshr) (stays .mul) (tick.trans_le timed'.drain)

/-- An entry of the reorder buffer is written before a visit. -/
theorem Visits.of_setRob {i : RobIdx} {entry : ROBEntry} (visits : Visits eu s (o.setRob i entry) o') : Visits eu s o o' := by
  obtain ⟨⟨head, slot⟩, others, tick, stores, timed⟩ := visits
  refine ⟨⟨head, fun valid => ?_⟩, fun eu' t other => ?_, tick, stores,
    fun before => timed ⟨before.mshr, before.mul, before.drain, before.unused⟩⟩
  · obtain ⟨before, less | ⟨same, unit, line | parked⟩⟩ := slot valid
    · exact ⟨before, .inl less⟩
    · exact ⟨before, .inr ⟨same, unit, .inl line⟩⟩
    · exact ⟨before, .inr ⟨same, unit, .inr ⟨⟨parked.live.valid, parked.live.kept⟩, parked.idle, parked.waits, parked.younger⟩⟩⟩
  · have written : Stays eu' t o (o.setRob i entry) := .of_latch rfl rfl rfl
    exact written.trans (others eu' t other)

end Visits

/-! ## Recovery -/

theorem rollbackOne_tick (o : OOOState) : o.rollbackOne.sbufDrainTick = o.sbufDrainTick := by
  unfold rollbackOne
  dsimp only
  split
  · split
    · split <;> rfl
    · split <;> rfl
  · rfl

theorem rollback_tick (turns : Nat) (o : OOOState) : (rollback turns o).sbufDrainTick = o.sbufDrainTick := by
  induction turns generalizing o with
  | zero => rfl
  | succ turns ih => exact (ih o.rollbackOne).trans o.rollbackOne_tick

theorem flushAfter_tick (o : OOOState) (b : RobIdx) : (o.flushAfter b).sbufDrainTick = o.sbufDrainTick :=
  rollback_tick _ o

/-- A flush empties slots or marks their instructions as flushed. -/
theorem stays_flushAfter (o : OOOState) (b : RobIdx) (eu : EU) (s : Fin 2) : Stays eu s o (o.flushAfter b) := by
  have frame := rollback_frame (o.robTail - (b + 1)).val o
  have rolled : Stays eu s o (rollback (o.robTail - (b + 1)).val o) := .of_latch frame.head (by rw [frame.latch]) frame.mshr
  refine rolled.trans ?_
  unfold flushAfter
  generalize rollback (o.robTail - (b + 1)).val o = r
  refine ⟨rfl, fun valid => ?_, fun _ _ _ _ => rfl⟩
  unfold squash at valid ⊢
  dsimp only at valid ⊢
  split at valid
  · next hit =>
      rw [if_pos hit]
      split at valid
      · next waits =>
          rw [if_pos waits]
          exact ⟨true, rfl, fun _ => rfl⟩
      · exact absurd valid Bool.false_ne_true
  · next missed =>
      rw [if_neg missed]
      exact ⟨(r.latch eu s).flushed, rfl, id⟩

/-! ## The file of misses -/

theorem mshrFindOrAlloc_quick {line : Word} {lat : Nat} (quick : ∀ m, (o.mshr m).cyclesRem ≤ 39) (short : lat ≤ 40)
    (m : MshrIdx) : ((o.mshrFindOrAlloc line lat).2.mshr m).cyclesRem ≤ 39 := by
  unfold mshrFindOrAlloc
  split
  · exact quick m
  · split
    · next n _ =>
        change (setAt o.mshr n ⟨true, line, (lat : Int) - 1⟩ m).cyclesRem ≤ 39
        by_cases here : m = n
        · rw [here, setAt_self]
          change (lat : Int) - 1 ≤ 39
          omega
        · rw [setAt_of_ne here]
          exact quick m
    · exact quick m

theorem mshrRelease_timers (o : OOOState) (s : Fin 2) (m : MshrIdx) : (o.mshrRelease s m).robHead = o.robHead ∧
    (o.mshrRelease s m).latch = o.latch ∧ (o.mshrRelease s m).sbufDrainTick = o.sbufDrainTick ∧
    (o.mshrRelease s m).sbufCount = o.sbufCount ∧ ∀ n, ((o.mshrRelease s m).mshr n).cyclesRem = (o.mshr n).cyclesRem := by
  unfold mshrRelease
  dsimp only
  split
  · exact ⟨rfl, rfl, rfl, rfl, fun _ => rfl⟩
  · refine ⟨rfl, rfl, rfl, rfl, fun n => ?_⟩
    change (setAt o.mshr m { o.mshr m with valid := false } n).cyclesRem = _
    by_cases here : n = m
    · rw [here, setAt_self]
    · rw [setAt_of_ne here]

/-- A tick brings every load that waits for its line one cycle closer to it. -/
theorem mshrTick_slotRem (mshrOk : o.MshrOk) (eu : EU) (s : Fin 2) : o.mshrTick.slotRem eu s ≤ o.slotRem eu s ∧
    ∀ m, (o.latch .lsu s).Waits m → 0 < (o.mshrTick.mshr m).cyclesRem → o.mshrTick.slotRem .lsu s < o.slotRem .lsu s := by
  have entry : ∀ m, (o.mshrTick.mshr m).cyclesRem ≤ (o.mshr m).cyclesRem := by
    intro m
    unfold mshrTick
    dsimp only
    split
    · dsimp only
      omega
    · exact Int.le_refl _
  constructor
  · unfold slotRem
    change (if (o.latch eu s).valid = true then _ else _) ≤ _
    split
    · cases eu with
      | int | mul => exact Nat.le_refl _
      | lsu => exact (o.latch .lsu s).lineRem_mono entry
    · exact Nat.zero_le _
  · intro m waits running
    have held := (mshrOk.held s m waits).1
    have ticked : (o.mshrTick.mshr m).cyclesRem = (o.mshr m).cyclesRem - 1 := by
      unfold mshrTick at running ⊢
      dsimp only at running ⊢
      split
      · rfl
      · next stopped =>
          rw [if_neg stopped] at running
          exact absurd (by rw [held, decide_eq_true running]; rfl) stopped
    have before : o.slotRem .lsu s = (o.mshr m).cyclesRem.toNat + 1 :=
      (if_pos waits.valid).trans (OOOLatch.lineRem_of_index waits.index _)
    have after : o.mshrTick.slotRem .lsu s = (o.mshrTick.mshr m).cyclesRem.toNat + 1 :=
      (if_pos waits.valid).trans (OOOLatch.lineRem_of_index waits.index _)
    rw [before, after]
    omega

/-! ## Completion -/

theorem finishExec_timers (o : OOOState) (i : RobIdx) (physRd : Option PReg) (ir : IRInst) :
    o.SameTimers (o.finishExec i physRd ir) ∧ (o.finishExec i physRd ir).latch = o.latch := by
  unfold finishExec
  dsimp only
  split
  · split <;> exact ⟨⟨rfl, rfl, rfl, rfl⟩, rfl⟩
  · exact ⟨⟨rfl, rfl, rfl, rfl⟩, rfl⟩

/-- An instruction of the INT or MUL unit completes. -/
theorem finishExec_visits (o : OOOState) (eu : EU) (s : Fin 2) (i : RobIdx) (physRd : Option PReg) (ir : IRInst) :
    Visits eu s o ((o.dropLatch eu s).finishExec i physRd ir) := by
  obtain ⟨timers, latch⟩ := (o.dropLatch eu s).finishExec_timers i physRd ir
  exact .of_drop ⟨timers.head, timers.mshr, timers.tick, timers.stores⟩ latch

theorem lsuFault_timers (o : OOOState) (s : Fin 2) :
    o.SameTimers (Engine.lsuFault o s) ∧ (Engine.lsuFault o s).latch = (o.dropLatch .lsu s).latch := by
  unfold Engine.lsuFault
  dsimp only
  split
  · split <;> exact ⟨⟨rfl, rfl, rfl, rfl⟩, rfl⟩
  · exact ⟨⟨rfl, rfl, rfl, rfl⟩, rfl⟩

/-- A load completes. -/
theorem lsuFinish_visits (o : OOOState) (s : Fin 2) (mshr : Option MshrIdx) (result : Word) :
    Visits .lsu s o (Engine.lsuFinish o s mshr result) := by
  cases mshr with
  | none =>
      have timers : o.SameTimers (Engine.lsuFinish o s none result) ∧
          (Engine.lsuFinish o s none result).latch = (o.dropLatch .lsu s).latch := by
        unfold Engine.lsuFinish
        dsimp only
        split <;> exact ⟨⟨rfl, rfl, rfl, rfl⟩, rfl⟩
      exact .of_drop timers.1 timers.2
  | some m =>
      obtain ⟨head, latch, tick, stores, counts⟩ := o.mshrRelease_timers s m
      have released : (Engine.lsuFinish o s (some m) result).robHead = (o.mshrRelease s m).robHead ∧
          (Engine.lsuFinish o s (some m) result).latch = ((o.mshrRelease s m).dropLatch .lsu s).latch ∧
          (Engine.lsuFinish o s (some m) result).mshr = (o.mshrRelease s m).mshr ∧
          (Engine.lsuFinish o s (some m) result).sbufDrainTick = (o.mshrRelease s m).sbufDrainTick ∧
          (Engine.lsuFinish o s (some m) result).sbufCount = (o.mshrRelease s m).sbufCount := by
        unfold Engine.lsuFinish
        dsimp only
        split <;> exact ⟨rfl, rfl, rfl, rfl, rfl⟩
      refine .of_release (released.1.trans head) (released.2.1.trans ?_) released.2.2.1 (released.2.2.2.1.trans tick)
        (released.2.2.2.2.trans stores) fun n => (congrArg _ (congrFun released.2.2.1 n)).trans (counts n)
      unfold dropLatch setLatch
      rw [latch]

end OOOState

/-! ## Visits to the slots -/

namespace Engine

variable {σ β : Type} {vm : VMem σ} {cfg : OooConfig β} {e e' : Engine σ β} {s : Fin 2}

theorem intSlot_visits (done : e.intSlot vm cfg s = some e') : OOOState.Visits .int s e.ooo e'.ooo := by
  unfold intSlot at done
  dsimp only at done
  split at done
  · next empty =>
      cases done
      have empty : (e.ooo.latch .int s).valid = false := by simpa using empty
      exact ⟨.of_empty rfl empty, fun eu t _ => .refl eu t _, rfl, rfl, id⟩
  · split at done
    · cases done
      exact .of_drop ⟨rfl, rfl, rfl, rfl⟩ rfl
    · obtain ⟨⟨ir, sys⟩, _, rfl⟩ := Option.map_eq_some_iff.mp done
      have finished := e.ooo.finishExec_visits .int s (e.ooo.latch .int s).robIdx (e.ooo.latch .int s).physRd ir
      have empty : (((e.ooo.dropLatch .int s).finishExec (e.ooo.latch .int s).robIdx (e.ooo.latch .int s).physRd
          ir).latch .int s).valid = false := by
        rw [(OOOState.finishExec_timers ..).2, OOOState.latch_dropLatch, if_pos ⟨rfl, rfl⟩]
      dsimp only
      split
      · rcases resolveBranch_cases cfg _ (e.ooo.latch .int s).robIdx ir with ⟨_, done⟩ | ⟨_, done⟩ | ⟨_, _, done⟩
        · rw [done]
          exact finished
        · rw [done]
          exact finished.stays (fun eu t => .of_latch rfl rfl rfl) rfl rfl rfl empty
        · rw [done]
          refine finished.stays (fun eu t => ?_) (OOOState.flushAfter_tick _ _)
            (OOOState.rollback_frame _ _).stores.2.2.2 (OOOState.rollback_frame _ _).mshr empty
          have flushed := OOOState.stays_flushAfter ((e.ooo.dropLatch .int s).finishExec (e.ooo.latch .int s).robIdx
            (e.ooo.latch .int s).physRd ir) (e.ooo.latch .int s).robIdx eu t
          exact flushed.trans (.of_latch rfl rfl rfl)
      · exact finished

/-- A slot of the MUL unit gets another count. -/
theorem setLatch_mul_others (o : OOOState) (s : Fin 2) (l : OOOLatch) (eu : EU) (t : Fin 2)
    (other : ¬(eu = .mul ∧ t = s)) : OOOState.Stays eu t o (o.setLatch .mul s l) := by
  refine .of_latch rfl ?_ rfl
  rw [OOOState.latch_setLatch, if_neg other]

theorem mulFinish_visits (done : e.mulFinish vm s = some e') :
    OOOState.Visits .mul s e.ooo e'.ooo ∧ (e'.ooo.latch .mul s).valid = false := by
  unfold mulFinish at done
  dsimp only at done
  split at done
  · cases done
    refine ⟨.of_drop ⟨rfl, rfl, rfl, rfl⟩ rfl, ?_⟩
    rw [OOOState.latch_dropLatch, if_pos ⟨rfl, rfl⟩]
  · obtain ⟨⟨ir, sys⟩, _, rfl⟩ := Option.map_eq_some_iff.mp done
    refine ⟨e.ooo.finishExec_visits .mul s _ _ ir, ?_⟩
    rw [(OOOState.finishExec_timers ..).2, OOOState.latch_dropLatch, if_pos ⟨rfl, rfl⟩]

theorem mulLat_bounds (raw : Raw) : 1 ≤ mulLat raw ∧ mulLat raw ≤ 20 := by
  unfold mulLat
  split
  · split <;> decide
  · decide

/-- A multiplication counts down. -/
theorem mulCount_visits {o : OOOState} {cycles : Int} (valid : (o.latch .mul s).valid = true)
    (counts : cycles.toNat + 1 < o.slotRem .mul s) (fresh : cycles ≠ -1) (short : o.Timed → cycles ≤ 19) :
    OOOState.Visits .mul s o (o.setLatch .mul s { o.latch .mul s with cyclesRem := cycles }) := by
  have self : (o.setLatch .mul s { o.latch .mul s with cyclesRem := cycles }).latch .mul s =
      { o.latch .mul s with cyclesRem := cycles } := by
    rw [OOOState.latch_setLatch, if_pos ⟨rfl, rfl⟩]
  refine ⟨⟨rfl, fun _ => ⟨valid, .inl ?_⟩⟩, fun eu t other => setLatch_mul_others o s _ eu t other, rfl, rfl, fun timed => ?_⟩
  · have after : (o.setLatch .mul s { o.latch .mul s with cyclesRem := cycles }).slotRem .mul s = cycles.toNat + 1 := by
      unfold OOOState.slotRem
      rw [self]
      exact (if_pos valid).trans (if_neg fresh)
    rw [after]
    exact counts
  · have slots : ∀ t, (o.setLatch .mul s { o.latch .mul s with cyclesRem := cycles }).latch .mul t =
        if t = s then { o.latch .mul s with cyclesRem := cycles } else o.latch .mul t := by
      intro t
      rw [OOOState.latch_setLatch]
      by_cases here : t = s
      · rw [if_pos ⟨rfl, here⟩, if_pos here]
      · rw [if_neg fun both => here both.2, if_neg here]
    refine ⟨timed.mshr, fun t busy => ?_, timed.drain, ?_⟩
    · rw [slots] at busy ⊢
      split at busy
      · next here =>
          rw [if_pos here]
          exact short timed
      · next other =>
          rw [if_neg other]
          exact timed.mul t busy
    · rw [slots]
      split
      · next here => exact (here ▸ timed.unused)
      · exact timed.unused

theorem mulSlot_visits (done : e.mulSlot vm s = some e') : OOOState.Visits .mul s e.ooo e'.ooo := by
  unfold mulSlot at done
  dsimp only at done
  split at done
  · next empty =>
      cases done
      have empty : (e.ooo.latch .mul s).valid = false := by simpa using empty
      exact ⟨.of_empty rfl empty, fun eu t _ => .refl eu t _, rfl, rfl, id⟩
  · next busy =>
      have valid : (e.ooo.latch .mul s).valid = true := by simpa using busy
      split at done
      · next first =>
          have rem : e.ooo.slotRem .mul s = 21 := by
            unfold OOOState.slotRem
            exact (if_pos valid).trans (if_pos first)
          obtain ⟨low, high⟩ := mulLat_bounds (e.ooo.rob (e.ooo.latch .mul s).robIdx).ir.raw
          have counted : OOOState.Visits .mul s e.ooo (e.ooo.setLatch .mul s { e.ooo.latch .mul s with
              cyclesRem := (mulLat (e.ooo.rob (e.ooo.latch .mul s).robIdx).ir.raw : Int) - 1 }) :=
            mulCount_visits valid (by rw [rem]; omega) (by omega) fun _ => by omega
          split at done
          · cases done
            exact counted
          · -- A latency of one: the slot finishes in the cycle of its first visit.
            obtain ⟨⟨⟨head, _⟩, others, tick, stores, timed⟩, empty⟩ := mulFinish_visits done
            exact ⟨.of_empty head empty, fun eu t other => (setLatch_mul_others e.ooo s _ eu t other).trans (others eu t other),
              tick, stores, fun before => timed (counted.timed before)⟩
      · split at done
        · next counts =>
            split at done
            · cases done
              exact .of_drop ⟨rfl, rfl, rfl, rfl⟩ rfl
            · cases done
              next first _ =>
                have rem : e.ooo.slotRem .mul s = (e.ooo.latch .mul s).cyclesRem.toNat + 1 := by
                  unfold OOOState.slotRem
                  exact (if_pos valid).trans (if_neg first)
                refine mulCount_visits valid (by rw [rem]; omega) (by omega) fun timed => ?_
                have bound := timed.mul s valid
                omega
        · exact (mulFinish_visits done).1

theorem lsuFill_visits {mshr : Option MshrIdx} (done : e.lsuFill vm s mshr = some e') :
    OOOState.Visits .lsu s e.ooo e'.ooo := by
  unfold lsuFill at done
  dsimp only at done
  split at done
  · cases done
    obtain ⟨timers, latch⟩ := e.ooo.lsuFault_timers s
    exact .of_drop timers latch
  · obtain ⟨⟨raw, world⟩, _, rfl⟩ := Option.map_eq_some_iff.mp done
    exact e.ooo.lsuFinish_visits s mshr _

theorem lsuFlushed_visits (valid : (e.ooo.latch .lsu s).valid = true) (done : e.lsuFlushed vm s = some e') :
    OOOState.Visits .lsu s e.ooo e'.ooo := by
  unfold lsuFlushed at done
  dsimp only at done
  split at done
  · cases done
    exact .of_drop ⟨rfl, rfl, rfl, rfl⟩ rfl
  · next m index =>
      split at done
      · next waits =>
          cases done
          exact ⟨⟨rfl, fun _ => ⟨valid, .inr ⟨rfl, rfl, .inl ⟨m, ⟨valid, index⟩, waits⟩⟩⟩⟩, fun eu t _ => .refl eu t _, rfl, rfl, id⟩
      · obtain ⟨⟨value, world⟩, _, rfl⟩ := Option.map_eq_some_iff.mp done
        obtain ⟨head, latch, tick, stores, counts⟩ := e.ooo.mshrRelease_timers s m
        refine .of_release head ?_ rfl tick stores counts
        dsimp only
        unfold OOOState.dropLatch OOOState.setLatch
        rw [latch]

/-- The slot of a load gets another count or joins an entry. -/
theorem lsuCount_visits {o o' : OOOState} {l : OOOLatch} (valid : (o.latch .lsu s).valid = true)
    (first : o.slotRem .lsu s = 41) (head : o'.robHead = o.robHead) (latch : o'.latch = (o.setLatch .lsu s l).latch)
    (lines : ∀ t m, (o.latch .lsu t).Waits m → o'.mshr m = o.mshr m) (tick : o'.sbufDrainTick = o.sbufDrainTick)
    (stores : o'.sbufCount = o.sbufCount) (less : l.lineRem o'.mshr < 41)
    (quick : o.Timed → ∀ m, (o'.mshr m).cyclesRem ≤ 39) : OOOState.Visits .lsu s o o' := by
  refine ⟨⟨head, fun after => ⟨valid, .inl ?_⟩⟩, fun eu t other => ?_, tick, stores, fun timed => ?_⟩
  · have self : o'.latch .lsu s = l := by rw [latch, OOOState.latch_setLatch, if_pos ⟨rfl, rfl⟩]
    have rem : o'.slotRem .lsu s = (o'.latch .lsu s).lineRem o'.mshr := if_pos after
    rw [rem, first, self]
    exact less
  · have same : o'.latch eu t = o.latch eu t := by rw [latch, OOOState.latch_setLatch, if_neg other]
    refine ⟨head, fun _ => ⟨(o.latch eu t).flushed, same, id⟩, ?_⟩
    rintro live rfl m index
    rw [same] at live
    exact lines t m ⟨live, index⟩
  · refine timed.keep (quick timed) (fun t => ?_) (tick.trans_le timed.drain)
    have same : o'.latch .mul t = o.latch .mul t := by rw [latch, OOOState.latch_setLatch, if_neg (by rintro ⟨⟨⟩, _⟩)]
    exact ⟨head, fun _ => ⟨(o.latch .mul t).flushed, same, id⟩, fun _ unit => nomatch unit⟩

theorem lsuStart_visits (mshrOk : e.ooo.MshrOk) (timed : e.ooo.Timed) (valid : (e.ooo.latch .lsu s).valid = true)
    (idle : (e.ooo.latch .lsu s).mshrIdx = none) (first : (e.ooo.latch .lsu s).cyclesRem = -1)
    (done : e.lsuStart vm s = some e') : OOOState.Visits .lsu s e.ooo e'.ooo := by
  have rem : e.ooo.slotRem .lsu s = 41 := by
    unfold OOOState.slotRem OOOLatch.lineRem
    rw [if_pos valid, idle]
    exact if_pos first
  unfold lsuStart at done
  dsimp only at done
  split at done
  · cases done
    exact .of_drop ⟨rfl, rfl, rfl, rfl⟩ rfl
  · split at done
    · split at done
      · cases done
        refine lsuCount_visits valid rem rfl rfl (fun _ _ _ => rfl) rfl rfl ?_ fun timed => timed.mshr
        unfold OOOLatch.lineRem
        dsimp only
        rw [idle]
        exact Nat.lt_of_le_of_lt (Nat.le_refl 1) (by decide)
      · exact lsuFill_visits done
    · split at done
      · have filled := lsuFill_visits done
        exact filled
      · generalize (vm.probeLevel e.world (e.ooo.rob (e.ooo.latch .lsu s).robIdx).ir.memAddr).1 = level at done
        obtain ⟨positive, short⟩ := levelToLat_bounds level
        obtain ⟨m, mshr, answer, fresh, line, counts, others, lines, shared⟩ := mshrOk.request
          ((e.ooo.rob (e.ooo.latch .lsu s).robIdx).ir.memAddr &&& ~~~(63 : Word)) positive
        have quick : ∀ n, ((e.ooo.mshrFindOrAlloc ((e.ooo.rob (e.ooo.latch .lsu s).robIdx).ir.memAddr &&& ~~~(63 : Word))
            (levelToLat level)).2.mshr n).cyclesRem ≤ 39 := OOOState.mshrFindOrAlloc_quick timed.mshr short
        rw [answer] at done quick
        cases done
        refine lsuCount_visits valid rem rfl rfl ?_ rfl rfl ?_ fun _ => quick
        · intro t n waits
          change mshr n = e.ooo.mshr n
          by_cases here : n = m
          · subst here
            refine shared.resolve_right fun free => ?_
            exact Bool.false_ne_true (free.symm.trans (mshrOk.held t n waits).1)
          · exact others n here
        · change (mshr m).cyclesRem.toNat + 1 < 41
          have bound : (mshr m).cyclesRem ≤ 39 := quick m
          omega

theorem lsuSlot_visits (mshrOk : e.ooo.MshrOk) (timed : e.ooo.Timed) (done : e.lsuSlot vm s = some e') :
    OOOState.Visits .lsu s e.ooo e'.ooo := by
  unfold lsuSlot at done
  dsimp only at done
  split at done
  · next empty =>
      cases done
      have empty : (e.ooo.latch .lsu s).valid = false := by simpa using empty
      exact ⟨.of_empty rfl empty, fun eu t _ => .refl eu t _, rfl, rfl, id⟩
  · next busy =>
      have valid : (e.ooo.latch .lsu s).valid = true := by simpa using busy
      split at done
      · exact lsuFlushed_visits valid done
      · next kept =>
          simp only [Bool.or_eq_true, Bool.not_eq_true', not_or, Bool.not_eq_false, Bool.not_eq_true] at kept
          have live : e.ooo.Live .lsu s := ⟨valid, kept.2⟩
          split at done
          · next idle =>
              split at done
              · next first =>
                  obtain ⟨⟨ir, sys⟩, _, started⟩ := Option.bind_eq_some_iff.mp done
                  have started := lsuStart_visits (e := { e.setSys sys with
                      ooo := e.ooo.setRob (e.ooo.latch .lsu s).robIdx { e.ooo.rob (e.ooo.latch .lsu s).robIdx with ir := ir } })
                    (mshrOk.same rfl rfl) ⟨timed.mshr, timed.mul, timed.drain, timed.unused⟩ valid idle first started
                  exact started.of_setRob
              · next later =>
                  split at done
                  · next waits =>
                      cases done
                      have parked : e.ooo.Parked s := ⟨live, idle, waits.1, waits.2⟩
                      exact ⟨⟨rfl, fun _ => ⟨valid, .inr ⟨rfl, rfl, .inr parked⟩⟩⟩, fun eu t _ => .refl eu t _, rfl, rfl, id⟩
                  · exact lsuFill_visits done
          · next m index =>
              split at done
              · next waits =>
                  cases done
                  exact ⟨⟨rfl, fun _ => ⟨valid, .inr ⟨rfl, rfl, .inl ⟨m, ⟨valid, index⟩, waits⟩⟩⟩⟩, fun eu t _ => .refl eu t _, rfl,
                    rfl, id⟩
              · exact lsuFill_visits done

end Engine

end Sustemu
