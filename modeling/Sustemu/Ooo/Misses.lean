import Sustemu.Ooo.Devices

/-!
# Misses in flight

Every entry of the MSHR file is held by an LSU slot, and there are two slots for
eight entries. A slot keeps its entry when its load is flushed, and the last
slot that waits on an entry releases it. The operands that a slot received at
issue stay in it, so the line of its load can be read off the slot even after
the load itself has left the reorder buffer.
-/

set_option autoImplicit false

namespace Sustemu

open Lib

/-- The address of the load that a slot was issued with: base and offset. -/
def OOOLatch.address (l : OOOLatch) : Word := l.src1Val + l.src2Val

/-- A slot waits on an entry of the MSHR file. -/
structure OOOLatch.Waits (l : OOOLatch) (m : MshrIdx) : Prop where
  valid : l.valid = true
  index : l.mshrIdx = some m

namespace OOOState

variable {o o' : OOOState}

structure MshrOk (o : OOOState) : Prop where
  distinct : ∀ m m', (o.mshr m).valid = true → (o.mshr m').valid = true → (o.mshr m).lineAddr = (o.mshr m').lineAddr → m = m'
  referenced : ∀ m, (o.mshr m).valid = true → ∃ s, (o.latch .lsu s).Waits m
  held : ∀ s m, (o.latch .lsu s).Waits m →
    (o.mshr m).valid = true ∧ (o.mshr m).lineAddr = (o.latch .lsu s).address &&& ~~~(63 : Word)
  cached : ∀ s m, (o.latch .lsu s).Waits m → inDram (o.latch .lsu s).address = true
  counted : ∀ m, 0 ≤ (o.mshr m).cyclesRem

/-- The same slots wait on the same entries. -/
theorem MshrOk.congr (ok : o.MshrOk) (mshr : o'.mshr = o.mshr)
    (waits : ∀ s m, (o'.latch .lsu s).Waits m ↔ (o.latch .lsu s).Waits m)
    (address : ∀ s, (o'.latch .lsu s).address = (o.latch .lsu s).address ∨ ∀ m, ¬(o.latch .lsu s).Waits m) : o'.MshrOk := by
  have same : ∀ s m, (o.latch .lsu s).Waits m → (o'.latch .lsu s).address = (o.latch .lsu s).address := by
    intro s m waits
    exact (address s).resolve_right fun idle => idle m waits
  refine ⟨?_, ?_, ?_, ?_, ?_⟩
  · rw [mshr]
    exact ok.distinct
  · intro m valid
    rw [mshr] at valid
    obtain ⟨s, held⟩ := ok.referenced m valid
    exact ⟨s, (waits s m).mpr held⟩
  · intro s m held
    have before := (waits s m).mp held
    rw [mshr, same s m before]
    exact ok.held s m before
  · intro s m held
    have before := (waits s m).mp held
    rw [same s m before]
    exact ok.cached s m before
  · rw [mshr]
    exact ok.counted

theorem MshrOk.same (ok : o.MshrOk) (mshr : o'.mshr = o.mshr) (latch : o'.latch .lsu = o.latch .lsu) : o'.MshrOk :=
  ok.congr mshr (fun s m => by rw [latch]) fun s => .inl (by rw [latch])

/-- There are more entries than slots. -/
theorem MshrOk.room (ok : o.MshrOk) : ∃ m, (o.mshr m).valid = false := by
  by_contra full
  have valid : ∀ m, (o.mshr m).valid = true := fun m => by
    cases entry : (o.mshr m).valid with
    | true => rfl
    | false => exact absurd ⟨m, entry⟩ full
  choose slot waits using fun m => ok.referenced m (valid m)
  have injective : Function.Injective slot := by
    intro m m' same
    have index := (waits m').index
    rw [← same, (waits m).index] at index
    exact Option.some.inj index
  exact absurd (Fintype.card_le_of_injective slot injective) (by decide)

/-- A request is always answered. -/
theorem MshrOk.answers (ok : o.MshrOk) (line : Word) (lat : Nat) : (o.mshrFindOrAlloc line lat).1 ≠ none := by
  obtain ⟨m, free⟩ := ok.room
  unfold mshrFindOrAlloc
  split
  · exact nofun
  · split
    · exact nofun
    · next none =>
        have taken := List.find?_eq_none.mp none m (List.mem_finRange m)
        rw [free] at taken
        exact absurd rfl taken

/-! ## Operations -/

theorem MshrOk.tick (ok : o.MshrOk) : o.mshrTick.MshrOk := by
  have valid : ∀ m, (o.mshrTick.mshr m).valid = (o.mshr m).valid := fun m => by
    unfold mshrTick
    dsimp only
    split <;> rfl
  have line : ∀ m, (o.mshrTick.mshr m).lineAddr = (o.mshr m).lineAddr := fun m => by
    unfold mshrTick
    dsimp only
    split <;> rfl
  refine ⟨?_, ?_, ?_, ok.cached, ?_⟩
  · intro m m' validM validM' same
    rw [valid] at validM validM'
    rw [line, line] at same
    exact ok.distinct m m' validM validM' same
  · intro m validM
    rw [valid] at validM
    exact ok.referenced m validM
  · intro s m waits
    rw [valid, line]
    exact ok.held s m waits
  · intro m
    unfold mshrTick
    dsimp only
    split
    · next running =>
        rw [Bool.and_eq_true, decide_eq_true_eq] at running
        exact Int.sub_nonneg_of_le running.2
    · exact ok.counted m

theorem latch_dropLatch_other (o : OOOState) {s t : Fin 2} (other : t ≠ s) :
    (o.dropLatch .lsu s).latch .lsu t = o.latch .lsu t := by
  rw [latch_dropLatch, if_neg fun here => other here.2]

theorem waits_dropLatch {s t : Fin 2} {m : MshrIdx} :
    ((o.dropLatch .lsu s).latch .lsu t).Waits m ↔ t ≠ s ∧ (o.latch .lsu t).Waits m := by
  by_cases here : t = s
  · refine iff_of_false (fun waits => ?_) fun other => other.1 here
    have valid := waits.valid
    rw [latch_dropLatch, if_pos ⟨rfl, here⟩] at valid
    cases valid
  · rw [latch_dropLatch_other o here]
    exact (and_iff_right here).symm

/-- A slot is emptied, and the entries that stay valid are those some other slot waits on. -/
theorem MshrOk.vacate (ok : o.MshrOk) {s : Fin 2} (latch : o'.latch .lsu = (o.dropLatch .lsu s).latch .lsu)
    (valid : ∀ m, (o'.mshr m).valid = true ↔ ∃ t, t ≠ s ∧ (o.latch .lsu t).Waits m)
    (line : ∀ m, (o'.mshr m).lineAddr = (o.mshr m).lineAddr) (cycles : ∀ m, (o'.mshr m).cyclesRem = (o.mshr m).cyclesRem) :
    o'.MshrOk := by
  have waits : ∀ t m, (o'.latch .lsu t).Waits m ↔ t ≠ s ∧ (o.latch .lsu t).Waits m := by
    intro t m
    rw [latch]
    exact waits_dropLatch
  have before : ∀ m, (o'.mshr m).valid = true → (o.mshr m).valid = true := by
    intro m validM
    obtain ⟨t, _, waitsT⟩ := (valid m).mp validM
    exact (ok.held t m waitsT).1
  refine ⟨?_, ?_, ?_, ?_, ?_⟩
  · intro m m' validM validM' same
    rw [line, line] at same
    exact ok.distinct m m' (before m validM) (before m' validM') same
  · intro m validM
    obtain ⟨t, held⟩ := (valid m).mp validM
    exact ⟨t, (waits t m).mpr held⟩
  · intro t m held
    have kept := (waits t m).mp held
    rw [line, latch, latch_dropLatch_other o kept.1]
    exact ⟨(valid m).mpr ⟨t, kept⟩, (ok.held t m kept.2).2⟩
  · intro t m held
    have kept := (waits t m).mp held
    rw [latch, latch_dropLatch_other o kept.1]
    exact ok.cached t m kept.2
  · intro m
    rw [cycles]
    exact ok.counted m

/-- A slot that waits on nothing is emptied. -/
theorem MshrOk.drop (ok : o.MshrOk) {s : Fin 2} (idle : ∀ m, ¬(o.latch .lsu s).Waits m) (mshr : o'.mshr = o.mshr)
    (latch : o'.latch .lsu = (o.dropLatch .lsu s).latch .lsu) : o'.MshrOk := by
  refine ok.vacate latch ?_ (fun m => by rw [mshr]) fun m => by rw [mshr]
  intro m
  rw [mshr]
  constructor
  · intro valid
    obtain ⟨t, waits⟩ := ok.referenced m valid
    refine ⟨t, ?_, waits⟩
    rintro rfl
    exact idle m waits
  · rintro ⟨t, _, waits⟩
    exact (ok.held t m waits).1

theorem mshrRelease_mshr (o : OOOState) (s : Fin 2) (m : MshrIdx) :
    (o.mshrRelease s m).mshr = o.mshr ∧ (∃ t, t ≠ s ∧ (o.latch .lsu t).Waits m) ∨
    (o.mshrRelease s m).mshr = setAt o.mshr m { o.mshr m with valid := false } ∧
      ∀ t, t ≠ s → ¬(o.latch .lsu t).Waits m := by
  unfold mshrRelease
  dsimp only
  split
  · next used =>
      obtain ⟨t, _, holds⟩ := List.any_eq_true.mp used
      simp only [Bool.and_eq_true, bne_iff_ne, beq_iff_eq] at holds
      exact .inl ⟨rfl, t, holds.1.1, holds.1.2, holds.2⟩
  · next unused =>
      refine .inr ⟨rfl, fun t other waits => unused (List.any_eq_true.mpr ⟨t, ?_, ?_⟩)⟩
      · have slots : ∀ t : Fin 2, t ∈ EU.lsu.slots := by decide
        exact slots t
      · simp [other, waits.valid, waits.index]

/-- A slot that has waited is emptied, and its entry released unless another slot waits on it. -/
theorem MshrOk.release (ok : o.MshrOk) {s : Fin 2} {m : MshrIdx} (waits : (o.latch .lsu s).Waits m)
    (mshr : o'.mshr = (o.mshrRelease s m).mshr) (latch : o'.latch .lsu = (o.dropLatch .lsu s).latch .lsu) : o'.MshrOk := by
  -- Of the entries other than `m`, those that are valid have a slot other than `s`.
  have others : ∀ n, n ≠ m → ((o.mshr n).valid = true ↔ ∃ t, t ≠ s ∧ (o.latch .lsu t).Waits n) := by
    intro n different
    constructor
    · intro valid
      obtain ⟨t, held⟩ := ok.referenced n valid
      refine ⟨t, ?_, held⟩
      rintro rfl
      have index := held.index
      rw [waits.index] at index
      exact different (Option.some.inj index).symm
    · rintro ⟨t, _, held⟩
      exact (ok.held t n held).1
  rcases o.mshrRelease_mshr s m with ⟨same, used⟩ | ⟨cleared, unused⟩
  · rw [same] at mshr
    refine ok.vacate latch ?_ (fun n => by rw [mshr]) fun n => by rw [mshr]
    intro n
    rw [mshr]
    by_cases released : n = m
    · rw [released]
      exact iff_of_true (ok.held s m waits).1 used
    · exact others n released
  · rw [cleared] at mshr
    have entry : ∀ n, n ≠ m → o'.mshr n = o.mshr n := by
      intro n different
      rw [mshr, setAt_of_ne different]
    have own : o'.mshr m = { o.mshr m with valid := false } := by rw [mshr, setAt_self]
    refine ok.vacate latch ?_ ?_ ?_
    · intro n
      by_cases released : n = m
      · rw [released, own]
        exact iff_of_false Bool.false_ne_true fun ⟨t, other, held⟩ => unused t other held
      · rw [entry n released]
        exact others n released
    · intro n
      by_cases released : n = m
      · rw [released, own]
      · rw [entry n released]
    · intro n
      by_cases released : n = m
      · rw [released, own]
      · rw [entry n released]

/-- What a request answers: an entry that is valid for the line afterwards, and no other entry changes. -/
theorem MshrOk.request (ok : o.MshrOk) (line : Word) {lat : Nat} (positive : 0 < lat) : ∃ m mshr,
    o.mshrFindOrAlloc line lat = (some m, { o with mshr := mshr }) ∧ (mshr m).valid = true ∧ (mshr m).lineAddr = line ∧
      0 ≤ (mshr m).cyclesRem ∧ (∀ n, n ≠ m → mshr n = o.mshr n) ∧
      (∀ n, n ≠ m → (o.mshr n).valid = true → (o.mshr n).lineAddr ≠ line) ∧ (mshr m = o.mshr m ∨ (o.mshr m).valid = false) := by
  have answered := ok.answers line lat
  unfold mshrFindOrAlloc at answered ⊢
  split at answered
  · next m found =>
      have held := List.find?_some found
      simp only [Bool.and_eq_true, beq_iff_eq] at held
      refine ⟨m, o.mshr, rfl, held.1, held.2, ok.counted m, fun _ _ => rfl, ?_, .inl rfl⟩
      intro n different valid same
      exact different (ok.distinct n m valid held.1 (same.trans held.2.symm))
  · next absent =>
      split at answered
      · next m found =>
          have free : (o.mshr m).valid = false := by simpa using List.find?_some found
          refine ⟨m, _, rfl, by rw [setAt_self], by rw [setAt_self], ?_, ?_, ?_, .inr free⟩
          · rw [setAt_self]
            exact Int.sub_nonneg_of_le (Int.ofNat_le.mpr positive)
          · intro n different
            exact setAt_of_ne different _ _
          · intro n _ valid same
            have none := List.find?_eq_none.mp absent n (List.mem_finRange n)
            rw [valid, same] at none
            simp at none
      · exact absurd rfl answered

/-- A slot joins the entry for its line, or gets a new one. -/
theorem MshrOk.join (ok : o.MshrOk) {s : Fin 2} {lat : Nat} (valid : (o.latch .lsu s).valid = true)
    (idle : (o.latch .lsu s).mshrIdx = none) (cached : inDram (o.latch .lsu s).address = true) (positive : 0 < lat) :
    ∃ m o₁, o.mshrFindOrAlloc ((o.latch .lsu s).address &&& ~~~(63 : Word)) lat = (some m, o₁) ∧ ∀ cycles,
      (o₁.setLatch .lsu s { o.latch .lsu s with mshrIdx := some m, cyclesRem := cycles }).MshrOk := by
  obtain ⟨m, mshr, answer, fresh, line, counts, others, lines, shared⟩ := ok.request ((o.latch .lsu s).address &&& ~~~(63 : Word))
    positive
  refine ⟨m, _, answer, fun cycles => ?_⟩
  have self : ((({ o with mshr := mshr } : OOOState).setLatch .lsu s
      { o.latch .lsu s with mshrIdx := some m, cyclesRem := cycles }).latch .lsu s) =
      { o.latch .lsu s with mshrIdx := some m, cyclesRem := cycles } := by
    rw [latch_setLatch, if_pos ⟨rfl, rfl⟩]
  have other : ∀ t, t ≠ s → (({ o with mshr := mshr } : OOOState).setLatch .lsu s
      { o.latch .lsu s with mshrIdx := some m, cyclesRem := cycles }).latch .lsu t = o.latch .lsu t := by
    intro t different
    rw [latch_setLatch, if_neg fun here => different here.2]
  generalize after : (({ o with mshr := mshr } : OOOState).setLatch .lsu s
      { o.latch .lsu s with mshrIdx := some m, cyclesRem := cycles }) = o' at self other
  have file : o'.mshr = mshr := by rw [← after]; rfl
  -- Before, nobody waited on the new entry, or it was the entry for this line already.
  have old : ∀ t n, t ≠ s → (o.latch .lsu t).Waits n → mshr n = o.mshr n := by
    intro t n _ waits
    by_cases here : n = m
    · subst here
      refine shared.resolve_right fun free => ?_
      rw [(ok.held t n waits).1] at free
      cases free
    · exact others n here
  refine ⟨?_, ?_, ?_, ?_, ?_⟩
  · rw [file]
    intro n n' validN validN' same
    by_cases first : n = m <;> by_cases second : n' = m
    · rw [first, second]
    · subst first
      rw [others n' second] at validN' same
      exact absurd (same.symm.trans line) (lines n' second validN')
    · subst second
      rw [others n first] at validN same
      exact absurd (same.trans line) (lines n first validN)
    · rw [others n first] at validN same
      rw [others n' second] at validN' same
      exact ok.distinct n n' validN validN' same
  · intro n validN
    by_cases here : n = m
    · refine ⟨s, ?_⟩
      rw [self, here]
      exact ⟨valid, rfl⟩
    · rw [file, others n here] at validN
      obtain ⟨t, waits⟩ := ok.referenced n validN
      have different : t ≠ s := by
        rintro rfl
        cases idle.symm.trans waits.index
      refine ⟨t, ?_⟩
      rw [other t different]
      exact waits
  · intro t n waits
    rw [file]
    by_cases here : t = s
    · subst here
      rw [self] at waits ⊢
      cases waits.index
      exact ⟨fresh, line⟩
    · rw [other t here] at waits ⊢
      rw [old t n here waits]
      exact ok.held t n waits
  · intro t n waits
    by_cases here : t = s
    · subst here
      rw [self]
      exact cached
    · rw [other t here] at waits ⊢
      exact ok.cached t n waits
  · intro n
    rw [file]
    by_cases here : n = m
    · rw [here]
      exact counts
    · rw [others n here]
      exact ok.counted n

/-- A flush leaves the slots that wait valid. -/
theorem MshrOk.flush (ok : o.MshrOk) (b : RobIdx) : (o.flushAfter b).MshrOk := by
  have frame := rollback_frame (o.robTail - (b + 1)).val o
  have rolled : (OOOState.rollback (o.robTail - (b + 1)).val o).MshrOk := ok.same frame.mshr (by rw [frame.latch])
  unfold flushAfter
  generalize OOOState.rollback (o.robTail - (b + 1)).val o = r at rolled
  refine rolled.congr rfl ?_ ?_
  · intro s m
    unfold squash
    dsimp only
    split
    · split
      · exact ⟨fun waits => ⟨waits.valid, waits.index⟩, fun waits => ⟨waits.valid, waits.index⟩⟩
      · next idle =>
          refine iff_of_false (fun waits => Bool.false_ne_true waits.valid) fun waits => idle ⟨rfl, ?_⟩
          rw [waits.index]
          rfl
    · exact .rfl
  · intro s
    left
    unfold squash
    dsimp only
    split
    · split <;> rfl
    · rfl

/-- A new instruction waits on nothing. -/
theorem MshrOk.issue (ok : o.MshrOk) (eu : EU) (s : Fin 2) : (o.issueSlot eu s).MshrOk := by
  unfold issueSlot
  split
  · exact ok
  · next empty =>
      split
      · exact ok
      · next k chosen =>
          refine ok.congr rfl ?_ ?_
          · intro t m
            change ((o.setLatch eu s _).latch .lsu t).Waits m ↔ _
            rw [latch_setLatch]
            split
            · next here =>
                obtain ⟨rfl, rfl⟩ := here
                exact iff_of_false (fun waits => nomatch waits.index) fun waits => empty waits.valid
            · exact .rfl
          · intro t
            change ((o.setLatch eu s _).latch .lsu t).address = _ ∨ _
            rw [latch_setLatch]
            split
            · next here =>
                obtain ⟨rfl, rfl⟩ := here
                exact .inr fun m waits => empty waits.valid
            · exact .inl rfl

theorem MshrOk.stageIs (ok : o.MshrOk) : o.stageIs.MshrOk := by
  have unit : ∀ (eu : EU) {o : OOOState}, o.MshrOk → (o.issueUnit eu).MshrOk := by
    intro eu o ok
    unfold issueUnit
    induction eu.slots generalizing o with
    | nil => exact ok
    | cons s rest ih => exact ih (ok.issue eu s)
  exact unit .lsu (unit .mul (unit .int ok))

end OOOState

/-- The address of a cacheable load is the sum of its operands. -/
theorem OOOState.Ok.address_eq {o : OOOState} (ok : o.Ok) {s : Fin 2} (addressed : o.Addressed s)
    (cached : inDram (o.slotEntry .lsu s).ir.memAddr = true) :
    (o.slotEntry .lsu s).ir.memAddr = (o.latch .lsu s).address := by
  obtain ⟨run, executor, done⟩ := addressed.computed.done
  have kind := pure_itype executor (o.slotEntry .lsu s).ir
  rw [done] at kind
  have memory := ok.lsu_pure addressed.live
  have notStore := addressed.load
  rw [kind] at notStore
  have sum : (run (o.slotEntry .lsu s).ir).memAddr = (o.slotEntry .lsu s).ir.src1Val + (o.slotEntry .lsu s).ir.src2Val := by
    cases fn : (o.slotEntry .lsu s).ir.execFn with
    | ld | lw | lh | lb | lwu | lhu | lbu =>
        rw [fn] at executor
        cases executor
        rfl
    | sd | sw | sh | sb =>
        rw [fn] at notStore
        exact absurd rfl notStore
    | inv =>
        -- A malformed word has no address.
        have blank := (ok.decoded _ (ok.inv.live_entry addressed.live).1).1.blank
        have zero : (o.slotEntry .lsu s).ir.memAddr = 0 := blank fn
        rw [zero] at cached
        exact absurd cached (by decide)
    | _ =>
        rw [fn] at memory
        cases memory
  rw [done, addressed.computed.src1, addressed.computed.src2] at sum
  exact sum

/-! ## Loads that wait -/

namespace OOOState

variable {o o' : OOOState}

/-- A load that waits is still in the reorder buffer with its cacheable address. -/
def WaitsCached (o : OOOState) : Prop :=
  ∀ s m, o.Live .lsu s → (o.latch .lsu s).mshrIdx = some m → inDram (o.slotEntry .lsu s).ir.memAddr = true

theorem WaitsCached.keep (cached : o.WaitsCached)
    (slots : ∀ s m, o'.Live .lsu s → (o'.latch .lsu s).mshrIdx = some m →
      o'.latch .lsu s = o.latch .lsu s ∧ (o'.rob (o.latch .lsu s).robIdx).ir = (o.rob (o.latch .lsu s).robIdx).ir) :
    o'.WaitsCached := by
  intro s m live index
  obtain ⟨latch, ir⟩ := slots s m live index
  have before : o.Live .lsu s := ⟨latch ▸ live.valid, latch ▸ live.kept⟩
  have waiting := cached s m before (latch ▸ index)
  unfold slotEntry at waiting ⊢
  rw [latch, ir]
  exact waiting

theorem WaitsCached.same (cached : o.WaitsCached) (latch : o'.latch .lsu = o.latch .lsu)
    (ir : ∀ i, (o'.rob i).ir = (o.rob i).ir) : o'.WaitsCached :=
  cached.keep fun s _ _ _ => ⟨by rw [latch], ir _⟩

/-- Another instruction completes. -/
theorem WaitsCached.completes (cached : o.WaitsCached) (inv : o.Inv) {eu : EU} {s : Fin 2} {entry : ROBEntry} {result : Word}
    (completes : o.Completes eu s entry result o') (live : o.Live eu s) : o'.WaitsCached := by
  refine cached.keep fun t m liveT _ => ?_
  have place : ¬(EU.lsu = eu ∧ t = s) := by
    rintro ⟨rfl, rfl⟩
    have valid := liveT.valid
    rw [completes.latch, latch_dropLatch, if_pos ⟨rfl, rfl⟩] at valid
    cases valid
  have latch : o'.latch .lsu t = o.latch .lsu t := by rw [completes.latch, latch_dropLatch, if_neg place]
  have before : o.Live .lsu t := ⟨latch ▸ liveT.valid, latch ▸ liveT.kept⟩
  refine ⟨latch, ?_⟩
  rw [completes.rob, setAt_of_ne]
  intro shared
  exact place (inv.live_unique before live shared)

theorem WaitsCached.flushes (cached : o.WaitsCached) {b : RobIdx} (flushes : o.Flushes b o') : o'.WaitsCached := by
  refine cached.keep fun s m live _ => ?_
  obtain ⟨_, kept, _⟩ := flushes.latch .lsu s live.valid
  obtain ⟨latch, older⟩ := kept live.kept
  exact ⟨latch, by rw [flushes.older _ older]⟩

/-- A slot gets a latch that waits on nothing. -/
theorem WaitsCached.setLatch (cached : o.WaitsCached) {eu : EU} {s : Fin 2} {l : OOOLatch}
    (idle : eu = .lsu → l.valid = false ∨ l.mshrIdx = none) : (o.setLatch eu s l).WaitsCached := by
  refine cached.keep fun t m live index => ?_
  have valid := live.valid
  rw [latch_setLatch] at valid index ⊢
  split at index
  · next here =>
      rw [if_pos here] at valid
      rcases idle here.1.symm with empty | none
      · cases empty.symm.trans valid
      · cases none.symm.trans index
  · next other =>
      rw [if_neg other]
      exact ⟨rfl, rfl⟩

end OOOState

section Steps

variable {δ β : Type} {mem : MemConfig δ} {cfg : OooConfig β} {e e' : Engine (MemState δ) β}

theorem Engine.BackStep.waitsCached (step : e.BackStep (hierarchy mem) cfg e') (ok : e.ooo.Ok)
    (cached : e.ooo.WaitsCached) : e'.ooo.WaitsCached := by
  cases step with
  | commit live ready ordered sound room stored checked =>
      rw [(commits_of_checked stored checked).ooo]
      have frame := e.ooo.afterCommit_frame
      refine cached.same (by rw [frame.latch]) fun i => ?_
      rw [frame.rob]
      by_cases head : i = e.ooo.robHead
      · rw [head, setAt_self]
      · rw [setAt_of_ne head]
  | exec bpred fault unit live run completes faulted resolved => exact cached.completes ok.inv completes live
  | redirect live run completes control wrong target =>
      have done := cached.completes ok.inv completes live
      exact (done.flushes (redirect_flushes ok live run completes).2).same rfl fun _ => rfl
  | count live => exact cached.setLatch nofun
  | discard mshr valid flushed lines filled =>
      exact OOOState.WaitsCached.setLatch (o := { e.ooo with mshr := mshr }) (cached.same rfl fun _ => rfl) fun _ => .inl rfl
  | address live first executor =>
      refine cached.keep fun t m liveT index => ⟨rfl, ?_⟩
      change (setAt e.ooo.rob _ _ _).ir = _
      rw [setAt_of_ne]
      intro shared
      have before : e.ooo.Live .lsu t := ⟨liveT.valid, liveT.kept⟩
      obtain ⟨_, rfl⟩ := ok.inv.live_unique before live shared
      cases first.1.symm.trans index
  | storeDone live computed store completes => exact cached.completes ok.inv completes live
  | delay addressed absent => exact cached.setLatch fun _ => .inr absent
  | miss addressed below missed line lines =>
      rename_i s m mshr w
      intro t n live index
      have entry : ∀ i, ((({ e.ooo with mshr := mshr } : OOOState).setLatch .lsu s
        { e.ooo.latch .lsu s with mshrIdx := some m, cyclesRem := 0 }).rob i) = e.ooo.rob i := fun _ => rfl
      have valid := live.valid
      have kept := live.kept
      unfold OOOState.slotEntry
      rw [entry]
      rw [OOOState.latch_setLatch] at valid kept index ⊢
      split at index
      · next here =>
          rw [if_pos here]
          exact vaddrProbeLevel_missed missed
      · next other =>
          rw [if_neg other] at valid kept ⊢
          exact cached t n ⟨valid, kept⟩ index
  | loadFault addressed outside completes => exact cached.completes ok.inv completes addressed.live
  | fill addressed device mapped read completes => exact cached.completes ok.inv completes addressed.live
  | issue empty chosen => exact (cached.setLatch fun _ => .inr rfl).same rfl fun _ => rfl
  | _ => exact cached.same rfl fun _ => rfl

theorem Engine.FrontStep.waitsCached (step : e.FrontStep (hierarchy mem) cfg e') (ok : e.ooo.Ok)
    (cached : e.ooo.WaitsCached) : e'.ooo.WaitsCached := by
  cases step with
  | rename valid inOrder alone room names renames =>
      refine cached.keep fun s m live _ => ?_
      have before : e.ooo.Live .lsu s := ⟨renames.latch ▸ live.valid, renames.latch ▸ live.kept⟩
      have occupied := (ok.inv.renamed.valid _).mp (ok.inv.live_entry before).1
      refine ⟨congrFun (congrFun renames.latch _) _, congrArg ROBEntry.ir ?_⟩
      refine (congrFun renames.rob _).trans (setAt_of_ne (fun tail => ?_) _ _)
      rw [tail, ok.inv.renamed.tail, OOOState.pos, age_add _ room] at occupied
      omega
  | _ => exact cached.same rfl fun _ => rfl

end Steps

/-! ## Phases -/

namespace Engine

variable {δ β : Type} {mem : MemConfig δ} {cfg : OooConfig β} {e e' : Engine (MemState δ) β}

theorem drainStoreBuf_mshrOk (ok : e.ooo.MshrOk) (done : e.drainStoreBuf (hierarchy mem) cfg = some e') : e'.ooo.MshrOk := by
  unfold drainStoreBuf at done
  dsimp only at done
  split at done
  · cases done
    exact ok
  · split at done
    · cases done
      exact ok.same rfl rfl
    · obtain ⟨world, _, rfl⟩ := Option.map_eq_some_iff.mp done
      exact ok.same rfl rfl

theorem commitLoop_mshrOk {turns : Nat} (ok : e.ooo.MshrOk) (done : commitLoop (hierarchy mem) cfg turns e = some e') :
    e'.ooo.MshrOk := by
  induction turns generalizing e with
  | zero =>
      cases done
      exact ok
  | succ turns ih =>
      obtain ⟨⟨e₁, goesOn⟩, one, rest⟩ := Option.bind_eq_some_iff.mp done
      have first : e₁.ooo.MshrOk := by
        obtain ⟨tcIr, lines, _, ⟨_, same⟩ | ⟨_, commits⟩⟩ := commitOne_cases one
        · rw [same]
          exact ok
        · rw [commits.ooo]
          have frame := e.ooo.afterCommit_frame
          exact ok.same frame.mshr (by rw [frame.latch])
      dsimp only at rest
      split at rest
      · exact ih first rest
      · cases rest
        exact first

/-- Executing an instruction of another unit does not touch the LSU. -/
theorem finishExec_mshrOk {o : OOOState} (ok : o.MshrOk) {eu : EU} (unit : eu ≠ .lsu) (s : Fin 2) (i : RobIdx)
    (physRd : Option PReg) (ir : IRInst) : ((o.dropLatch eu s).finishExec i physRd ir).MshrOk := by
  have latch : (o.dropLatch eu s).latch .lsu = o.latch .lsu := by
    funext t
    rw [OOOState.latch_dropLatch, if_neg fun here => unit here.1.symm]
  unfold OOOState.finishExec
  dsimp only
  split
  · split
    · exact ok.same rfl latch
    · exact ok.same rfl latch
  · exact ok.same rfl latch

theorem resolveBranch_mshrOk (ok : e.ooo.MshrOk) (i : RobIdx) (ir : IRInst) : (e.resolveBranch cfg i ir).ooo.MshrOk := by
  rcases resolveBranch_cases cfg e i ir with
    ⟨_, resolved⟩ | ⟨_, resolved⟩ | ⟨_, _, resolved⟩
  · rw [resolved]
    exact ok
  · rw [resolved]
    exact ok.same rfl rfl
  · rw [resolved]
    exact (ok.flush i).same rfl rfl

theorem intSlot_mshrOk {s : Fin 2} (ok : e.ooo.MshrOk) (done : e.intSlot (hierarchy mem) cfg s = some e') :
    e'.ooo.MshrOk := by
  have dropped : (e.ooo.dropLatch .int s).MshrOk := by
    refine ok.same rfl ?_
    funext t
    rw [OOOState.latch_dropLatch, if_neg fun here => nomatch here.1]
  unfold intSlot at done
  dsimp only at done
  split at done
  · cases done
    exact ok
  · split at done
    · cases done
      exact dropped
    · obtain ⟨⟨ir, sys⟩, _, rfl⟩ := Option.map_eq_some_iff.mp done
      have finished := finishExec_mshrOk ok (show EU.int ≠ .lsu by decide) s (e.ooo.latch .int s).robIdx
        (e.ooo.latch .int s).physRd ir
      dsimp only
      split
      · exact resolveBranch_mshrOk finished _ _
      · exact finished

theorem mulFinish_mshrOk {s : Fin 2} (ok : e.ooo.MshrOk) (done : e.mulFinish (hierarchy mem) s = some e') :
    e'.ooo.MshrOk := by
  unfold mulFinish at done
  dsimp only at done
  split at done
  · cases done
    refine ok.same rfl ?_
    funext t
    rw [OOOState.latch_dropLatch, if_neg fun here => nomatch here.1]
  · obtain ⟨⟨ir, sys⟩, _, rfl⟩ := Option.map_eq_some_iff.mp done
    exact finishExec_mshrOk ok (by decide) _ _ _ _

theorem mulSlot_mshrOk {s : Fin 2} (ok : e.ooo.MshrOk) (done : e.mulSlot (hierarchy mem) s = some e') : e'.ooo.MshrOk := by
  have set : ∀ l, (e.ooo.setLatch .mul s l).MshrOk := by
    intro l
    refine ok.same rfl ?_
    funext t
    rw [OOOState.latch_setLatch, if_neg fun here => nomatch here.1]
  unfold mulSlot at done
  dsimp only at done
  split at done
  · cases done
    exact ok
  · split at done
    · split at done
      · cases done
        exact set _
      · exact mulFinish_mshrOk (set _) done
    · split at done
      · split at done
        · cases done
          exact set _
        · cases done
          exact set _
      · exact mulFinish_mshrOk ok done

theorem lsuFinish_mshr (o : OOOState) (s : Fin 2) (mshr : Option MshrIdx) (result : Word) :
    (lsuFinish o s mshr result).mshr = (mshr.elim o (o.mshrRelease s)).mshr := by
  unfold lsuFinish
  dsimp only
  cases mshr with
  | none =>
      dsimp only [Option.elim]
      split <;> rfl
  | some m =>
      dsimp only [Option.elim]
      split <;> rfl

theorem lsuFault_mshr (o : OOOState) (s : Fin 2) : (lsuFault o s).mshr = o.mshr := by
  unfold lsuFault
  dsimp only
  split
  · split <;> rfl
  · rfl

/-- A load that waits on nothing is filled at once. -/
theorem lsuFill_hit_mshrOk (ok : e.ooo.Ok) (mshrOk : e.ooo.MshrOk) {s : Fin 2} (live : e.ooo.Live .lsu s)
    (idle : (e.ooo.latch .lsu s).mshrIdx = none) (done : e.lsuFill (hierarchy mem) s none = some e') : e'.ooo.MshrOk := by
  have free : ∀ m, ¬(e.ooo.latch .lsu s).Waits m := fun m waits => by cases idle.symm.trans waits.index
  unfold lsuFill at done
  dsimp only at done
  split at done
  · cases done
    exact mshrOk.drop free (lsuFault_mshr e.ooo s) (by rw [(ok.inv.completes_lsuFault live).latch])
  · obtain ⟨⟨raw, world⟩, _, rfl⟩ := Option.map_eq_some_iff.mp done
    exact mshrOk.drop free (lsuFinish_mshr _ _ _ _) (by rw [← (ok.inv.completes_lsuFinish live none _).latch]; rfl)

/-- A load that has waited is cacheable, so its fill does not fault and releases its entry. -/
theorem lsuFill_miss_mshrOk (ok : e.ooo.Ok) (mshrOk : e.ooo.MshrOk) {s : Fin 2} {m : MshrIdx} (live : e.ooo.Live .lsu s)
    (waits : (e.ooo.latch .lsu s).Waits m) (cached : inDram (e.ooo.slotEntry .lsu s).ir.memAddr = true)
    (done : e.lsuFill (hierarchy mem) s (some m) = some e') : e'.ooo.MshrOk := by
  unfold lsuFill at done
  dsimp only at done
  split at done
  · next outside =>
      simp only [Bool.and_eq_true, Bool.not_eq_true'] at outside
      exact absurd ((inDram_of_truncated outside.1).symm.trans cached) Bool.false_ne_true
  · obtain ⟨⟨raw, world⟩, _, rfl⟩ := Option.map_eq_some_iff.mp done
    exact mshrOk.release waits (lsuFinish_mshr _ _ _ _) (by rw [← (ok.inv.completes_lsuFinish live (some m) _).latch]; rfl)

theorem lsuFlushed_mshrOk (mshrOk : e.ooo.MshrOk) {s : Fin 2} (valid : (e.ooo.latch .lsu s).valid = true)
    (done : e.lsuFlushed (hierarchy mem) s = some e') : e'.ooo.MshrOk := by
  unfold lsuFlushed at done
  dsimp only at done
  split at done
  · next idle =>
      cases done
      exact mshrOk.drop (fun m waits => nomatch idle.symm.trans waits.index) rfl rfl
  · next m index =>
      split at done
      · cases done
        exact mshrOk
      · obtain ⟨⟨value, world⟩, _, rfl⟩ := Option.map_eq_some_iff.mp done
        obtain ⟨mshr, released, _⟩ := e.ooo.mshrRelease_eq s m
        refine mshrOk.release ⟨valid, index⟩ rfl ?_
        rw [released]
        rfl

theorem lsuStart_mshrOk (ok : e.ooo.Ok) (mshrOk : e.ooo.MshrOk) {s : Fin 2} (live : e.ooo.Live .lsu s)
    (computed : e.ooo.Computed s) (idle : (e.ooo.latch .lsu s).mshrIdx = none)
    (done : e.lsuStart (hierarchy mem) s = some e') : e'.ooo.MshrOk := by
  have free : ∀ m, ¬(e.ooo.latch .lsu s).Waits m := fun m waits => nomatch idle.symm.trans waits.index
  unfold lsuStart at done
  dsimp only at done
  split at done
  · cases done
    exact mshrOk.drop free rfl rfl
  · next load =>
      have addressed : e.ooo.Addressed s := ⟨live, computed, load⟩
      split at done
      · split at done
        · cases done
          -- The slot only notes that it waits for the head.
          refine mshrOk.congr rfl ?_ ?_
          · intro t m
            rw [OOOState.latch_setLatch]
            split
            · next here =>
                obtain ⟨_, rfl⟩ := here
                exact ⟨fun waits => ⟨waits.valid, waits.index⟩, fun waits => ⟨waits.valid, waits.index⟩⟩
            · exact .rfl
          · intro t
            rw [OOOState.latch_setLatch]
            split
            · next here =>
                obtain ⟨_, rfl⟩ := here
                exact .inl rfl
            · exact .inl rfl
        · exact lsuFill_hit_mshrOk ok mshrOk live idle done
      · split at done
        · refine lsuFill_hit_mshrOk ?_ ?_ ?_ ?_ done
          · exact ok
          · exact mshrOk
          · exact live
          · exact idle
        · next slow =>
            have missed : (vaddrProbeLevel e.world (e.ooo.slotEntry .lsu s).ir.memAddr).1 ≠ 0 := by
              intro level
              change levelToLat (vaddrProbeLevel e.world (e.ooo.slotEntry .lsu s).ir.memAddr).1 ≠ 1 at slow
              rw [level] at slow
              exact slow rfl
            have cached := vaddrProbeLevel_missed missed
            have address := ok.address_eq addressed cached
            have positive : 0 < levelToLat (vaddrProbeLevel e.world (e.ooo.slotEntry .lsu s).ir.memAddr).1 := by
              generalize (vaddrProbeLevel e.world (e.ooo.slotEntry .lsu s).ir.memAddr).1 = level
              revert level
              decide
            obtain ⟨m, o₁, answer, joined⟩ := mshrOk.join live.valid idle (address ▸ cached) positive
            rw [← address] at answer
            split at done
            · next refused =>
                cases refused.symm.trans answer
            · next accepted =>
                cases accepted.symm.trans answer
                cases done
                exact joined 0

theorem lsuSlot_mshrOk (cfg : OooConfig β) (ok : e.ooo.Ok) (cached : e.ooo.WaitsCached) (mshrOk : e.ooo.MshrOk) {s : Fin 2}
    (done : e.lsuSlot (hierarchy mem) s = some e') : e'.ooo.MshrOk := by
  cases lsuSlot_visit cfg ok done with
  | idle same =>
      rw [same]
      exact mshrOk
  | flushed valid flushed done => exact lsuFlushed_mshrOk mshrOk valid done
  | first live hit executor same step computed started =>
      have ok' := step.ok ok
      subst same
      exact lsuStart_mshrOk ok' (mshrOk.same rfl rfl) ⟨live.valid, live.kept⟩ computed hit started
  | waited addressed hit head filled => exact lsuFill_hit_mshrOk ok mshrOk addressed.live hit filled
  | missed addressed index below filled =>
      have live := addressed.live
      exact lsuFill_miss_mshrOk ok mshrOk live ⟨live.valid, index⟩ (cached s _ live index) filled

theorem FrontStep.mshrOk (step : e.FrontStep (hierarchy mem) cfg e') (mshrOk : e.ooo.MshrOk) : e'.ooo.MshrOk := by
  cases step with
  | rename valid inOrder alone room names renames => exact mshrOk.same renames.mshr (by rw [← renames.latch])
  | _ => exact mshrOk.same rfl rfl

/-- Every phase keeps the MSHR file and its slots in step. -/
theorem Phase.mshrOk (ok : e.ooo.Ok) (tidy : e.ooo.Tidy) (cached : e.ooo.WaitsCached) (mshrOk : e.ooo.MshrOk) {phase : Phase}
    (done : phase.step (hierarchy mem) cfg e = some e') : e'.ooo.MshrOk := by
  have front : ∀ {e'}, Relation.ReflTransGen (FrontStep (hierarchy mem) cfg) e e' → e'.ooo.MshrOk := by
    intro e' steps
    induction steps with
    | refl => exact mshrOk
    | tail _ step ih => exact step.mshrOk ih
  cases phase with
  | drain => exact drainStoreBuf_mshrOk mshrOk done
  | commit =>
      refine commitLoop_mshrOk ?_ done
      exact mshrOk
  | mshr =>
      cases done
      exact mshrOk.tick
  | slot eu s =>
      cases eu with
      | int => exact intSlot_mshrOk mshrOk done
      | mul => exact mulSlot_mshrOk mshrOk done
      | lsu => exact lsuSlot_mshrOk cfg ok cached mshrOk done
  | issue =>
      cases done
      exact mshrOk.stageIs
  | rename => exact front (stageRn_steps _ _ tidy done).1
  | decode =>
      cases done
      exact front (stageId_steps _ _ ok tidy).1
  | fetch => exact front (stageIf_steps ok done).1
  | tick =>
      cases done
      exact mshrOk

theorem runPhases_mshrOk (ok : e.ooo.Ok) (tidy : e.ooo.Tidy) (cached : e.ooo.WaitsCached) (mshrOk : e.ooo.MshrOk) {n k : Nat}
    (done : runPhases (hierarchy mem) cfg n k e = some e') : e'.ooo.Ok ∧ e'.ooo.WaitsCached ∧ e'.ooo.MshrOk := by
  have keeps : ∀ e e' : Engine (MemState δ) β, e.ooo.Ok → e.ooo.WaitsCached → Step (hierarchy mem) cfg e e' →
      e'.ooo.WaitsCached := by
    intro e e' ok cached step
    rcases step with back | front
    · exact back.waitsCached ok cached
    · exact front.waitsCached ok cached
  induction k generalizing n e with
  | zero =>
      cases done
      exact ⟨ok, cached, mshrOk⟩
  | succ k ih =>
      obtain ⟨e₁, first, rest⟩ := Option.bind_eq_some_iff.mp done
      obtain ⟨ok₁, tidy₁, cached₁⟩ := Phase.keeps keeps ok tidy cached first
      exact ih ok₁ tidy₁ cached₁ (Phase.mshrOk ok tidy cached mshrOk first) rest

theorem oooInit_mshrOk (cpu : CPUState) : (oooInit cpu).MshrOk where
  distinct := nofun
  referenced := nofun
  held := fun _ _ waits => nomatch waits.valid
  cached := fun _ _ waits => nomatch waits.valid
  counted := fun _ => Int.le_refl 0

/-- In every state of a run, and at every point of the cycle that follows, the MSHR file and the LSU slots agree; a slot
whose load has not been flushed waits on the line of that load, and a request is always answered. -/
theorem misses_tracked (mem : MemConfig δ) (cfg : OooConfig β) (cpu : CPUState) (world : World (MemState δ)) (bpred : β) (n : Nat)
    (e : Engine (MemState δ) β) (done : run (hierarchy mem) cfg n (.init cfg cpu world bpred) = some e) (k : Nat)
    (e' : Engine (MemState δ) β) (inside : runPhases (hierarchy mem) cfg 0 k e = some e') :
    e'.ooo.MshrOk ∧
    (∀ s m, (e'.ooo.latch .lsu s).Waits m → (e'.ooo.latch .lsu s).flushed = false →
      (e'.ooo.latch .lsu s).address = (e'.ooo.slotEntry .lsu s).ir.memAddr) ∧
    ∀ line lat, (e'.ooo.mshrFindOrAlloc line lat).1 ≠ none := by
  have whole : runPhases (hierarchy mem) cfg 0 (13 * n + k) (.init cfg cpu world bpred) = some e' := by
    rw [runPhases_add, ← run_eq_phases, done, Option.bind_some, Nat.zero_add]
    have shifted : ∀ n, runPhases (hierarchy mem) cfg (13 * n) k e = runPhases (hierarchy mem) cfg 0 k e := by
      intro n
      induction n with
      | zero => rfl
      | succ n ih => rw [Nat.mul_succ, runPhases_shift, ih]
    rw [shifted]
    exact inside
  have idle : (oooInit cpu).WaitsCached := fun _ _ live _ => absurd live.valid Bool.false_ne_true
  obtain ⟨ok, cached, mshrOk⟩ := runPhases_mshrOk (oooInit_ok cpu) (oooInit_tidy cpu) idle (oooInit_mshrOk cpu) whole
  refine ⟨mshrOk, fun s m waits kept => ?_, mshrOk.answers⟩
  have live : e'.ooo.Live .lsu s := ⟨waits.valid, kept⟩
  exact (ok.address_eq (ok.missed s m live waits.index).1 (cached s m live waits.index)).symm

/-- `auipc x5, 0`, `lw x6, 0x40(x5)`, `lw x7, 0x44(x5)`: both loads wait on one entry. -/
theorem misses_tracked_shared : ∃ e, bootRun [0x00000297, 0x0402a303, 0x0442a383] 7 = some e ∧
    (e.ooo.latch .lsu 0).Waits 0 ∧ (e.ooo.latch .lsu 1).Waits 0 ∧ e.ooo.MshrOk ∧ (e.ooo.mshr 0).lineAddr = 0x80000040 := by
  have ran : (bootRun [0x00000297, 0x0402a303, 0x0442a383] 7).any (fun e =>
      (e.ooo.latch .lsu 0).valid && (e.ooo.latch .lsu 0).mshrIdx == some 0 && (e.ooo.latch .lsu 1).valid &&
        (e.ooo.latch .lsu 1).mshrIdx == some 0 && (e.ooo.latch .lsu 0).address == 0x80000040) = true := by decide +kernel
  obtain ⟨e, done, facts⟩ := (Option.any_eq_true _ _).mp ran
  simp only [Bool.and_eq_true, beq_iff_eq] at facts
  obtain ⟨⟨⟨⟨valid, index⟩, valid'⟩, index'⟩, address⟩ := facts
  obtain ⟨ok, _, _⟩ := misses_tracked (.plain 1) .solo ⟨.empty, mbase⟩ ⟨Sys.init, MemState.init (image _) ()⟩ () 7 e done 0 e rfl
  refine ⟨e, done, ⟨valid, index⟩, ⟨valid', index'⟩, ok, ?_⟩
  rw [(ok.held 0 0 ⟨valid, index⟩).2, address]
  rfl

end Engine

end Sustemu
