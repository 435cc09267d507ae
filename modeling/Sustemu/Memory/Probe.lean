import Sustemu.Memory.Calls
import Sustemu.Memory.Transparent

/-!
# The latency probe

`vaddr_read_level` has the other hart's dirty copy flushed before it looks, and
`vaddr_probe_level` does not. The flush puts the block into the second level, so
the two name different levels when the block is only in that dirty copy.
-/

set_option autoImplicit false

namespace Sustemu

open Lib

/-- The level that holds a block: 0 for the first, 1 for the second, 2 for neither. -/
def holdingLevel (l1 l2 : Cache) (b : Nat) : Fin 3 :=
  if (l1.block b).isSome then 0 else if (l2.block b).isSome then 1 else 2

theorem selectWay_isSome {c : Cache} (wf : c.WF) (addr : Nat) :
    (selectWay c addr).1 = (c.block (addr / blockSize)).isSome := by
  cases found : selectWay c addr with
  | mk hit way =>
      cases hit with
      | true =>
          rw [Cache.block_of_holds wf (Cache.selectWay_hit wf found)]
          rfl
      | false =>
          rw [Cache.block_of_not_holds (Cache.selectWay_miss wf found).2]
          rfl

section Sides

variable (side : Hier)

theorem cacheProbeLevel_level (wf : side.l1.WF) (wf2 : side.back.l2.WF) (addr : Nat) :
    (cacheProbeLevel side addr).1 = holdingLevel side.l1 side.back.l2 (addr / blockSize) := by
  have first : (findLineQuiet side.l1 addr).1 = _ := selectWay_isSome wf addr
  have second : (findLineQuiet side.back.l2 addr).1 = _ := selectWay_isSome wf2 addr
  unfold cacheProbeLevel holdingLevel
  rw [← first, ← second]
  generalize findLineQuiet side.l1 addr = lookup
  obtain ⟨hit, way, l1⟩ := lookup
  cases hit <;> rfl

theorem cacheReadLevel_level (hint : Nat → Nat) (wf : side.l1.WF) (wf2 : side.back.l2.WF) (addr len : Nat) :
    (cacheReadLevel hint side addr len).1 = holdingLevel side.l1 side.back.l2 (addr / blockSize) := by
  have first := selectWay_isSome wf addr
  have second : (findLineQuiet side.back.l2 addr).1 = _ := selectWay_isSome wf2 addr
  unfold holdingLevel
  rw [← first, ← second]
  cases found : selectWay side.l1 addr with
  | mk hit way =>
      cases hit with
      | true =>
          rw [cacheReadLevel_hit hint found]
          rfl
      | false =>
          rw [cacheReadLevel_miss hint found]
          rfl

/-- The question put to the second level leaves a mark only. -/
theorem cacheReadLevel_alike (hint : Nat → Nat) (wf : side.l1.WF) (wf2 : side.back.l2.WF) (addr len : Nat) :
    (cacheReadLevel hint side addr len).2.1 = (cacheRead hint side addr len).1 ∧
      (cacheTouch hint side addr).2.Alike (cacheReadLevel hint side addr len).2.2 := by
  have looked := (Cache.findLine_spec wf addr).1
  unfold cacheRead
  cases found : selectWay side.l1 addr with
  | mk hit way =>
      cases hit with
      | true =>
          rw [cacheReadLevel_hit hint found, cacheTouch_hit hint found]
          exact ⟨rfl, looked, looked, .refl _, wf2, wf2, .refl _, rfl⟩
      | false =>
          have refl : side.Alike side := ⟨wf, wf, .refl _, wf2, wf2, .refl _, rfl⟩
          have after : (side.looked addr).Alike (side.asked addr) :=
            ⟨looked, looked, .refl _, wf2, (Cache.findLineQuiet_spec wf2 addr).1, Cache.remarked_findLineQuiet _ addr, rfl⟩
          have filled := (refl.refill after rfl rfl found hint).2
          have kept := (run_geometry (touch_traces hint side addr).l1).1
          rw [cacheTouch_miss hint found] at kept ⊢
          rw [cacheReadLevel_miss hint found]
          refine ⟨?_, filled⟩
          dsimp only at kept ⊢
          rw [filled.value]
          unfold Cache.setIdx
          rw [kept, show (side.asked addr).l1.s = side.l1.s from (Cache.findLine_spec wf addr).2.1.s]

/-- The second level after a flush: it holds the block if it did or the flushed cache had it dirty. -/
theorem cacheSnoopFlushDirty_second (wf : side.l1.WF) (wf2 : side.back.l2.WF) (addr : Nat) :
    ((cacheSnoopFlushDirty side addr).back.l2.block (addr / blockSize)).isSome = true ↔
      (side.back.l2.block (addr / blockSize)).isSome = true ∨
        ∃ data, side.l1.block (addr / blockSize) = some (true, data) := by
  unfold cacheSnoopFlushDirty
  cases found : firstWay side.l1 addr fun line => line.matches (side.l1.tagOf addr) && line.dirty with
  | none =>
      refine (or_iff_left ?_).symm
      rintro ⟨data, dirty⟩
      obtain ⟨way, held, content⟩ := Cache.holds_of_block dirty
      have passed := firstWay_none found held.1
      rw [Cache.tagOf_eq] at passed
      have dirtyLine : true = (side.l1.line (side.l1.setIdx addr) way).dirty := congrArg Prod.fst content
      rw [← dirtyLine, Bool.and_true] at passed
      exact absurd held.2 (Bool.eq_false_iff.mp passed)
  | some way =>
      obtain ⟨bound, wanted⟩ := firstWay_some found
      obtain ⟨matching, dirty⟩ := Bool.and_eq_true_iff.mp wanted
      obtain ⟨middle, stored, _, _, blocks, _⟩ := accessL2_write wf2 (addr / blockSize * blockSize)
        (side.l1.line (side.l1.setIdx addr) way).data
      have held := Cache.block_of_holds wf (holds_of_matches bound matching)
      refine iff_of_true ?_ (.inr ⟨(side.l1.line (side.l1.setIdx addr) way).data, ?_⟩)
      · dsimp only
        rw [blocks, blockStart_div, setAt_self]
        rfl
      · rw [held]
        exact congrArg (fun flag => some (flag, _)) dirty

end Sides

section Harts

variable {δ : Type} {cfg : MemConfig δ}

/-- The other hart has the only cached copy of the block, a dirty one. -/
def MemState.DirtyElsewhere (m : MemState δ) (numCores : Nat) (h : Fin 2) (b : Nat) : Prop :=
  numCores > 1 ∧ (∃ data, (m.l1d (otherHart h)).block b = some (true, data)) ∧ (m.l1d h).block b = none ∧
    m.l2.block b = none

theorem caches_wf {sys : Sys} {pmem : ByteMem} {dev : δ} {ops : List (Fin 2 × MemOp)} {values : List (Option Word)}
    {w : World (MemState δ)} (inside : ∀ access ∈ ops, access.2.Inside)
    (done : MemOp.performAll (hierarchy cfg) ⟨sys, MemState.init pmem dev⟩ ops = some (values, w)) (x : Option Side) :
    (w.mem.caches.cache x).WF := by
  have run := performAll_traces inside done x
  obtain ⟨s, ways, positive, initial⟩ := MemState.caches_init pmem dev x
  rw [show (World.mem ⟨sys, MemState.init pmem dev⟩) = MemState.init pmem dev from rfl, initial] at run
  exact run_wf (CacheSystem.initCache_wf positive) run

variable (cfg) in
theorem snoopRead_wf {m : MemState δ} (wf : ∀ x, (m.caches.cache x).WF) (h : Fin 2) (addr : Nat) (x : Option Side) :
    ((snoopRead cfg m h addr).caches.cache x).WF := by
  rw [caches_snoopRead]
  refine run_wf (wf x) (CacheSystem.run_traces cfg.prefetchHint m.caches (fun call member => ?_) x)
  split at member
  · rw [List.mem_singleton.mp member]
    trivial
  · cases member

variable (cfg) in
theorem snoopRead_second {m : MemState δ} (wf : ∀ x, (m.caches.cache x).WF) (h : Fin 2) (addr : Nat) :
    ((snoopRead cfg m h addr).l2.block (addr / blockSize)).isSome = true ↔
      (m.l2.block (addr / blockSize)).isSome = true ∨
        cfg.numCores > 1 ∧ ∃ data, (m.l1d (otherHart h)).block (addr / blockSize) = some (true, data) := by
  unfold snoopRead
  split
  · next two =>
      rw [and_iff_right two]
      exact cacheSnoopFlushDirty_second (m.dataSide (otherHart h)) (wf (some (.data (otherHart h)))) (wf none) addr
  · next one => exact (or_iff_left fun both => one both.1).symm

variable (cfg) in
/-- The levels agree unless the flush moves the block into the second level. -/
theorem level_snoopRead_iff {m : MemState δ} (wf : ∀ x, (m.caches.cache x).WF) (h : Fin 2) (addr : Nat) :
    holdingLevel (m.l1d h) m.l2 (addr / blockSize) =
        holdingLevel (m.l1d h) (snoopRead cfg m h addr).l2 (addr / blockSize) ↔
      ¬m.DirtyElsewhere cfg.numCores h (addr / blockSize) := by
  have second := snoopRead_second cfg wf h addr
  unfold MemState.DirtyElsewhere holdingLevel
  cases own : (m.l1d h).block (addr / blockSize) with
  | some copy => exact iff_of_true rfl fun hidden => nomatch hidden.2.2.1
  | none =>
      cases before : m.l2.block (addr / blockSize) with
      | some copy =>
          rw [before] at second
          have after := second.mpr (.inl rfl)
          rw [if_pos after]
          exact iff_of_true rfl fun hidden => nomatch hidden.2.2.2
      | none =>
          rw [before] at second
          by_cases flushed : cfg.numCores > 1 ∧ ∃ data, (m.l1d (otherHart h)).block (addr / blockSize) = some (true, data)
          · rw [if_pos (second.mpr (.inr flushed))]
            exact iff_of_false (by decide) fun agree => agree ⟨flushed.1, flushed.2, rfl, rfl⟩
          · have absent : ¬((snoopRead cfg m h addr).l2.block (addr / blockSize)).isSome = true :=
              fun present => (second.mp present).elim nofun flushed
            rw [if_neg absent]
            exact iff_of_true rfl fun hidden => flushed ⟨hidden.1, hidden.2.1⟩

/-- In every memory that writes inside lines reach, a filled read gives the value
of a level read, and the probe its level unless the other hart has the only
copy. -/
theorem probe_agrees_iff (cfg : MemConfig δ) (sys : Sys) (pmem : ByteMem) (dev : δ) (ops : List (Fin 2 × MemOp))
    (inside : ∀ access ∈ ops, access.2.Inside) (values : List (Option Word)) (reached : World (MemState δ))
    (done : MemOp.performAll (hierarchy cfg) ⟨sys, MemState.init pmem dev⟩ ops = some (values, reached)) (h : Fin 2)
    (addr : Word) (len : Nat) :
    let w : World (MemState δ) := { reached with sys := { reached.sys with hartid := h } }
    ((∀ level value w', vaddrReadLevel cfg w addr len = some (level, value, w') → (vaddrProbeLevel w addr).1 = level) ∧
        (vaddrRead cfg w addr len).map Prod.fst = (vaddrReadLevel cfg w addr len).map fun result => result.2.1) ↔
      ¬(inDram addr = true ∧ w.mem.DirtyElsewhere cfg.numCores h (addr.toNat / blockSize)) := by
  intro w
  have sound := caches_wf inside done
  have wf : ∀ x, (w.mem.caches.cache x).WF := sound
  have snooped := snoopRead_wf cfg wf h addr.toNat
  have own : ((snoopRead cfg w.mem h addr.toNat).l1d h).WF := snooped (some (.data h))
  unfold vaddrReadLevel vaddrProbeLevel vaddrRead
  cases inside : inDram addr with
  | false =>
      rw [if_neg Bool.false_ne_true, if_neg Bool.false_ne_true, if_neg Bool.false_ne_true]
      refine iff_of_true ⟨fun level value w' read => ?_, ?_⟩ fun hidden => nomatch hidden.1
      · obtain ⟨_, _, same⟩ := Option.map_eq_some_iff.mp read
        cases same
        rfl
      · rw [Option.map_map]
        rfl
  | true =>
      have probed := cacheProbeLevel_level (w.mem.dataSide h) (wf (some (.data h))) (wf none) addr.toNat
      have level := cacheReadLevel_level ((snoopRead cfg w.mem h addr.toNat).dataSide h) cfg.prefetchHint own
        (snooped none) addr.toNat len
      have value := (cacheReadLevel_alike ((snoopRead cfg w.mem h addr.toNat).dataSide h) cfg.prefetchHint own
        (snooped none) addr.toNat len).1
      have agree : (cacheProbeLevel (w.mem.dataSide h) addr.toNat).1 = (cacheReadLevel cfg.prefetchHint
          ((snoopRead cfg w.mem h addr.toNat).dataSide h) addr.toNat len).1 ↔
            ¬w.mem.DirtyElsewhere cfg.numCores h (addr.toNat / blockSize) := by
        rw [probed, level, ← level_snoopRead_iff cfg wf h addr.toNat]
        change _ = holdingLevel ((snoopRead cfg w.mem h addr.toNat).l1d h) _ _ ↔ _
        rw [snoopRead_own]
        rfl
      rw [if_pos rfl, if_pos rfl, if_pos rfl, and_iff_right rfl, ← agree, show w.sys.hartid = h from rfl]
      dsimp only
      generalize cacheReadLevel cfg.prefetchHint ((snoopRead cfg w.mem h addr.toNat).dataSide h) addr.toNat len = read
        at value ⊢
      obtain ⟨level, word, side⟩ := read
      constructor
      · intro same
        exact same.1 _ _ _ rfl
      · intro same
        refine ⟨fun _ _ _ result => ?_, congrArg some value.symm⟩
        cases result
        exact same

/-- Hart 1 writes a block, and reads by hart 0 push it out of the second level. -/
def onlyDirtyCopy : List (Fin 2 × MemOp) :=
  (1, .write 0x80000000 8 1) ::
    (List.range 16).map fun i => (0, .read (0x80000000 + BitVec.ofNat 64 ((i + 1) * 0x4000)) 8)

/-- Hart 0 as it looks at the block. -/
def asHart0 (w : World (MemState Unit)) : World (MemState Unit) := { w with sys := { w.sys with hartid := 0 } }

private theorem onlyDirtyCopy_levels :
    (MemOp.performAll (hierarchy ⟨2, prefetchHint, Devices.none⟩) ⟨Sys.init, MemState.init (fun _ => 0) ()⟩
      onlyDirtyCopy).map (fun result => ((vaddrProbeLevel (asHart0 result.2) 0x80000000).1,
        (vaddrReadLevel ⟨2, prefetchHint, Devices.none⟩ (asHart0 result.2) 0x80000000 8).map Prod.fst)) =
      some (2, some 1) := by decide +kernel

/-- The probe sends hart 0 to memory and the read is served by the second level. -/
theorem probe_disagrees : ∃ values w, MemOp.performAll (hierarchy ⟨2, prefetchHint, Devices.none⟩)
    ⟨Sys.init, MemState.init (fun _ => 0) ()⟩ onlyDirtyCopy = some (values, w) ∧
      (vaddrProbeLevel (asHart0 w) 0x80000000).1 = 2 ∧
      ∃ value w', vaddrReadLevel ⟨2, prefetchHint, Devices.none⟩ (asHart0 w) 0x80000000 8 = some (1, value, w') := by
  obtain ⟨⟨values, w⟩, done, levels⟩ := Option.map_eq_some_iff.mp onlyDirtyCopy_levels
  obtain ⟨probed, read⟩ := Prod.mk.inj levels
  obtain ⟨⟨level, value, w'⟩, result, served⟩ := Option.map_eq_some_iff.mp read
  cases served
  exact ⟨values, w, done, probed, value, w', result⟩

/-- Hart 1 writes a block, which the second level has since the refill; hart 0 reads another one. -/
def dirtyCopyAbove : List (Fin 2 × MemOp) := [(1, .write 0x80000000 8 7), (0, .read 0x80000040 8)]

private theorem dirtyCopyAbove_copies :
    (MemOp.performAll (hierarchy ⟨2, prefetchHint, Devices.none⟩) ⟨Sys.init, MemState.init (fun _ => 0) ()⟩
      dirtyCopyAbove).map (fun result => (((result.2.mem.l1d 1).block (0x80000000 / blockSize)).map Prod.fst,
        (result.2.mem.l2.block (0x80000000 / blockSize)).isSome)) = some (some true, true) := by decide +kernel

theorem probe_agrees_iff_dirty : ∃ values w, MemOp.performAll (hierarchy ⟨2, prefetchHint, Devices.none⟩)
    ⟨Sys.init, MemState.init (fun _ => 0) ()⟩ dirtyCopyAbove = some (values, w) ∧
      ((w.mem.l1d 1).block (0x80000000 / blockSize)).map Prod.fst = some true ∧
      (∀ level value w', vaddrReadLevel ⟨2, prefetchHint, Devices.none⟩ (asHart0 w) 0x80000000 8 = some (level, value, w') →
        (vaddrProbeLevel (asHart0 w) 0x80000000).1 = level) ∧
      (vaddrRead ⟨2, prefetchHint, Devices.none⟩ (asHart0 w) 0x80000000 8).map Prod.fst =
        (vaddrReadLevel ⟨2, prefetchHint, Devices.none⟩ (asHart0 w) 0x80000000 8).map fun result => result.2.1 := by
  obtain ⟨⟨values, w⟩, done, copies⟩ := Option.map_eq_some_iff.mp dirtyCopyAbove_copies
  obtain ⟨dirty, second⟩ := Prod.mk.inj copies
  have agree := probe_agrees_iff ⟨2, prefetchHint, Devices.none⟩ Sys.init (fun _ => 0) () dirtyCopyAbove (by decide)
    values w done 0 0x80000000 8
  refine ⟨values, w, done, dirty, agree.mpr ?_⟩
  rintro ⟨_, _, _, _, absent⟩
  rw [show w.mem.l2.block (0x80000000 / blockSize) = none from absent] at second
  cases second

end Harts

end Sustemu
