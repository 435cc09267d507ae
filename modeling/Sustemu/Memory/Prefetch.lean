import Sustemu.Memory.Probe
import Sustemu.Memory.Replacement
import Mathlib.Data.Finset.Card

/-!
# Prefetching and coherence

`cache_prefetch` runs between the refill of a line and its use. It does not
take the line away, which carries the latest access time of its set. It brings
blocks into a data cache without asking the other hart, so it keeps coherence
where the other hart has none of them dirty.
-/

set_option autoImplicit false

namespace Sustemu

open Lib

/-- A prefetcher of the lab: no hint, or an address in memory. It sees the address and nothing else, so a hint that keeps a
state of its own is not covered. -/
structure Prefetcher where
  hint : Nat → Nat
  inside : ∀ addr, hint addr = 0 ∨ 0x80000000 ≤ hint addr ∧ hint addr < 0x88000000

/-- The addresses that a prefetch goes through. -/
def hintChain (hint : Nat → Nat) : Nat → Nat → List Nat
  | 0, _ => []
  | degree + 1, cur => if hint cur = 0 then [] else hint cur :: hintChain hint degree (hint cur)

/-- No line is newer than the clock. -/
def Cache.Timed (c : Cache) : Prop := ∀ set way, (c.line set way).lastAccess ≤ c.timer

theorem CacheStep.timed {level : Level} {c c' : Cache} {event : CacheEvent} (step : CacheStep level c event c')
    (timed : c.Timed) : c'.Timed := by
  have filled : ∀ {d : Cache} {addr way : Nat} {dirty : Bool} {data : ByteMem}, d.Timed →
      (d.filled level addr way dirty data).Timed := by
    intro d addr way dirty data older set way'
    unfold Cache.filled
    rw [Cache.line_modifyLine]
    split
    · exact Nat.le_refl _
    · exact older set way'
  cases step with
  | quiet =>
      intro set way
      rw [Cache.line_setMru]
      exact timed set way
  | hit found =>
      rw [findLine_hit found]
      intro set way
      rw [Cache.line_setMru, Cache.line_modifyLine]
      split
      · exact Nat.le_refl _
      · exact Nat.le_succ_of_le (timed set way)
  | refill found =>
      rw [findLine_miss found]
      exact filled fun set way => Nat.le_succ_of_le (timed set way)
  | prefetch => exact filled timed
  | change _ _ lastAccess =>
      intro set way
      rw [Cache.line_modifyLine]
      split
      · rw [lastAccess]
        exact timed _ _
      · exact timed set way
  | drop =>
      intro set way
      rw [Cache.line_modifyLine]
      split
      · exact timed _ _
      · exact timed set way
  | writeback => exact timed

section Sides

variable {side : Hier} {hint : Nat → Nat}

variable (side) in
/-- While enough ways of its set are older, a line as new as the clock stays. -/
theorem cachePrefetch_line {degree : Nat} {set way : Nat} (early : side.l1.timer ≤ maxTime)
    (fresh : (side.l1.line set way).lastAccess = side.l1.timer) (old : Finset Nat) (enough : degree ≤ old.card)
    (older : ∀ other ∈ old, other < side.l1.w ∧ (side.l1.line set other).lastAccess < side.l1.timer) (cur : Nat) :
    (cachePrefetch hint degree side cur).l1.line set way = side.l1.line set way := by
  induction degree generalizing side cur old with
  | zero => rfl
  | succ degree ih =>
      unfold cachePrefetch
      dsimp only
      split
      · rfl
      · cases found : selectWay side.l1 (hint cur) with
        | mk already victim =>
            unfold findLineQuiet
            rw [found]
            cases already with
            | true =>
                have lines : (side.l1.setMru (side.l1.setIdx (hint cur)) victim).line = side.l1.line :=
                  funext fun set => funext fun way => Cache.line_setMru ..
                have kept := ih ⟨side.l1.setMru (side.l1.setIdx (hint cur)) victim, side.back⟩ early
                  (by rw [lines]; exact fresh) old (Nat.le_of_succ_le enough) (by rw [lines]; exact older) (hint cur)
                exact kept.trans (by rw [lines])
            | false =>
                simp only [Bool.false_eq_true, ↓reduceIte]
                obtain ⟨data, l1⟩ := fetchBlock_l1 side (hint cur) victim
                have line : ∀ other, ¬(set = side.l1.setIdx (hint cur) ∧ other = victim) →
                    (fetchBlock side (hint cur) victim).l1.line set other = side.l1.line set other := by
                  intro other elsewhere
                  rw [l1]
                  unfold Cache.filled
                  rw [Cache.line_modifyLine]
                  exact if_neg elsewhere
                have timer : (fetchBlock side (hint cur) victim).l1.timer = side.l1.timer := by
                  rw [l1]
                  rfl
                have ways : (fetchBlock side (hint cur) victim).l1.w = side.l1.w := by
                  rw [l1]
                  rfl
                obtain ⟨seen, member⟩ := Finset.card_pos.mp (Nat.lt_of_lt_of_le (Nat.succ_pos degree) enough)
                -- the victim is no newer than the old way `seen`, and the fresh line is
                have spared : ¬(set = side.l1.setIdx (hint cur) ∧ way = victim) := by
                  rintro ⟨same, rfl⟩
                  obtain ⟨inside, before⟩ := older seen member
                  rw [same] at before fresh
                  have least := (selectWay_least inside (Nat.lt_of_lt_of_le before early) found).2 seen inside
                  omega
                have kept := ih (fetchBlock side (hint cur) victim) (by rw [timer]; exact early)
                  (by rw [line way spared, timer]; exact fresh) (old.erase victim)
                  (Nat.le_sub_of_add_le enough |>.trans Finset.pred_card_le_card_erase)
                  (fun other remains => by
                    obtain ⟨different, present⟩ := Finset.mem_erase.mp remains
                    rw [line other fun both => different both.2, timer, ways]
                    exact older other present) (hint cur)
                exact kept.trans (line way spared)

variable (side) in
/-- Blocks that no other data cache has dirty are brought in as they are. -/
theorem cachePrefetch_data {v : Levels} {f : Flat} {h : Fin 2} (degree : Nat) (wf : side.WF)
    (coherent : Coherent (v.withData h side) f) {cur : Nat}
    (clean : ∀ next ∈ hintChain hint degree cur, v.OthersClean h (next / blockSize)) :
    (cachePrefetch hint degree side cur).WF ∧ Coherent (v.withData h (cachePrefetch hint degree side cur)) f := by
  induction degree generalizing side cur with
  | zero => exact ⟨wf, coherent⟩
  | succ degree ih =>
      unfold cachePrefetch
      unfold hintChain at clean
      dsimp only
      split
      · exact ⟨wf, coherent⟩
      · next live =>
          rw [if_neg live] at clean
          have later := fun next member => clean next (List.mem_cons_of_mem _ member)
          obtain ⟨wf1, same, _⟩ := Cache.findLineQuiet_spec wf.l1 (hint cur)
          unfold findLineQuiet at wf1 same ⊢
          cases found : selectWay side.l1 (hint cur) with
          | mk already way =>
              rw [found] at wf1 same
              cases already with
              | true =>
                  refine ih ⟨_, side.back⟩ ⟨wf1, wf.l2⟩ ?_ later
                  unfold Levels.withData
                  rw [same.block]
                  exact coherent
              | false =>
                  simp only [Bool.false_eq_true, ↓reduceIte]
                  obtain ⟨bound, missing⟩ := Cache.selectWay_miss wf.l1 found
                  obtain ⟨wf2, fetched, _⟩ := fetchBlock_data _ wf coherent bound missing
                    (settled_of_missing (clean _ List.mem_cons_self) missing)
                  exact ih _ wf2 fetched later

variable (side hint) in
/-- A block brought into an instruction cache is right wherever no store went. -/
theorem cachePrefetch_fetch {v : Levels} {f : Flat} {h : Fin 2} (degree : Nat) (wf : side.WF)
    (coherent : Coherent (v.withFetch h side) f) (cur : Nat) :
    (cachePrefetch hint degree side cur).WF ∧ Coherent (v.withFetch h (cachePrefetch hint degree side cur)) f := by
  induction degree generalizing side cur with
  | zero => exact ⟨wf, coherent⟩
  | succ degree ih =>
      unfold cachePrefetch
      dsimp only
      split
      · exact ⟨wf, coherent⟩
      · obtain ⟨wf1, same, _⟩ := Cache.findLineQuiet_spec wf.l1 (hint cur)
        unfold findLineQuiet at wf1 same ⊢
        cases found : selectWay side.l1 (hint cur) with
        | mk already way =>
            rw [found] at wf1 same
            cases already with
            | true =>
                refine ih ⟨_, side.back⟩ ⟨wf1, wf.l2⟩ ?_ (hint cur)
                unfold Levels.withFetch
                rw [same.block]
                exact coherent
            | false =>
                simp only [Bool.false_eq_true, ↓reduceIte]
                obtain ⟨bound, missing⟩ := Cache.selectWay_miss wf.l1 found
                obtain ⟨wf2, fetched, _⟩ := fetchBlock_fetch _ wf coherent bound missing
                exact ih _ wf2 fetched (hint cur)

/-- The line that an access keeps a pointer to holds its block after the prefetch. -/
theorem cacheTouch_holds (wf : side.l1.WF) (timed : side.l1.Timed) (room : prefetchDegree < side.l1.w) {addr : Nat}
    (early : (selectWay side.l1 addr).1 = false → side.l1.timer < maxTime) :
    (cacheTouch hint side addr).2.l1.Holds (addr / blockSize) (cacheTouch hint side addr).1 := by
  have geometry := run_geometry (touch_traces hint side addr).l1
  cases found : selectWay side.l1 addr with
  | mk hit way =>
      cases hit with
      | true =>
          have held := (Cache.findLine_spec wf addr).2
          rw [findLine_of_select found] at held
          rw [cacheTouch_hit hint found]
          exact (held.1.holds _ _).mpr held.2
      | false =>
          have bound := (Cache.selectWay_miss wf found).1
          rw [cacheTouch_miss hint found] at geometry ⊢
          obtain ⟨data, l1⟩ := fetchBlock_l1 (side.looked addr) addr way
          rw [show (side.looked addr).l1 = { side.l1 with timer := side.l1.timer + 1, misses := side.l1.misses + 1 } by
            rw [Hier.looked, findLine_miss found]] at l1
          -- every way but the one just filled is older
          have line : ∀ other, other ≠ way → (fetchBlock (side.looked addr) addr way).l1.line (side.l1.setIdx addr) other =
              side.l1.line (side.l1.setIdx addr) other := by
            intro other different
            rw [l1]
            unfold Cache.filled
            rw [Cache.line_modifyLine]
            exact if_neg fun both => different both.2
          have fresh : (fetchBlock (side.looked addr) addr way).l1.line (side.l1.setIdx addr) way =
              ⟨1, 0, side.l1.tagOf addr, side.l1.timer + 1, data⟩ := by
            rw [l1]
            unfold Cache.filled
            rw [Cache.line_modifyLine]
            exact if_pos ⟨rfl, rfl⟩
          have timer : (fetchBlock (side.looked addr) addr way).l1.timer = side.l1.timer + 1 := by
            rw [l1]
            rfl
          have ways : (fetchBlock (side.looked addr) addr way).l1.w = side.l1.w := by
            rw [l1]
            rfl
          have kept : (cachePrefetch hint prefetchDegree (fetchBlock (side.looked addr) addr way) addr).l1.line
              (side.l1.setIdx addr) way = (fetchBlock (side.looked addr) addr way).l1.line (side.l1.setIdx addr) way :=
            cachePrefetch_line _ (by rw [timer]; exact early (by rw [found]))
            (by rw [fresh, timer]) ((Finset.range side.l1.w).erase way)
            (by
              rw [Finset.card_erase_of_mem (Finset.mem_range.mpr bound), Finset.card_range]
              exact Nat.le_pred_of_lt room)
            (fun other member => by
              obtain ⟨different, inside⟩ := Finset.mem_erase.mp member
              rw [line other different, timer, ways]
              exact ⟨Finset.mem_range.mp inside, Nat.lt_succ_of_le (timed _ _)⟩) addr
          rw [fresh] at kept
          refine ⟨by rw [geometry.2]; exact bound, ?_⟩
          rw [geometry.1]
          change CacheLine.matches (Cache.line _ (side.l1.setIdx addr) way) _ = true
          rw [kept, CacheLine.matches, Cache.tagOf_eq]
          exact beq_self_eq_true _

variable (hint) in
/-- A touch with prefetching keeps coherence when no other data cache has a block of the chain dirty. -/
theorem cacheTouch_hinted {v : Levels} {f : Flat} {h : Fin 2} (wf : side.WF) (coherent : Coherent (v.withData h side) f)
    {addr : Nat} (clean : v.OthersClean h (addr / blockSize))
    (chain : (selectWay side.l1 addr).1 = false →
      ∀ next ∈ hintChain hint prefetchDegree addr, v.OthersClean h (next / blockSize)) :
    (cacheTouch hint side addr).2.WF ∧ Coherent (v.withData h (cacheTouch hint side addr).2) f := by
  obtain ⟨wf1, blocks, outcome⟩ := findLine_side wf addr
  have looked : Coherent (v.withData h (side.looked addr)) f := by
    unfold Levels.withData Hier.looked
    rw [blocks]
    exact coherent
  cases found : selectWay side.l1 addr with
  | mk hit way =>
      cases hit with
      | true =>
          rw [cacheTouch_hit hint found]
          exact ⟨wf1, looked⟩
      | false =>
          rw [findLine_of_select found] at outcome
          obtain ⟨bound, missing⟩ : way < (side.looked addr).l1.w ∧
            ∀ other, ¬ (side.looked addr).l1.Holds (addr / blockSize) other := outcome
          obtain ⟨wf2, fetched, _⟩ := fetchBlock_data (side.looked addr) wf1 looked bound missing
            (settled_of_missing clean missing)
          have fetchable := cachePrefetch_data _ prefetchDegree wf2 fetched (chain (congrArg Prod.fst found))
          rw [cacheTouch_miss hint found]
          exact fetchable

variable (hint) in
theorem cacheTouch_hintedFetch {v : Levels} {f : Flat} {h : Fin 2} (wf : side.WF)
    (coherent : Coherent (v.withFetch h side) f) (addr : Nat) :
    (cacheTouch hint side addr).2.WF ∧ Coherent (v.withFetch h (cacheTouch hint side addr).2) f := by
  obtain ⟨wf1, blocks, outcome⟩ := findLine_side wf addr
  have looked : Coherent (v.withFetch h (side.looked addr)) f := by
    unfold Levels.withFetch Hier.looked
    rw [blocks]
    exact coherent
  cases found : selectWay side.l1 addr with
  | mk hit way =>
      cases hit with
      | true =>
          rw [cacheTouch_hit hint found]
          exact ⟨wf1, looked⟩
      | false =>
          rw [findLine_of_select found] at outcome
          obtain ⟨bound, missing⟩ : way < (side.looked addr).l1.w ∧
            ∀ other, ¬ (side.looked addr).l1.Holds (addr / blockSize) other := outcome
          obtain ⟨wf2, fetched, _⟩ := fetchBlock_fetch (side.looked addr) wf1 looked bound missing
          have fetchable := cachePrefetch_fetch _ hint prefetchDegree wf2 fetched addr
          rw [cacheTouch_miss hint found]
          exact fetchable

variable (side) in
/-- A flush touches no other block of the flushed cache. -/
theorem cacheSnoopFlushDirty_others (wf : side.l1.WF) {addr b : Nat} (other : b ≠ addr / blockSize) :
    (cacheSnoopFlushDirty side addr).l1.block b = side.l1.block b := by
  unfold cacheSnoopFlushDirty
  cases found : firstWay side.l1 addr fun line => line.matches (side.l1.tagOf addr) && line.dirty with
  | none => rfl
  | some way =>
      obtain ⟨bound, wanted⟩ := firstWay_some found
      have wf1 : Cache.WF { side.l1 with writebacks := side.l1.writebacks + 1 } := ⟨wf.ways, wf.mru, wf.unique⟩
      obtain ⟨_, blocks⟩ := Cache.modifyLine_held wf1 (holds_of_matches bound (Bool.and_eq_true_iff.mp wanted).1)
        (fun line => { line with dirtyInt := 0 }) (fun _ => rfl) fun _ => rfl
      change Cache.block (Cache.modifyLine _ (addr / blockSize % 2 ^ side.l1.s) way _) b = _
      rw [blocks, setAt_of_ne other]
      rfl

variable (side) in
theorem cacheSnoopInvalidate_others (wf : side.l1.WF) {addr b : Nat} (other : b ≠ addr / blockSize) :
    (cacheSnoopInvalidate side addr).l1.block b = side.l1.block b := by
  unfold cacheSnoopInvalidate
  cases found : firstWay side.l1 addr fun line => line.matches (side.l1.tagOf addr) with
  | none => rfl
  | some way =>
      obtain ⟨bound, matching⟩ := firstWay_some found
      have dropped : ∀ {c : Cache}, c.WF → c.Holds (addr / blockSize) way →
          (c.modifyLine (addr / blockSize % 2 ^ c.s) way fun line => { line with validInt := 0, dirtyInt := 0 }).block b =
            c.block b := by
        intro c wf held
        rw [(Cache.modifyLine_drop wf held _ fun _ => rfl).2, setAt_of_ne other]
      have held := holds_of_matches bound matching
      dsimp only
      split
      · exact dropped (c := { side.l1 with writebacks := _ }) ⟨wf.ways, wf.mru, wf.unique⟩ held
      · exact dropped wf held

end Sides

section Harts

variable {δ : Type} {cfg : MemConfig δ} {m : MemState δ} {f : Flat}

/-- The other hart has no block dirty that a miss of hart `h` prefetches, and the clock can tell the lines apart. -/
def MemState.PrefetchSafe (m : MemState δ) (hint : Nat → Nat) (h : Fin 2) (addr : Nat) : Prop :=
  (m.l1d h).block (addr / blockSize) = none → (m.l1d h).timer < maxTime ∧
    ∀ next ∈ hintChain hint prefetchDegree addr, next / blockSize ≠ addr / blockSize →
      ∀ data, (m.l1d (otherHart h)).block (next / blockSize) ≠ some (true, data)

/-- What a step may prefetch. -/
def MemOp.Safe (hint : Nat → Nat) (m : MemState δ) (h : Fin 2) : MemOp → Prop
  | ifetch addr _ => (m.l1i h).block (addr.toNat / blockSize) = none → (m.l1i h).timer < maxTime
  | read addr _ | readLevel addr _ | fillAndRead addr _ | write addr _ _ => m.PrefetchSafe hint h addr.toNat
  | probeLevel _ => True

/-- The line pointer of an access, where the prefetch has left it. -/
def MemOp.PointerHolds (cfg : MemConfig δ) (m : MemState δ) (h : Fin 2) : MemOp → Prop
  | ifetch addr _ =>
      let (way, side) := cacheTouch cfg.prefetchHint (m.fetchSide h) addr.toNat
      side.l1.Holds (addr.toNat / blockSize) way
  | read addr _ | fillAndRead addr _ =>
      let (way, side) := cacheTouch cfg.prefetchHint ((snoopRead cfg m h addr.toNat).dataSide h) addr.toNat
      side.l1.Holds (addr.toNat / blockSize) way
  | write addr _ _ =>
      let (way, side) := cacheTouch cfg.prefetchHint ((snoopWrite cfg m h addr.toNat).dataSide h) addr.toNat
      side.l1.Holds (addr.toNat / blockSize) way
  | readLevel _ _ | probeLevel _ => True

theorem missed_of_select {c : Cache} (wf : c.WF) {addr : Nat} (missed : (selectWay c addr).1 = false) :
    c.block (addr / blockSize) = none := by
  rw [selectWay_isSome wf] at missed
  exact Option.not_isSome_iff_eq_none.mp (Bool.eq_false_iff.mp missed)

/-- What the other hart has dirty after the snoop it had dirty before. -/
theorem snoopRead_othersClean (rep : m.Represents cfg f) {h : Fin 2} (addr : Nat) {b : Nat} (other : b ≠ addr / blockSize)
    (clean : ∀ data, (m.l1d (otherHart h)).block b ≠ some (true, data)) :
    (snoopRead cfg m h addr).levels.OthersClean h b := by
  intro g data different
  rw [eq_otherHart different]
  change ((snoopRead cfg m h addr).l1d (otherHart h)).block b ≠ _
  unfold snoopRead
  split
  · change (setAt m.l1d (otherHart h) (cacheSnoopFlushDirty (m.dataSide (otherHart h)) addr).l1
      (otherHart h)).block b ≠ _
    rw [setAt_self, cacheSnoopFlushDirty_others (m.dataSide (otherHart h)) (rep.l1d _) other]
    exact clean data
  · exact clean data

theorem snoopWrite_othersClean (rep : m.Represents cfg f) {h : Fin 2} (addr : Nat) {b : Nat} (other : b ≠ addr / blockSize)
    (clean : ∀ data, (m.l1d (otherHart h)).block b ≠ some (true, data)) :
    (snoopWrite cfg m h addr).levels.OthersClean h b := by
  intro g data different
  rw [eq_otherHart different]
  change ((snoopWrite cfg m h addr).l1d (otherHart h)).block b ≠ _
  unfold snoopWrite
  split
  · change (setAt m.l1d (otherHart h) (cacheSnoopInvalidate (m.dataSide (otherHart h)) addr).l1
      (otherHart h)).block b ≠ _
    rw [setAt_self, cacheSnoopInvalidate_others (m.dataSide (otherHart h)) (rep.l1d _) other]
    exact clean data
  · exact clean data

/-- A safe touch by hart `h` after a snoop that left its own cache alone. -/
theorem cacheTouch_safe {snooped : MemState δ} {h : Fin 2} {addr : Nat} (rep : snooped.Represents cfg f)
    (own : snooped.l1d h = m.l1d h) (timed : (m.l1d h).Timed) (room : prefetchDegree < (m.l1d h).w)
    (clean : snooped.levels.OthersClean h (addr / blockSize))
    (others : ∀ b, b ≠ addr / blockSize → (∀ data, (m.l1d (otherHart h)).block b ≠ some (true, data)) →
      snooped.levels.OthersClean h b)
    (safe : m.PrefetchSafe cfg.prefetchHint h addr) :
    (cacheTouch cfg.prefetchHint (snooped.dataSide h) addr).2.WF ∧
      Coherent (snooped.levels.withData h (cacheTouch cfg.prefetchHint (snooped.dataSide h) addr).2) f ∧
      (cacheTouch cfg.prefetchHint (snooped.dataSide h) addr).2.l1.Holds (addr / blockSize)
        (cacheTouch cfg.prefetchHint (snooped.dataSide h) addr).1 := by
  obtain ⟨wf, coherent⟩ := rep.dataSide h
  have missed : (selectWay (snooped.dataSide h).l1 addr).1 = false → (m.l1d h).block (addr / blockSize) = none := by
    intro missed
    rw [← own]
    exact missed_of_select wf.l1 missed
  have same : (snooped.dataSide h).l1 = m.l1d h := own
  obtain ⟨wf', touched⟩ := cacheTouch_hinted cfg.prefetchHint wf coherent clean fun miss next member => by
    by_cases here : next / blockSize = addr / blockSize
    · rw [here]
      exact clean
    · exact others _ here ((safe (missed miss)).2 next member here)
  refine ⟨wf', touched, cacheTouch_holds wf.l1 (by rw [same]; exact timed) (by rw [same]; exact room) fun miss => ?_⟩
  rw [same]
  exact (safe (missed miss)).1

/-- The clocks run ahead of the lines, and the first-level caches have room for a prefetch. -/
structure MemState.Steady (m : MemState δ) : Prop where
  timed : ∀ x, (m.caches.cache x).Timed
  room : ∀ side, prefetchDegree < (m.caches.l1 side).w

variable {w : World (MemState δ)} {addr : Word}

theorem vaddrIfetch_hinted (rep : Represents cfg f w) (cached : inDram addr = true) (len : Nat) :
    ∃ value w', vaddrIfetch cfg w addr len = some (value, w') ∧ Represents cfg f w' := by
  have coherent : Coherent (w.mem.levels.withFetch w.sys.hartid (w.mem.fetchSide w.sys.hartid)) f := by
    rw [MemState.levels_fetchSide]
    exact rep.mem.coherent
  obtain ⟨wf, after⟩ := cacheTouch_hintedFetch cfg.prefetchHint ⟨rep.mem.l1i _, rep.mem.l2⟩ coherent addr.toNat
  unfold vaddrIfetch
  rw [if_pos cached]
  exact ⟨_, _, rfl, rep.mem.setFetchSide wf after, rep.single⟩

theorem vaddrRead_touch (rep : Represents cfg f w) (steady : w.mem.Steady)
    (safe : w.mem.PrefetchSafe cfg.prefetchHint w.sys.hartid addr.toNat) :
    let side := (snoopRead cfg w.mem w.sys.hartid addr.toNat).dataSide w.sys.hartid
    (cacheTouch cfg.prefetchHint side addr.toNat).2.WF ∧
      Coherent ((snoopRead cfg w.mem w.sys.hartid addr.toNat).levels.withData w.sys.hartid
        (cacheTouch cfg.prefetchHint side addr.toNat).2) f ∧
      (cacheTouch cfg.prefetchHint side addr.toNat).2.l1.Holds (addr.toNat / blockSize)
        (cacheTouch cfg.prefetchHint side addr.toNat).1 := by
  obtain ⟨snooped, clean⟩ := snoopRead_spec rep.mem rep.single addr.toNat
  exact cacheTouch_safe snooped (snoopRead_own ..) (steady.timed (some (.data w.sys.hartid)))
    (steady.room (.data w.sys.hartid)) clean (fun _ => snoopRead_othersClean rep.mem addr.toNat) safe

theorem vaddrRead_hinted (rep : Represents cfg f w) (steady : w.mem.Steady) (cached : inDram addr = true)
    (safe : w.mem.PrefetchSafe cfg.prefetchHint w.sys.hartid addr.toNat) (len : Nat) :
    ∃ value w', vaddrRead cfg w addr len = some (value, w') ∧ Represents cfg f w' ∧
      (InLine addr len → value = loadLE f.bytes addr.toNat len) := by
  obtain ⟨snooped, _⟩ := snoopRead_spec rep.mem rep.single addr.toNat
  obtain ⟨wf, touched, held⟩ := vaddrRead_touch rep steady safe
  obtain ⟨wf', after, value⟩ := cacheRead_touched wf touched held len
  unfold vaddrRead
  rw [if_pos cached]
  exact ⟨_, _, rfl, ⟨snooped.setDataSide wf' after rep.single, rep.single⟩, value⟩

theorem Cache.Remarked.block {c d : Cache} (same : c.Remarked d) : d.block = c.block := by
  obtain ⟨marks, rfl⟩ := same
  rfl

theorem vaddrReadLevel_hinted (rep : Represents cfg f w) (steady : w.mem.Steady) (cached : inDram addr = true)
    (safe : w.mem.PrefetchSafe cfg.prefetchHint w.sys.hartid addr.toNat) (len : Nat) :
    ∃ level value w', vaddrReadLevel cfg w addr len = some (level, value, w') ∧ Represents cfg f w' ∧
      (InLine addr len → value = loadLE f.bytes addr.toNat len) := by
  obtain ⟨snooped, _⟩ := snoopRead_spec rep.mem rep.single addr.toNat
  obtain ⟨wf, touched, held⟩ := vaddrRead_touch rep steady safe
  obtain ⟨_, _, value⟩ := cacheRead_touched wf touched held len
  obtain ⟨same, alike⟩ := cacheReadLevel_alike _ cfg.prefetchHint (snooped.dataSide w.sys.hartid).1.l1
    (snooped.dataSide w.sys.hartid).1.l2 addr.toNat len
  rw [← same] at value
  have after : Coherent ((snoopRead cfg w.mem w.sys.hartid addr.toNat).levels.withData w.sys.hartid
      (cacheReadLevel cfg.prefetchHint ((snoopRead cfg w.mem w.sys.hartid addr.toNat).dataSide w.sys.hartid) addr.toNat
        len).2.2) f := by
    unfold Levels.withData
    rw [alike.l1.block, alike.back.l2.block, alike.back.pmem]
    exact touched
  unfold vaddrReadLevel
  rw [if_pos cached]
  exact ⟨_, _, _, rfl, ⟨snooped.setDataSide ⟨alike.wf', alike.back.wf'⟩ after rep.single, rep.single⟩, value⟩

theorem vaddrWrite_touch (rep : Represents cfg f w) (steady : w.mem.Steady)
    (safe : w.mem.PrefetchSafe cfg.prefetchHint w.sys.hartid addr.toNat) :
    let side := (snoopWrite cfg w.mem w.sys.hartid addr.toNat).dataSide w.sys.hartid
    (cacheTouch cfg.prefetchHint side addr.toNat).2.WF ∧
      Coherent ((snoopWrite cfg w.mem w.sys.hartid addr.toNat).levels.withData w.sys.hartid
        (cacheTouch cfg.prefetchHint side addr.toNat).2) f ∧
      (cacheTouch cfg.prefetchHint side addr.toNat).2.l1.Holds (addr.toNat / blockSize)
        (cacheTouch cfg.prefetchHint side addr.toNat).1 := by
  obtain ⟨snooped, alone⟩ := snoopWrite_spec rep.mem rep.single addr.toNat
  refine cacheTouch_safe snooped (snoopWrite_own ..) (steady.timed (some (.data w.sys.hartid)))
    (steady.room (.data w.sys.hartid)) (fun g data different found => ?_)
    (fun _ => snoopWrite_othersClean rep.mem addr.toNat) safe
  rw [alone g different] at found
  cases found

theorem vaddrWrite_hinted (rep : Represents cfg f w) (steady : w.mem.Steady) (cached : inDram addr = true)
    (safe : w.mem.PrefetchSafe cfg.prefetchHint w.sys.hartid addr.toNat) {len : Nat} (inside : InLine addr len)
    (word : Word) : ∃ w', vaddrWrite cfg w addr len word = some w' ∧
      Represents cfg (f.store addr.toNat len word) w' := by
  obtain ⟨snooped, alone⟩ := snoopWrite_spec rep.mem rep.single addr.toNat
  obtain ⟨wf, touched, held⟩ := vaddrWrite_touch rep steady safe
  obtain ⟨wf', after⟩ := cacheWrite_touched wf touched held alone inside word
  unfold vaddrWrite
  rw [if_pos cached]
  exact ⟨_, rfl, snooped.setDataSide wf' after rep.single, rep.single⟩

/-! ## Runs of the harts -/

theorem steady_init (pmem : ByteMem) (dev : δ) : (MemState.init pmem dev).Steady where
  timed := fun x => by
    obtain ⟨s, ways, _, initial⟩ := MemState.caches_init pmem dev x
    rw [initial]
    exact fun _ _ => Nat.le_refl 0
  room := fun side => by
    cases side <;> exact (by decide : prefetchDegree < 8)

theorem perform_steady {w w' : World (MemState δ)} {h : Fin 2} {op : MemOp} {value : Option Word} (steady : w.mem.Steady)
    (inside : op.Inside) (done : op.perform (hierarchy cfg) w h = some (value, w')) : w'.mem.Steady where
  timed := fun x => by
    rw [perform_caches done]
    have run := CacheSystem.run_traces cfg.prefetchHint w.mem.caches (inside.calls cfg.numCores h) x
    exact run.invariant Cache.Timed CacheStep.timed (steady.timed x)
  room := fun side => by
    have run := CacheSystem.run_traces cfg.prefetchHint w.mem.caches (inside.calls cfg.numCores h) (some side)
    have geometry := run_geometry run
    have same := perform_caches done (some side)
    change prefetchDegree < (w'.mem.caches.cache (some side)).w
    rw [same, geometry.2]
    exact steady.room side

/-- A safe access does to the represented memory what it does without prefetching. -/
theorem perform_hinted {w : World (MemState δ)} (rep : w.mem.Represents cfg f) (steady : w.mem.Steady) {h : Fin 2}
    (present : h.val < cfg.numCores) {op : MemOp} (contained : op.Contained) (safe : op.Safe cfg.prefetchHint w.mem h) :
    op.PointerHolds cfg w.mem h ∧ ∃ w' written, op.perform (hierarchy cfg) w h = some ((op.flat f.bytes).1, w') ∧
      w'.mem.Represents cfg ⟨(op.flat f.bytes).2, written⟩ := by
  have rep' : Represents cfg f { w with sys := { w.sys with hartid := h } } :=
    ⟨rep, fun one => Fin.ext (by simp only; omega)⟩
  cases op with
  | ifetch addr len =>
      obtain ⟨value, w', done, after⟩ := vaddrIfetch_hinted rep' contained.1 len
      refine ⟨?_, w', f.written, ?_, after.mem⟩
      · refine cacheTouch_holds (rep.l1i h) (steady.timed (some (.fetch h))) (steady.room (.fetch h)) fun miss => ?_
        exact safe (missed_of_select (rep.l1i h) miss)
      · change (vaddrIfetch cfg _ addr len).map _ = _
        rw [done]
        rfl
  | read addr len =>
      obtain ⟨value, w', done, after, same⟩ := vaddrRead_hinted rep' steady contained.1 safe len
      refine ⟨(vaddrRead_touch rep' steady safe).2.2, w', f.written, ?_, after.mem⟩
      change (vaddrRead cfg _ addr len).map _ = _
      rw [done, same contained.2]
      rfl
  | fillAndRead addr len =>
      obtain ⟨value, w', done, after, same⟩ := vaddrRead_hinted rep' steady contained.1 safe len
      refine ⟨(vaddrRead_touch rep' steady safe).2.2, w', f.written, ?_, after.mem⟩
      change (vaddrRead cfg _ addr len).map _ = _
      rw [done, same contained.2]
      rfl
  | readLevel addr len =>
      obtain ⟨level, value, w', done, after, same⟩ := vaddrReadLevel_hinted rep' steady contained.1 safe len
      refine ⟨trivial, w', f.written, ?_, after.mem⟩
      change (vaddrReadLevel cfg _ addr len).map _ = _
      rw [done, same contained.2]
      rfl
  | probeLevel addr => exact ⟨trivial, _, f.written, rfl, (vaddrProbeLevel_spec rep' addr).1.mem⟩
  | write addr len data =>
      obtain ⟨w', done, after⟩ := vaddrWrite_hinted rep' steady contained.1 safe contained.2 data
      refine ⟨(vaddrWrite_touch rep' steady safe).2.2, w', (f.store addr.toNat len data).written, ?_, after.mem⟩
      change (vaddrWrite cfg _ addr len data).map _ = _
      rw [done]
      rfl

namespace MemOp

/-- Every access is safe where it is made. -/
def AllSafe (cfg : MemConfig δ) : World (MemState δ) → List (Fin 2 × MemOp) → Prop
  | _, [] => True
  | w, (h, op) :: rest => op.Safe cfg.prefetchHint w.mem h ∧
      ∀ value w', op.perform (hierarchy cfg) w h = some (value, w') → AllSafe cfg w' rest

/-- Every access finds its block behind the pointer it has kept. -/
def AllHold (cfg : MemConfig δ) : World (MemState δ) → List (Fin 2 × MemOp) → Prop
  | _, [] => True
  | w, (h, op) :: rest => op.PointerHolds cfg w.mem h ∧
      ∀ value w', op.perform (hierarchy cfg) w h = some (value, w') → AllHold cfg w' rest

end MemOp

theorem performAll_hinted {ops : List (Fin 2 × MemOp)} (w : World (MemState δ)) (rep : w.mem.Represents cfg f)
    (steady : w.mem.Steady) (allowed : ∀ access ∈ ops, access.1.val < cfg.numCores ∧ access.2.Contained)
    (safe : MemOp.AllSafe cfg w ops) :
    MemOp.AllHold cfg w ops ∧ ∃ w', MemOp.performAll (hierarchy cfg) w ops = some (MemOp.flatAll f.bytes ops, w') := by
  induction ops generalizing w f with
  | nil => exact ⟨trivial, w, rfl⟩
  | cons access rest ih =>
      obtain ⟨h, op⟩ := access
      obtain ⟨present, contained⟩ := allowed (h, op) List.mem_cons_self
      obtain ⟨pointer, w', written, done, after⟩ := perform_hinted rep steady present contained safe.1
      obtain ⟨pointers, w'', later⟩ := ih w' after (perform_steady steady contained.inside done)
        (fun access member => allowed access (List.mem_cons_of_mem _ member)) (safe.2 _ _ done)
      refine ⟨⟨pointer, fun value w₁ other => ?_⟩, w'', ?_⟩
      · rw [done] at other
        cases other
        exact pointers
      · simp [MemOp.performAll, done, later, MemOp.flatAll]

/-- As long as no prefetch brings in a block that the other hart has dirty, the
values read are those read without prefetching, and every kept line pointer
still points at its block. -/
theorem prefetch_keeps_values (cfg : MemConfig δ) (prefetcher : Prefetcher) (sys : Sys) (pmem : ByteMem) (dev : δ)
    (ops : List (Fin 2 × MemOp)) (allowed : ∀ access ∈ ops, access.1.val < cfg.numCores ∧ access.2.Contained)
    (safe : MemOp.AllSafe { cfg with prefetchHint := prefetcher.hint } ⟨sys, MemState.init pmem dev⟩ ops) :
    let hinted : MemConfig δ := { cfg with prefetchHint := prefetcher.hint }
    let plain : MemConfig δ := { cfg with prefetchHint := prefetchHint }
    MemOp.AllHold hinted ⟨sys, MemState.init pmem dev⟩ ops ∧
      ∃ values w w', MemOp.performAll (hierarchy hinted) ⟨sys, MemState.init pmem dev⟩ ops = some (values, w) ∧
        MemOp.performAll (hierarchy plain) ⟨sys, MemState.init pmem dev⟩ ops = some (values, w') := by
  intro hinted plain
  have start : (MemState.init pmem dev).Represents hinted ⟨pmem, ∅⟩ := init_represents hinted pmem dev
  obtain ⟨pointers, w, done⟩ := performAll_hinted ⟨sys, MemState.init pmem dev⟩ start
    (steady_init pmem dev) allowed safe
  obtain ⟨w', unhinted, _⟩ := hierarchy_flat plain rfl sys pmem dev ops allowed
  exact ⟨pointers, _, w, w', done, unhinted⟩

/-! ### A prefetch into the set of the access -/

instance (m : MemState δ) (hint : Nat → Nat) (h : Fin 2) (addr : Nat) : Decidable (m.PrefetchSafe hint h addr) :=
  decidable_of_iff (((m.l1d h).block (addr / blockSize)).isNone = true → (m.l1d h).timer < maxTime ∧
    ∀ next ∈ hintChain hint prefetchDegree addr, next / blockSize ≠ addr / blockSize →
      ((m.l1d (otherHart h)).block (next / blockSize)).all (fun content => !content.1) = true) (by
    have clean (c : Option (Bool × ByteMem)) : c.all (fun content => !content.1) = true ↔ ∀ data, c ≠ some (true, data) := by
      rcases c with _ | ⟨_ | _, data⟩ <;> simp
    unfold MemState.PrefetchSafe
    simp only [clean, Option.isNone_iff_eq_none])

instance (hint : Nat → Nat) (m : MemState δ) (h : Fin 2) (op : MemOp) : Decidable (op.Safe hint m h) := by
  cases op <;> unfold MemOp.Safe <;> infer_instance

namespace MemOp

instance decidableAllSafe (cfg : MemConfig δ) : (w : World (MemState δ)) → (ops : List (Fin 2 × MemOp)) →
    Decidable (AllSafe cfg w ops)
  | _, [] => isTrue trivial
  | w, (h, op) :: rest =>
      match done : op.perform (hierarchy cfg) w h with
      | none => decidable_of_iff (op.Safe cfg.prefetchHint w.mem h) (by simp [AllSafe, done])
      | some (_, w') =>
          have := decidableAllSafe cfg w' rest
          decidable_of_iff (op.Safe cfg.prefetchHint w.mem h ∧ AllSafe cfg w' rest) (by simp [AllSafe, done])

end MemOp

end Harts

/-- A miss on the block at 0x80008000 hints at one of the same set. -/
def sameSet : Prefetcher where
  hint := fun addr => if addr / blockSize = 0x80008000 / blockSize then 0x80000000 else 0
  inside := fun addr => by
    split
    · exact .inr (by decide)
    · exact .inl rfl

/-- Hart 0 fills the set of a block that hart 1 has written, and its last write prefetches that block. Then the harts read
each other's values. -/
def fullSet : List (Fin 2 × MemOp) :=
  (1, .write 0x80000000 8 8) :: (0, .read 0x80000000 8) ::
    (List.range 8).map (fun i => (0, .write (0x80001000 + 0x1000 * BitVec.ofNat 64 i) 8 (0x10 + BitVec.ofNat 64 i))) ++
    [(0, .read 0x80001000 8), (0, .read 0x80000000 8), (1, .read 0x80008000 8), (1, .write 0x80000000 8 5),
      (0, .read 0x80000000 8)]

theorem prefetch_keeps_values_set : ∃ values w w',
    MemOp.performAll (hierarchy ⟨2, sameSet.hint, Devices.none⟩) ⟨Sys.init, MemState.init (fun _ => 0) ()⟩ fullSet =
      some (values, w) ∧
    MemOp.performAll (hierarchy ⟨2, prefetchHint, Devices.none⟩) ⟨Sys.init, MemState.init (fun _ => 0) ()⟩ fullSet =
      some (values, w') ∧
    values.filterMap id = [8, 0x10, 8, 0x17, 5] := by
  have safe : MemOp.AllSafe ⟨2, sameSet.hint, Devices.none⟩ ⟨Sys.init, MemState.init (fun _ => 0) ()⟩ fullSet := by
    decide +kernel
  obtain ⟨_, values, w, w', hinted, plain⟩ :=
    prefetch_keeps_values ⟨2, prefetchHint, Devices.none⟩ sameSet Sys.init (fun _ => 0) () fullSet (by decide) safe
  have read : (MemOp.performAll (hierarchy ⟨2, prefetchHint, Devices.none⟩) ⟨Sys.init, MemState.init (fun _ => 0) ()⟩
      fullSet).map (fun result => result.1.filterMap id) = some [8, 0x10, 8, 0x17, 5] := by
    decide +kernel
  rw [plain] at read
  exact ⟨values, w, w', hinted, plain, Option.some.inj read⟩

/-- A miss on the block at 0x80000040 hints at the one before it. -/
def backward : Prefetcher where
  hint := fun addr => if addr / blockSize = 0x80000040 / blockSize then 0x80000000 else 0
  inside := fun addr => by
    split
    · exact .inr (by decide)
    · exact .inl rfl

/-- Hart 1 writes a block, which hart 0 prefetches and then reads. -/
def prefetchedDirty : List (Fin 2 × MemOp) :=
  [(1, .write 0x80000000 8 7), (0, .read 0x80000040 8), (0, .read 0x80000000 8)]

/-- The prefetch asks nobody, so hart 0 reads the value from before the write. -/
theorem prefetch_reads_stale :
    (MemOp.performAll (hierarchy ⟨2, backward.hint, Devices.none⟩) ⟨Sys.init, MemState.init (fun _ => 0) ()⟩
      prefetchedDirty).map Prod.fst = some [none, some 0, some 0] ∧
    (MemOp.performAll (hierarchy ⟨2, prefetchHint, Devices.none⟩) ⟨Sys.init, MemState.init (fun _ => 0) ()⟩
      prefetchedDirty).map Prod.fst = some [none, some 0, some 7] := by decide +kernel

end Sustemu
