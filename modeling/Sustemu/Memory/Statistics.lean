import Sustemu.Memory.Calls
import Sustemu.Memory.Replacement
import Sustemu.Memory.Transparent
import Mathlib.Data.Finset.Prod
import Mathlib.Data.Fintype.Option

/-!
# The statistics of the caches

On one core no snoop touches a line, so a way is filled once and from then on
one block replaces another. The refills of invalid ways are the valid lines, and
the others are evictions, which a first-level cache counts all and the second
level only where the block is written back.
-/

set_option autoImplicit false

namespace Sustemu

open Lib

/-- The valid lines of a cache. -/
def Cache.validLines (c : Cache) : Nat :=
  ((Finset.range (2 ^ c.s) ×ˢ Finset.range c.w).filter fun place => (c.line place.1 place.2).valid = true).card

/-- A refill of a way with such a victim. -/
def CacheEvent.refills (victim : Option Bool → Bool) : CacheEvent → Bool
  | .refill _ _ _ occupant => victim occupant
  | _ => false

/-- What a level counts as an eviction. -/
def Level.counts (level : Level) (victim : Option Bool) : Bool :=
  victim == some true || (level == .first && victim == some false)

/-- The counters of a cache and the refills behind it. -/
structure Balanced (level : Level) (c : Cache) (events : List CacheEvent) : Prop where
  wf : c.WF
  lookups : c.hits + c.misses = events.countP CacheEvent.looks
  misses : c.misses = events.countP (CacheEvent.refills fun _ => true)
  evictions : c.evictions = events.countP (CacheEvent.refills level.counts)
  writebacks : c.writebacks = events.countP (CacheEvent.refills (· == some true))
  valid : c.validLines = events.countP (CacheEvent.refills (· == none))

section Lines

variable {c d : Cache} {level : Level}

theorem validLines_congr (s : d.s = c.s) (w : d.w = c.w)
    (same : ∀ set way, (d.line set way).valid = (c.line set way).valid) : d.validLines = c.validLines := by
  unfold Cache.validLines
  simp only [s, w, same]

variable (c level) in
/-- Filling an invalid way makes one more valid line. -/
theorem validLines_filled (addr : Nat) {way : Nat} (bound : way < c.w) (dirty : Bool) (data : ByteMem) :
    (c.filled level addr way dirty data).validLines =
      c.validLines + if (c.line (c.setIdx addr) way).occupant == none then 1 else 0 := by
  have member : (c.setIdx addr, way) ∈ Finset.range (2 ^ c.s) ×ˢ Finset.range c.w :=
    Finset.mk_mem_product (Finset.mem_range.mpr (Cache.setIdx_lt c addr)) (Finset.mem_range.mpr bound)
  have filled : ((Finset.range (2 ^ c.s) ×ˢ Finset.range c.w).filter fun place =>
      ((c.filled level addr way dirty data).line place.1 place.2).valid = true) =
        insert (c.setIdx addr, way) ((Finset.range (2 ^ c.s) ×ˢ Finset.range c.w).filter fun place =>
          (c.line place.1 place.2).valid = true) := by
    ext place
    unfold Cache.filled
    rw [Finset.mem_filter, Finset.mem_insert, Finset.mem_filter, Cache.line_modifyLine]
    split
    · next here =>
        have same : place = (c.setIdx addr, way) := Prod.ext here.1 here.2
        rw [same]
        exact iff_of_true ⟨member, rfl⟩ (.inl rfl)
    · next elsewhere =>
        refine (or_iff_right fun same => elsewhere ?_).symm
        rw [same]
        exact ⟨rfl, rfl⟩
  unfold Cache.validLines
  change (Finset.filter _ (Finset.range (2 ^ c.s) ×ˢ Finset.range c.w)).card = _
  rw [filled]
  unfold CacheLine.occupant
  cases occupied : (c.line (c.setIdx addr) way).valid with
  | true => rw [Finset.insert_eq_of_mem (Finset.mem_filter.mpr ⟨member, occupied⟩)]; rfl
  | false =>
      refine Finset.card_insert_of_notMem fun present => ?_
      have valid := (Finset.mem_filter.mp present).2
      rw [occupied] at valid
      cases valid

end Lines

section Steps

variable {level : Level} {c c' : Cache} {event : CacheEvent} {events : List CacheEvent}

theorem Balanced.next (balanced : Balanced level c events) (wf : c'.WF)
    (lookups : c'.hits + c'.misses = c.hits + c.misses + if event.looks = true then 1 else 0)
    (misses : c'.misses = c.misses + if event.refills (fun _ => true) = true then 1 else 0)
    (evictions : c'.evictions = c.evictions + if event.refills level.counts = true then 1 else 0)
    (writebacks : c'.writebacks = c.writebacks + if event.refills (· == some true) = true then 1 else 0)
    (valid : c'.validLines = c.validLines + if event.refills (· == none) = true then 1 else 0) :
    Balanced level c' (events ++ [event]) where
  wf := wf
  lookups := by rw [lookups, balanced.lookups, List.countP_append, List.countP_singleton]
  misses := by rw [misses, balanced.misses, List.countP_append, List.countP_singleton]
  evictions := by rw [evictions, balanced.evictions, List.countP_append, List.countP_singleton]
  writebacks := by rw [writebacks, balanced.writebacks, List.countP_append, List.countP_singleton]
  valid := by rw [valid, balanced.valid, List.countP_append, List.countP_singleton]

/-- What each event of a single core does to the balance. -/
theorem CacheStep.balanced (step : CacheStep level c event c') (plain : event.plain = true)
    (balanced : Balanced level c events) : Balanced level c' (events ++ [event]) := by
  have wf := step.wf balanced.wf
  cases step with
  | quiet found =>
      refine balanced.next wf rfl rfl rfl rfl (validLines_congr rfl rfl fun set way => ?_)
      rw [Cache.line_setMru]
  | @hit addr way found =>
      rw [findLine_hit found] at wf ⊢
      refine balanced.next wf ?_ rfl rfl rfl (validLines_congr rfl rfl fun set' way' => ?_)
      · exact Nat.add_right_comm ..
      · rw [Cache.line_setMru, Cache.line_modifyLine]
        split
        · next here =>
            rw [here.1, here.2]
            rfl
        · rfl
  | @refill addr way dirty data found =>
      obtain ⟨bound, _⟩ := Cache.selectWay_miss balanced.wf found
      rw [findLine_miss found] at wf ⊢
      let looked : Cache := { c with timer := c.timer + 1, misses := c.misses + 1 }
      have unfilled : looked.validLines = c.validLines := validLines_congr rfl rfl fun _ _ => rfl
      have filled := validLines_filled looked level addr bound dirty data
      rw [unfilled] at filled
      refine balanced.next wf rfl rfl ?_ ?_ filled
      · refine congrArg (c.evictions + ·) (if_congr ?_ rfl rfl)
        simp only [CacheEvent.refills, Level.counts, Bool.or_eq_true, Bool.and_eq_true, beq_iff_eq]
        exact Iff.rfl
      · refine congrArg (c.writebacks + ·) (if_congr ?_ rfl rfl)
        simp only [CacheEvent.refills, beq_iff_eq]
        exact Iff.rfl
  | prefetch => cases plain
  | change valid _ _ =>
      refine balanced.next wf rfl rfl rfl rfl (validLines_congr rfl rfl fun set' way' => ?_)
      rw [Cache.line_modifyLine]
      split
      · next here =>
          rw [here.1, here.2]
          exact valid _
      · rfl
  | drop => cases plain
  | writeback => cases plain

theorem run_balanced {before : List CacheEvent} (balanced : Balanced level c before)
    (run : Run (CacheStep level) c events c') (plain : ∀ event ∈ events, event.plain = true) :
    Balanced level c' (before ++ events) :=
  run.history (fun member step => step.balanced (plain _ member)) balanced

theorem initCache_balanced (level : Level) (s : Nat) {w : Nat} (ways : 0 < w) : Balanced level (initCache s w) [] where
  wf := CacheSystem.initCache_wf ways
  lookups := rfl
  misses := rfl
  evictions := rfl
  writebacks := rfl
  valid := Finset.card_eq_zero.mpr (Finset.filter_eq_empty_iff.mpr fun _ _ => Bool.false_ne_true)

end Steps

/-! ## The balance -/

/-- Refills of two disjoint kinds. -/
theorem countP_refills_or (left right : Option Bool → Bool) (disjoint : ∀ victim, (left victim && right victim) = false)
    (events : List CacheEvent) : events.countP (CacheEvent.refills fun victim => left victim || right victim) =
      events.countP (CacheEvent.refills left) + events.countP (CacheEvent.refills right) := by
  induction events with
  | nil => rfl
  | cons event rest ih =>
      rw [List.countP_cons, List.countP_cons, List.countP_cons, ih]
      cases event with
      | refill set way block victim =>
          have apart := disjoint victim
          simp only [CacheEvent.refills]
          rcases Bool.eq_false_or_eq_true (left victim) with chosen | other
          · rw [chosen, Bool.true_and] at apart
            simp only [chosen, apart, Bool.true_or, Bool.false_eq_true, ↓reduceIte]
            omega
          · simp only [other, Bool.false_or, Bool.false_eq_true, ↓reduceIte]
            exact Nat.add_assoc ..
      | quiet | hit | prefetch | change | drop | writeback => rfl

/-- A refill that replaces a clean valid block. -/
def CacheEvent.replacesClean : CacheEvent → Bool := CacheEvent.refills (· == some false)

section Balance

variable {level : Level} {c : Cache} {events : List CacheEvent}

/-- The refills are of invalid ways, of dirty blocks and of clean ones. -/
theorem Balanced.refilled (balanced : Balanced level c events) :
    c.misses = c.validLines + c.writebacks + events.countP CacheEvent.replacesClean := by
  have every : ∀ victim : Option Bool, true = ((victim == none || victim == some true) || victim == some false) := by
    decide
  have dirtyOrNone := countP_refills_or (· == none) (· == some true) (by decide) events
  have all := countP_refills_or (fun victim => victim == none || victim == some true) (· == some false)
    (by decide) events
  rw [balanced.misses, balanced.valid, balanced.writebacks, ← dirtyOrNone, CacheEvent.replacesClean, ← all]
  exact congrArg (fun victim => events.countP (CacheEvent.refills victim)) (funext every)

theorem Balanced.evicted (balanced : Balanced level c events) :
    c.evictions = c.writebacks + if level = .first then events.countP CacheEvent.replacesClean else 0 := by
  rw [balanced.evictions, balanced.writebacks]
  cases level with
  | first =>
      have both := countP_refills_or (· == some true) (· == some false) (by decide) events
      exact both
  | second =>
      have same : Level.counts .second = (· == some true) := funext fun victim => Bool.or_false _
      rw [same]
      rfl

end Balance

/-- What the statistics of a cache should say. -/
structure Conserved (c : Cache) (events : List CacheEvent) : Prop where
  lookups : c.hits + c.misses = events.countP CacheEvent.looks
  occupied : c.misses = c.evictions + c.validLines
  written : c.writebacks ≤ c.evictions

theorem Balanced.conserved_iff {level : Level} {c : Cache} {events : List CacheEvent} (balanced : Balanced level c events) :
    Conserved c events ↔ level = .second → ∀ event ∈ events, event.replacesClean = false := by
  have refilled := balanced.refilled
  have evicted := balanced.evicted
  have none : events.countP CacheEvent.replacesClean = 0 ↔ ∀ event ∈ events, event.replacesClean = false := by
    rw [List.countP_eq_zero]
    exact forall₂_congr fun event _ => Bool.eq_false_iff.symm
  cases level with
  | first =>
      rw [if_pos rfl] at evicted
      exact iff_of_true ⟨balanced.lookups, by omega, by omega⟩ nofun
  | second =>
      rw [if_neg (by decide)] at evicted
      constructor
      · intro conserved _
        have occupied := conserved.occupied
        exact none.mp (by omega)
      · intro clean
        have absent := none.mpr (clean rfl)
        exact ⟨balanced.lookups, by omega, by omega⟩

section SingleCore

variable {δ : Type} {cfg : MemConfig δ}

/-- One core makes calls on its own caches only. -/
theorem MemOp.calls_own {numCores : Nat} (single : numCores ≤ 1) (h : Fin 2) (op : MemOp) :
    ∀ call ∈ op.calls numCores h, call.2.Own := by
  have alone : ¬numCores > 1 := Nat.not_lt_of_le single
  have one : ∀ {condition : Bool} {call : Side × CacheOp}, call.2.Own →
      ∀ made ∈ (if condition = true then [call] else []), made.2.Own := by
    intro condition call own made member
    split at member
    · rw [List.mem_singleton.mp member]
      exact own
    · cases member
  unfold MemOp.calls
  simp only [if_neg alone, List.nil_append]
  cases op with
  | ifetch | read | readLevel | fillAndRead | probeLevel | write => exact one trivial

theorem log_plain (single : cfg.numCores ≤ 1) (hint : cfg.prefetchHint = prefetchHint) (w : World (MemState δ))
    (ops : List (Fin 2 × MemOp)) (x : Option Side) :
    ∀ event ∈ history x (MemOp.log cfg w ops), event.plain = true := by
  induction ops generalizing w with
  | nil => exact fun _ member => nomatch member
  | cons access rest ih =>
      obtain ⟨h, op⟩ := access
      intro event member
      unfold MemOp.log at member
      rw [history_append, hint] at member
      rcases List.mem_append.mp member with now | later
      · exact CacheSystem.history_only
          (fun call made side => CacheOp.events_plain side (MemOp.calls_own single h op call made)) _ x event now
      · split at later
        · cases later
        · exact ih _ event later

theorem performAll_balanced (single : cfg.numCores ≤ 1) (hint : cfg.prefetchHint = prefetchHint) {sys : Sys}
    {pmem : ByteMem} {dev : δ} {ops : List (Fin 2 × MemOp)} {values : List (Option Word)} {w : World (MemState δ)}
    (inside : ∀ access ∈ ops, access.2.Inside)
    (done : MemOp.performAll (hierarchy cfg) ⟨sys, MemState.init pmem dev⟩ ops = some (values, w)) (x : Option Side) :
    Balanced (CacheSystem.levelOf x) (w.mem.caches.cache x)
      (history x (MemOp.log cfg ⟨sys, MemState.init pmem dev⟩ ops)) := by
  have run := performAll_traces inside done x
  obtain ⟨s, ways, positive, initial⟩ := MemState.caches_init pmem dev x
  rw [show (World.mem ⟨sys, MemState.init pmem dev⟩) = MemState.init pmem dev from rfl, initial] at run
  exact run_balanced (initCache_balanced _ s positive) run (log_plain single hint _ ops x)

/-- On one core and with writes that stay inside their lines, the lookups of
every cache are its hits and misses. The lines of the first-level caches are the
misses that were no evictions, and those of the second level are as long as it
has replaced no clean block. -/
theorem statistics_iff (cfg : MemConfig δ) (single : cfg.numCores ≤ 1) (hint : cfg.prefetchHint = prefetchHint) (sys : Sys)
    (pmem : ByteMem) (dev : δ) (ops : List (Fin 2 × MemOp)) (inside : ∀ access ∈ ops, access.2.Inside)
    (values : List (Option Word)) (w : World (MemState δ))
    (done : MemOp.performAll (hierarchy cfg) ⟨sys, MemState.init pmem dev⟩ ops = some (values, w)) (x : Option Side) :
    let events := history x (MemOp.log cfg ⟨sys, MemState.init pmem dev⟩ ops)
    Conserved (w.mem.caches.cache x) events ↔ x = none → ∀ event ∈ events, event.replacesClean = false := by
  have balanced := (performAll_balanced single hint inside done x).conserved_iff
  cases x with
  | none => exact balanced.trans (imp_congr (iff_of_true rfl rfl) Iff.rfl)
  | some side => exact iff_of_true (balanced.mpr nofun) nofun

/-- Reads of one set of the second level, which has 16 ways. -/
def seventeenBlocks : List (Fin 2 × MemOp) :=
  (List.range 17).map fun i => (0, .read (0x80000000 + BitVec.ofNat 64 (i * 0x4000)) 8)

private theorem seventeenBlocks_log : (history none (MemOp.log ⟨1, prefetchHint, Devices.none⟩
    ⟨Sys.init, MemState.init (fun _ => 0) ()⟩ seventeenBlocks)).any CacheEvent.replacesClean = true := by
  decide +kernel

private theorem seventeenBlocks_done : ∃ w, MemOp.performAll (hierarchy ⟨1, prefetchHint, Devices.none⟩)
    ⟨Sys.init, MemState.init (fun _ => 0) ()⟩ seventeenBlocks =
      some (MemOp.flatAll (fun _ => 0) seventeenBlocks, w) := by
  obtain ⟨w, done, _⟩ := hierarchy_flat ⟨1, prefetchHint, Devices.none⟩ rfl Sys.init (fun _ => 0) () seventeenBlocks
    (by decide +kernel)
  exact ⟨w, done⟩

/-- The seventeenth block replaces a clean one, which the second level does not count. -/
theorem statistics_lose_clean : ∃ values w, MemOp.performAll (hierarchy ⟨1, prefetchHint, Devices.none⟩)
    ⟨Sys.init, MemState.init (fun _ => 0) ()⟩ seventeenBlocks = some (values, w) ∧
      ¬Conserved w.mem.l2 (history none (MemOp.log ⟨1, prefetchHint, Devices.none⟩
        ⟨Sys.init, MemState.init (fun _ => 0) ()⟩ seventeenBlocks)) := by
  obtain ⟨w, done⟩ := seventeenBlocks_done
  refine ⟨_, w, done, fun conserved => ?_⟩
  have balanced := performAll_balanced (Nat.le_refl 1) rfl (by decide) done none
  obtain ⟨event, member, clean⟩ := List.any_eq_true.mp seventeenBlocks_log
  rw [balanced.conserved_iff.mp conserved rfl event member] at clean
  cases clean

theorem statistics_iff_block : ∃ values w, MemOp.performAll (hierarchy ⟨1, prefetchHint, Devices.none⟩)
    ⟨Sys.init, MemState.init (fun _ => 0) ()⟩ [(0, .write 0x80000000 8 5), (0, .read 0x80000000 8)] = some (values, w) ∧
      Conserved w.mem.l2 (history none (MemOp.log ⟨1, prefetchHint, Devices.none⟩
        ⟨Sys.init, MemState.init (fun _ => 0) ()⟩ [(0, .write 0x80000000 8 5), (0, .read 0x80000000 8)])) := by
  obtain ⟨w, done, _⟩ := hierarchy_flat ⟨1, prefetchHint, Devices.none⟩ rfl Sys.init (fun _ => 0) ()
    [(0, .write 0x80000000 8 5), (0, .read 0x80000000 8)] (by decide)
  refine ⟨_, w, done, ?_⟩
  refine (statistics_iff ⟨1, prefetchHint, Devices.none⟩ (Nat.le_refl 1) rfl Sys.init (fun _ => 0) () _ (by decide) _
    w done none).mpr ?_
  exact fun _ => by decide +kernel

end SingleCore

end Sustemu
