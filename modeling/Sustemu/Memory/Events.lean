import Sustemu.Lib.Run
import Sustemu.Memory.Access

/-!
# The history of a cache

Whatever the hierarchy does, it does to each cache one of a few things: a quiet
lookup moves the shortcut, a hit or a refill also moves the clock and the
counters, a prefetch fills a way without a lookup, and writes and snoops change
or drop a line. Every operation of `cache.c` is described here by the events of
the caches it works on, and shown to be the run of these events.
-/

set_option autoImplicit false

namespace Sustemu

open Lib

inductive Level where
  | first | second
  deriving DecidableEq, Repr

/-- What happens to one way of a cache. `victim` is the dirty bit of the block that a refill or a prefetch replaces. -/
inductive CacheEvent where
  | quiet (set way : Nat)
  | hit (set way : Nat)
  | refill (set way block : Nat) (victim : Option Bool)
  | prefetch (set way block : Nat) (victim : Option Bool)
  | change (set way : Nat)
  | drop (set way : Nat)
  | writeback
  deriving DecidableEq

def CacheLine.occupant (line : CacheLine) : Option Bool := if line.valid then some line.dirty else none

namespace Cache

/-- The counters of a refill: a first-level cache counts every block it gives up, the second level the dirty ones. -/
def counted (c : Cache) (level : Level) (victim : Option Bool) : Cache :=
  { c with
    evictions := c.evictions + if victim = some true ∨ level = .first ∧ victim = some false then 1 else 0
    writebacks := c.writebacks + if victim = some true then 1 else 0 }

/-- A way of the set of `addr` filled with its block. -/
def filled (c : Cache) (level : Level) (addr way : Nat) (dirty : Bool) (data : ByteMem) : Cache :=
  (c.counted level (c.line (c.setIdx addr) way).occupant).modifyLine (c.setIdx addr) way
    fun _ => ⟨1, if dirty then 1 else 0, c.tagOf addr, c.timer, data⟩

end Cache

/-- What an event does to a cache. -/
inductive CacheStep (level : Level) : Cache → CacheEvent → Cache → Prop where
  | quiet {c : Cache} {addr way : Nat} (found : selectWay c addr = (true, way)) :
      CacheStep level c (.quiet (c.setIdx addr) way) (c.setMru (c.setIdx addr) way)
  | hit {c : Cache} {addr way : Nat} (found : selectWay c addr = (true, way)) :
      CacheStep level c (.hit (c.setIdx addr) way) (findLine c addr).2.2
  | refill {c : Cache} {addr way : Nat} {dirty : Bool} {data : ByteMem} (found : selectWay c addr = (false, way)) :
      CacheStep level c (.refill (c.setIdx addr) way (addr / blockSize) (c.line (c.setIdx addr) way).occupant)
        ((findLine c addr).2.2.filled level addr way dirty data)
  | prefetch {c : Cache} {addr way : Nat} {dirty : Bool} {data : ByteMem} (found : selectWay c addr = (false, way)) :
      CacheStep level c (.prefetch (c.setIdx addr) way (addr / blockSize) (c.line (c.setIdx addr) way).occupant)
        (c.filled level addr way dirty data)
  | change {c : Cache} {set way : Nat} {f : CacheLine → CacheLine} (valid : ∀ line, (f line).valid = line.valid)
      (tag : ∀ line, (f line).tag = line.tag) (lastAccess : ∀ line, (f line).lastAccess = line.lastAccess) :
      CacheStep level c (.change set way) (c.modifyLine set way f)
  | drop {c : Cache} {set way : Nat} :
      CacheStep level c (.drop set way) (c.modifyLine set way fun line => { line with validInt := 0, dirtyInt := 0 })
  | writeback {c : Cache} : CacheStep level c .writeback { c with writebacks := c.writebacks + 1 }

/-! ## Logs of several caches -/

/-- The events of cache `x`. -/
def history {κ : Type} [DecidableEq κ] (x : κ) (log : List (κ × CacheEvent)) : List CacheEvent :=
  log.filterMap fun entry => if entry.1 = x then some entry.2 else none

section History

variable {κ : Type} [DecidableEq κ] {x y : κ}

@[simp] theorem history_nil : history x [] = [] := rfl

@[simp] theorem history_append (log log' : List (κ × CacheEvent)) :
    history x (log ++ log') = history x log ++ history x log' := List.filterMap_append ..

theorem history_own (events : List CacheEvent) : history x (events.map fun event => (x, event)) = events := by
  unfold history
  rw [List.filterMap_map]
  exact (List.filterMap_congr fun _ _ => if_pos rfl).trans List.filterMap_some

theorem history_other (different : x ≠ y) (events : List CacheEvent) :
    history y (events.map fun event => (x, event)) = [] := by
  unfold history
  rw [List.filterMap_map, List.filterMap_eq_nil_iff]
  exact fun _ _ => if_neg different

end History

/-- Events of the two caches of a side. -/
abbrev SideLog := List (Level × CacheEvent)

def atFirst (events : List CacheEvent) : SideLog := events.map fun event => (.first, event)

def atSecond (events : List CacheEvent) : SideLog := events.map fun event => (.second, event)

/-- The log takes both caches of one side to those of the other. -/
structure Traces (side : Hier) (log : SideLog) (side' : Hier) : Prop where
  l1 : Run (CacheStep .first) side.l1 (history .first log) side'.l1
  l2 : Run (CacheStep .second) side.back.l2 (history .second log) side'.back.l2

namespace Traces

variable {side side' side'' : Hier} {log log' : SideLog}

theorem refl (side : Hier) : Traces side [] side := ⟨rfl, rfl⟩

theorem trans (first : Traces side log side') (second : Traces side' log' side'') : Traces side (log ++ log') side'' := by
  refine ⟨?_, ?_⟩
  · rw [history_append]
    exact (run_append _ _).mpr ⟨side'.l1, first.l1, second.l1⟩
  · rw [history_append]
    exact (run_append _ _).mpr ⟨side'.back.l2, first.l2, second.l2⟩

theorem ofFirst {events : List CacheEvent} {l1 : Cache} {back : Backing} (run : Run (CacheStep .first) side.l1 events l1)
    (same : back.l2 = side.back.l2) : Traces side (atFirst events) ⟨l1, back⟩ := by
  refine ⟨?_, ?_⟩
  · rw [atFirst, history_own]
    exact run
  · rw [atFirst, history_other (by decide)]
    exact same.symm

theorem ofSecond {events : List CacheEvent} {back : Backing} (run : Run (CacheStep .second) side.back.l2 events back.l2) :
    Traces side (atSecond events) ⟨side.l1, back⟩ := by
  refine ⟨?_, ?_⟩
  · rw [atSecond, history_other (by decide)]
    rfl
  · rw [atSecond, history_own]
    exact run

end Traces

/-! ## Lookups and the second level -/

/-- `find_line_quiet`. -/
def quietEvents (c : Cache) (addr : Nat) : List CacheEvent :=
  let (hit, way) := selectWay c addr
  if hit then [.quiet (c.setIdx addr) way] else []

theorem quiet_run (level : Level) (c : Cache) (addr : Nat) :
    Run (CacheStep level) c (quietEvents c addr) (findLineQuiet c addr).2.2 := by
  unfold quietEvents findLineQuiet
  cases found : selectWay c addr with
  | mk hit way =>
      cases hit with
      | true => exact ⟨_, .quiet found, rfl⟩
      | false => rfl

/-- `access_l2`. -/
def accessL2Events (l2 : Cache) (addr : Nat) (isWrite : Bool) : List CacheEvent :=
  let (hit, way) := selectWay l2 addr
  let set := l2.setIdx addr
  if hit then .hit set way :: if isWrite then [.change set way] else []
  else [.refill set way (addr / blockSize) (l2.line set way).occupant]

theorem findLine_hit {c : Cache} {addr way : Nat} (found : selectWay c addr = (true, way)) :
    findLine c addr = (true, way, (Cache.modifyLine { c with timer := c.timer + 1, hits := c.hits + 1 } (c.setIdx addr) way
      fun line => { line with lastAccess := c.timer + 1 }).setMru (c.setIdx addr) way) := by
  unfold findLine
  dsimp only
  rw [show selectWay { c with timer := c.timer + 1 } addr = (true, way) from found]
  rfl

theorem findLine_miss {c : Cache} {addr way : Nat} (found : selectWay c addr = (false, way)) :
    findLine c addr = (false, way, { c with timer := c.timer + 1, misses := c.misses + 1 }) := by
  unfold findLine
  dsimp only
  rw [show selectWay { c with timer := c.timer + 1 } addr = (false, way) from found]
  rfl

theorem findLine_of_select {c : Cache} {addr way : Nat} {hit : Bool} (found : selectWay c addr = (hit, way)) :
    findLine c addr = (hit, way, (findLine c addr).2.2) := by
  cases hit with
  | true => rw [findLine_hit found]
  | false => rw [findLine_miss found]

theorem CacheStep.geometry {level : Level} {c c' : Cache} {event : CacheEvent} (step : CacheStep level c event c') :
    c'.s = c.s ∧ c'.w = c.w := by
  cases step with
  | quiet | change | drop | writeback | prefetch => exact ⟨rfl, rfl⟩
  | hit found =>
      rw [findLine_hit found]
      exact ⟨rfl, rfl⟩
  | refill found =>
      rw [findLine_miss found]
      exact ⟨rfl, rfl⟩

theorem run_geometry {level : Level} {c c' : Cache} {events : List CacheEvent}
    (run : Run (CacheStep level) c events c') : c'.s = c.s ∧ c'.w = c.w :=
  run.invariant (fun d => d.s = c.s ∧ d.w = c.w)
    (fun step same => ⟨step.geometry.1.trans same.1, step.geometry.2.trans same.2⟩) ⟨rfl, rfl⟩

/-- A miss of the second level ends in a refill. -/
theorem accessL2_miss {b : Backing} {c : Cache} {addr way : Nat} (missed : findLine b.l2 addr = (false, way, c))
    (data : ByteMem) (isWrite : Bool) : ∃ stored,
      (accessL2 b addr data isWrite).2.l2 = c.filled .second addr way isWrite stored := by
  let line := c.line (c.setIdx addr) way
  let pmem := if line.valid && line.dirty then storeBlockToMem b.pmem (c.blockAddr (c.setIdx addr) line.tag) line.data
    else b.pmem
  refine ⟨if isWrite then copyBlock line.data data
    else loadBlockFromMem pmem (addr / blockSize * blockSize) line.data, ?_⟩
  unfold accessL2 Cache.filled Cache.counted CacheLine.occupant
  rw [missed]
  dsimp only [line, pmem]
  cases (c.line (c.setIdx addr) way).valid with
  | false => cases isWrite <;> rfl
  | true => cases (c.line (c.setIdx addr) way).dirty <;> cases isWrite <;> rfl

theorem accessL2_run (b : Backing) (addr : Nat) (data : ByteMem) (isWrite : Bool) :
    Run (CacheStep .second) b.l2 (accessL2Events b.l2 addr isWrite) (accessL2 b addr data isWrite).2.l2 := by
  unfold accessL2Events
  cases found : selectWay b.l2 addr with
  | mk hit way =>
      cases hit with
      | true =>
          have stepped : CacheStep .second b.l2 (.hit (b.l2.setIdx addr) way) (findLine b.l2 addr).2.2 := .hit found
          unfold accessL2
          cases isWrite with
          | true =>
              refine ⟨_, stepped, ?_⟩
              rw [findLine_hit found]
              exact ⟨_, .change (f := fun line => { line with dirtyInt := 1, data := copyBlock line.data data })
                (fun _ => rfl) (fun _ => rfl) fun _ => rfl, rfl⟩
          | false =>
              refine ⟨_, stepped, ?_⟩
              rw [findLine_hit found]
              rfl
      | false =>
          obtain ⟨stored, refilled⟩ := accessL2_miss (findLine_of_select found) data isWrite
          exact ⟨_, .refill found, refilled.symm⟩

/-! ## Refills of the first level -/

/-- The second-level accesses of `fetch_block`. -/
def fetchEvents (side : Hier) (addr way : Nat) : List CacheEvent :=
  let set := side.l1.setIdx addr
  let victim := side.l1.line set way
  (if victim.valid && victim.dirty then accessL2Events side.back.l2 (side.l1.blockAddr set victim.tag) true else []) ++
    accessL2Events (victimWritten side set way).l2 addr false

theorem fetch_run (side : Hier) (addr way : Nat) :
    Run (CacheStep .second) side.back.l2 (fetchEvents side addr way) (fetchBlock side addr way).back.l2 := by
  refine (run_append _ _).mpr ⟨(victimWritten side (side.l1.setIdx addr) way).l2, ?_, accessL2_run ..⟩
  unfold victimWritten
  dsimp only
  split
  · exact accessL2_run ..
  · rfl

theorem fetchBlock_eq (side : Hier) (addr way : Nat) :
    let set := side.l1.setIdx addr
    let read := accessL2 (victimWritten side set way) addr (side.l1.line set way).data false
    fetchBlock side addr way = ⟨side.l1.filled .first addr way false read.1, read.2⟩ := by
  unfold fetchBlock Cache.filled Cache.counted CacheLine.occupant victimWritten
  dsimp only
  cases (side.l1.line (side.l1.setIdx addr) way).valid with
  | false => rfl
  | true => cases (side.l1.line (side.l1.setIdx addr) way).dirty <;> rfl

theorem fetchBlock_l1 (side : Hier) (addr way : Nat) : ∃ data,
    (fetchBlock side addr way).l1 = side.l1.filled .first addr way false data := by
  rw [fetchBlock_eq]
  exact ⟨_, rfl⟩

/-- `cache_prefetch`. -/
def prefetchEvents (hint : Nat → Nat) : Nat → Hier → Nat → SideLog
  | 0, _, _ => []
  | degree + 1, side, cur =>
      let next := hint cur
      if next = 0 then []
      else
        let (already, way) := selectWay side.l1 next
        let set := side.l1.setIdx next
        let looked := { side with l1 := (findLineQuiet side.l1 next).2.2 }
        if already then (.first, .quiet set way) :: prefetchEvents hint degree looked next
        else atSecond (fetchEvents side next way) ++ (.first,
          .prefetch set way (next / blockSize) (side.l1.line set way).occupant) ::
            prefetchEvents hint degree (fetchBlock side next way) next

theorem prefetch_traces (hint : Nat → Nat) (degree : Nat) (side : Hier) (cur : Nat) :
    Traces side (prefetchEvents hint degree side cur) (cachePrefetch hint degree side cur) := by
  induction degree generalizing side cur with
  | zero => exact .refl side
  | succ degree ih =>
      unfold prefetchEvents cachePrefetch
      dsimp only
      split
      · exact .refl side
      · cases found : selectWay side.l1 (hint cur) with
        | mk already way =>
            have quiet := quiet_run .first side.l1 (hint cur)
            unfold quietEvents at quiet
            rw [found] at quiet
            cases already with
            | true =>
                have looked : findLineQuiet side.l1 (hint cur) = (true, way, (findLineQuiet side.l1 (hint cur)).2.2) := by
                  unfold findLineQuiet
                  rw [found]
                rw [looked]
                exact Traces.trans (.ofFirst quiet rfl) (ih ⟨_, side.back⟩ _)
            | false =>
                have looked : findLineQuiet side.l1 (hint cur) = (false, way, side.l1) := by
                  unfold findLineQuiet
                  rw [found]
                  rfl
                rw [looked]
                obtain ⟨data, l1⟩ := fetchBlock_l1 side (hint cur) way
                have filled : Run (CacheStep .first) side.l1 [.prefetch (side.l1.setIdx (hint cur)) way
                    (hint cur / blockSize) (side.l1.line (side.l1.setIdx (hint cur)) way).occupant]
                    (fetchBlock side (hint cur) way).l1 := ⟨_, .prefetch found, l1.symm⟩
                have fetched : Traces side (atSecond (fetchEvents side (hint cur) way))
                    ⟨side.l1, (fetchBlock side (hint cur) way).back⟩ := .ofSecond (fetch_run ..)
                have placed : Traces ⟨side.l1, (fetchBlock side (hint cur) way).back⟩ (atFirst _)
                    (fetchBlock side (hint cur) way) := .ofFirst filled rfl
                have whole := fetched.trans (placed.trans (ih (fetchBlock side (hint cur) way) (hint cur)))
                exact whole

/-- A missing block is fetched into the way found, and prefetching follows. `looked` is the side after the lookups. -/
def refillEvents (hint : Nat → Nat) (side looked : Hier) (addr way : Nat) : SideLog :=
  atSecond (fetchEvents looked addr way) ++
    (.first, .refill (side.l1.setIdx addr) way (addr / blockSize) (side.l1.line (side.l1.setIdx addr) way).occupant) ::
      prefetchEvents hint prefetchDegree (fetchBlock looked addr way) addr

theorem refill_traces (hint : Nat → Nat) {side looked : Hier} {addr way : Nat}
    (found : selectWay side.l1 addr = (false, way)) (lookup : looked.l1 = (findLine side.l1 addr).2.2) :
    Traces ⟨side.l1, looked.back⟩ (refillEvents hint side looked addr way)
      (cachePrefetch hint prefetchDegree (fetchBlock looked addr way) addr) := by
  obtain ⟨data, l1⟩ := fetchBlock_l1 looked addr way
  rw [lookup] at l1
  have filled : Run (CacheStep .first) side.l1 [.refill (side.l1.setIdx addr) way (addr / blockSize)
      (side.l1.line (side.l1.setIdx addr) way).occupant] (fetchBlock looked addr way).l1 :=
    ⟨_, .refill found, l1.symm⟩
  have fetched : Traces ⟨side.l1, looked.back⟩ (atSecond (fetchEvents looked addr way))
      ⟨side.l1, (fetchBlock looked addr way).back⟩ := .ofSecond (fetch_run looked addr way)
  have placed : Traces ⟨side.l1, (fetchBlock looked addr way).back⟩ (atFirst _) (fetchBlock looked addr way) :=
    .ofFirst filled rfl
  have whole := fetched.trans (placed.trans (prefetch_traces hint prefetchDegree (fetchBlock looked addr way) addr))
  exact whole

/-! ## Operations -/

/-- After the lookup that every cached access starts with. -/
def Hier.looked (side : Hier) (addr : Nat) : Hier := ⟨(findLine side.l1 addr).2.2, side.back⟩

/-- After the lookup of a level read that misses, which also asks the second level. -/
def Hier.asked (side : Hier) (addr : Nat) : Hier :=
  ⟨(findLine side.l1 addr).2.2, ⟨(findLineQuiet side.back.l2 addr).2.2, side.back.pmem⟩⟩

def touchEvents (hint : Nat → Nat) (side : Hier) (addr : Nat) : SideLog :=
  let (hit, way) := selectWay side.l1 addr
  if hit then atFirst [.hit (side.l1.setIdx addr) way] else refillEvents hint side (side.looked addr) addr way

theorem cacheTouch_hit (hint : Nat → Nat) {side : Hier} {addr way : Nat} (found : selectWay side.l1 addr = (true, way)) :
    cacheTouch hint side addr = (way, side.looked addr) := by
  unfold cacheTouch
  rw [findLine_of_select found]
  rfl

theorem cacheTouch_miss (hint : Nat → Nat) {side : Hier} {addr way : Nat}
    (found : selectWay side.l1 addr = (false, way)) : cacheTouch hint side addr =
      (way, cachePrefetch hint prefetchDegree (fetchBlock (side.looked addr) addr way) addr) := by
  unfold cacheTouch
  rw [findLine_of_select found]
  rfl

theorem hit_traces {side : Hier} {addr way : Nat} (found : selectWay side.l1 addr = (true, way)) :
    Traces side (atFirst [.hit (side.l1.setIdx addr) way]) (side.looked addr) := .ofFirst ⟨_, .hit found, rfl⟩ rfl

theorem touch_traces (hint : Nat → Nat) (side : Hier) (addr : Nat) :
    Traces side (touchEvents hint side addr) (cacheTouch hint side addr).2 := by
  unfold touchEvents
  cases found : selectWay side.l1 addr with
  | mk hit way =>
      cases hit with
      | true =>
          rw [cacheTouch_hit hint found]
          exact hit_traces found
      | false =>
          have refilled := refill_traces hint found (rfl : (side.looked addr).l1 = _)
          rw [cacheTouch_miss hint found]
          exact refilled

/-- `cache_read_level` asks the second level before the refill. -/
def readLevelEvents (hint : Nat → Nat) (side : Hier) (addr : Nat) : SideLog :=
  let (hit, way) := selectWay side.l1 addr
  if hit then atFirst [.hit (side.l1.setIdx addr) way]
  else atSecond (quietEvents side.back.l2 addr) ++ refillEvents hint side (side.asked addr) addr way

theorem cacheReadLevel_hit (hint : Nat → Nat) {side : Hier} {addr way : Nat}
    (found : selectWay side.l1 addr = (true, way)) (len : Nat) : cacheReadLevel hint side addr len =
      (0, (side.looked addr).l1.copyOut ((side.looked addr).l1.setIdx addr) way (addr % blockSize) len, side.looked addr) := by
  unfold cacheReadLevel
  rw [findLine_of_select found]
  rfl

/-- On a miss the level is the second one's answer, and the side is that after a refill. -/
theorem cacheReadLevel_miss (hint : Nat → Nat) {side : Hier} {addr way : Nat}
    (found : selectWay side.l1 addr = (false, way)) (len : Nat) :
    let filled := cachePrefetch hint prefetchDegree (fetchBlock (side.asked addr) addr way) addr
    cacheReadLevel hint side addr len = (if (findLineQuiet side.back.l2 addr).1 then 1 else 2,
      filled.l1.copyOut ((side.asked addr).l1.setIdx addr) way (addr % blockSize) len, filled) := by
  unfold cacheReadLevel
  rw [findLine_of_select found]
  rfl

theorem readLevel_traces (hint : Nat → Nat) (side : Hier) (addr len : Nat) :
    Traces side (readLevelEvents hint side addr) (cacheReadLevel hint side addr len).2.2 := by
  unfold readLevelEvents
  cases found : selectWay side.l1 addr with
  | mk hit way =>
      cases hit with
      | true =>
          rw [cacheReadLevel_hit hint found]
          exact hit_traces found
      | false =>
          have asked : Traces side (atSecond (quietEvents side.back.l2 addr)) ⟨side.l1, (side.asked addr).back⟩ :=
            .ofSecond (quiet_run .second side.back.l2 addr)
          have refilled := refill_traces hint found (rfl : (side.asked addr).l1 = _)
          have whole := asked.trans refilled
          rw [cacheReadLevel_miss hint found]
          exact whole

def probeEvents (side : Hier) (addr : Nat) : SideLog :=
  atFirst (quietEvents side.l1 addr) ++
    if (selectWay side.l1 addr).1 then [] else atSecond (quietEvents side.back.l2 addr)

theorem probe_traces (side : Hier) (addr : Nat) :
    Traces side (probeEvents side addr) (cacheProbeLevel side addr).2 := by
  unfold probeEvents cacheProbeLevel
  have first : Traces side (atFirst (quietEvents side.l1 addr)) ⟨(findLineQuiet side.l1 addr).2.2, side.back⟩ :=
    .ofFirst (quiet_run .first side.l1 addr) rfl
  have outcome : (findLineQuiet side.l1 addr).1 = (selectWay side.l1 addr).1 := rfl
  generalize quietEvents side.l1 addr = events at first ⊢
  generalize findLineQuiet side.l1 addr = lookup at first outcome ⊢
  obtain ⟨hit, way, l1⟩ := lookup
  rw [← outcome]
  cases hit with
  | true =>
      rw [if_pos rfl, List.append_nil]
      exact first
  | false =>
      have asked : Traces ⟨l1, side.back⟩ (atSecond (quietEvents side.back.l2 addr))
          ⟨l1, { side.back with l2 := (findLineQuiet side.back.l2 addr).2.2 }⟩ :=
        .ofSecond (quiet_run .second side.back.l2 addr)
      exact first.trans asked

def writeEvents (hint : Nat → Nat) (side : Hier) (addr : Nat) : SideLog :=
  touchEvents hint side addr ++
    atFirst [.change ((cacheTouch hint side addr).2.l1.setIdx addr) (cacheTouch hint side addr).1]

theorem CacheStep.copyIn {level : Level} {set way offset len : Nat} (c : Cache) (inside : offset + len ≤ blockSize)
    (data : Word) : CacheStep level c (.change set way) (c.copyIn set way offset len data) := by
  rw [Cache.copyIn_inside inside]
  exact .change (fun _ => rfl) (fun _ => rfl) fun _ => rfl

theorem write_traces (hint : Nat → Nat) (side : Hier) {addr len : Nat} (inside : addr % blockSize + len ≤ blockSize)
    (data : Word) : Traces side (writeEvents hint side addr) (cacheWrite hint side addr len data) := by
  have touched := touch_traces hint side addr
  unfold writeEvents cacheWrite
  generalize cacheTouch hint side addr = after at touched ⊢
  exact touched.trans (.ofFirst ⟨_, .copyIn after.2.l1 inside data, rfl⟩ rfl)

/-- `cache_snoop_invalidate`. -/
def snoopInvalidateEvents (side : Hier) (addr : Nat) : SideLog :=
  match firstWay side.l1 addr fun line => line.matches (side.l1.tagOf addr) with
  | none => []
  | some way =>
      let set := side.l1.setIdx addr
      if (side.l1.line set way).dirty then
        atSecond (accessL2Events side.back.l2 (addr / blockSize * blockSize) true) ++ atFirst [.writeback, .drop set way]
      else atFirst [.drop set way]

theorem snoopInvalidate_traces (side : Hier) (addr : Nat) :
    Traces side (snoopInvalidateEvents side addr) (cacheSnoopInvalidate side addr) := by
  unfold snoopInvalidateEvents cacheSnoopInvalidate
  cases firstWay side.l1 addr fun line => line.matches (side.l1.tagOf addr) with
  | none => exact .refl side
  | some way =>
      dsimp only
      cases (side.l1.line (side.l1.setIdx addr) way).dirty with
      | true =>
          have written : Traces side (atSecond _) ⟨side.l1, (accessL2 side.back (addr / blockSize * blockSize)
              (side.l1.line (side.l1.setIdx addr) way).data true).2⟩ := .ofSecond (accessL2_run ..)
          have counted : CacheStep .first side.l1 .writeback { side.l1 with writebacks := side.l1.writebacks + 1 } :=
            .writeback
          exact written.trans (.ofFirst ⟨_, counted, _, .drop, rfl⟩ rfl)
      | false => exact .ofFirst ⟨_, .drop, rfl⟩ rfl

/-- `cache_snoop_flush_dirty`. -/
def snoopFlushDirtyEvents (side : Hier) (addr : Nat) : SideLog :=
  match firstWay side.l1 addr fun line => line.matches (side.l1.tagOf addr) && line.dirty with
  | none => []
  | some way =>
      atSecond (accessL2Events side.back.l2 (addr / blockSize * blockSize) true) ++
        atFirst [.writeback, .change (side.l1.setIdx addr) way]

theorem snoopFlushDirty_traces (side : Hier) (addr : Nat) :
    Traces side (snoopFlushDirtyEvents side addr) (cacheSnoopFlushDirty side addr) := by
  unfold snoopFlushDirtyEvents cacheSnoopFlushDirty
  cases firstWay side.l1 addr fun line => line.matches (side.l1.tagOf addr) && line.dirty with
  | none => exact .refl side
  | some way =>
      have written : Traces side (atSecond _) ⟨side.l1, (accessL2 side.back (addr / blockSize * blockSize)
          (side.l1.line (side.l1.setIdx addr) way).data true).2⟩ := .ofSecond (accessL2_run ..)
      have counted : CacheStep .first side.l1 .writeback { side.l1 with writebacks := side.l1.writebacks + 1 } :=
        .writeback
      exact written.trans (.ofFirst ⟨_, counted, _,
        .change (f := fun line => { line with dirtyInt := 0 }) (fun _ => rfl) (fun _ => rfl) fun _ => rfl, rfl⟩ rfl)

end Sustemu
