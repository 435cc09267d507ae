import Sustemu.Memory.CacheSystem

/-!
# The shortcut is transparent

`find_line` and `find_line_quiet` try the most recently used way before they
scan. The mark is updated on some paths and left alone on others, so it may
point anywhere. It still changes nothing: no set holds a block twice, so a
marked way that matches is the way a scan finds.
-/

set_option autoImplicit false

namespace Sustemu

open Lib

namespace Cache

variable {c d : Cache}

/-! ## What every event keeps -/

/-- A cache whose marks stay in range and that holds no block the other does not hold in the same way. -/
theorem WF.of_holds (wf : c.WF) (w : d.w = c.w) (mru : ∀ set way, (d.sets set).mruWay = some way → way < c.w)
    (holds : ∀ b way, d.Holds b way → c.Holds b way) : d.WF where
  ways := by
    rw [w]
    exact wf.ways
  mru := fun set way marked => by
    rw [w]
    exact mru set way marked
  unique := fun b left right first second => wf.unique b left right (holds b left first) (holds b right second)

theorem WF.modifyLine (wf : c.WF) {set way : Nat} {f : CacheLine → CacheLine}
    (fewer : ∀ line tag, (f line).matches tag = true → line.matches tag = true) : (c.modifyLine set way f).WF := by
  refine wf.of_holds rfl (fun set' way' marked => ?_) fun b way' held => ⟨held.1, ?_⟩
  · rw [mruWay_modifyLine] at marked
    exact wf.mru set' way' marked
  · have found := held.2
    rw [show (c.modifyLine set way f).s = c.s from rfl, line_modifyLine] at found
    split at found
    · next here =>
        rw [here.1, here.2]
        exact fewer _ _ found
    · exact found

theorem filled_wf {level : Level} {addr way : Nat} (wf : c.WF) (bound : way < c.w)
    (missing : ∀ other, ¬c.Holds (addr / blockSize) other) (dirty : Bool) (data : ByteMem) :
    (c.filled level addr way dirty data).WF := by
  have counted : (c.counted level (c.line (c.setIdx addr) way).occupant).WF := ⟨wf.ways, wf.mru, wf.unique⟩
  exact (modifyLine_refill counted bound missing _ rfl (tagOf_eq c addr)).1

end Cache

section Runs

variable {level : Level} {c c' : Cache} {event : CacheEvent}

theorem CacheStep.wf (step : CacheStep level c event c') (wf : c.WF) : c'.WF := by
  cases step with
  | @quiet addr _ found =>
      have looked := (Cache.findLineQuiet_spec wf addr).1
      unfold findLineQuiet at looked
      rw [found] at looked
      exact looked
  | @hit addr => exact (Cache.findLine_spec wf addr).1
  | @refill addr _ _ _ found =>
      obtain ⟨looked, _, outcome⟩ := Cache.findLine_spec wf addr
      rw [findLine_miss found] at looked outcome ⊢
      exact Cache.filled_wf looked outcome.1 outcome.2 _ _
  | prefetch found =>
      obtain ⟨bound, missing⟩ := Cache.selectWay_miss wf found
      exact Cache.filled_wf wf bound missing _ _
  | change valid tag _ =>
      refine wf.modifyLine fun line wanted found => ?_
      rw [CacheLine.matches, valid, tag] at found
      exact found
  | drop => exact wf.modifyLine fun _ _ found => absurd found Bool.false_ne_true
  | writeback => exact ⟨wf.ways, wf.mru, wf.unique⟩

/-! ## The block a way was filled with -/

/-- The block that an event puts into a way. -/
def CacheEvent.fills (set way : Nat) : CacheEvent → Option Nat
  | .refill set' way' block _ | .prefetch set' way' block _ => if set' = set ∧ way' = way then some block else none
  | _ => none

/-- The block that a way was filled with last. -/
def lastFill (events : List CacheEvent) (set way : Nat) : Option Nat :=
  events.reverse.findSome? (CacheEvent.fills set way)

theorem lastFill_snoc (events : List CacheEvent) (event : CacheEvent) (set way : Nat) :
    lastFill (events ++ [event]) set way = (event.fills set way).or (lastFill events set way) := by
  unfold lastFill
  rw [List.reverse_append, List.findSome?_append]
  cases filled : event.fills set way with
  | none => simp [filled]
  | some block => simp [filled]

/-- A valid line is of the block its way was filled with last. -/
def Cache.Recorded (c : Cache) (events : List CacheEvent) : Prop :=
  ∀ set way, (c.line set way).valid = true →
    ∃ block, lastFill events set way = some block ∧ block % 2 ^ c.s = set ∧ block / 2 ^ c.s = (c.line set way).tag

theorem Cache.Recorded.keep {events : List CacheEvent} (recorded : c.Recorded events) (s : c'.s = c.s)
    (none : ∀ set way, event.fills set way = none)
    (lines : ∀ set way, (c'.line set way).valid = true →
      (c.line set way).valid = true ∧ (c'.line set way).tag = (c.line set way).tag) :
    c'.Recorded (events ++ [event]) := by
  intro set way valid
  obtain ⟨before, tag⟩ := lines set way valid
  rw [lastFill_snoc, none, Option.none_or, s, tag]
  exact recorded set way before

theorem Cache.Recorded.fill {events : List CacheEvent} (recorded : c.Recorded events) (addr way : Nat) {d : Cache}
    (s : d.s = c.s) (lines : d.line = c.line) (dirty : Bool) (data : ByteMem)
    (fills : ∀ set way', event.fills set way' =
      if c.setIdx addr = set ∧ way = way' then some (addr / blockSize) else none) :
    (d.filled level addr way dirty data).Recorded (events ++ [event]) := by
  intro set way' valid
  have same : d.setIdx addr = c.setIdx addr := by
    unfold Cache.setIdx
    rw [s]
  have whole : (d.filled level addr way dirty data).s = c.s := s
  rw [lastFill_snoc, fills, whole]
  unfold Cache.filled at valid ⊢
  rw [Cache.line_modifyLine] at valid ⊢
  by_cases here : set = d.setIdx addr ∧ way' = way
  · rw [if_pos here, if_pos ⟨same.symm.trans here.1.symm, here.2.symm⟩]
    refine ⟨_, rfl, ?_, ?_⟩
    · rw [here.1, same]
      rfl
    · change _ = d.tagOf addr
      rw [Cache.tagOf_eq, s]
  · rw [if_neg here] at valid ⊢
    rw [if_neg fun there => here ⟨there.1.symm.trans same.symm, there.2.symm⟩, Option.none_or]
    change (d.line set way').valid = true at valid
    change ∃ block, _ ∧ _ ∧ _ = (d.line set way').tag
    rw [lines] at valid ⊢
    exact recorded set way' valid

theorem CacheStep.recorded {events : List CacheEvent} (step : CacheStep level c event c') (recorded : c.Recorded events) :
    c'.Recorded (events ++ [event]) := by
  cases step with
  | quiet found =>
      refine recorded.keep rfl (fun _ _ => rfl) fun set way valid => ?_
      rw [Cache.line_setMru] at valid ⊢
      exact ⟨valid, rfl⟩
  | hit found =>
      rw [findLine_hit found]
      refine recorded.keep rfl (fun _ _ => rfl) fun set way valid => ?_
      rw [Cache.line_setMru, Cache.line_modifyLine] at valid ⊢
      split at valid
      · next here =>
          rw [if_pos here, here.1, here.2]
          exact ⟨valid, rfl⟩
      · next elsewhere =>
          rw [if_neg elsewhere]
          exact ⟨valid, rfl⟩
  | @refill addr way _ _ found =>
      rw [findLine_miss found]
      exact recorded.fill addr way (d := { c with timer := c.timer + 1, misses := c.misses + 1 }) rfl rfl _ _
        fun _ _ => rfl
  | @prefetch addr way => exact recorded.fill addr way rfl rfl _ _ fun _ _ => rfl
  | change valid tag _ =>
      refine recorded.keep rfl (fun _ _ => rfl) fun set' way' live => ?_
      rw [Cache.line_modifyLine] at live ⊢
      split at live
      · next here =>
          rw [if_pos here, here.1, here.2]
          exact ⟨(valid _).symm.trans live, tag _⟩
      · next elsewhere =>
          rw [if_neg elsewhere]
          exact ⟨live, rfl⟩
  | drop =>
      refine recorded.keep rfl (fun _ _ => rfl) fun set' way' live => ?_
      rw [Cache.line_modifyLine] at live ⊢
      split at live
      · cases live
      · next elsewhere =>
          rw [if_neg elsewhere]
          exact ⟨live, rfl⟩
  | writeback => exact recorded.keep rfl (fun _ _ => rfl) fun _ _ valid => ⟨valid, rfl⟩

theorem run_wf {events : List CacheEvent} (wf : c.WF) (run : Run (CacheStep level) c events c') : c'.WF :=
  run.invariant Cache.WF CacheStep.wf wf

theorem run_recorded {events before : List CacheEvent} (recorded : c.Recorded before)
    (run : Run (CacheStep level) c events c') : c'.Recorded (before ++ events) :=
  run.history (fun _ step => step.recorded) recorded

end Runs

/-! ## Lookups without the shortcut -/

/-- The way loop alone. -/
def scanLine (c : Cache) (addr : Nat) : Bool × Nat :=
  scanWays (c.sets (c.setIdx addr)).lines (c.tagOf addr) c.w 0 0 maxTime

/-- `find_line_quiet` without the test of the marked way. -/
def findLineQuietScan (c : Cache) (addr : Nat) : Bool × Nat × Cache :=
  let (hit, way) := scanLine c addr
  (hit, way, if hit then c.setMru (c.setIdx addr) way else c)

/-- `find_line` without the test of the marked way. -/
def findLineScan (c : Cache) (addr : Nat) : Bool × Nat × Cache :=
  let c := { c with timer := c.timer + 1 }
  let (hit, way) := scanLine c addr
  let set := c.setIdx addr
  (hit, way,
    if hit then
      ({ c with hits := c.hits + 1 }.modifyLine set way fun line =>
        { line with lastAccess := c.timer }).setMru set way
    else { c with misses := c.misses + 1 })

namespace Cache

variable {c : Cache}

/-- The same cache with other marks. -/
def remark (c : Cache) (marks : Nat → Option Nat) : Cache :=
  { c with sets := fun set => ⟨(c.sets set).lines, marks set⟩ }

theorem selectWay_eq_scan (wf : c.WF) (addr : Nat) : selectWay c addr = scanLine c addr := by
  have unmarked : (c.remark fun _ => none).WF := ⟨wf.ways, nofun, wf.unique⟩
  have scanned : selectWay (c.remark fun _ => none) addr = scanLine c addr := rfl
  rw [← scanned]
  cases found : selectWay c addr with
  | mk hit way =>
      cases scan : selectWay (c.remark fun _ => none) addr with
      | mk hit' way' =>
          cases hit with
          | true =>
              have held := selectWay_hit wf found
              cases hit' with
              | true => rw [wf.unique _ _ _ held (selectWay_hit unmarked scan)]
              | false => exact absurd held ((selectWay_miss unmarked scan).2 way)
          | false =>
              -- a mark that does not match leaves the choice to the scan
              have fell : selectWay c addr = scanLine c addr := by
                unfold selectWay at found ⊢
                dsimp only at found ⊢
                split at found
                · next marked =>
                    split at found
                    · cases found
                    · next stale => exact if_neg stale
                · rfl
              rw [← found, fell, ← scan, scanned]

theorem findLineQuiet_eq_scan (wf : c.WF) (addr : Nat) : findLineQuiet c addr = findLineQuietScan c addr := by
  unfold findLineQuiet findLineQuietScan
  rw [selectWay_eq_scan wf]

theorem findLine_eq_scan (wf : c.WF) (addr : Nat) : findLine c addr = findLineScan c addr := by
  have ticked : Cache.WF { c with timer := c.timer + 1 } := ⟨wf.ways, wf.mru, wf.unique⟩
  unfold findLine findLineScan
  dsimp only
  rw [selectWay_eq_scan ticked]

/-! ## Caches that differ in their marks -/

/-- The other cache differs in its marks at most. -/
def Remarked (c d : Cache) : Prop := ∃ marks, d = c.remark marks

theorem Remarked.refl (c : Cache) : c.Remarked c := ⟨fun set => (c.sets set).mruWay, rfl⟩

theorem remark_modifyLine (marks : Nat → Option Nat) (set way : Nat) (f : CacheLine → CacheLine) :
    (c.remark marks).modifyLine set way f = (c.modifyLine set way f).remark marks := by
  refine congrArg (fun sets => ({ c with sets := sets } : Cache)) (funext fun set' => ?_)
  by_cases same : set' = set
  · subst same
    simp [line, remark, modifyLine]
  · simp [same, remark, modifyLine]

theorem Remarked.setMru {d : Cache} (same : c.Remarked d) (set set' way way' : Nat) :
    (c.setMru set way).Remarked (d.setMru set' way') := by
  obtain ⟨marks, rfl⟩ := same
  refine ⟨setAt marks set' (some way'), ?_⟩
  refine congrArg (fun sets => ({ c with sets := sets } : Cache)) (funext fun x => ?_)
  by_cases here : x = set'
  · subst here
    by_cases there : x = set
    · subst there
      simp [remark, Cache.setMru]
    · simp [there, remark, Cache.setMru]
  · by_cases there : x = set
    · subst there
      simp [here, remark, Cache.setMru]
    · simp [here, there, remark, Cache.setMru]

theorem Remarked.modifyLine {d : Cache} (same : c.Remarked d) (set way : Nat) (f : CacheLine → CacheLine) :
    (c.modifyLine set way f).Remarked (d.modifyLine set way f) := by
  obtain ⟨marks, rfl⟩ := same
  exact ⟨marks, remark_modifyLine marks set way f⟩

theorem Remarked.line {d : Cache} (same : c.Remarked d) : d.line = c.line := by
  obtain ⟨marks, rfl⟩ := same
  rfl

theorem Remarked.bytes {d : Cache} (same : c.Remarked d) : d.bytes = c.bytes := by
  unfold Cache.bytes
  rw [same.line]

theorem Remarked.s {d : Cache} (same : c.Remarked d) : d.s = c.s := by
  obtain ⟨marks, rfl⟩ := same
  rfl

theorem Remarked.timer {d : Cache} (same : c.Remarked d) : d.timer = c.timer := by
  obtain ⟨marks, rfl⟩ := same
  rfl

theorem Remarked.setIdx {d : Cache} (same : c.Remarked d) (addr : Nat) : d.setIdx addr = c.setIdx addr := by
  unfold Cache.setIdx
  rw [same.s]

theorem Remarked.tagOf {d : Cache} (same : c.Remarked d) (addr : Nat) : d.tagOf addr = c.tagOf addr := by
  unfold Cache.tagOf
  rw [same.s]

theorem Remarked.blockAddr {d : Cache} (same : c.Remarked d) : d.blockAddr = c.blockAddr := by
  obtain ⟨marks, rfl⟩ := same
  rfl

theorem Remarked.filled {d : Cache} (same : c.Remarked d) (level : Level) (addr way : Nat) (dirty : Bool)
    (data : ByteMem) : (c.filled level addr way dirty data).Remarked (d.filled level addr way dirty data) := by
  obtain ⟨marks, rfl⟩ := same
  exact ⟨marks, remark_modifyLine (c := c.counted level (c.line (c.setIdx addr) way).occupant) marks ..⟩

theorem Remarked.written {d : Cache} (same : c.Remarked d) :
    Remarked { c with writebacks := c.writebacks + 1 } { d with writebacks := d.writebacks + 1 } := by
  obtain ⟨marks, rfl⟩ := same
  exact ⟨marks, rfl⟩

theorem Remarked.selectWay {d : Cache} (same : c.Remarked d) (wf : c.WF) (wf' : d.WF) (addr : Nat) :
    selectWay d addr = selectWay c addr := by
  rw [selectWay_eq_scan wf, selectWay_eq_scan wf']
  obtain ⟨marks, rfl⟩ := same
  rfl

theorem Remarked.findLineQuiet {d : Cache} (same : c.Remarked d) (wf : c.WF) (wf' : d.WF) (addr : Nat) :
    (findLineQuiet d addr).1 = (findLineQuiet c addr).1 ∧ (findLineQuiet d addr).2.1 = (findLineQuiet c addr).2.1 ∧
      (findLineQuiet c addr).2.2.Remarked (findLineQuiet d addr).2.2 := by
  unfold Sustemu.findLineQuiet
  rw [same.selectWay wf wf']
  cases Sustemu.selectWay c addr with
  | mk hit way =>
      cases hit with
      | true => exact ⟨rfl, rfl, same.setMru ..⟩
      | false => exact ⟨rfl, rfl, same⟩

theorem Remarked.findLine {d : Cache} (same : c.Remarked d) (wf : c.WF) (wf' : d.WF) (addr : Nat) :
    (findLine d addr).1 = (findLine c addr).1 ∧ (findLine d addr).2.1 = (findLine c addr).2.1 ∧
      (findLine c addr).2.2.Remarked (findLine d addr).2.2 := by
  have agree := same.selectWay wf wf' addr
  obtain ⟨marks, rfl⟩ := same
  cases found : Sustemu.selectWay c addr with
  | mk hit way =>
      rw [found] at agree
      cases hit with
      | true =>
          rw [findLine_hit found, findLine_hit agree]
          refine ⟨rfl, rfl, Remarked.setMru ⟨marks, ?_⟩ ..⟩
          exact remark_modifyLine (c := { c with timer := c.timer + 1, hits := c.hits + 1 }) marks ..
      | false =>
          rw [findLine_miss found, findLine_miss agree]
          exact ⟨rfl, rfl, marks, rfl⟩

end Cache

/-- The second levels differ in their marks at most, and the memories not at all. -/
structure Backing.Alike (a b : Backing) : Prop where
  wf : a.l2.WF
  wf' : b.l2.WF
  l2 : a.l2.Remarked b.l2
  pmem : b.pmem = a.pmem

/-- The sides differ in the marks of their caches at most. -/
structure Hier.Alike (a b : Hier) : Prop where
  wf : a.l1.WF
  wf' : b.l1.WF
  l1 : a.l1.Remarked b.l1
  back : a.back.Alike b.back

theorem Backing.Alike.accessL2 {a b : Backing} (alike : a.Alike b) (addr : Nat) (data : ByteMem) (isWrite : Bool) :
    (accessL2 b addr data isWrite).1 = (accessL2 a addr data isWrite).1 ∧
      (accessL2 a addr data isWrite).2.Alike (accessL2 b addr data isWrite).2 := by
  have wf := run_wf alike.wf (accessL2_run a addr data isWrite)
  have wf' := run_wf alike.wf' (accessL2_run b addr data isWrite)
  obtain ⟨flag, way, looked⟩ := alike.l2.findLine alike.wf alike.wf' addr
  have pmem := alike.pmem
  suffices parts : (Sustemu.accessL2 b addr data isWrite).1 = (Sustemu.accessL2 a addr data isWrite).1 ∧
      (Sustemu.accessL2 a addr data isWrite).2.l2.Remarked (Sustemu.accessL2 b addr data isWrite).2.l2 ∧
      (Sustemu.accessL2 b addr data isWrite).2.pmem = (Sustemu.accessL2 a addr data isWrite).2.pmem from
    ⟨parts.1, wf, wf', parts.2.1, parts.2.2⟩
  clear wf wf'
  unfold Sustemu.accessL2
  rw [pmem]
  generalize findLine a.l2 addr = x at flag way looked ⊢
  generalize findLine b.l2 addr = y at flag way looked ⊢
  obtain ⟨hit, found, c⟩ := x
  obtain ⟨hit', found', d⟩ := y
  cases flag
  cases way
  obtain ⟨marks, rfl⟩ : c.Remarked d := looked
  dsimp only
  rw [show (c.remark marks).setIdx addr = c.setIdx addr from rfl, show (c.remark marks).line = c.line from rfl,
    show (c.remark marks).blockAddr = c.blockAddr from rfl]
  cases hit with
  | true =>
      cases isWrite with
      | true =>
          refine ⟨rfl, ⟨marks, ?_⟩, rfl⟩
          simp only [↓reduceIte]
          exact Cache.remark_modifyLine (c := c) marks ..
      | false => exact ⟨rfl, ⟨marks, rfl⟩, rfl⟩
  | false =>
      -- the counters move together
      let counted : Cache := { c with evictions := c.evictions + 1, writebacks := c.writebacks + 1 }
      cases (c.line (c.setIdx addr) found).valid && (c.line (c.setIdx addr) found).dirty with
      | true =>
          cases isWrite <;> refine ⟨rfl, ⟨marks, ?_⟩, rfl⟩ <;> simp only [↓reduceIte, Bool.false_eq_true] <;>
            exact Cache.remark_modifyLine (c := counted) marks ..
      | false =>
          cases isWrite <;> refine ⟨rfl, ⟨marks, ?_⟩, rfl⟩ <;> simp only [↓reduceIte, Bool.false_eq_true] <;>
            exact Cache.remark_modifyLine (c := c) marks ..

theorem Backing.Alike.accessL2Events {a b : Backing} (alike : a.Alike b) (addr : Nat) (isWrite : Bool) :
    accessL2Events b.l2 addr isWrite = accessL2Events a.l2 addr isWrite := by
  unfold Sustemu.accessL2Events
  rw [alike.l2.selectWay alike.wf alike.wf', alike.l2.setIdx, alike.l2.line]

/-! ## Sides that differ in their marks -/

theorem Cache.Remarked.quietEvents {c d : Cache} (same : c.Remarked d) (wf : c.WF) (wf' : d.WF) (addr : Nat) :
    quietEvents d addr = quietEvents c addr := by
  unfold Sustemu.quietEvents
  rw [same.selectWay wf wf', same.setIdx]

theorem fetchBlock_wf {side : Hier} {addr way : Nat} (wf : side.l1.WF)
    (found : selectWay side.l1 addr = (false, way)) : (fetchBlock side addr way).l1.WF := by
  obtain ⟨bound, missing⟩ := Cache.selectWay_miss wf found
  obtain ⟨data, l1⟩ := fetchBlock_l1 side addr way
  rw [l1]
  exact Cache.filled_wf wf bound missing _ _

namespace Hier.Alike

variable {a b : Hier}

theorem victimWritten (l1 : a.l1.Remarked b.l1) (back : a.back.Alike b.back) (set way : Nat) :
    (victimWritten a set way).Alike (victimWritten b set way) := by
  unfold Sustemu.victimWritten
  rw [l1.line, l1.blockAddr]
  dsimp only
  split
  · exact (back.accessL2 ..).2
  · exact back

theorem fetchEvents (l1 : a.l1.Remarked b.l1) (back : a.back.Alike b.back) (addr way : Nat) :
    fetchEvents b addr way = fetchEvents a addr way := by
  unfold Sustemu.fetchEvents
  dsimp only
  rw [l1.setIdx, l1.line, l1.blockAddr, back.accessL2Events, (victimWritten l1 back ..).accessL2Events]

theorem fetchBlock (l1 : a.l1.Remarked b.l1) (back : a.back.Alike b.back) (addr way : Nat) :
    (fetchBlock a addr way).l1.Remarked (fetchBlock b addr way).l1 ∧
      (fetchBlock a addr way).back.Alike (fetchBlock b addr way).back := by
  have written := victimWritten l1 back (a.l1.setIdx addr) way
  obtain ⟨data, read⟩ := written.accessL2 addr (a.l1.line (a.l1.setIdx addr) way).data false
  rw [fetchBlock_eq, fetchBlock_eq]
  dsimp only
  rw [l1.setIdx, l1.line, data]
  exact ⟨l1.filled .., read⟩

theorem prefetch (alike : a.Alike b) (hint : Nat → Nat) (degree cur : Nat) :
    prefetchEvents hint degree b cur = prefetchEvents hint degree a cur ∧
      (cachePrefetch hint degree a cur).Alike (cachePrefetch hint degree b cur) := by
  induction degree generalizing a b cur with
  | zero => exact ⟨rfl, alike⟩
  | succ degree ih =>
      unfold prefetchEvents cachePrefetch
      dsimp only
      split
      · exact ⟨rfl, alike⟩
      · have agree := alike.l1.selectWay alike.wf alike.wf' (hint cur)
        have fetched := fetchEvents alike.l1 alike.back (hint cur)
        have looked := alike.l1.findLineQuiet alike.wf alike.wf' (hint cur)
        have wf := (Cache.findLineQuiet_spec alike.wf (hint cur)).1
        have wf' := (Cache.findLineQuiet_spec alike.wf' (hint cur)).1
        rw [agree, alike.l1.setIdx, alike.l1.line]
        unfold findLineQuiet at looked wf wf' ⊢
        rw [agree] at looked wf' ⊢
        cases found : selectWay a.l1 (hint cur) with
        | mk already way =>
            rw [found] at agree looked wf wf'
            cases already with
            | true =>
                obtain ⟨events, after⟩ := ih (a := ⟨_, a.back⟩) (b := ⟨_, b.back⟩) ⟨wf, wf', looked.2.2, alike.back⟩ (hint cur)
                exact ⟨congrArg _ events, after⟩
            | false =>
                simp only [Bool.false_eq_true, ↓reduceIte]
                obtain ⟨l1, back⟩ := fetchBlock alike.l1 alike.back (hint cur) way
                obtain ⟨events, after⟩ := ih ⟨fetchBlock_wf alike.wf found, fetchBlock_wf alike.wf' agree, l1, back⟩ (hint cur)
                refine ⟨?_, after⟩
                rw [fetched, events]

theorem looked (alike : a.Alike b) (addr : Nat) : (a.looked addr).Alike (b.looked addr) where
  wf := (Cache.findLine_spec alike.wf addr).1
  wf' := (Cache.findLine_spec alike.wf' addr).1
  l1 := (alike.l1.findLine alike.wf alike.wf' addr).2.2
  back := alike.back

theorem asked (alike : a.Alike b) (addr : Nat) : (a.asked addr).Alike (b.asked addr) where
  wf := (Cache.findLine_spec alike.wf addr).1
  wf' := (Cache.findLine_spec alike.wf' addr).1
  l1 := (alike.l1.findLine alike.wf alike.wf' addr).2.2
  back :=
    { wf := (Cache.findLineQuiet_spec alike.back.wf addr).1
      wf' := (Cache.findLineQuiet_spec alike.back.wf' addr).1
      l2 := (alike.back.l2.findLineQuiet alike.back.wf alike.back.wf' addr).2.2
      pmem := alike.back.pmem }

/-- A refill after the lookups of a miss. -/
theorem refill (alike : a.Alike b) {aside bside : Hier} (after : aside.Alike bside) {addr way : Nat}
    (lookup : aside.l1 = (findLine a.l1 addr).2.2) (lookup' : bside.l1 = (findLine b.l1 addr).2.2)
    (found : selectWay a.l1 addr = (false, way)) (hint : Nat → Nat) :
    refillEvents hint b bside addr way = refillEvents hint a aside addr way ∧
      (cachePrefetch hint prefetchDegree (Sustemu.fetchBlock aside addr way) addr).Alike
        (cachePrefetch hint prefetchDegree (Sustemu.fetchBlock bside addr way) addr) := by
  have found' : selectWay b.l1 addr = (false, way) := (alike.l1.selectWay alike.wf alike.wf' addr).trans found
  have missed : selectWay aside.l1 addr = (false, way) := by
    rw [lookup, findLine_miss found]
    exact found
  have missed' : selectWay bside.l1 addr = (false, way) := by
    rw [lookup', findLine_miss found']
    exact found'
  obtain ⟨l1, back⟩ := fetchBlock after.l1 after.back addr way
  obtain ⟨events, filled⟩ :=
    prefetch ⟨fetchBlock_wf after.wf missed, fetchBlock_wf after.wf' missed', l1, back⟩ hint prefetchDegree addr
  refine ⟨?_, filled⟩
  unfold refillEvents
  rw [fetchEvents after.l1 after.back, alike.l1.setIdx, alike.l1.line, events]

theorem touch (alike : a.Alike b) (hint : Nat → Nat) (addr : Nat) :
    touchEvents hint b addr = touchEvents hint a addr ∧ (cacheTouch hint b addr).1 = (cacheTouch hint a addr).1 ∧
      (cacheTouch hint a addr).2.Alike (cacheTouch hint b addr).2 := by
  have agree := alike.l1.selectWay alike.wf alike.wf' addr
  unfold touchEvents
  cases found : selectWay a.l1 addr with
  | mk hit way =>
      rw [found] at agree
      rw [agree, alike.l1.setIdx]
      cases hit with
      | true =>
          rw [cacheTouch_hit hint found, cacheTouch_hit hint agree]
          exact ⟨rfl, rfl, alike.looked addr⟩
      | false =>
          obtain ⟨events, filled⟩ := alike.refill (alike.looked addr) rfl rfl found hint
          rw [cacheTouch_miss hint found, cacheTouch_miss hint agree]
          exact ⟨events, rfl, filled⟩

/-- What an access finds in the block it has touched. -/
theorem value (alike : a.Alike b) (set way offset len : Nat) :
    b.l1.copyOut set way offset len = a.l1.copyOut set way offset len := by
  unfold Cache.copyOut
  rw [alike.l1.bytes, alike.l1.line]

theorem readLevel (alike : a.Alike b) (hint : Nat → Nat) (addr len : Nat) :
    readLevelEvents hint b addr = readLevelEvents hint a addr ∧
      (cacheReadLevel hint b addr len).1 = (cacheReadLevel hint a addr len).1 ∧
      (cacheReadLevel hint b addr len).2.1 = (cacheReadLevel hint a addr len).2.1 ∧
      (cacheReadLevel hint a addr len).2.2.Alike (cacheReadLevel hint b addr len).2.2 := by
  have agree := alike.l1.selectWay alike.wf alike.wf' addr
  have quiet := alike.back.l2.quietEvents alike.back.wf alike.back.wf' addr
  have second := (alike.back.l2.findLineQuiet alike.back.wf alike.back.wf' addr).1
  unfold readLevelEvents
  cases found : selectWay a.l1 addr with
  | mk hit way =>
      rw [found] at agree
      rw [agree, alike.l1.setIdx]
      cases hit with
      | true =>
          have looked := alike.looked addr
          rw [cacheReadLevel_hit hint found, cacheReadLevel_hit hint agree, looked.l1.setIdx]
          exact ⟨rfl, rfl, looked.value .., looked⟩
      | false =>
          have asked := alike.asked addr
          obtain ⟨events, filled⟩ := alike.refill asked rfl rfl found hint
          rw [cacheReadLevel_miss hint found, cacheReadLevel_miss hint agree, second, asked.l1.setIdx]
          refine ⟨?_, rfl, filled.value .., filled⟩
          dsimp only
          rw [quiet, events]

theorem probe (alike : a.Alike b) (addr : Nat) :
    probeEvents b addr = probeEvents a addr ∧ (cacheProbeLevel b addr).1 = (cacheProbeLevel a addr).1 ∧
      (cacheProbeLevel a addr).2.Alike (cacheProbeLevel b addr).2 := by
  have first := alike.l1.findLineQuiet alike.wf alike.wf' addr
  have second := alike.back.l2.findLineQuiet alike.back.wf alike.back.wf' addr
  have wf := (Cache.findLineQuiet_spec alike.wf addr).1
  have wf' := (Cache.findLineQuiet_spec alike.wf' addr).1
  have back : Backing.Alike { a.back with l2 := (findLineQuiet a.back.l2 addr).2.2 }
      { b.back with l2 := (findLineQuiet b.back.l2 addr).2.2 } :=
    ⟨(Cache.findLineQuiet_spec alike.back.wf addr).1, (Cache.findLineQuiet_spec alike.back.wf' addr).1, second.2.2,
      alike.back.pmem⟩
  refine ⟨?_, ?_⟩
  · unfold probeEvents
    rw [alike.l1.quietEvents alike.wf alike.wf', alike.l1.selectWay alike.wf alike.wf',
      alike.back.l2.quietEvents alike.back.wf alike.back.wf']
  · unfold cacheProbeLevel
    generalize findLineQuiet a.l1 addr = x at first wf ⊢
    generalize findLineQuiet b.l1 addr = y at first wf' ⊢
    obtain ⟨hit, way, l1⟩ := x
    obtain ⟨hit', way', l1'⟩ := y
    obtain ⟨flag, _, marked⟩ := first
    cases flag
    cases hit with
    | true => exact ⟨rfl, wf, wf', marked, alike.back⟩
    | false =>
        refine ⟨?_, wf, wf', marked, back⟩
        dsimp only
        rw [second.1]
        rfl

theorem write (alike : a.Alike b) (hint : Nat → Nat) {addr len : Nat} (inside : addr % blockSize + len ≤ blockSize)
    (data : Word) : writeEvents hint b addr = writeEvents hint a addr ∧
      (cacheWrite hint a addr len data).Alike (cacheWrite hint b addr len data) := by
  obtain ⟨events, way, touched⟩ := alike.touch hint addr
  refine ⟨?_, ?_⟩
  · unfold writeEvents
    rw [events, way, touched.l1.setIdx]
  · unfold cacheWrite
    generalize cacheTouch hint a addr = x at way touched ⊢
    generalize cacheTouch hint b addr = y at way touched ⊢
    obtain ⟨_, x⟩ := x
    obtain ⟨_, y⟩ := y
    cases way
    have kept : ∀ {c : Cache} {set way : Nat}, c.WF → (c.copyIn set way (addr % blockSize) len data).WF := by
      intro c set way wf
      have step : CacheStep .first c (.change set way) (c.copyIn set way (addr % blockSize) len data) :=
        .copyIn c inside data
      exact step.wf wf
    refine ⟨kept touched.wf, kept touched.wf', ?_, touched.back⟩
    dsimp only
    rw [touched.l1.setIdx, Cache.copyIn_inside inside, Cache.copyIn_inside inside]
    exact touched.l1.modifyLine ..

theorem firstWay (alike : a.Alike b) (addr : Nat) (wanted : CacheLine → Bool) :
    firstWay b.l1 addr wanted = firstWay a.l1 addr wanted := by
  obtain ⟨marks, same⟩ := alike.l1
  rw [same]
  rfl

theorem snoopInvalidate (alike : a.Alike b) (addr : Nat) :
    snoopInvalidateEvents b addr = snoopInvalidateEvents a addr ∧
      (cacheSnoopInvalidate a addr).Alike (cacheSnoopInvalidate b addr) := by
  unfold snoopInvalidateEvents cacheSnoopInvalidate
  rw [alike.l1.tagOf, alike.firstWay, alike.l1.setIdx, alike.l1.line, alike.back.accessL2Events]
  refine ⟨rfl, ?_⟩
  cases Sustemu.firstWay a.l1 addr fun line => line.matches (a.l1.tagOf addr) with
  | none => exact alike
  | some way =>
      let drop : CacheLine → CacheLine := fun line => { line with validInt := 0, dirtyInt := 0 }
      have dropped : ∀ {c : Cache}, c.WF → (c.modifyLine (a.l1.setIdx addr) way drop).WF :=
        fun wf => wf.modifyLine fun _ _ found => nomatch found
      dsimp only
      cases (a.l1.line (a.l1.setIdx addr) way).dirty with
      | true =>
          have written := alike.back.accessL2 (addr / blockSize * blockSize) (a.l1.line (a.l1.setIdx addr) way).data true
          obtain ⟨wf, wf', l1, _⟩ := alike
          have marked := l1.written.modifyLine (a.l1.setIdx addr) way drop
          exact ⟨dropped (c := { a.l1 with writebacks := _ }) ⟨wf.ways, wf.mru, wf.unique⟩,
            dropped (c := { b.l1 with writebacks := _ }) ⟨wf'.ways, wf'.mru, wf'.unique⟩, marked, written.2⟩
      | false =>
          have marked := alike.l1.modifyLine (a.l1.setIdx addr) way drop
          exact ⟨dropped alike.wf, dropped alike.wf', marked, alike.back⟩

theorem snoopFlushDirty (alike : a.Alike b) (addr : Nat) :
    snoopFlushDirtyEvents b addr = snoopFlushDirtyEvents a addr ∧
      (cacheSnoopFlushDirty a addr).Alike (cacheSnoopFlushDirty b addr) := by
  unfold snoopFlushDirtyEvents cacheSnoopFlushDirty
  rw [alike.l1.tagOf, alike.firstWay, alike.l1.setIdx, alike.l1.line, alike.back.accessL2Events]
  refine ⟨rfl, ?_⟩
  cases Sustemu.firstWay a.l1 addr fun line => line.matches (a.l1.tagOf addr) && line.dirty with
  | none => exact alike
  | some way =>
      let clean : CacheLine → CacheLine := fun line => { line with dirtyInt := 0 }
      have cleaned : ∀ {c : Cache}, c.WF → (c.modifyLine (a.l1.setIdx addr) way clean).WF :=
        fun wf => wf.modifyLine fun _ _ found => found
      have written := alike.back.accessL2 (addr / blockSize * blockSize) (a.l1.line (a.l1.setIdx addr) way).data true
      obtain ⟨wf, wf', l1, _⟩ := alike
      have marked := l1.written.modifyLine (a.l1.setIdx addr) way clean
      exact ⟨cleaned (c := { a.l1 with writebacks := _ }) ⟨wf.ways, wf.mru, wf.unique⟩,
        cleaned (c := { b.l1 with writebacks := _ }) ⟨wf'.ways, wf'.mru, wf'.unique⟩, marked, written.2⟩

/-- No call tells the sides apart, and its lookups and refills are the same. -/
theorem apply (alike : a.Alike b) (hint : Nat → Nat) {op : CacheOp} (inside : op.Inside) :
    op.events hint b = op.events hint a ∧ (op.apply hint b).1 = (op.apply hint a).1 ∧
      (op.apply hint a).2.Alike (op.apply hint b).2 := by
  cases op with
  | read addr len | fillAndRead addr len =>
      obtain ⟨events, way, touched⟩ := alike.touch hint addr
      refine ⟨events, ?_, touched⟩
      dsimp only [CacheOp.apply, cacheRead]
      rw [way, touched.l1.setIdx, touched.value]
  | readLevel addr len =>
      obtain ⟨events, level, value, after⟩ := alike.readLevel hint addr len
      refine ⟨events, ?_, after⟩
      dsimp only [CacheOp.apply]
      rw [level, value]
  | probeLevel addr =>
      obtain ⟨events, level, after⟩ := alike.probe addr
      exact ⟨events, congrArg Answer.level level, after⟩
  | write addr len data =>
      obtain ⟨events, after⟩ := alike.write hint inside data
      exact ⟨events, rfl, after⟩
  | l2Access addr data isWrite =>
      obtain ⟨block, after⟩ := alike.back.accessL2 addr data isWrite
      refine ⟨?_, congrArg Answer.block block, alike.wf, alike.wf', alike.l1, after⟩
      dsimp only [CacheOp.events]
      rw [alike.back.accessL2Events]
  | snoopInvalidate addr =>
      obtain ⟨events, after⟩ := alike.snoopInvalidate addr
      exact ⟨events, rfl, after⟩
  | snoopFlushDirty addr =>
      obtain ⟨events, after⟩ := alike.snoopFlushDirty addr
      exact ⟨events, rfl, after⟩

end Hier.Alike

/-! ## A probe leaves the marks only -/

theorem Cache.remarked_findLineQuiet (c : Cache) (addr : Nat) : c.Remarked (findLineQuiet c addr).2.2 := by
  unfold findLineQuiet
  cases selectWay c addr with
  | mk hit way =>
      cases hit with
      | false => exact .refl c
      | true =>
          refine ⟨setAt (fun set => (c.sets set).mruWay) (c.setIdx addr) (some way), ?_⟩
          refine congrArg (fun sets => ({ c with sets := sets } : Cache)) (funext fun set => ?_)
          by_cases same : set = c.setIdx addr
          · rw [same, setAt_self, setAt_self]
          · rw [setAt_of_ne same, setAt_of_ne same]

theorem Hier.alike_probe (side : Hier) (wf : side.l1.WF) (wf2 : side.back.l2.WF) (addr : Nat) :
    side.Alike (cacheProbeLevel side addr).2 := by
  have first := side.l1.remarked_findLineQuiet addr
  have second := side.back.l2.remarked_findLineQuiet addr
  have looked := (Cache.findLineQuiet_spec wf addr).1
  have asked := (Cache.findLineQuiet_spec wf2 addr).1
  unfold cacheProbeLevel
  generalize findLineQuiet side.l1 addr = x at first looked ⊢
  obtain ⟨hit, way, l1⟩ := x
  cases hit with
  | true => exact ⟨wf, looked, first, wf2, wf2, .refl _, rfl⟩
  | false => exact ⟨wf, looked, first, wf2, asked, second, rfl⟩

namespace CacheSystem

variable {ι : Type} {m n : CacheSystem ι}

/-- The systems differ in the marks of their caches at most. -/
def Alike (m n : CacheSystem ι) : Prop := ∀ i, (m.side i).Alike (n.side i)

variable [DecidableEq ι]

theorem Alike.put (alike : m.Alike n) {i : ι} {a b : Hier} (sides : a.Alike b) : (m.put i a).Alike (n.put i b) := by
  intro j
  unfold side CacheSystem.put
  dsimp only
  by_cases same : j = i
  · rw [same, setAt_self, setAt_self]
    exact sides
  · rw [setAt_of_ne same, setAt_of_ne same]
    exact ⟨(alike j).wf, (alike j).wf', (alike j).l1, sides.back⟩

theorem Alike.step (alike : m.Alike n) (hint : Nat → Nat) {call : ι × CacheOp} (inside : call.2.Inside) :
    (n.step hint call).1 = (m.step hint call).1 ∧ (m.step hint call).2.Alike (n.step hint call).2 := by
  obtain ⟨_, answer, after⟩ := (alike call.1).apply hint inside
  exact ⟨answer, alike.put after⟩

/-- No sequence of calls tells the systems apart. -/
theorem Alike.run (alike : m.Alike n) (hint : Nat → Nat) {calls : List (ι × CacheOp)}
    (inside : ∀ call ∈ calls, call.2.Inside) :
    (n.run hint calls).1 = (m.run hint calls).1 ∧ n.log hint calls = m.log hint calls ∧
      (m.run hint calls).2.Alike (n.run hint calls).2 := by
  induction calls generalizing m n with
  | nil => exact ⟨rfl, rfl, alike⟩
  | cons call rest ih =>
      have here := inside call List.mem_cons_self
      obtain ⟨answer, after⟩ := alike.step hint here
      obtain ⟨answers, logs, final⟩ := ih after fun call member => inside call (List.mem_cons_of_mem _ member)
      refine ⟨congrArg₂ List.cons answer answers, ?_, final⟩
      unfold log
      rw [((alike call.1).apply hint here).1, logs]

theorem initCache_wf {s w : Nat} (ways : 0 < w) : (initCache s w).WF :=
  ⟨ways, nofun, fun _ _ _ held => nomatch held.2⟩

theorem initCache_recorded (s w : Nat) : (initCache s w).Recorded [] := fun _ _ valid => nomatch valid

/-- Every cache that writes inside lines reach: each block has one way, the one it was put into. -/
theorem reached_recorded (hint : Nat → Nat) {geometry : Option ι → Nat × Nat} (ways : ∀ x, 0 < (geometry x).2)
    (pmem : ByteMem) {calls : List (ι × CacheOp)} (inside : ∀ call ∈ calls, call.2.Inside) (x : Option ι) :
    let c := ((init geometry pmem).run hint calls).2.cache x
    c.WF ∧ c.Recorded (history x ((init geometry pmem).log hint calls)) := by
  have run := run_traces hint (init geometry pmem) inside x
  have start : (init geometry pmem).cache x = initCache (geometry x).1 (geometry x).2 := by
    cases x <;> rfl
  have wf : ((init geometry pmem).cache x).WF := start ▸ initCache_wf (ways x)
  have recorded : ((init geometry pmem).cache x).Recorded [] := start ▸ initCache_recorded _ _
  exact ⟨run_wf wf run, run_recorded recorded run⟩

/-- As long as writes stay inside their lines, the shortcut is transparent: a
set holds each block once and under its own address, both lookups answer as the
scan alone, and after a probe no sequence of calls answers, looks up or replaces
otherwise. -/
theorem shortcut_transparent (hint : Nat → Nat) (geometry : Option ι → Nat × Nat) (ways : ∀ x, 0 < (geometry x).2)
    (pmem : ByteMem) (calls : List (ι × CacheOp)) (inside : ∀ call ∈ calls, call.2.Inside) :
    let reached := ((init geometry pmem).run hint calls).2
    (∀ x, let c := reached.cache x
      (∀ set left right, set < 2 ^ c.s → left < c.w → right < c.w → (c.line set left).valid = true →
        (c.line set right).valid = true → (c.line set left).tag = (c.line set right).tag → left = right) ∧
      (∀ set way, (c.line set way).valid = true → ∃ block,
        lastFill (history x ((init geometry pmem).log hint calls)) set way = some block ∧
          c.blockAddr set (c.line set way).tag = block * blockSize) ∧
      ∀ addr, findLine c addr = findLineScan c addr ∧ findLineQuiet c addr = findLineQuietScan c addr) ∧
    ∀ i addr later, (∀ call ∈ later, call.2.Inside) →
      let probed := (reached.step hint (i, .probeLevel addr)).2
      (probed.run hint later).1 = (reached.run hint later).1 ∧ probed.log hint later = reached.log hint later ∧
        (probed.run hint later).2.back.pmem = (reached.run hint later).2.back.pmem ∧
        ∀ x addr', let c := (reached.run hint later).2.cache x
          let d := (probed.run hint later).2.cache x
          c.Remarked d ∧ (findLine d addr').1 = (findLine c addr').1 ∧ (findLine d addr').2.1 = (findLine c addr').2.1 := by
  intro reached
  have sound : ∀ x, (reached.cache x).WF ∧
      (reached.cache x).Recorded (history x ((init geometry pmem).log hint calls)) :=
    reached_recorded hint ways pmem inside
  refine ⟨fun x => ?_, fun i addr later insideLater => ?_⟩
  · obtain ⟨wf, recorded⟩ := sound x
    refine ⟨fun set left right bound first second validLeft validRight same => ?_, fun set way valid => ?_, fun addr =>
      ⟨Cache.findLine_eq_scan wf addr, Cache.findLineQuiet_eq_scan wf addr⟩⟩
    · have heldLeft := holds_blockNumber bound first validLeft
      have heldRight := holds_blockNumber bound second validRight
      rw [same] at heldLeft
      exact wf.unique _ _ _ heldLeft heldRight
    · obtain ⟨block, filled, index, tag⟩ := recorded set way valid
      refine ⟨block, filled, ?_⟩
      rw [blockAddr_eq, ← tag, ← index, Nat.mul_comm (block / _), Nat.div_add_mod]
  · intro probed
    have refl : ∀ j, (reached.side j).Alike (reached.side j) := fun j =>
      ⟨(sound (some j)).1, (sound (some j)).1, .refl _, (sound none).1, (sound none).1, .refl _, rfl⟩
    have alike : reached.Alike probed := by
      intro j
      have side := Hier.alike_probe (reached.side i) (sound (some i)).1 (sound none).1 addr
      have put := Alike.put (i := i) refl side j
      have whole : reached.put i (reached.side i) = reached := by
        unfold CacheSystem.put
        rw [show (reached.side i).l1 = reached.l1 i from rfl, setAt_eq_self]
        rfl
      rw [whole] at put
      exact put
    obtain ⟨answers, logs, final⟩ := alike.run hint insideLater
    refine ⟨answers, logs, (final i).back.pmem, fun x addr' => ?_⟩
    cases x with
    | none =>
        have looked := (final i).back.l2.findLine (final i).back.wf (final i).back.wf' addr'
        exact ⟨(final i).back.l2, looked.1, looked.2.1⟩
    | some j =>
        have looked := (final j).l1.findLine (final j).wf (final j).wf' addr'
        exact ⟨(final j).l1, looked.1, looked.2.1⟩

/-- Two harts with direct-mapped caches: a write of the one, an invalidation of its copy and a read of the other. -/
theorem shortcut_transparent_harts :
    let start : CacheSystem Bool := init (fun _ => (1, 1)) fun _ => 0
    let reached := (start.run prefetchHint
      [(false, .write 0x80000000 8 5), (false, .snoopInvalidate 0x80000000), (true, .read 0x80000000 8)]).2
    findLine (reached.l1 true) 0x80000000 = findLineScan (reached.l1 true) 0x80000000 ∧
      ∀ addr, ((reached.step prefetchHint (true, .probeLevel addr)).2.run prefetchHint [(true, .write 0x80000008 8 7)]).1 =
        (reached.run prefetchHint [(true, .write 0x80000008 8 7)]).1 :=
  have transparent := shortcut_transparent (ι := Bool) prefetchHint (fun _ => (1, 1)) (fun _ => Nat.one_pos) (fun _ => 0)
    [(false, .write 0x80000000 8 5), (false, .snoopInvalidate 0x80000000), (true, .read 0x80000000 8)] (by decide)
  ⟨((transparent.1 (some true)).2.2 0x80000000).1,
    fun addr => (transparent.2 true addr [(true, .write 0x80000008 8 7)] (by decide)).1⟩

/-- Hart 0 reads two blocks, hart 1 writes the second, hart 0 reads it again into way 2, and the flag that hart 0 then
writes past the end of the first block is the `valid` of way 1. -/
def revivedLine : List (Bool × CacheOp) :=
  [(false, .read 0x80000000 8), (false, .read 0x80001000 8), (false, .snoopInvalidate 0x80001000),
    (true, .write 0x80001000 8 7), (true, .snoopFlushDirty 0x80001000), (false, .read 0x80001000 8),
    (true, .snoopInvalidate 0x8000003c), (false, .write 0x8000003c 8 0x100000000)]

private theorem revivedLine_lines : let c := ((init sizes fun _ => 0).run prefetchHint revivedLine).2.l1 false
    c.w = 8 ∧ (c.line 0 1).valid = true ∧ (c.line 0 2).valid = true ∧ (c.line 0 1).tag = (c.line 0 2).tag := by
  decide +kernel

/-- A set holds a block twice after a write that leaves its line. -/
theorem shortcut_misled : let c := ((init sizes fun _ => 0).run prefetchHint revivedLine).2.l1 false
    ¬∀ set left right, set < 2 ^ c.s → left < c.w → right < c.w → (c.line set left).valid = true →
      (c.line set right).valid = true → (c.line set left).tag = (c.line set right).tag → left = right := by
  intro c once
  obtain ⟨ways, first, second, same⟩ := revivedLine_lines
  have equal := once 0 1 2 (Nat.two_pow_pos _) (by rw [ways]; decide) (by rw [ways]; decide) first second same
  exact absurd equal (by decide)

end CacheSystem

end Sustemu
