import Sustemu.Memory.Coherence
import Sustemu.Memory.Vmem

/-!
# First-level accesses keep coherence

Every operation of a first-level cache works on one side of the hierarchy: the
cache itself and what lies behind it. `withData` and `withFetch` put such a
side back into the whole, and each operation is shown to keep the invariant of
the whole and to return the bytes of the flat memory.
-/

set_option autoImplicit false

namespace Sustemu

open Lib

structure Hier.WF (side : Hier) : Prop where
  l1 : side.l1.WF
  l2 : side.back.l2.WF

namespace Levels

/-- Data cache `h` and everything behind it replaced by `side`. -/
def withData (v : Levels) (h : Fin 2) (side : Hier) : Levels :=
  { v with l1d := setAt v.l1d h side.l1.block, l2 := side.back.l2.block, pmem := side.back.pmem }

/-- Instruction cache `h` and everything behind it replaced by `side`. -/
def withFetch (v : Levels) (h : Fin 2) (side : Hier) : Levels :=
  { v with l1i := setAt v.l1i h side.l1.block, l2 := side.back.l2.block, pmem := side.back.pmem }

@[simp] theorem withData_l1d_self (v : Levels) (h : Fin 2) (side : Hier) : (v.withData h side).l1d h = side.l1.block :=
  setAt_self ..

/-- A clean copy in one data cache excludes a dirty one in any. -/
theorem settled_of_clean {v : Levels} {f : Flat} (coherent : Coherent v f) {h : Fin 2} {b : Nat} {data : ByteMem}
    (clean : v.l1d h b = some (false, data)) : v.Settled b := by
  intro g data' dirty
  by_cases same : g = h
  · rw [same, clean] at dirty
    cases dirty
  · rw [coherent.exclusive g h b data' dirty (Ne.symm same)] at clean
    cases clean

end Levels

private theorem blockAddr_div {c : Cache} {set tag : Nat} :
    c.blockAddr set tag / blockSize = tag * 2 ^ c.s + set := by
  have product : c.blockAddr set tag = (tag * 2 ^ c.s + set) * blockSize := by
    rw [Cache.blockAddr, blockSize, Nat.pow_add, Nat.add_mul, Nat.mul_assoc]
  rw [product, Nat.mul_div_cancel _ (by decide)]

section Fill

variable {v : Levels} {f : Flat} {h : Fin 2} {side : Hier}

/-- What lies behind the first level once the dirty victim of a refill is written back. -/
def victimWritten (side : Hier) (set way : Nat) : Backing :=
  let victim := side.l1.line set way
  if victim.valid && victim.dirty then
    (accessL2 side.back (side.l1.blockAddr set victim.tag) victim.data true).2
  else side.back

private theorem writeVictim (wf : side.WF) (coherent : Coherent (v.withData h side) f) {set way : Nat}
    (setBound : set < 2 ^ side.l1.s) (bound : way < side.l1.w) :
    ∃ blocks, (victimWritten side set way).l2.WF ∧
      Coherent { v with
        l1d := setAt v.l1d h blocks
        l2 := (victimWritten side set way).l2.block
        pmem := (victimWritten side set way).pmem } f ∧
      (∀ x, x ≠ (side.l1.line set way).tag * 2 ^ side.l1.s + set → blocks x = side.l1.block x) ∧
      if (side.l1.line set way).valid then
        blocks ((side.l1.line set way).tag * 2 ^ side.l1.s + set) = some (false, (side.l1.line set way).data)
      else blocks = side.l1.block := by
  unfold victimWritten
  by_cases writes : (side.l1.line set way).valid = true ∧ (side.l1.line set way).dirty = true
  · obtain ⟨occupied, dirty⟩ := writes
    have copy : (v.withData h side).l1d h (side.l1.blockAddr set (side.l1.line set way).tag / blockSize) =
        some (true, (side.l1.line set way).data) := by
      have present := block_blockNumber wf.l1 setBound bound occupied
      rw [dirty] at present
      simpa only [blockAddr_div, Levels.withData, setAt_self] using present
    obtain ⟨wf', after⟩ := coherent.accessWrite side.back wf.l2 rfl rfl copy
    simp only [Levels.withData, setAt_self, setAt_idem, blockAddr_div] at after
    simp only [occupied, dirty, Bool.and_self, ↓reduceIte]
    exact ⟨_, wf', after, fun x different => setAt_of_ne different .., setAt_self ..⟩
  · have keeps : ¬ ((side.l1.line set way).valid && (side.l1.line set way).dirty) = true := by
      simpa using writes
    simp only [if_neg keeps]
    refine ⟨side.l1.block, wf.l2, coherent, fun _ _ => rfl, ?_⟩
    by_cases occupied : (side.l1.line set way).valid = true
    · have clean : (side.l1.line set way).dirty = false := by
        simpa using fun dirty => writes ⟨occupied, dirty⟩
      rw [if_pos occupied, block_blockNumber wf.l1 setBound bound occupied, clean]
    · rw [if_neg occupied]

/-- The counters of `fetch_block` for a victim line. -/
private def evictionCounted (l1 : Cache) (victim : CacheLine) : Cache :=
  let l1 := if victim.valid then { l1 with evictions := l1.evictions + 1 } else l1
  if victim.valid && victim.dirty then { l1 with writebacks := l1.writebacks + 1 } else l1

/-- `fetch_block` refills a way with the block that the second level returns. -/
private theorem fetchBlock_refill (wf : side.WF) {addr way : Nat} (bound : way < side.l1.w)
    (missing : ∀ other, ¬ side.l1.Holds (addr / blockSize) other) :
    let set := side.l1.setIdx addr
    let victim := side.l1.line set way
    let returned := accessL2 (victimWritten side set way) addr victim.data false
    (fetchBlock side addr way).back = returned.2 ∧ (fetchBlock side addr way).l1.WF ∧
      (fetchBlock side addr way).l1.Holds (addr / blockSize) way ∧
      (fetchBlock side addr way).l1.block = setAt
        (if victim.valid then setAt side.l1.block (victim.tag * 2 ^ side.l1.s + set) none
        else side.l1.block) (addr / blockSize) (some (false, returned.1)) := by
  intro set victim returned
  have refilled : ∀ evictions writebacks : Nat,
      let l1 : Cache := { side.l1 with evictions := evictions, writebacks := writebacks }
      let l1' := l1.modifyLine set way fun _ => ⟨1, 0, l1.tagOf addr, l1.timer, returned.1⟩
      l1'.WF ∧ l1'.Holds (addr / blockSize) way ∧ l1'.block = setAt
        (if victim.valid then setAt side.l1.block (victim.tag * 2 ^ side.l1.s + set) none
        else side.l1.block) (addr / blockSize) (some (false, returned.1)) := by
    intro evictions writebacks l1 l1'
    have wf1 : l1.WF := ⟨wf.l1.ways, wf.l1.mru, wf.l1.unique⟩
    obtain ⟨wf', effect⟩ := refill_block wf1 bound missing
      ⟨1, 0, l1.tagOf addr, l1.timer, returned.1⟩ (CacheLine.valid_one ..) (l1.tagOf_eq addr)
    rw [CacheLine.dirty_zero] at effect
    refine ⟨wf', ⟨bound, ?_⟩, effect⟩
    have placed : l1'.line (addr / blockSize % 2 ^ l1'.s) way =
        ⟨1, 0, l1.tagOf addr, l1.timer, returned.1⟩ := by
      rw [Cache.line_modifyLine, if_pos ⟨rfl, rfl⟩]
    rw [placed]
    simp [CacheLine.matches, l1.tagOf_eq, l1', Cache.modifyLine]
  have counters : ∃ evictions writebacks, evictionCounted side.l1 victim =
      { side.l1 with evictions := evictions, writebacks := writebacks } := by
    unfold evictionCounted
    split
    · split
      · exact ⟨_, _, rfl⟩
      · exact ⟨_, _, rfl⟩
    · split
      · exact ⟨_, _, rfl⟩
      · exact ⟨_, _, rfl⟩
  obtain ⟨evictions, writebacks, same⟩ := counters
  have unfolded : (fetchBlock side addr way).l1 = (evictionCounted side.l1 victim).modifyLine set way fun _ =>
      ⟨1, 0, (evictionCounted side.l1 victim).tagOf addr, (evictionCounted side.l1 victim).timer, returned.1⟩ :=
    rfl
  rw [unfolded, same]
  exact ⟨rfl, refilled evictions writebacks⟩

variable (side) in
/-- `fetch_block` on the data side brings a current clean copy in. -/
theorem fetchBlock_data (wf : side.WF) (coherent : Coherent (v.withData h side) f) {addr way : Nat}
    (bound : way < side.l1.w) (missing : ∀ other, ¬ side.l1.Holds (addr / blockSize) other)
    (settled : (v.withData h side).Settled (addr / blockSize)) :
    (fetchBlock side addr way).WF ∧ Coherent (v.withData h (fetchBlock side addr way)) f ∧
      (fetchBlock side addr way).l1.Holds (addr / blockSize) way := by
  obtain ⟨blocks, wfBack, written, others, victimCopy⟩ :=
    writeVictim wf coherent (side.l1.setIdx_lt addr) bound
  obtain ⟨behind, wfL1, holds, refilled⟩ := fetchBlock_refill wf bound missing
  have absent : side.l1.block (addr / blockSize) = none := Cache.block_of_not_holds missing
  have unoccupied : blocks (addr / blockSize) = none ∨ ∃ data, blocks (addr / blockSize) = some (false, data) := by
    split at victimCopy
    · by_cases victim : addr / blockSize = (side.l1.line (side.l1.setIdx addr) way).tag * 2 ^ side.l1.s + side.l1.setIdx addr
      · rw [victim]
        exact .inr ⟨_, victimCopy⟩
      · exact .inl ((others _ victim).trans absent)
    · rw [victimCopy]
      exact .inl absent
  have stillSettled : Levels.Settled
      { v with l1d := setAt v.l1d h blocks
               l2 := (victimWritten side (side.l1.setIdx addr) way).l2.block
               pmem := (victimWritten side (side.l1.setIdx addr) way).pmem } (addr / blockSize) := by
    intro g data found
    by_cases same : g = h
    · subst same
      simp only [setAt_self] at found
      rcases unoccupied with empty | ⟨data', clean⟩
      · rw [empty] at found
        cases found
      · rw [clean] at found
        cases found
    · apply settled g data
      simp only [Levels.withData, setAt_of_ne same] at found ⊢
      exact found
  obtain ⟨wfL2, read, current, _⟩ := written.accessRead wfBack rfl rfl addr
    (side.l1.line (side.l1.setIdx addr) way).data
  have filled := read.fillL1d (h := h) stillSettled (current stillSettled)
  simp only [setAt_self, setAt_idem] at filled
  refine ⟨⟨wfL1, behind ▸ wfL2⟩, ?_, holds⟩
  unfold Levels.withData
  rw [behind, refilled]
  split at victimCopy
  · next occupied =>
      rw [if_pos occupied]
      have different : (side.l1.line (side.l1.setIdx addr) way).tag * 2 ^ side.l1.s + side.l1.setIdx addr ≠
          addr / blockSize := by
        intro same
        have present := block_blockNumber wf.l1 (side.l1.setIdx_lt addr) bound occupied
        rw [same, absent] at present
        cases present
      have clean := filled.dropL1d (h := h) (Levels.settled_of_clean filled (h := h)
        (b := (side.l1.line (side.l1.setIdx addr) way).tag * 2 ^ side.l1.s + side.l1.setIdx addr)
        (by simpa only [setAt_self, setAt_of_ne different] using victimCopy))
      simp only [setAt_self, setAt_idem] at clean
      rw [setAt_comm different.symm] at clean
      have victimGone : ∀ u, (∀ x, x ≠ u → blocks x = side.l1.block x) →
          setAt blocks u none = setAt side.l1.block u none := by
        intro u others
        funext x
        by_cases same : x = u
        · rw [same, setAt_self, setAt_self]
        · rw [setAt_of_ne same, setAt_of_ne same, others x same]
      rwa [victimGone _ others] at clean
  · next empty =>
      rw [if_neg empty, ← victimCopy]
      exact filled

variable (side) in
/-- `fetch_block` on the instruction side: no victim is dirty, and the refill is
right wherever no store went. -/
theorem fetchBlock_fetch (wf : side.WF) (coherent : Coherent (v.withFetch h side) f) {addr way : Nat}
    (bound : way < side.l1.w) (missing : ∀ other, ¬ side.l1.Holds (addr / blockSize) other) :
    (fetchBlock side addr way).WF ∧ Coherent (v.withFetch h (fetchBlock side addr way)) f ∧
      (fetchBlock side addr way).l1.Holds (addr / blockSize) way := by
  obtain ⟨behind, wfL1, holds, refilled⟩ := fetchBlock_refill wf bound missing
  have notWritten : victimWritten side (side.l1.setIdx addr) way = side.back := by
    unfold victimWritten
    rw [if_neg]
    intro writes
    obtain ⟨occupied, dirty⟩ := Bool.and_eq_true_iff.mp writes
    have present := block_blockNumber wf.l1 (side.l1.setIdx_lt addr) bound occupied
    have clean := coherent.fetchClean h _ _ _ ((congrFun (setAt_self ..) _).trans present)
    rw [dirty] at clean
    cases clean
  rw [notWritten] at behind refilled
  obtain ⟨wfL2, read, _, code⟩ := coherent.accessRead wf.l2 rfl rfl addr
    (side.l1.line (side.l1.setIdx addr) way).data
  have filled := read.fillL1i (h := h) code
  simp only [Levels.withFetch, setAt_self, setAt_idem] at filled
  refine ⟨⟨wfL1, behind ▸ wfL2⟩, ?_, holds⟩
  unfold Levels.withFetch
  rw [behind, refilled]
  split
  · have absent : side.l1.block (addr / blockSize) = none := Cache.block_of_not_holds missing
    next occupied =>
      have different : (side.l1.line (side.l1.setIdx addr) way).tag * 2 ^ side.l1.s + side.l1.setIdx addr ≠
          addr / blockSize := by
        intro same
        have present := block_blockNumber wf.l1 (side.l1.setIdx_lt addr) bound occupied
        rw [same, absent] at present
        cases present
      have dropped := filled.dropL1i (h := h)
        (b := (side.l1.line (side.l1.setIdx addr) way).tag * 2 ^ side.l1.s + side.l1.setIdx addr)
      simp only [setAt_self, setAt_idem] at dropped
      rwa [setAt_comm different.symm] at dropped
  · exact filled

/-! ## Lookup -/

theorem cachePrefetch_none (degree : Nat) (side : Hier) (cur : Nat) :
    cachePrefetch prefetchHint degree side cur = side := by
  cases degree with
  | zero => rfl
  | succ degree => rfl

/-- A lookup leaves every block and the second level alone. -/
theorem findLine_side (wf : side.WF) (addr : Nat) :
    Hier.WF { side with l1 := (findLine side.l1 addr).2.2 } ∧
      (findLine side.l1 addr).2.2.block = side.l1.block ∧
      if (findLine side.l1 addr).1 then (findLine side.l1 addr).2.2.Holds (addr / blockSize) (findLine side.l1 addr).2.1
      else (findLine side.l1 addr).2.1 < (findLine side.l1 addr).2.2.w ∧
        ∀ way, ¬ (findLine side.l1 addr).2.2.Holds (addr / blockSize) way := by
  obtain ⟨wf1, same, outcome⟩ := Cache.findLine_spec wf.l1 addr
  refine ⟨⟨wf1, wf.l2⟩, same.block, ?_⟩
  split at outcome
  · next hit =>
      rw [if_pos hit]
      exact (same.holds _ _).mpr outcome
  · next miss =>
      rw [if_neg miss, same.w]
      exact ⟨outcome.1, fun way held => outcome.2 way ((same.holds _ _).mp held)⟩

/-- No data cache but that of `h` holds a dirty copy of block `b`. -/
def Levels.OthersClean (v : Levels) (h : Fin 2) (b : Nat) : Prop := ∀ g data, g ≠ h → v.l1d g b ≠ some (true, data)

theorem settled_of_missing {b : Nat} (clean : v.OthersClean h b) (missing : ∀ way, ¬ side.l1.Holds b way) :
    (v.withData h side).Settled b := by
  intro g data found
  by_cases same : g = h
  · subst same
    simp only [Levels.withData, setAt_self] at found
    rw [Cache.block_of_not_holds missing] at found
    cases found
  · simp only [Levels.withData, setAt_of_ne same] at found
    exact clean g data same found

theorem cacheTouch_data (wf : side.WF) (coherent : Coherent (v.withData h side) f) {addr : Nat}
    (clean : v.OthersClean h (addr / blockSize)) :
    (cacheTouch prefetchHint side addr).2.WF ∧
      Coherent (v.withData h (cacheTouch prefetchHint side addr).2) f ∧
      (cacheTouch prefetchHint side addr).2.l1.Holds (addr / blockSize) (cacheTouch prefetchHint side addr).1 := by
  obtain ⟨wf1, blocks, outcome⟩ := findLine_side wf addr
  have looked : Coherent (v.withData h { side with l1 := (findLine side.l1 addr).2.2 }) f := by
    unfold Levels.withData
    rw [blocks]
    exact coherent
  unfold cacheTouch
  cases lookup : findLine side.l1 addr with
  | mk hit rest =>
      obtain ⟨way, l1⟩ := rest
      rw [lookup] at wf1 outcome looked
      cases hit with
      | true => exact ⟨wf1, looked, outcome⟩
      | false =>
          simp only [Bool.false_eq_true, ↓reduceIte, cachePrefetch_none] at outcome ⊢
          exact fetchBlock_data _ wf1 looked outcome.1 outcome.2 (settled_of_missing clean outcome.2)

theorem cacheTouch_fetch (wf : side.WF) (coherent : Coherent (v.withFetch h side) f) (addr : Nat) :
    (cacheTouch prefetchHint side addr).2.WF ∧
      Coherent (v.withFetch h (cacheTouch prefetchHint side addr).2) f ∧
      (cacheTouch prefetchHint side addr).2.l1.Holds (addr / blockSize) (cacheTouch prefetchHint side addr).1 := by
  obtain ⟨wf1, blocks, outcome⟩ := findLine_side wf addr
  have looked : Coherent (v.withFetch h { side with l1 := (findLine side.l1 addr).2.2 }) f := by
    unfold Levels.withFetch
    rw [blocks]
    exact coherent
  unfold cacheTouch
  cases lookup : findLine side.l1 addr with
  | mk hit rest =>
      obtain ⟨way, l1⟩ := rest
      rw [lookup] at wf1 outcome looked
      cases hit with
      | true => exact ⟨wf1, looked, outcome⟩
      | false =>
          simp only [Bool.false_eq_true, ↓reduceIte, cachePrefetch_none] at outcome ⊢
          exact fetchBlock_fetch _ wf1 looked outcome.1 outcome.2

/-! ## Reads through clean lines -/

/-- The bytes that a lookup on one side finds: in the first level, else in the second, else in memory. -/
def Hier.content (side : Hier) : ByteMem := fun addr =>
  match side.l1.block (addr / blockSize), side.back.l2.block (addr / blockSize) with
  | some (_, data), _ => data (addr % blockSize)
  | none, some (_, data) => data (addr % blockSize)
  | none, none => side.back.pmem addr

/-- Making room leaves the memory behind an absent block alone. -/
private theorem MakesRoom.pmem_absent {blocks middle : BlockMap} {pmem pmem' : ByteMem} {b k : Nat}
    (room : MakesRoom blocks pmem middle pmem') (absent : blocks b = none) (inside : k < blockSize) :
    pmem' (b * blockSize + k) = pmem (b * blockSize + k) := by
  cases room with
  | keep => rfl
  | @evict u dirty data present =>
      have different : b ≠ u := by
        intro same
        rw [← same, absent] at present
        cases present
      cases dirty with
      | false => rfl
      | true => exact storeBlockToMem_other pmem data inside different

/-- A read of the second level returns its copy, or else the block in memory. -/
private theorem accessL2_content {back : Backing} (wf : back.l2.WF) (addr : Nat) (dest : ByteMem) {k : Nat}
    (inside : k < blockSize) : (accessL2 back addr dest false).1 k = match back.l2.block (addr / blockSize) with
      | some (_, data) => data k
      | none => back.pmem (addr / blockSize * blockSize + k) := by
  obtain ⟨middle, content, room, _, _, returned, _, copy⟩ := accessL2_read wf addr dest
  rw [returned k inside]
  rcases copy with present | ⟨absent, _, loaded⟩
  · rw [present]
  · rw [absent, loaded k inside]
    exact room.pmem_absent absent inside

/-- After a lookup through clean lines the line of `addr` has the bytes that the side held. -/
theorem cacheTouch_content (wf : side.WF) (clean : ∀ b dirty data, side.l1.block b = some (dirty, data) → dirty = false)
    (addr : Nat) {k : Nat} (inside : k < blockSize) :
    let touched := cacheTouch prefetchHint side addr
    (touched.2.l1.line (touched.2.l1.setIdx addr) touched.1).data k = side.content (addr / blockSize * blockSize + k) := by
  obtain ⟨wf1, blocks, outcome⟩ := findLine_side wf addr
  have number : (addr / blockSize * blockSize + k) / blockSize = addr / blockSize := by
    unfold blockSize at *
    omega
  have offset : (addr / blockSize * blockSize + k) % blockSize = k := by
    unfold blockSize at *
    omega
  unfold cacheTouch Hier.content
  rw [number, offset]
  cases lookup : findLine side.l1 addr with
  | mk hit rest =>
      obtain ⟨way, l1⟩ := rest
      rw [lookup] at wf1 blocks outcome
      simp only at wf1 blocks outcome
      cases hit with
      | true =>
          have present := Cache.block_of_holds wf1.l1 (by simpa using outcome)
          rw [blocks] at present
          simp only [↓reduceIte, present]
          rfl
      | false =>
          simp only [Bool.false_eq_true, ↓reduceIte, cachePrefetch_none] at outcome ⊢
          obtain ⟨bound, missing⟩ := outcome
          have absent := Cache.block_of_not_holds missing
          rw [blocks] at absent
          obtain ⟨_, wfL1, held, refilled⟩ := fetchBlock_refill wf1 bound missing
          have notWritten : victimWritten { side with l1 := l1 } (l1.setIdx addr) way = side.back := by
            unfold victimWritten
            rw [if_neg]
            intro writes
            obtain ⟨occupied, dirty⟩ := Bool.and_eq_true_iff.mp writes
            have present := block_blockNumber wf1.l1 (l1.setIdx_lt addr) bound occupied
            rw [blocks] at present
            rw [clean _ _ _ present] at dirty
            cases dirty
          have present := Cache.block_of_holds wfL1 held
          rw [refilled, setAt_self, notWritten] at present
          have data := congrArg Prod.snd (Option.some.inj present)
          simp only at data
          rw [absent]
          refine (congrFun data k).symm.trans ((accessL2_content wf.l2 addr _ inside).trans ?_)
          cases side.back.l2.block (addr / blockSize) with
          | none => rfl
          | some copy => rfl

/-- An access inside one line reads the same bytes from a line as from a memory it agrees with. -/
theorem loadLE_line {data mem : ByteMem} {addr len : Nat}
    (same : ∀ k, addr % blockSize ≤ k → k < addr % blockSize + len →
      data k = mem (addr / blockSize * blockSize + k)) :
    loadLE data (addr % blockSize) len = loadLE mem addr len := by
  have split : addr / blockSize * blockSize + addr % blockSize = addr := Nat.div_add_mod' addr blockSize
  calc loadLE data (addr % blockSize) len
      = loadLE (fun k => mem (addr / blockSize * blockSize + k)) (addr % blockSize) len := loadLE_congr same
    _ = loadLE mem addr len := by rw [loadLE_shift, split]

variable (side) in
theorem cacheRead_content (wf : side.WF) (clean : ∀ b dirty data, side.l1.block b = some (dirty, data) → dirty = false)
    {addr len : Nat} (inside : addr % blockSize + len ≤ blockSize) :
    (cacheRead prefetchHint side addr len).1 = loadLE side.content addr len :=
  (Cache.copyOut_inside inside).trans (loadLE_line fun _ _ high => cacheTouch_content wf clean addr (by omega))

/-! ## Reads and writes -/

/-- The line a data cache holds is current. -/
theorem line_data (wf : side.WF) (coherent : Coherent (v.withData h side) f) {addr way : Nat}
    (held : side.l1.Holds (addr / blockSize) way) :
    Agrees (side.l1.line (side.l1.setIdx addr) way).data f.bytes (addr / blockSize) := by
  apply coherent.data h (addr / blockSize) (side.l1.line (side.l1.setIdx addr) way).dirty
  simp only [Levels.withData, setAt_self]
  exact Cache.block_of_holds wf.l1 held

/-- What a read finds in the line it has touched. -/
theorem cacheRead_touched {hint : Nat → Nat} {addr : Nat} (wf : (cacheTouch hint side addr).2.WF)
    (touched : Coherent (v.withData h (cacheTouch hint side addr).2) f)
    (held : (cacheTouch hint side addr).2.l1.Holds (addr / blockSize) (cacheTouch hint side addr).1) (len : Nat) :
    (cacheRead hint side addr len).2.WF ∧ Coherent (v.withData h (cacheRead hint side addr len).2) f ∧
      (addr % blockSize + len ≤ blockSize → (cacheRead hint side addr len).1 = loadLE f.bytes addr len) := by
  refine ⟨wf, touched, fun inside => (Cache.copyOut_inside inside).trans (loadLE_line fun k _ high => ?_)⟩
  exact line_data wf touched held k (by omega)

theorem cacheRead_data (wf : side.WF) (coherent : Coherent (v.withData h side) f) {addr : Nat}
    (clean : v.OthersClean h (addr / blockSize)) (len : Nat) :
    (cacheRead prefetchHint side addr len).2.WF ∧
      Coherent (v.withData h (cacheRead prefetchHint side addr len).2) f ∧
      (addr % blockSize + len ≤ blockSize →
        (cacheRead prefetchHint side addr len).1 = loadLE f.bytes addr len) := by
  obtain ⟨wf', touched, held⟩ := cacheTouch_data wf coherent clean
  exact cacheRead_touched wf' touched held len

theorem cacheRead_fetch (wf : side.WF) (coherent : Coherent (v.withFetch h side) f) (addr len : Nat) :
    (cacheRead prefetchHint side addr len).2.WF ∧
      Coherent (v.withFetch h (cacheRead prefetchHint side addr len).2) f ∧
      (addr % blockSize + len ≤ blockSize →
        (∀ byte, addr ≤ byte → byte < addr + len → byte ∉ f.written) →
        (cacheRead prefetchHint side addr len).1 = loadLE f.bytes addr len) := by
  obtain ⟨wf', touched, held⟩ := cacheTouch_fetch wf coherent addr
  refine ⟨wf', touched, fun inside fresh => (Cache.copyOut_inside inside).trans (loadLE_line fun k low high => ?_)⟩
  have split : addr / blockSize * blockSize + addr % blockSize = addr := Nat.div_add_mod' addr blockSize
  apply touched.codeL1 h (addr / blockSize) _ _ k (by omega) (fresh _ (by omega) (by omega))
  simp only [Levels.withFetch, setAt_self]
  exact Cache.block_of_holds wf'.l1 held

private theorem fetchBlock_setIdx (side : Hier) (addr way other : Nat) :
    (fetchBlock side addr way).l1.setIdx other = side.l1.setIdx other := by
  unfold fetchBlock
  dsimp only
  split
  · split
    · rfl
    · rfl
  · split
    · rfl
    · rfl

theorem cacheReadLevel_data (wf : side.WF) (coherent : Coherent (v.withData h side) f) {addr : Nat}
    (clean : v.OthersClean h (addr / blockSize)) (len : Nat) :
    (cacheReadLevel prefetchHint side addr len).2.2.WF ∧
      Coherent (v.withData h (cacheReadLevel prefetchHint side addr len).2.2) f ∧
      (addr % blockSize + len ≤ blockSize →
        (cacheReadLevel prefetchHint side addr len).2.1 = loadLE f.bytes addr len) := by
  obtain ⟨wf1, blocks, outcome⟩ := findLine_side wf addr
  obtain ⟨wf2, same2, _⟩ := Cache.findLineQuiet_spec wf.l2 addr
  have looked : Coherent (v.withData h { side with l1 := (findLine side.l1 addr).2.2 }) f := by
    unfold Levels.withData
    rw [blocks]
    exact coherent
  unfold cacheReadLevel
  cases lookup : findLine side.l1 addr with
  | mk hit rest =>
      obtain ⟨way, l1⟩ := rest
      rw [lookup] at wf1 outcome looked
      cases hit with
      | true =>
          refine ⟨wf1, looked, fun inside => (Cache.copyOut_inside inside).trans (loadLE_line fun k _ high => ?_)⟩
          exact line_data wf1 looked outcome k (by omega)
      | false =>
          simp only [Bool.false_eq_true, ↓reduceIte, cachePrefetch_none] at outcome ⊢
          have wf3 : Hier.WF ⟨l1, { side.back with l2 := (findLineQuiet side.back.l2 addr).2.2 }⟩ :=
            ⟨wf1.l1, wf2⟩
          have probed : Coherent
              (v.withData h ⟨l1, { side.back with l2 := (findLineQuiet side.back.l2 addr).2.2 }⟩) f := by
            unfold Levels.withData
            rw [same2.block]
            exact looked
          obtain ⟨wf', fetched, held⟩ := fetchBlock_data _ wf3 probed outcome.1 outcome.2
            (settled_of_missing clean outcome.2)
          refine ⟨wf', fetched, fun inside => (Cache.copyOut_inside inside).trans (loadLE_line fun k _ high => ?_)⟩
          have current := line_data wf' fetched held k (by omega)
          rw [fetchBlock_setIdx] at current
          exact current

theorem cacheProbeLevel_data (wf : side.WF) (coherent : Coherent (v.withData h side) f) (addr : Nat) :
    (cacheProbeLevel side addr).2.WF ∧ Coherent (v.withData h (cacheProbeLevel side addr).2) f := by
  obtain ⟨wf1, same1, _⟩ := Cache.findLineQuiet_spec wf.l1 addr
  obtain ⟨wf2, same2, _⟩ := Cache.findLineQuiet_spec wf.l2 addr
  unfold cacheProbeLevel
  cases lookup : findLineQuiet side.l1 addr with
  | mk hit rest =>
      obtain ⟨way, l1⟩ := rest
      rw [lookup] at wf1 same1
      have blocks1 : l1.block = side.l1.block := same1.block
      cases hit with
      | true =>
          refine ⟨⟨wf1, wf.l2⟩, ?_⟩
          simp only [Levels.withData, ↓reduceIte, blocks1]
          exact coherent
      | false =>
          refine ⟨⟨wf1, wf2⟩, ?_⟩
          simp only [Levels.withData, Bool.false_eq_true, ↓reduceIte, blocks1, same2.block]
          exact coherent

/-- A write inside a line lands in the line touched, the only data copy. -/
theorem cacheWrite_touched {hint : Nat → Nat} {addr : Nat} (wf' : (cacheTouch hint side addr).2.WF)
    (touched : Coherent (v.withData h (cacheTouch hint side addr).2) f)
    (held : (cacheTouch hint side addr).2.l1.Holds (addr / blockSize) (cacheTouch hint side addr).1)
    (alone : ∀ g, g ≠ h → v.l1d g (addr / blockSize) = none) {len : Nat} (inside : addr % blockSize + len ≤ blockSize)
    (word : Word) : (cacheWrite hint side addr len word).WF ∧
      Coherent (v.withData h (cacheWrite hint side addr len word)) (f.store addr len word) := by
  unfold cacheWrite
  cases lookup : cacheTouch hint side addr with
  | mk way side' =>
      rw [lookup] at wf' touched held
      simp only at wf' touched held
      obtain ⟨wf1, blocks⟩ := Cache.modifyLine_held wf'.l1 held
        (fun line => { line with dirtyInt := 1, data := storeLE line.data (addr % blockSize) len word })
        (fun _ => rfl) (fun _ => rfl)
      have written : side'.l1.copyIn (side'.l1.setIdx addr) way (addr % blockSize) len word = _ :=
        Cache.copyIn_inside inside word
      have setEq : side'.l1.setIdx addr = addr / blockSize % 2 ^ side'.l1.s := rfl
      rw [← setEq, ← written] at wf1 blocks
      refine ⟨⟨wf1, wf'.l2⟩, ?_⟩
      have copy : (v.withData h side').l1d h (addr / blockSize) =
          some ((side'.l1.line (side'.l1.setIdx addr) way).dirty, (side'.l1.line (side'.l1.setIdx addr) way).data) := by
        simp only [Levels.withData, setAt_self]
        exact Cache.block_of_holds wf'.l1 held
      have stored := touched.writeL1d (h := h) word copy (fun g different => by
          simpa only [Levels.withData, setAt_of_ne different] using alone g different) inside
        (fun _ _ => rfl)
      rw [Nat.div_add_mod' addr blockSize] at stored
      simp only [Levels.withData, setAt_self, setAt_idem] at stored ⊢
      rw [blocks]
      exact stored

theorem cacheWrite_data (wf : side.WF) (coherent : Coherent (v.withData h side) f) {addr : Nat}
    (alone : ∀ g, g ≠ h → v.l1d g (addr / blockSize) = none) {len : Nat} (inside : addr % blockSize + len ≤ blockSize)
    (word : Word) : (cacheWrite prefetchHint side addr len word).WF ∧
      Coherent (v.withData h (cacheWrite prefetchHint side addr len word)) (f.store addr len word) := by
  have clean : v.OthersClean h (addr / blockSize) := by
    intro g data different found
    rw [alone g different] at found
    cases found
  obtain ⟨wf', touched, held⟩ := cacheTouch_data wf coherent clean
  exact cacheWrite_touched wf' touched held alone inside word

/-! ## Snoops -/

theorem firstWay_some {c : Cache} {addr way : Nat} {wanted : CacheLine → Bool}
    (found : firstWay c addr wanted = some way) : way < c.w ∧ wanted (c.line (c.setIdx addr) way) = true :=
  ⟨List.mem_range.mp (List.mem_of_find?_eq_some found), List.find?_some (p := fun way => wanted (c.line (c.setIdx addr) way)) found⟩

theorem firstWay_none {c : Cache} {addr : Nat} {wanted : CacheLine → Bool}
    (notFound : firstWay c addr wanted = none) {way : Nat} (bound : way < c.w) :
    wanted (c.line (c.setIdx addr) way) = false := by
  have excluded := List.find?_eq_none.mp notFound way (List.mem_range.mpr bound)
  simpa using excluded

theorem holds_of_matches {c : Cache} {addr way : Nat} (bound : way < c.w)
    (matching : (c.line (c.setIdx addr) way).matches (c.tagOf addr) = true) : c.Holds (addr / blockSize) way := by
  rw [c.tagOf_eq] at matching
  exact ⟨bound, matching⟩

theorem blockStart_div (addr : Nat) : addr / blockSize * blockSize / blockSize = addr / blockSize :=
  Nat.mul_div_cancel _ (by decide)

/-- A held line as the levels see it. -/
private theorem held_copy (wf : side.WF) {addr way : Nat} (held : side.l1.Holds (addr / blockSize) way) :
    (v.withData h side).l1d h (addr / blockSize) =
      some ((side.l1.line (side.l1.setIdx addr) way).dirty, (side.l1.line (side.l1.setIdx addr) way).data) := by
  simp only [Levels.withData, setAt_self]
  exact Cache.block_of_holds wf.l1 held

/-- Writing a held dirty line back to the second level. -/
private theorem flushHeld (wf : side.WF) (coherent : Coherent (v.withData h side) f) {addr way : Nat}
    (held : side.l1.Holds (addr / blockSize) way) (dirty : (side.l1.line (side.l1.setIdx addr) way).dirty = true) :
    let back := (accessL2 side.back (addr / blockSize * blockSize) (side.l1.line (side.l1.setIdx addr) way).data true).2
    back.l2.WF ∧ Coherent { v with
      l1d := setAt v.l1d h (setAt side.l1.block (addr / blockSize)
        (some (false, (side.l1.line (side.l1.setIdx addr) way).data)))
      l2 := back.l2.block
      pmem := back.pmem } f := by
  have copy := held_copy (v := v) (h := h) wf held
  rw [dirty, ← blockStart_div addr] at copy
  obtain ⟨wf', after⟩ := coherent.accessWrite side.back wf.l2 rfl rfl copy
  simp only [Levels.withData, setAt_self, setAt_idem, blockStart_div] at after
  exact ⟨wf', after⟩

theorem cacheSnoopInvalidate_data (wf : side.WF) (coherent : Coherent (v.withData h side) f) (addr : Nat) :
    (cacheSnoopInvalidate side addr).WF ∧ Coherent (v.withData h (cacheSnoopInvalidate side addr)) f ∧
      (cacheSnoopInvalidate side addr).l1.block (addr / blockSize) = none := by
  unfold cacheSnoopInvalidate
  cases found : firstWay side.l1 addr fun line => line.matches (side.l1.tagOf addr) with
  | none =>
      refine ⟨wf, coherent, Cache.block_of_not_holds fun way held => ?_⟩
      have excluded := firstWay_none found held.1
      rw [side.l1.tagOf_eq] at excluded
      exact absurd held.2 (Bool.eq_false_iff.mp excluded)
  | some way =>
      obtain ⟨bound, matching⟩ := firstWay_some found
      have held := holds_of_matches bound matching
      have setEq : side.l1.setIdx addr = addr / blockSize % 2 ^ side.l1.s := rfl
      have copy := held_copy (v := v) (h := h) wf held
      cases dirty : (side.l1.line (side.l1.setIdx addr) way).dirty with
      | true =>
          obtain ⟨wfBack, flushed⟩ := flushHeld wf coherent held dirty
          have wf1 : ({ side.l1 with writebacks := side.l1.writebacks + 1 } : Cache).WF :=
            ⟨wf.l1.ways, wf.l1.mru, wf.l1.unique⟩
          obtain ⟨wfDropped, blocks⟩ := Cache.modifyLine_drop wf1 held
            (fun line => { line with validInt := 0, dirtyInt := 0 }) (fun _ => rfl)
          have dropped := flushed.dropL1d (h := h) (Levels.settled_of_clean flushed (h := h)
            (b := addr / blockSize) (by simp only [setAt_self]; rfl))
          simp only [setAt_self, setAt_idem] at dropped
          simp only [dirty, ↓reduceIte]
          refine ⟨⟨wfDropped, wfBack⟩, ?_, ?_⟩
          · unfold Levels.withData
            rw [setEq, blocks]
            exact dropped
          · rw [setEq, blocks, setAt_self]
      | false =>
          rw [dirty] at copy
          obtain ⟨wfDropped, blocks⟩ := Cache.modifyLine_drop wf.l1 held
            (fun line => { line with validInt := 0, dirtyInt := 0 }) (fun _ => rfl)
          have dropped := coherent.dropL1d (h := h) (Levels.settled_of_clean coherent copy)
          simp only [Levels.withData, setAt_self, setAt_idem] at dropped
          simp only [dirty, Bool.false_eq_true, ↓reduceIte]
          refine ⟨⟨wfDropped, wf.l2⟩, ?_, ?_⟩
          · unfold Levels.withData
            rw [setEq, blocks]
            exact dropped
          · rw [setEq, blocks, setAt_self]

theorem cacheSnoopFlushDirty_data (wf : side.WF) (coherent : Coherent (v.withData h side) f) (addr : Nat) :
    (cacheSnoopFlushDirty side addr).WF ∧ Coherent (v.withData h (cacheSnoopFlushDirty side addr)) f ∧
      ∀ data, (cacheSnoopFlushDirty side addr).l1.block (addr / blockSize) ≠ some (true, data) := by
  unfold cacheSnoopFlushDirty
  cases found : firstWay side.l1 addr fun line => line.matches (side.l1.tagOf addr) && line.dirty with
  | none =>
      refine ⟨wf, coherent, fun data present => ?_⟩
      obtain ⟨way, held, content⟩ := Cache.holds_of_block present
      have excluded := firstWay_none found held.1
      have matching : (side.l1.line (side.l1.setIdx addr) way).matches (side.l1.tagOf addr) = true := by
        rw [side.l1.tagOf_eq]
        exact held.2
      have dirty : (side.l1.line (side.l1.setIdx addr) way).dirty = true := (congrArg Prod.fst content).symm
      rw [matching, dirty] at excluded
      cases excluded
  | some way =>
      obtain ⟨bound, wanted⟩ := firstWay_some found
      obtain ⟨matching, dirty⟩ := Bool.and_eq_true_iff.mp wanted
      have held := holds_of_matches bound matching
      have setEq : side.l1.setIdx addr = addr / blockSize % 2 ^ side.l1.s := rfl
      obtain ⟨wfBack, flushed⟩ := flushHeld wf coherent held dirty
      have wf1 : ({ side.l1 with writebacks := side.l1.writebacks + 1 } : Cache).WF :=
        ⟨wf.l1.ways, wf.l1.mru, wf.l1.unique⟩
      obtain ⟨wfCleaned, blocks⟩ := Cache.modifyLine_held wf1 held
        (fun line => { line with dirtyInt := 0 }) (fun _ => rfl) (fun _ => rfl)
      refine ⟨⟨wfCleaned, wfBack⟩, ?_, ?_⟩
      · unfold Levels.withData
        rw [setEq, blocks]
        exact flushed
      · intro data present
        rw [setEq, blocks, setAt_self] at present
        cases present

end Fill

end Sustemu
