import Sustemu.Isa.Exec
import Sustemu.Memory.Hierarchy
import Sustemu.Memory.Mmio

/-!
# The bytes an access touches

Guest bytes live in the data arrays of cache lines, in physical memory, in the
framebuffer and in the spaces of the devices. Every range test of the source
looks at the first byte of an access only. Block transfers between the levels
stay inside because every cached block lies in physical memory; whether the
access itself does depends on its address and width alone, and for a device on
its callback.
-/

set_option autoImplicit false

namespace Sustemu

open Lib

/-! ## Touched bytes -/

/-- An object that holds guest bytes. -/
inductive Store where
  | line
  | pmem
  | framebuffer
  | device (id : Nat)
deriving DecidableEq

/-- The bytes `[offset, offset + len)` of an object. -/
structure Touch where
  store : Store
  offset : Nat
  len : Nat
deriving DecidableEq

/-- `MSIZE`. -/
def msize : Nat := 0x8000000

/-- A `memcpy` from or to a whole line. -/
def Touch.block : Touch := ⟨.line, 0, blockSize⟩

/-- `host_read` and `host_write`. -/
def hostTouches (store : Store) (offset len : Nat) : List Touch :=
  if len = 1 ∨ len = 2 ∨ len = 4 ∨ len = 8 then [⟨store, offset, len⟩] else []

namespace Io

variable {γ : Type} (io : Io γ)

/-- Bytes of an object: of a device, those of its window. -/
def size : Store → Nat
  | .line => blockSize
  | .pmem => msize
  | .framebuffer => fbSize
  | .device id => match io.maps[id]? with
      | some map => map.high + 1 - map.low
      | none => 0

/-- `paddr_read` up to its return or a failed assertion. -/
def readTouches (s : IoState γ) (addr : Word) (len : Nat) : List Touch :=
  let pa := addr &&& 0xffffffff
  if inDram pa then hostTouches .pmem (pa.toNat - mbase.toNat) len
  else if io.inFramebuffer pa.toNat then hostTouches .framebuffer (pa.toNat - fbAddr) len
  else match io.fetchMmioMap pa.toNat with
    | none => []
    | some (id, map) => match map.callback (pa.toNat - map.low) len false s with
        | none => []
        | some _ => hostTouches (.device id) (pa.toNat - map.low) len

/-- `paddr_write` up to its return or a failed assertion. -/
def writeTouches (addr : Word) (len : Nat) : List Touch :=
  let pa := addr &&& 0xffffffff
  if inDram pa then hostTouches .pmem (pa.toNat - mbase.toNat) len
  else if io.inFramebuffer pa.toNat then hostTouches .framebuffer (pa.toNat - fbAddr) len
  else match io.fetchMmioMap pa.toNat with
    | none => []
    | some (id, map) => hostTouches (.device id) (pa.toNat - map.low) len

/-- The word loop of `load_block_from_mem`, which ends early when an access fails. -/
def loadWords : Nat → IoState γ → Word → List Touch
  | 0, _, _ => []
  | left + 1, s, addr =>
      io.readTouches s addr 8 ++
        if inDram (addr &&& 0xffffffff) then loadWords left s (addr + 8)
        else match io.devices.read s (addr &&& 0xffffffff) 8 with
          | some (_, s) => loadWords left s (addr + 8)
          | none => []

/-- The word loop of `store_block_to_mem`. -/
def storeWords (src : ByteMem) : Nat → IoState γ → Word → Nat → List Touch
  | 0, _, _, _ => []
  | left + 1, s, addr, i =>
      io.writeTouches addr 8 ++
        if inDram (addr &&& 0xffffffff) then storeWords src left s (addr + 8) (i + 8)
        else match io.devices.write s (addr &&& 0xffffffff) 8 (loadLE src i 8) with
          | some s => storeWords src left s (addr + 8) (i + 8)
          | none => []

/-- The fast path of the block transfers. -/
def wholeInDram (block : Nat) : Bool :=
  decide (mbase.toNat ≤ block % 2 ^ 32) && decide (block % 2 ^ 32 + blockSize ≤ mbase.toNat + msize)

def loadBlockTouches (s : IoState γ) (block : Nat) : List Touch :=
  if wholeInDram block then [⟨.pmem, block % 2 ^ 32 - mbase.toNat, blockSize⟩, .block]
  else io.loadWords 8 s (BitVec.ofNat 64 block) ++ [.block]

def storeBlockTouches (s : IoState γ) (block : Nat) (src : ByteMem) : List Touch :=
  if wholeInDram block then [⟨.pmem, block % 2 ^ 32 - mbase.toNat, blockSize⟩, .block]
  else .block :: io.storeWords src 8 s (BitVec.ofNat 64 block) 0

/-- `access_l2`. -/
def accessL2Touches (s : IoState γ) (b : Backing) (addr : Nat) (isWrite : Bool) : List Touch :=
  let (hit, way, l2) := findLine b.l2 addr
  let set := l2.setIdx addr
  let line := l2.line set way
  if hit then [.block, .block]
  else
    (if line.valid && line.dirty then io.storeBlockTouches s (l2.blockAddr set line.tag) line.data else []) ++
      (if isWrite then [] else io.loadBlockTouches s (addr / blockSize * blockSize)) ++ [.block, .block]

/-- `fetch_block`. -/
def fetchBlockTouches (s : IoState γ) (h : Hier) (addr way : Nat) : List Touch :=
  let set := h.l1.setIdx addr
  let victim := h.l1.line set way
  (if victim.valid && victim.dirty then io.accessL2Touches s h.back (h.l1.blockAddr set victim.tag) true else []) ++
    io.accessL2Touches s (victimWritten h set way) addr false

/-- `cache_read`, `cache_fill_and_read` and `cache_write`; `prefetch_hint` answers 0, so nothing is prefetched. -/
def cacheTouches (s : IoState γ) (h : Hier) (addr len : Nat) : List Touch :=
  let (hit, way, l1) := findLine h.l1 addr
  (if hit then [] else io.fetchBlockTouches s { h with l1 := l1 } addr way) ++ [⟨.line, addr % blockSize, len⟩]

/-- `cache_read_level`. -/
def cacheLevelTouches (s : IoState γ) (h : Hier) (addr len : Nat) : List Touch :=
  let (hit, way, l1) := findLine h.l1 addr
  let l2 := (findLineQuiet h.back.l2 addr).2.2
  (if hit then [] else io.fetchBlockTouches s ⟨l1, { h.back with l2 := l2 }⟩ addr way) ++
    [⟨.line, addr % blockSize, len⟩]

/-- `cache_snoop_flush_dirty` and `cache_snoop_invalidate`, for the line that `found` selects. -/
def snoopTouches (s : IoState γ) (h : Hier) (addr : Nat) (found : Option Nat) : List Touch :=
  match found with
  | none => []
  | some way =>
      if (h.l1.line (h.l1.setIdx addr) way).dirty then io.accessL2Touches s h.back (addr / blockSize * blockSize) true
      else []

end Io

/-- Every byte touched belongs to its object. -/
def Touch.Inside {γ : Type} (io : Io γ) (t : Touch) : Prop := t.offset + t.len ≤ io.size t.store

instance {γ : Type} (io : Io γ) (t : Touch) : Decidable (t.Inside io) := inferInstanceAs (Decidable (_ ≤ _))

section Operations

variable {γ : Type} (numCores : Nat) (io : Io γ)

/-- The hierarchy over the device map. -/
def Io.memConfig : MemConfig (IoState γ) := ⟨numCores, prefetchHint, io.devices⟩

def snoopReadTouches (m : MemState (IoState γ)) (h : Fin 2) (addr : Nat) : List Touch :=
  let other := m.dataSide (otherHart h)
  if numCores > 1 then
    io.snoopTouches m.dev other addr
      (firstWay other.l1 addr fun line => line.matches (other.l1.tagOf addr) && line.dirty)
  else []

def snoopWriteTouches (m : MemState (IoState γ)) (h : Fin 2) (addr : Nat) : List Touch :=
  let other := m.dataSide (otherHart h)
  if numCores > 1 then
    io.snoopTouches m.dev other addr (firstWay other.l1 addr fun line => line.matches (other.l1.tagOf addr))
  else []

/-- All bytes that an access of hart `h` touches. -/
def MemOp.touches (m : MemState (IoState γ)) (h : Fin 2) : MemOp → List Touch
  | ifetch addr len =>
      if inDram addr then io.cacheTouches m.dev (m.fetchSide h) addr.toNat len else io.readTouches m.dev addr len
  | read addr len | fillAndRead addr len =>
      if inDram addr then
        snoopReadTouches numCores io m h addr.toNat ++
          io.cacheTouches m.dev ((snoopRead (io.memConfig numCores) m h addr.toNat).dataSide h) addr.toNat len
      else io.readTouches m.dev addr len
  | readLevel addr len =>
      if inDram addr then
        snoopReadTouches numCores io m h addr.toNat ++
          io.cacheLevelTouches m.dev ((snoopRead (io.memConfig numCores) m h addr.toNat).dataSide h) addr.toNat len
      else io.readTouches m.dev addr len
  | probeLevel _ => []
  | write addr len _ =>
      if inDram addr then
        snoopWriteTouches numCores io m h addr.toNat ++
          io.cacheTouches m.dev ((snoopWrite (io.memConfig numCores) m h addr.toNat).dataSide h) addr.toNat len
      else io.writeTouches addr len

end Operations

/-! ## Every cached block lies in physical memory -/

/-- The 64 bytes at `block` are in physical memory. -/
def MappedBlock (block : Nat) : Prop := 0x80000000 ≤ block ∧ block + blockSize ≤ 0x88000000

/-- Every valid line holds a block of physical memory. -/
def Cache.Mapped (c : Cache) : Prop :=
  ∀ set way, (c.line set way).valid = true → MappedBlock (c.blockAddr set (c.line set way).tag)

theorem mappedBlock_of_addr {addr : Nat} (low : 0x80000000 ≤ addr) (high : addr < 0x88000000) :
    MappedBlock (addr / blockSize * blockSize) := by
  unfold MappedBlock blockSize
  omega

/-- The block that a line refilled for `addr` holds. -/
theorem Cache.blockAddr_refill (c : Cache) (addr : Nat) :
    c.blockAddr (c.setIdx addr) (c.tagOf addr) = addr / blockSize * blockSize := by
  rw [blockAddr_eq, Cache.tagOf_eq, Cache.setIdx, Nat.div_add_mod']

namespace Cache.Mapped

variable {c d : Cache}

theorem init (s w : Nat) : (initCache s w).Mapped := fun _ _ valid => nomatch valid

/-- Lines may change as long as the tags of valid ones stay or name mapped blocks. -/
theorem of_lines (mapped : c.Mapped) (s : d.s = c.s)
    (lines : ∀ set way, (d.line set way).valid = true →
      ((c.line set way).valid = true ∧ (d.line set way).tag = (c.line set way).tag) ∨
        MappedBlock (c.blockAddr set (d.line set way).tag)) : d.Mapped := by
  intro set way valid
  have same : d.blockAddr set (d.line set way).tag = c.blockAddr set (d.line set way).tag := by
    unfold Cache.blockAddr
    rw [s]
  rw [same]
  rcases lines set way valid with ⟨before, tag⟩ | here
  · rw [tag]
    exact mapped set way before
  · exact here

theorem modifyLine (mapped : c.Mapped) {set way : Nat} {change : CacheLine → CacheLine}
    (changed : (change (c.line set way)).valid = true →
      ((c.line set way).valid = true ∧ (change (c.line set way)).tag = (c.line set way).tag) ∨
        MappedBlock (c.blockAddr set (change (c.line set way)).tag)) : (c.modifyLine set way change).Mapped := by
  refine mapped.of_lines (d := c.modifyLine set way change) rfl ?_
  intro set' way' valid
  rw [Cache.line_modifyLine] at valid ⊢
  split at valid
  · next here =>
      rw [if_pos here, here.1, here.2]
      exact changed valid
  · next elsewhere =>
      rw [if_neg elsewhere]
      exact .inl ⟨valid, rfl⟩

/-- A change that keeps validity and tag. -/
theorem touchLine (mapped : c.Mapped) {set way : Nat} {change : CacheLine → CacheLine}
    (valid : ∀ line, (change line).valid = true → line.valid = true) (tag : ∀ line, (change line).tag = line.tag) :
    (c.modifyLine set way change).Mapped :=
  mapped.modifyLine fun after => .inl ⟨valid _ after, tag _⟩

theorem setMru (mapped : c.Mapped) (set way : Nat) : (c.setMru set way).Mapped := by
  refine mapped.of_lines (d := c.setMru set way) rfl ?_
  intro set' way' valid
  rw [Cache.line_setMru] at valid ⊢
  exact .inl ⟨valid, rfl⟩

/-- The refill of a line for an address of physical memory, whatever the counters. -/
theorem refill (mapped : c.Mapped) (sets : d.sets = c.sets) (s : d.s = c.s) {addr way : Nat}
    (here : MappedBlock (addr / blockSize * blockSize)) {change : CacheLine → CacheLine}
    (tag : ∀ line, (change line).tag = d.tagOf addr) : (d.modifyLine (c.setIdx addr) way change).Mapped := by
  have counted : d.Mapped := by
    refine mapped.of_lines s fun set way valid => ?_
    unfold Cache.line at valid ⊢
    rw [sets] at valid ⊢
    exact .inl ⟨valid, rfl⟩
  have setIdx : c.setIdx addr = d.setIdx addr := by
    unfold Cache.setIdx
    rw [s]
  apply counted.modifyLine
  intro _
  rw [tag, setIdx, d.blockAddr_refill]
  exact .inr here

theorem findLineQuiet (mapped : c.Mapped) (addr : Nat) : (findLineQuiet c addr).2.2.Mapped := by
  unfold Sustemu.findLineQuiet
  dsimp only
  split
  · exact mapped.setMru _ _
  · exact mapped

theorem findLine (mapped : c.Mapped) (addr : Nat) : (findLine c addr).2.2.Mapped := by
  have ticked : Cache.Mapped { c with timer := c.timer + 1 } := mapped
  unfold Sustemu.findLine
  dsimp only
  split
  · apply setMru
    have counted : Cache.Mapped { c with timer := c.timer + 1, hits := c.hits + 1 } := mapped
    exact counted.touchLine (fun _ valid => valid) fun _ => rfl
  · exact mapped

end Cache.Mapped

/-- The second level and the side in front of it hold blocks of physical memory only. -/
structure Hier.Mapped (side : Hier) : Prop where
  l1 : side.l1.Mapped
  l2 : side.back.l2.Mapped

theorem accessL2_mapped {b : Backing} (mapped : b.l2.Mapped) {addr : Nat}
    (here : MappedBlock (addr / blockSize * blockSize)) (data : ByteMem) (isWrite : Bool) :
    (accessL2 b addr data isWrite).2.l2.Mapped := by
  have found := mapped.findLine addr
  unfold accessL2
  cases lookup : findLine b.l2 addr with
  | mk hit rest =>
      obtain ⟨way, l2⟩ := rest
      rw [lookup] at found
      simp only at found ⊢
      cases hit with
      | true =>
          cases isWrite with
          | true =>
              simp only [↓reduceIte]
              exact found.touchLine (fun _ valid => valid) fun _ => rfl
          | false => exact found
      | false =>
          -- The counters of an eviction change no line.
          cases isWrite with
          | true =>
              simp only [Bool.false_eq_true, ↓reduceIte]
              split
              · exact found.refill (by rfl) (by rfl) here (by intro _; rfl)
              · exact found.refill (by rfl) (by rfl) here (by intro _; rfl)
          | false =>
              simp only [Bool.false_eq_true, ↓reduceIte]
              split
              · exact found.refill (by rfl) (by rfl) here (by intro _; rfl)
              · exact found.refill (by rfl) (by rfl) here (by intro _; rfl)

theorem Hier.Mapped.victim {side : Hier} (mapped : side.Mapped) {set way : Nat}
    (occupied : (side.l1.line set way).valid = true) : MappedBlock (side.l1.blockAddr set (side.l1.line set way).tag) :=
  mapped.l1 set way occupied

theorem MappedBlock.aligned {c : Cache} {set tag : Nat} (here : MappedBlock (c.blockAddr set tag)) :
    MappedBlock (c.blockAddr set tag / blockSize * blockSize) := by
  rw [blockAddr_eq, Nat.mul_div_cancel _ (by decide), ← blockAddr_eq]
  exact here

theorem victimWritten_mapped {side : Hier} (mapped : side.Mapped) (set way : Nat) :
    (victimWritten side set way).l2.Mapped := by
  unfold victimWritten
  dsimp only
  split
  · next writes =>
      exact accessL2_mapped mapped.l2 (mapped.victim (Bool.and_eq_true_iff.mp writes).1).aligned _ _
  · exact mapped.l2

theorem fetchBlock_mapped {side : Hier} (mapped : side.Mapped) {addr : Nat}
    (here : MappedBlock (addr / blockSize * blockSize)) (way : Nat) : (fetchBlock side addr way).Mapped := by
  refine ⟨?_, accessL2_mapped (victimWritten_mapped mapped _ way) here _ _⟩
  unfold fetchBlock
  dsimp only
  split
  · split
    · exact mapped.l1.refill (by rfl) (by rfl) here (by intro _; rfl)
    · exact mapped.l1.refill (by rfl) (by rfl) here (by intro _; rfl)
  · split
    · exact mapped.l1.refill (by rfl) (by rfl) here (by intro _; rfl)
    · exact mapped.l1.refill (by rfl) (by rfl) here (by intro _; rfl)

section Side

variable {side : Hier} {addr : Nat}

theorem cacheTouch_mapped (mapped : side.Mapped) (here : MappedBlock (addr / blockSize * blockSize)) :
    (cacheTouch prefetchHint side addr).2.Mapped := by
  have found := mapped.l1.findLine addr
  unfold cacheTouch
  cases lookup : findLine side.l1 addr with
  | mk hit rest =>
      obtain ⟨way, l1⟩ := rest
      rw [lookup] at found
      cases hit with
      | true => exact ⟨found, mapped.l2⟩
      | false =>
          have looked : Hier.Mapped { side with l1 := l1 } := ⟨found, mapped.l2⟩
          simp only [Bool.false_eq_true, ↓reduceIte, cachePrefetch_none]
          exact fetchBlock_mapped looked here way

theorem cacheWrite_mapped (mapped : side.Mapped) (here : MappedBlock (addr / blockSize * blockSize)) {len : Nat}
    (inside : addr % blockSize + len ≤ blockSize) (data : Word) : (cacheWrite prefetchHint side addr len data).Mapped := by
  have touched := cacheTouch_mapped mapped here
  unfold cacheWrite
  refine ⟨?_, touched.l2⟩
  dsimp only
  rw [Cache.copyIn_inside inside]
  apply touched.l1.touchLine
  · exact fun _ valid => valid
  · exact fun _ => rfl

theorem cacheReadLevel_mapped (mapped : side.Mapped) (here : MappedBlock (addr / blockSize * blockSize)) (len : Nat) :
    (cacheReadLevel prefetchHint side addr len).2.2.Mapped := by
  have found := mapped.l1.findLine addr
  unfold cacheReadLevel
  cases lookup : findLine side.l1 addr with
  | mk hit rest =>
      obtain ⟨way, l1⟩ := rest
      rw [lookup] at found
      cases hit with
      | true => exact ⟨found, mapped.l2⟩
      | false =>
          simp only [Bool.false_eq_true, ↓reduceIte, cachePrefetch_none]
          exact fetchBlock_mapped ⟨found, mapped.l2.findLineQuiet addr⟩ here way

theorem cacheProbeLevel_mapped (mapped : side.Mapped) (addr : Nat) : (cacheProbeLevel side addr).2.Mapped := by
  have first := mapped.l1.findLineQuiet addr
  have second := mapped.l2.findLineQuiet addr
  unfold cacheProbeLevel
  dsimp only
  split
  · exact ⟨first, mapped.l2⟩
  · exact ⟨first, second⟩

theorem cacheSnoopInvalidate_mapped (mapped : side.Mapped) (here : MappedBlock (addr / blockSize * blockSize)) :
    (cacheSnoopInvalidate side addr).Mapped := by
  have start : MappedBlock (addr / blockSize * blockSize / blockSize * blockSize) := by
    rwa [Nat.mul_div_cancel _ (by decide)]
  unfold cacheSnoopInvalidate
  dsimp only
  split
  · exact mapped
  · constructor
    · have counted : Cache.Mapped { side.l1 with writebacks := side.l1.writebacks + 1 } := mapped.l1
      dsimp only
      split
      · apply counted.modifyLine
        exact fun valid => nomatch (show false = true from valid)
      · apply mapped.l1.modifyLine
        exact fun valid => nomatch (show false = true from valid)
    · dsimp only
      split
      · exact accessL2_mapped mapped.l2 start _ _
      · exact mapped.l2

theorem cacheSnoopFlushDirty_mapped (mapped : side.Mapped) (here : MappedBlock (addr / blockSize * blockSize)) :
    (cacheSnoopFlushDirty side addr).Mapped := by
  have start : MappedBlock (addr / blockSize * blockSize / blockSize * blockSize) := by
    rwa [Nat.mul_div_cancel _ (by decide)]
  have counted : Cache.Mapped { side.l1 with writebacks := side.l1.writebacks + 1 } := mapped.l1
  unfold cacheSnoopFlushDirty
  dsimp only
  split
  · exact mapped
  · refine ⟨?_, accessL2_mapped mapped.l2 start _ _⟩
    dsimp only
    apply counted.touchLine
    · exact fun _ valid => valid
    · exact fun _ => rfl

end Side

/-! ## Block transfers stay inside -/

section Transfers

variable {γ : Type} {io : Io γ} {s : IoState γ} {side : Hier} {addr : Nat}

private theorem block_inside : Touch.block.Inside io := Nat.le_refl _

theorem wholeInDram_of_mapped {block : Nat} (here : MappedBlock block) : Io.wholeInDram block = true := by
  unfold MappedBlock blockSize at here
  unfold Io.wholeInDram
  rw [Nat.mod_eq_of_lt (by omega), Bool.and_eq_true, decide_eq_true_eq, decide_eq_true_eq]
  exact ⟨here.1, here.2⟩

/-- The fast path of a block transfer. -/
private theorem transfer_inside {block : Nat} (here : MappedBlock block) :
    (⟨.pmem, block % 2 ^ 32 - mbase.toNat, blockSize⟩ : Touch).Inside io := by
  unfold MappedBlock blockSize at here
  unfold Touch.Inside Io.size msize blockSize
  rw [Nat.mod_eq_of_lt (by omega), show mbase.toNat = 0x80000000 from rfl]
  dsimp only
  omega

theorem loadBlockTouches_inside {block : Nat} (here : MappedBlock block) :
    ∀ t ∈ io.loadBlockTouches s block, t.Inside io := by
  unfold Io.loadBlockTouches
  rw [if_pos (wholeInDram_of_mapped here)]
  simp only [List.mem_cons, List.not_mem_nil, or_false, forall_eq_or_imp, forall_eq]
  exact ⟨transfer_inside here, block_inside⟩

theorem storeBlockTouches_inside {block : Nat} (here : MappedBlock block) (src : ByteMem) :
    ∀ t ∈ io.storeBlockTouches s block src, t.Inside io := by
  unfold Io.storeBlockTouches
  rw [if_pos (wholeInDram_of_mapped here)]
  simp only [List.mem_cons, List.not_mem_nil, or_false, forall_eq_or_imp, forall_eq]
  exact ⟨transfer_inside here, block_inside⟩

theorem accessL2Touches_inside {b : Backing} (mapped : b.l2.Mapped) (here : MappedBlock (addr / blockSize * blockSize))
    (isWrite : Bool) : ∀ t ∈ io.accessL2Touches s b addr isWrite, t.Inside io := by
  have found := mapped.findLine addr
  unfold Io.accessL2Touches
  cases lookup : findLine b.l2 addr with
  | mk hit rest =>
      obtain ⟨way, l2⟩ := rest
      rw [lookup] at found
      simp only
      have whole : ∀ t ∈ [Touch.block, Touch.block], t.Inside io := by
        simp only [List.mem_cons, List.not_mem_nil, or_false, or_self, forall_eq]
        exact block_inside
      split
      · exact whole
      · simp only [List.append_assoc, List.forall_mem_append]
        refine ⟨?_, ?_, whole⟩
        · split
          · next evicts =>
              exact storeBlockTouches_inside (found _ _ (Bool.and_eq_true_iff.mp evicts).1) _
          · exact fun _ absurdity => nomatch absurdity
        · split
          · exact fun _ absurdity => nomatch absurdity
          · exact loadBlockTouches_inside here

theorem fetchBlockTouches_inside (mapped : side.Mapped) (here : MappedBlock (addr / blockSize * blockSize)) (way : Nat) :
    ∀ t ∈ io.fetchBlockTouches s side addr way, t.Inside io := by
  unfold Io.fetchBlockTouches
  simp only [List.forall_mem_append]
  refine ⟨?_, accessL2Touches_inside (victimWritten_mapped mapped _ way) here false⟩
  split
  · next writes =>
      exact accessL2Touches_inside mapped.l2 (mapped.victim (Bool.and_eq_true_iff.mp writes).1).aligned true
  · exact fun _ absurdity => nomatch absurdity

/-- Of a cached access only the copy from or to the line can leave it. -/
theorem cacheTouches_inside_iff (mapped : side.Mapped) (here : MappedBlock (addr / blockSize * blockSize)) (len : Nat) :
    (∀ t ∈ io.cacheTouches s side addr len, t.Inside io) ↔ addr % blockSize + len ≤ blockSize := by
  have found := mapped.l1.findLine addr
  unfold Io.cacheTouches
  cases lookup : findLine side.l1 addr with
  | mk hit rest =>
      obtain ⟨way, l1⟩ := rest
      rw [lookup] at found
      simp only [List.forall_mem_append, List.mem_singleton, forall_eq]
      have looked : Hier.Mapped { side with l1 := l1 } := ⟨found, mapped.l2⟩
      refine and_iff_right ?_
      split
      · exact fun _ absurdity => nomatch absurdity
      · exact fetchBlockTouches_inside looked here way

theorem cacheLevelTouches_inside_iff (mapped : side.Mapped) (here : MappedBlock (addr / blockSize * blockSize))
    (len : Nat) : (∀ t ∈ io.cacheLevelTouches s side addr len, t.Inside io) ↔ addr % blockSize + len ≤ blockSize := by
  have found := mapped.l1.findLine addr
  unfold Io.cacheLevelTouches
  cases lookup : findLine side.l1 addr with
  | mk hit rest =>
      obtain ⟨way, l1⟩ := rest
      rw [lookup] at found
      simp only [List.forall_mem_append, List.mem_singleton, forall_eq]
      refine and_iff_right ?_
      split
      · exact fun _ absurdity => nomatch absurdity
      · exact fetchBlockTouches_inside ⟨found, mapped.l2.findLineQuiet addr⟩ here way

theorem snoopTouches_inside (mapped : side.Mapped) (here : MappedBlock (addr / blockSize * blockSize))
    (found : Option Nat) : ∀ t ∈ io.snoopTouches s side addr found, t.Inside io := by
  have start : MappedBlock (addr / blockSize * blockSize / blockSize * blockSize) := by
    rwa [Nat.mul_div_cancel _ (by decide)]
  unfold Io.snoopTouches
  cases found with
  | none => exact fun _ absurdity => nomatch absurdity
  | some way =>
      dsimp only
      split
      · exact accessL2Touches_inside mapped.l2 start true
      · exact fun _ absurdity => nomatch absurdity

end Transfers

/-! ## Accesses past the caches -/

section Uncached

variable {γ : Type} {io : Io γ} {s : IoState γ} {addr : Word} {len : Nat}

/-- A width that instructions have. -/
def Width (len : Nat) : Prop := len = 1 ∨ len = 2 ∨ len = 4 ∨ len = 8

variable (io s addr len) in
/-- The last byte of an uncached read lies where the first one does: in physical memory, in the framebuffer, or in the
window of a device whose callback accepts the read. -/
def Io.ReadFits : Prop :=
  let pa := addr &&& 0xffffffff
  if inDram pa then pa.toNat + len ≤ mend.toNat
  else if io.inFramebuffer pa.toNat then pa.toNat + len ≤ fbAddr + fbSize
  else ∀ id map, io.fetchMmioMap pa.toNat = some (id, map) →
    (map.callback (pa.toNat - map.low) len false s).isSome = true → pa.toNat + len ≤ map.high + 1

variable (io addr len) in
/-- The last byte of an uncached write lies where the first one does. -/
def Io.WriteFits : Prop :=
  let pa := addr &&& 0xffffffff
  if inDram pa then pa.toNat + len ≤ mend.toNat
  else if io.inFramebuffer pa.toNat then pa.toNat + len ≤ fbAddr + fbSize
  else ∀ id map, io.fetchMmioMap pa.toNat = some (id, map) → pa.toNat + len ≤ map.high + 1

private theorem hostTouches_inside_iff {store : Store} {offset : Nat} (width : Width len) :
    (∀ t ∈ hostTouches store offset len, t.Inside io) ↔ offset + len ≤ io.size store := by
  unfold Width at width
  unfold hostTouches
  rw [if_pos width]
  simp only [List.mem_singleton, forall_eq]
  rfl

private theorem dram_inside_iff {pa : Word} (width : Width len) (inside : inDram pa = true) :
    (∀ t ∈ hostTouches .pmem (pa.toNat - mbase.toNat) len, t.Inside io) ↔ pa.toNat + len ≤ mend.toNat := by
  obtain ⟨low, high⟩ := inDram_iff.mp inside
  rw [hostTouches_inside_iff width, show mbase.toNat = 0x80000000 from rfl, show mend.toNat = 0x88000000 from rfl]
  unfold Io.size msize
  dsimp only
  omega

private theorem framebuffer_inside_iff {pa : Nat} (width : Width len) (inside : io.inFramebuffer pa = true) :
    (∀ t ∈ hostTouches .framebuffer (pa - fbAddr) len, t.Inside io) ↔ pa + len ≤ fbAddr + fbSize := by
  simp only [Io.inFramebuffer, Bool.and_eq_true, decide_eq_true_eq] at inside
  rw [hostTouches_inside_iff width]
  unfold Io.size
  dsimp only
  omega

/-- The window found for an address contains it. -/
theorem fetchMmioMap_inside {pa id : Nat} {map : IOMap γ} (found : io.fetchMmioMap pa = some (id, map)) :
    io.maps[id]? = some map ∧ map.low ≤ pa ∧ pa ≤ map.high := by
  simp only [Io.fetchMmioMap, Io.findMapidByAddr, Option.bind_eq_bind, Option.bind_eq_some_iff] at found
  obtain ⟨_, index, _, present, same⟩ := found
  cases same
  obtain ⟨bound, inside, _⟩ := List.findIdx?_eq_some_iff_getElem.mp index
  have element := List.getElem?_eq_getElem bound
  rw [present] at element
  cases element
  simp only [Io.mapInside, Bool.and_eq_true, decide_eq_true_eq] at inside
  exact ⟨present, inside⟩

private theorem device_inside_iff {pa id : Nat} {map : IOMap γ} (width : Width len)
    (found : io.fetchMmioMap pa = some (id, map)) :
    (∀ t ∈ hostTouches (.device id) (pa - map.low) len, t.Inside io) ↔ pa + len ≤ map.high + 1 := by
  obtain ⟨present, low, high⟩ := fetchMmioMap_inside found
  rw [hostTouches_inside_iff width]
  unfold Io.size
  simp only [present]
  omega

theorem readTouches_inside_iff (width : Width len) :
    (∀ t ∈ io.readTouches s addr len, t.Inside io) ↔ io.ReadFits s addr len := by
  unfold Io.readTouches Io.ReadFits
  dsimp only
  split
  · next inside => exact dram_inside_iff width inside
  · split
    · next inside => exact framebuffer_inside_iff width inside
    · cases found : io.fetchMmioMap (addr &&& 0xffffffff).toNat with
      | none => exact ⟨fun _ _ _ absurdity => (nomatch absurdity), fun _ _ absurdity => (nomatch absurdity)⟩
      | some device =>
          obtain ⟨id, map⟩ := device
          simp only [Option.some.injEq, Prod.mk.injEq]
          cases answer : map.callback ((addr &&& 0xffffffff).toNat - map.low) len false s with
          | none =>
              refine ⟨fun _ id' map' same accepted => ?_, fun _ _ absurdity => nomatch absurdity⟩
              rw [← same.2, answer] at accepted
              cases accepted
          | some after =>
              simp only
              rw [device_inside_iff width found]
              constructor
              · intro fits id' map' same _
                rw [← same.2]
                exact fits
              · intro fits
                exact fits id map ⟨rfl, rfl⟩ (by rw [answer]; rfl)

theorem writeTouches_inside_iff (width : Width len) :
    (∀ t ∈ io.writeTouches addr len, t.Inside io) ↔ io.WriteFits addr len := by
  unfold Io.writeTouches Io.WriteFits
  dsimp only
  split
  · next inside => exact dram_inside_iff width inside
  · split
    · next inside => exact framebuffer_inside_iff width inside
    · cases found : io.fetchMmioMap (addr &&& 0xffffffff).toNat with
      | none => exact ⟨fun _ _ _ absurdity => (nomatch absurdity), fun _ _ absurdity => (nomatch absurdity)⟩
      | some device =>
          obtain ⟨id, map⟩ := device
          simp only [Option.some.injEq, Prod.mk.injEq]
          rw [device_inside_iff width found]
          constructor
          · intro fits id' map' same
            rw [← same.2]
            exact fits
          · exact fun fits => fits id map ⟨rfl, rfl⟩

end Uncached

/-! ## Runs -/

section Runs

variable {γ : Type} {numCores : Nat} {io : Io γ}

/-- Every cache holds blocks of physical memory only. -/
structure MemState.Mapped {δ : Type} (m : MemState δ) : Prop where
  l1i : ∀ h, (m.l1i h).Mapped
  l1d : ∀ h, (m.l1d h).Mapped
  l2 : m.l2.Mapped

namespace MemState.Mapped

variable {δ : Type} {m : MemState δ}

theorem fetchSide (mapped : m.Mapped) (h : Fin 2) : (m.fetchSide h).Mapped := ⟨mapped.l1i h, mapped.l2⟩

theorem dataSide (mapped : m.Mapped) (h : Fin 2) : (m.dataSide h).Mapped := ⟨mapped.l1d h, mapped.l2⟩

theorem setFetchSide (mapped : m.Mapped) {h : Fin 2} {side : Hier} (here : side.Mapped) :
    (m.setFetchSide h side).Mapped := by
  refine ⟨fun g => ?_, mapped.l1d, here.l2⟩
  by_cases same : g = h
  · subst same
    simpa [MemState.setFetchSide] using here.l1
  · simpa [MemState.setFetchSide, same] using mapped.l1i g

theorem setDataSide (mapped : m.Mapped) {h : Fin 2} {side : Hier} (here : side.Mapped) :
    (m.setDataSide h side).Mapped := by
  refine ⟨mapped.l1i, fun g => ?_, here.l2⟩
  by_cases same : g = h
  · subst same
    simpa [MemState.setDataSide] using here.l1
  · simpa [MemState.setDataSide, same] using mapped.l1d g

theorem snoopRead (mapped : m.Mapped) (cfg : MemConfig δ) (h : Fin 2) {addr : Nat}
    (here : MappedBlock (addr / blockSize * blockSize)) : (snoopRead cfg m h addr).Mapped := by
  unfold Sustemu.snoopRead
  split
  · exact mapped.setDataSide (cacheSnoopFlushDirty_mapped (mapped.dataSide _) here)
  · exact mapped

theorem snoopWrite (mapped : m.Mapped) (cfg : MemConfig δ) (h : Fin 2) {addr : Nat}
    (here : MappedBlock (addr / blockSize * blockSize)) : (snoopWrite cfg m h addr).Mapped := by
  unfold Sustemu.snoopWrite
  split
  · exact mapped.setDataSide (cacheSnoopInvalidate_mapped (mapped.dataSide _) here)
  · exact mapped

theorem init (pmem : ByteMem) (dev : δ) : (MemState.init pmem dev).Mapped :=
  ⟨fun _ => .init 6 8, fun _ => .init 6 8, .init 8 16⟩

end MemState.Mapped

theorem mappedBlock_of_inDram {addr : Word} (cached : inDram addr = true) :
    MappedBlock (addr.toNat / blockSize * blockSize) := by
  obtain ⟨low, high⟩ := inDram_iff.mp cached
  exact mappedBlock_of_addr low high

namespace MemOp

/-- The width is one that instructions have. -/
def HasWidth : MemOp → Prop
  | ifetch _ len | read _ len | readLevel _ len | fillAndRead _ len | write _ len _ => Width len
  | probeLevel _ => True

/-- A cached access stays inside its line, an uncached one where it begins. -/
def Fits (io : Io γ) (s : IoState γ) : MemOp → Prop
  | ifetch addr len | read addr len | readLevel addr len | fillAndRead addr len =>
      if inDram addr then InLine addr len else io.ReadFits s addr len
  | probeLevel _ => True
  | write addr len _ => if inDram addr then InLine addr len else io.WriteFits addr len

theorem Fits.inside {io : Io γ} {s : IoState γ} {op : MemOp} (fits : op.Fits io s) : op.Inside := by
  cases op with
  | write addr len data =>
      intro cached
      have inLine : if inDram addr then InLine addr len else io.WriteFits addr len := fits
      rwa [if_pos cached] at inLine
  | ifetch | read | readLevel | fillAndRead | probeLevel => trivial

end MemOp

variable {m : MemState (IoState γ)} {h : Fin 2}

private theorem snoopReadTouches_inside (mapped : m.Mapped) {addr : Nat}
    (here : MappedBlock (addr / blockSize * blockSize)) : ∀ t ∈ snoopReadTouches numCores io m h addr, t.Inside io := by
  unfold snoopReadTouches
  dsimp only
  split
  · exact snoopTouches_inside (mapped.dataSide _) here _
  · exact fun _ absurdity => nomatch absurdity

private theorem snoopWriteTouches_inside (mapped : m.Mapped) {addr : Nat}
    (here : MappedBlock (addr / blockSize * blockSize)) : ∀ t ∈ snoopWriteTouches numCores io m h addr, t.Inside io := by
  unfold snoopWriteTouches
  dsimp only
  split
  · exact snoopTouches_inside (mapped.dataSide _) here _
  · exact fun _ absurdity => nomatch absurdity

/-- One access over caches that hold blocks of physical memory. -/
theorem touches_inside_of_mapped (mapped : m.Mapped) {op : MemOp} (width : op.HasWidth) :
    (∀ t ∈ op.touches numCores io m h, t.Inside io) ↔ op.Fits io m.dev := by
  cases op with
  | ifetch addr len =>
      dsimp only [MemOp.touches, MemOp.Fits]
      split
      · next cached => exact cacheTouches_inside_iff (mapped.fetchSide h) (mappedBlock_of_inDram cached) len
      · exact readTouches_inside_iff width
  | read addr len | fillAndRead addr len =>
      dsimp only [MemOp.touches, MemOp.Fits]
      split
      · next cached =>
          have here := mappedBlock_of_inDram cached
          rw [List.forall_mem_append, and_iff_right (snoopReadTouches_inside mapped here)]
          exact cacheTouches_inside_iff ((mapped.snoopRead _ h here).dataSide h) here len
      · exact readTouches_inside_iff width
  | readLevel addr len =>
      dsimp only [MemOp.touches, MemOp.Fits]
      split
      · next cached =>
          have here := mappedBlock_of_inDram cached
          rw [List.forall_mem_append, and_iff_right (snoopReadTouches_inside mapped here)]
          exact cacheLevelTouches_inside_iff ((mapped.snoopRead _ h here).dataSide h) here len
      · exact readTouches_inside_iff width
  | probeLevel addr => exact ⟨fun _ => trivial, fun _ _ absurdity => nomatch absurdity⟩
  | write addr len data =>
      dsimp only [MemOp.touches, MemOp.Fits]
      split
      · next cached =>
          have here := mappedBlock_of_inDram cached
          rw [List.forall_mem_append, and_iff_right (snoopWriteTouches_inside mapped here)]
          exact cacheTouches_inside_iff ((mapped.snoopWrite _ h here).dataSide h) here len
      · exact writeTouches_inside_iff width

/-! ### What an access leaves -/

section Keeps

variable {δ : Type} {cfg : MemConfig δ} {w w' : World (MemState δ)} {addr value data : Word} {len : Nat}

theorem paddrRead_mapped (mapped : w.mem.Mapped) (done : paddrRead cfg w addr len = some (value, w')) :
    w'.mem.Mapped := by
  unfold paddrRead at done
  simp only at done
  split at done
  · cases done
    exact mapped
  · obtain ⟨⟨_, dev⟩, _, same⟩ := Option.map_eq_some_iff.mp done
    cases same
    exact ⟨mapped.l1i, mapped.l1d, mapped.l2⟩

theorem paddrWrite_mapped (mapped : w.mem.Mapped) (done : paddrWrite cfg w addr len data = some w') : w'.mem.Mapped := by
  unfold paddrWrite at done
  simp only at done
  split at done
  · cases done
    exact ⟨mapped.l1i, mapped.l1d, mapped.l2⟩
  · obtain ⟨dev, _, same⟩ := Option.map_eq_some_iff.mp done
    cases same
    exact ⟨mapped.l1i, mapped.l1d, mapped.l2⟩

theorem vaddrIfetch_mapped (hint : cfg.prefetchHint = prefetchHint) (mapped : w.mem.Mapped)
    (done : vaddrIfetch cfg w addr len = some (value, w')) : w'.mem.Mapped := by
  unfold vaddrIfetch at done
  rw [hint] at done
  split at done
  · next cached =>
      cases done
      exact mapped.setFetchSide (cacheTouch_mapped (mapped.fetchSide _) (mappedBlock_of_inDram cached))
  · exact paddrRead_mapped mapped done

theorem vaddrRead_mapped (hint : cfg.prefetchHint = prefetchHint) (mapped : w.mem.Mapped)
    (done : vaddrRead cfg w addr len = some (value, w')) : w'.mem.Mapped := by
  unfold vaddrRead at done
  rw [hint] at done
  split at done
  · next cached =>
      cases done
      have here := mappedBlock_of_inDram cached
      have snooped := mapped.snoopRead cfg w.sys.hartid here
      exact snooped.setDataSide (cacheTouch_mapped (snooped.dataSide _) here)
  · exact paddrRead_mapped mapped done

theorem vaddrReadLevel_mapped (hint : cfg.prefetchHint = prefetchHint) (mapped : w.mem.Mapped) {level : Fin 3}
    (done : vaddrReadLevel cfg w addr len = some (level, value, w')) : w'.mem.Mapped := by
  unfold vaddrReadLevel at done
  rw [hint] at done
  split at done
  · next cached =>
      cases done
      have here := mappedBlock_of_inDram cached
      have snooped := mapped.snoopRead cfg w.sys.hartid here
      exact snooped.setDataSide (cacheReadLevel_mapped (snooped.dataSide _) here len)
  · obtain ⟨⟨_, _⟩, read, same⟩ := Option.map_eq_some_iff.mp done
    cases same
    exact paddrRead_mapped mapped read

theorem vaddrProbeLevel_mapped (mapped : w.mem.Mapped) (addr : Word) : (vaddrProbeLevel w addr).2.mem.Mapped := by
  unfold vaddrProbeLevel
  split
  · exact mapped.setDataSide (cacheProbeLevel_mapped (mapped.dataSide _) addr.toNat)
  · exact mapped

theorem vaddrWrite_mapped (hint : cfg.prefetchHint = prefetchHint) (mapped : w.mem.Mapped)
    (inside : inDram addr = true → InLine addr len) (done : vaddrWrite cfg w addr len data = some w') : w'.mem.Mapped := by
  unfold vaddrWrite at done
  rw [hint] at done
  split at done
  · next cached =>
      cases done
      have here := mappedBlock_of_inDram cached
      have snooped := mapped.snoopWrite cfg w.sys.hartid here
      exact snooped.setDataSide (cacheWrite_mapped (snooped.dataSide _) here (inside cached) data)
  · exact paddrWrite_mapped mapped done

theorem MemOp.perform_mapped (hint : cfg.prefetchHint = prefetchHint) (mapped : w.mem.Mapped) {h : Fin 2} {op : MemOp}
    {read : Option Word} (inside : op.Inside) (done : op.perform (hierarchy cfg) w h = some (read, w')) : w'.mem.Mapped := by
  have start : ({ w with sys := { w.sys with hartid := h } } : World (MemState δ)).mem.Mapped := mapped
  cases op with
  | ifetch addr len =>
      obtain ⟨⟨_, _⟩, access, same⟩ := Option.map_eq_some_iff.mp done
      cases same
      exact vaddrIfetch_mapped hint start access
  | read addr len | fillAndRead addr len =>
      obtain ⟨⟨_, _⟩, access, same⟩ := Option.map_eq_some_iff.mp done
      cases same
      exact vaddrRead_mapped hint start access
  | readLevel addr len =>
      obtain ⟨⟨_, _, _⟩, access, same⟩ := Option.map_eq_some_iff.mp done
      cases same
      exact vaddrReadLevel_mapped hint start access
  | probeLevel addr =>
      cases done
      exact vaddrProbeLevel_mapped start addr
  | write addr len data =>
      obtain ⟨_, access, same⟩ := Option.map_eq_some_iff.mp done
      cases same
      exact vaddrWrite_mapped hint start inside access

end Keeps

end Runs

namespace MemOp

variable {γ : Type} (numCores : Nat) (io : Io γ)

/-- No access of a run touches a byte outside its object. -/
def AllInside : World (MemState (IoState γ)) → List (Fin 2 × MemOp) → Prop
  | _, [] => True
  | w, (h, op) :: rest => (∀ t ∈ op.touches numCores io w.mem h, t.Inside io) ∧
      ∀ value w', op.perform (hierarchy (io.memConfig numCores)) w h = some (value, w') → AllInside w' rest

/-- Every access of a run fits; a failed assertion ends the run. -/
def AllFit : World (MemState (IoState γ)) → List (Fin 2 × MemOp) → Prop
  | _, [] => True
  | w, (h, op) :: rest => op.Fits io w.mem.dev ∧
      ∀ value w', op.perform (hierarchy (io.memConfig numCores)) w h = some (value, w') → AllFit w' rest

theorem allInside_of_mapped {w : World (MemState (IoState γ))} (mapped : w.mem.Mapped) {ops : List (Fin 2 × MemOp)}
    (widths : ∀ access ∈ ops, access.2.HasWidth) : AllInside numCores io w ops ↔ AllFit numCores io w ops := by
  induction ops generalizing w with
  | nil => exact Iff.rfl
  | cons access rest ih =>
      obtain ⟨h, op⟩ := access
      unfold AllInside AllFit
      rw [touches_inside_of_mapped mapped (widths (h, op) List.mem_cons_self)]
      refine and_congr_right fun fits => forall_congr' fun value => forall_congr' fun w' => forall_congr' fun done => ?_
      have after := perform_mapped rfl mapped fits.inside done
      exact ih after fun access member => widths access (List.mem_cons_of_mem _ member)

end MemOp

/-- From empty caches, a run of accesses touches bytes of its own objects only, or is stopped before it touches another,
exactly when every access fits: cached ones stay in their line, others in the memory, framebuffer or window they begin in. -/
theorem accesses_inside_iff {γ : Type} (numCores : Nat) (io : Io γ) (sys : Sys) (pmem : ByteMem) (dev : IoState γ)
    (ops : List (Fin 2 × MemOp)) (widths : ∀ access ∈ ops, access.2.HasWidth) :
    MemOp.AllInside numCores io ⟨sys, MemState.init pmem dev⟩ ops ↔
      MemOp.AllFit numCores io ⟨sys, MemState.init pmem dev⟩ ops :=
  MemOp.allInside_of_mapped numCores io (MemState.Mapped.init pmem dev) widths

/-- A timer of two words, which every access brings up to date. -/
def timerIo : Io Unit := ⟨[⟨0xa0000048, 0xa000004f, fun _ _ _ s => some s⟩], true⟩

/-- Idle devices. -/
def IoState.idle : IoState Unit := ⟨fun _ _ => 0, fun _ => 0, ()⟩

/-- A store to the end of a line, a fetch behind it, a read of the timer and a write to the framebuffer. -/
theorem accesses_inside_devices : MemOp.AllInside 1 timerIo ⟨Sys.init, MemState.init (fun _ => 0) .idle⟩
    [(0, .write 0x80000038 8 5), (0, .ifetch 0x80000040 4), (0, .read 0xa000004c 4), (0, .write 0xa1000000 8 1)] := by
  refine (accesses_inside_iff 1 timerIo Sys.init (fun _ => 0) .idle _ ?_).mpr
    ⟨?_, fun _ _ _ => ⟨?_, fun _ _ _ => ⟨?_, fun _ _ _ => ⟨?_, fun _ _ _ => trivial⟩⟩⟩⟩
  · simp [MemOp.HasWidth, Width]
  · change InLine 0x80000038 8
    decide
  · change InLine 0x80000040 4
    decide
  · intro id map found _
    cases found
    decide
  · change 0xa1000000 + 8 ≤ fbAddr + fbSize
    decide

/-- `sd x0, 60(x5)` with the reset address in `x5` stores past the end of its line. -/
theorem store_leaves_line :
    let ir := irExecStore 8 (irDecode (RegFile.empty.set 5 mbase) 0x0202be23 mbase (mbase + 4) .zero)
    ir.itype = .store ∧ ir.memAddr = 0x8000003c ∧ ir.memWidth = 8 ∧
      ⟨.line, 60, 8⟩ ∈ (MemOp.write ir.memAddr ir.memWidth ir.src2Val).touches 1 timerIo (MemState.init (fun _ => 0) .idle) 0 ∧
        ¬ (⟨.line, 60, 8⟩ : Touch).Inside timerIo := by
  decide +kernel

end Sustemu
