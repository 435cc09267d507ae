import Sustemu.Isa.Inst
import Sustemu.Lib.Update

/-!
# Set-associative write-back caches

The cache of `cache.c`: lookup with a most-recently-used shortcut, least
recently used victims, the shared second level with write-back to physical
memory, and the two snoop operations of the coherence protocol. Blocks are 64
bytes, and a line's data is a byte memory of which only the first 64 bytes are
used. The lines of a set lie one behind the other, and `data` is the last field
of a line, so an access that runs past byte 63 meets the `valid` and `dirty` of
the next way. Behind the last way lies the slack of the allocation, of which no
lookup knows; it is way `w` here.
-/

set_option autoImplicit false

namespace Sustemu

open Lib

def blockSize : Nat := 64

/-- `UINT64_MAX`, the start value of the least-recently-used search. -/
def maxTime : Nat := 2 ^ 64 - 1

/-- `int valid` and `int dirty` are kept as the 32 bits they are. -/
structure CacheLine where
  validInt : BitVec 32
  dirtyInt : BitVec 32
  tag : Nat
  lastAccess : Nat
  data : ByteMem

namespace CacheLine

def zero : CacheLine := ⟨0, 0, 0, 0, fun _ => 0⟩

/-- `valid` as a condition. -/
def valid (line : CacheLine) : Bool := line.validInt != 0

/-- `dirty` as a condition. -/
def dirty (line : CacheLine) : Bool := line.dirtyInt != 0

/-- The first eight bytes of a line: `valid`, then `dirty`. -/
def header (line : CacheLine) : Word := line.dirtyInt ++ line.validInt

variable (line : CacheLine) (validInt dirtyInt : BitVec 32) (tag lastAccess : Nat) (data : ByteMem)

@[simp] theorem valid_mk : (mk validInt dirtyInt tag lastAccess data).valid = (validInt != 0) := rfl

@[simp] theorem dirty_mk : (mk validInt dirtyInt tag lastAccess data).dirty = (dirtyInt != 0) := rfl

theorem valid_one : (mk 1 dirtyInt tag lastAccess data).valid = true := rfl

theorem dirty_zero : (mk validInt 0 tag lastAccess data).dirty = false := rfl

@[simp] theorem validInt_bne : (line.validInt != 0#32) = line.valid := rfl

@[simp] theorem dirtyInt_bne : (line.dirtyInt != 0#32) = line.dirty := rfl

end CacheLine

structure CacheSet where
  lines : Nat → CacheLine
  mruWay : Option Nat

/-- `s` is the number of set-index bits and `w` the associativity. -/
structure Cache where
  s : Nat
  w : Nat
  sets : Nat → CacheSet
  timer : Nat
  hits : Nat
  misses : Nat
  evictions : Nat
  writebacks : Nat

def initCache (s w : Nat) : Cache where
  s := s
  w := w
  sets := fun _ => ⟨fun _ => .zero, none⟩
  timer := 0
  hits := 0
  misses := 0
  evictions := 0
  writebacks := 0

namespace Cache

def setIdx (c : Cache) (addr : Nat) : Nat := addr / blockSize % 2 ^ c.s

def tagOf (c : Cache) (addr : Nat) : Nat := addr / 2 ^ (c.s + 6)

def line (c : Cache) (set way : Nat) : CacheLine := (c.sets set).lines way

def modifyLine (c : Cache) (set way : Nat) (change : CacheLine → CacheLine) : Cache :=
  let lines := setAt (c.sets set).lines way (change (c.line set way))
  { c with sets := setAt c.sets set ⟨lines, (c.sets set).mruWay⟩ }

def setMru (c : Cache) (set way : Nat) : Cache :=
  { c with sets := setAt c.sets set ⟨(c.sets set).lines, some way⟩ }

/-- Address of the block a line of set `set` with tag `tag` holds. -/
def blockAddr (c : Cache) (set tag : Nat) : Nat := tag * 2 ^ (c.s + 6) + set * blockSize

end Cache

def CacheLine.matches (line : CacheLine) (tag : Nat) : Bool := line.valid && line.tag == tag

/-- `memcpy` of one block. -/
def copyBlock (dest src : ByteMem) : ByteMem := fun k => if k < blockSize then src k else dest k

namespace Cache

/-- The bytes from the data of a way on: the block, then the flags of the next way. -/
def bytes (c : Cache) (set way : Nat) : ByteMem := fun k =>
  if k < blockSize then (c.line set way).data k else byteOf (c.line set (way + 1)).header (k - blockSize)

/-- `memcpy(&res, line->data + offset, len)` for at most eight bytes. -/
def copyOut (c : Cache) (set way offset len : Nat) : Word :=
  loadLE (if offset + len ≤ blockSize then (c.line set way).data else c.bytes set way) offset len

/-- `memcpy(line->data + offset, &data, len)` for at most eight bytes, and `line->dirty = 1`. -/
def copyIn (c : Cache) (set way offset len : Nat) (data : Word) : Cache :=
  if offset + len ≤ blockSize then
    c.modifyLine set way fun line => { line with dirtyInt := 1, data := storeLE line.data offset len data }
  else
    let bytes := storeLE (c.bytes set way) offset len data
    let written := c.modifyLine set way fun line => { line with dirtyInt := 1, data := copyBlock line.data bytes }
    -- The bytes past the block are the flags of the next way.
    written.modifyLine set (way + 1) fun line =>
      { line with
        validInt := (loadLE bytes blockSize 4).setWidth 32
        dirtyInt := (loadLE bytes (blockSize + 4) 4).setWidth 32 }

end Cache

/-- The way loop of `find_line`: the first matching way, or else the way with
the smallest access time among those scanned. -/
def scanWays (lines : Nat → CacheLine) (tag : Nat) : Nat → Nat → Nat → Nat → Bool × Nat
  | 0, _, lru, _ => (false, lru)
  | left + 1, i, lru, minTime =>
      if (lines i).matches tag then (true, i)
      else if (lines i).lastAccess < minTime then scanWays lines tag left (i + 1) i (lines i).lastAccess
      else scanWays lines tag left (i + 1) lru minTime

/-- Hit flag and way selected for `addr`: the most recently used way is tried first. -/
def selectWay (c : Cache) (addr : Nat) : Bool × Nat :=
  let set := c.sets (c.setIdx addr)
  let tag := c.tagOf addr
  let scan := scanWays set.lines tag c.w 0 0 maxTime
  match set.mruWay with
  | some mru => if (set.lines mru).matches tag then (true, mru) else scan
  | none => scan

/-- `find_line_quiet`: on a hit only the shortcut moves. -/
def findLineQuiet (c : Cache) (addr : Nat) : Bool × Nat × Cache :=
  let (hit, way) := selectWay c addr
  (hit, way, if hit then c.setMru (c.setIdx addr) way else c)

/-- `find_line`: as the quiet lookup, with the timer and the counters. -/
def findLine (c : Cache) (addr : Nat) : Bool × Nat × Cache :=
  let c := { c with timer := c.timer + 1 }
  let (hit, way) := selectWay c addr
  let set := c.setIdx addr
  (hit, way,
    if hit then
      ({ c with hits := c.hits + 1 }.modifyLine set way fun line =>
        { line with lastAccess := c.timer }).setMru set way
    else { c with misses := c.misses + 1 })

-- Block transfers to and from physical memory. Every cached address lies in
-- physical memory, so the device fallback of the source is never taken.

def loadBlockFromMem (pmem : ByteMem) (block : Nat) (dest : ByteMem) : ByteMem :=
  copyBlock dest fun k => pmem (block + k)

def storeBlockToMem (pmem : ByteMem) (block : Nat) (src : ByteMem) : ByteMem := fun a =>
  if block ≤ a ∧ a < block + blockSize then src (a - block) else pmem a

/-- The second-level cache and the memory behind it. -/
structure Backing where
  l2 : Cache
  pmem : ByteMem

/-- `access_l2`: a write stores `data` as a dirty block, a read returns the block. -/
def accessL2 (b : Backing) (addr : Nat) (data : ByteMem) (isWrite : Bool) : ByteMem × Backing :=
  let (hit, way, l2) := findLine b.l2 addr
  let set := l2.setIdx addr
  let line := l2.line set way
  if hit then
    if isWrite then
      (data, ⟨l2.modifyLine set way fun line =>
        { line with dirtyInt := 1, data := copyBlock line.data data }, b.pmem⟩)
    else (copyBlock data line.data, ⟨l2, b.pmem⟩)
  else
    let evicts := line.valid && line.dirty
    let pmem := if evicts then storeBlockToMem b.pmem (l2.blockAddr set line.tag) line.data else b.pmem
    let l2 := if evicts then { l2 with evictions := l2.evictions + 1, writebacks := l2.writebacks + 1 } else l2
    let tag := l2.tagOf addr
    if isWrite then
      (data, ⟨l2.modifyLine set way fun line =>
        ⟨1, 1, tag, l2.timer, copyBlock line.data data⟩, pmem⟩)
    else
      let loaded := loadBlockFromMem pmem (addr / blockSize * blockSize) line.data
      (copyBlock data loaded, ⟨l2.modifyLine set way fun _ => ⟨1, 0, tag, l2.timer, loaded⟩, pmem⟩)

/-- One first-level cache with what lies behind it. -/
structure Hier where
  l1 : Cache
  back : Backing

/-- `fetch_block`: write a dirty victim back, then refill its way. -/
def fetchBlock (h : Hier) (addr way : Nat) : Hier :=
  let set := h.l1.setIdx addr
  let victim := h.l1.line set way
  let writes := victim.valid && victim.dirty
  let back := if writes then (accessL2 h.back (h.l1.blockAddr set victim.tag) victim.data true).2 else h.back
  let l1 := if victim.valid then { h.l1 with evictions := h.l1.evictions + 1 } else h.l1
  let l1 := if writes then { l1 with writebacks := l1.writebacks + 1 } else l1
  let (data, back) := accessL2 back addr victim.data false
  ⟨l1.modifyLine set way fun _ => ⟨1, 0, l1.tagOf addr, l1.timer, data⟩, back⟩

def prefetchDegree : Nat := 2

/-- `cache_prefetch`: follow at most `prefetchDegree` hints; a hint of 0 stops. -/
def cachePrefetch (hint : Nat → Nat) : Nat → Hier → Nat → Hier
  | 0, h, _ => h
  | degree + 1, h, cur =>
      let next := hint cur
      if next = 0 then h
      else
        let (already, way, l1) := findLineQuiet h.l1 next
        let h := { h with l1 := l1 }
        cachePrefetch hint degree (if already then h else fetchBlock h next way) next

/-- The lookup that every cached access starts with: the way that holds `addr` afterwards. -/
def cacheTouch (hint : Nat → Nat) (h : Hier) (addr : Nat) : Nat × Hier :=
  let (hit, way, l1) := findLine h.l1 addr
  let h := { h with l1 := l1 }
  if hit then (way, h) else (way, cachePrefetch hint prefetchDegree (fetchBlock h addr way) addr)

/-- `cache_read` and `cache_fill_and_read`, which have one body. -/
def cacheRead (hint : Nat → Nat) (h : Hier) (addr len : Nat) : Word × Hier :=
  let (way, h) := cacheTouch hint h addr
  (h.l1.copyOut (h.l1.setIdx addr) way (addr % blockSize) len, h)

/-- `cache_probe_level`: 0 in the first level, 1 in the second, 2 in neither. -/
def cacheProbeLevel (h : Hier) (addr : Nat) : Fin 3 × Hier :=
  let (l1Hit, _, l1) := findLineQuiet h.l1 addr
  if l1Hit then (0, { h with l1 := l1 })
  else
    let (l2Hit, _, l2) := findLineQuiet h.back.l2 addr
    (if l2Hit then 1 else 2, ⟨l1, { h.back with l2 := l2 }⟩)

/-- `cache_read_level`: the value and the level that serviced it. -/
def cacheReadLevel (hint : Nat → Nat) (h : Hier) (addr len : Nat) : Fin 3 × Word × Hier :=
  let (hit, way, l1) := findLine h.l1 addr
  let h := { h with l1 := l1 }
  let set := h.l1.setIdx addr
  if hit then (0, h.l1.copyOut set way (addr % blockSize) len, h)
  else
    let (l2Hit, _, l2) := findLineQuiet h.back.l2 addr
    let h := { h with back := { h.back with l2 := l2 } }
    let h := cachePrefetch hint prefetchDegree (fetchBlock h addr way) addr
    (if l2Hit then 1 else 2, h.l1.copyOut set way (addr % blockSize) len, h)

def cacheWrite (hint : Nat → Nat) (h : Hier) (addr len : Nat) (data : Word) : Hier :=
  let (way, h) := cacheTouch hint h addr
  { h with l1 := h.l1.copyIn (h.l1.setIdx addr) way (addr % blockSize) len data }

/-! ## The timer -/

theorem findLine_timer (c : Cache) (addr : Nat) : (findLine c addr).2.2.timer = c.timer + 1 := by
  unfold findLine
  simp only
  split <;> rfl

theorem findLineQuiet_timer (c : Cache) (addr : Nat) : (findLineQuiet c addr).2.2.timer = c.timer := by
  unfold findLineQuiet
  simp only
  split <;> rfl

theorem fetchBlock_timer (h : Hier) (addr way : Nat) : (fetchBlock h addr way).l1.timer = h.l1.timer := by
  unfold fetchBlock
  simp only [Cache.modifyLine]
  split <;> split <;> rfl

theorem cachePrefetch_timer (hint : Nat → Nat) (degree : Nat) (h : Hier) (cur : Nat) :
    (cachePrefetch hint degree h cur).l1.timer = h.l1.timer := by
  induction degree generalizing h cur with
  | zero => rfl
  | succ degree ih =>
      unfold cachePrefetch
      simp only
      split
      · rfl
      · rw [ih]
        split
        · exact findLineQuiet_timer h.l1 (hint cur)
        · rw [fetchBlock_timer]
          exact findLineQuiet_timer h.l1 (hint cur)

/-- Every cached access advances the timer. -/
theorem cacheTouch_timer (hint : Nat → Nat) (h : Hier) (addr : Nat) :
    (cacheTouch hint h addr).2.l1.timer = h.l1.timer + 1 := by
  unfold cacheTouch
  simp only
  split
  · exact findLine_timer h.l1 addr
  · rw [cachePrefetch_timer, fetchBlock_timer]
    exact findLine_timer h.l1 addr

theorem cacheRead_timer (hint : Nat → Nat) (h : Hier) (addr len : Nat) :
    (cacheRead hint h addr len).2.l1.timer = h.l1.timer + 1 := cacheTouch_timer hint h addr

theorem cacheWrite_timer (hint : Nat → Nat) (h : Hier) (addr len : Nat) (data : Word) :
    (cacheWrite hint h addr len data).l1.timer = h.l1.timer + 1 := by
  rw [← cacheTouch_timer hint h addr]
  unfold cacheWrite Cache.copyIn
  simp only
  split <;> rfl

/-! ## Snooping -/

/-- The first way of the set of `addr` whose line satisfies `wanted`. -/
def firstWay (c : Cache) (addr : Nat) (wanted : CacheLine → Bool) : Option Nat :=
  (List.range c.w).find? fun way => wanted (c.line (c.setIdx addr) way)

/-- `cache_snoop_invalidate`: drop another core's copy, writing it back if dirty. -/
def cacheSnoopInvalidate (h : Hier) (addr : Nat) : Hier :=
  match firstWay h.l1 addr fun line => line.matches (h.l1.tagOf addr) with
  | none => h
  | some way =>
      let set := h.l1.setIdx addr
      let line := h.l1.line set way
      let back := if line.dirty then (accessL2 h.back (addr / blockSize * blockSize) line.data true).2 else h.back
      let l1 := if line.dirty then { h.l1 with writebacks := h.l1.writebacks + 1 } else h.l1
      ⟨l1.modifyLine set way fun line => { line with validInt := 0, dirtyInt := 0 }, back⟩

/-- `cache_snoop_flush_dirty`: write another core's dirty copy back and keep it clean. -/
def cacheSnoopFlushDirty (h : Hier) (addr : Nat) : Hier :=
  match firstWay h.l1 addr fun line => line.matches (h.l1.tagOf addr) && line.dirty with
  | none => h
  | some way =>
      let set := h.l1.setIdx addr
      let line := h.l1.line set way
      let back := (accessL2 h.back (addr / blockSize * blockSize) line.data true).2
      ⟨{ h.l1 with writebacks := h.l1.writebacks + 1 }.modifyLine set way fun line =>
        { line with dirtyInt := 0 }, back⟩

end Sustemu
