import Sustemu.Ooo.Forwarding
import Sustemu.Ooo.Phases

/-!
# Device accesses of the out-of-order engine

Reads of devices wait until their load is the oldest instruction, and writes
happen at commit, so the devices see the accesses of the committed program. The
exception is an access whose word lacks the two low bits of its opcode:
decoding ignores these bits, renaming does not, and an integer unit executes
the access without touching memory.
-/

set_option autoImplicit false

namespace Sustemu

open Lib Engine

/-- An access to a device register or the framebuffer, at its physical address. -/
inductive DeviceOp where
  | read (addr : Word) (len : Nat)
  | write (addr : Word) (len : Nat) (data : Word)
  deriving DecidableEq, Repr

def DeviceOp.addr : DeviceOp → Word
  | read addr _ | write addr _ _ => addr

/-- The opcode bits by which renaming knows the access. -/
def DeviceOp.opcode : DeviceOp → Nat
  | read _ _ => 0x03
  | write _ _ _ => 0x23

/-- The devices with a record of what was done to them. -/
def Devices.recorded {δ : Type} (devices : Devices δ) : Devices (δ × List DeviceOp) where
  read := fun dev addr len =>
    (devices.read dev.1 addr len).map fun (value, dev') => (value, dev', dev.2 ++ [.read addr len])
  write := fun dev addr len data =>
    (devices.write dev.1 addr len data).map fun dev' => (dev', dev.2 ++ [.write addr len data])

/-- The recorded accesses from the device range up. -/
def deviceOps {δ : Type} (w : World (MemState (δ × List DeviceOp))) : List DeviceOp :=
  w.mem.dev.2.filter fun op => decide (mmioBase ≤ op.addr)

namespace ROBEntry

/-- The physical address of an access. -/
def physAddr (entry : ROBEntry) : Word := entry.ir.memAddr &&& 0xffffffff

/-- The device access that an executed instruction asks for. -/
def deviceOp (entry : ROBEntry) : Option DeviceOp :=
  if mmioBase ≤ entry.physAddr then
    match entry.ir.itype with
    | .load => some (.read entry.physAddr entry.ir.memWidth)
    | .store => some (.write entry.physAddr entry.ir.memWidth entry.ir.src2Val)
    | _ => none
  else none

/-- A device access has the full opcode of a load or a store. -/
def FullyEncoded (entry : ROBEntry) : Prop := ∀ op ∈ entry.deviceOp, opcode7Of entry.ir.raw = op.opcode

instance (entry : ROBEntry) : Decidable entry.FullyEncoded := inferInstanceAs (Decidable (∀ op ∈ entry.deviceOp, _))

/-- A finished load of a device whose read has happened. -/
def ReadDevice (entry : ROBEntry) : Prop :=
  entry.ready = true ∧ opcode7Of entry.ir.raw = 0x03 ∧ entry.ir.itype = .load ∧ mmioBase ≤ entry.physAddr

instance (entry : ROBEntry) : Decidable entry.ReadDevice := inferInstanceAs (Decidable (_ ∧ _ ∧ _ ∧ _))

end ROBEntry

/-- A finished instruction has read its device or is about to write it. -/
theorem ROBEntry.deviceOp_split {entry : ROBEntry} (ready : entry.ready = true) (encoded : entry.FullyEncoded)
    (data : entry.isStore = true → entry.ir.itype = .store → entry.storeData = entry.ir.src2Val) :
    ((if entry.ReadDevice then [DeviceOp.read entry.physAddr entry.ir.memWidth] else []) ++
      if entry.ir.itype = .store ∧ mmioBase ≤ entry.physAddr then
        [.write entry.physAddr entry.ir.memWidth entry.storeData]
      else []) = [entry].filterMap ROBEntry.deviceOp := by
  unfold ROBEntry.ReadDevice
  by_cases device : mmioBase ≤ entry.physAddr
  · by_cases load : entry.ir.itype = .load
    · have opcode : opcode7Of entry.ir.raw = 0x03 := encoded (.read entry.physAddr entry.ir.memWidth)
        (by simp [ROBEntry.deviceOp, device, load])
      simp [ROBEntry.deviceOp, device, load, ready, opcode]
    · by_cases store : entry.ir.itype = .store
      · have opcode : opcode7Of entry.ir.raw = 0x23 :=
          encoded (.write entry.physAddr entry.ir.memWidth entry.ir.src2Val) (by simp [ROBEntry.deviceOp, device, store])
        have operand := data (by simp [ROBEntry.isStore, opcode]) store
        simp [ROBEntry.deviceOp, device, store, operand]
      · have none : entry.deviceOp = none := by
          unfold ROBEntry.deviceOp
          rw [if_pos device]
          split
          · exact absurd ‹_› load
          · exact absurd ‹_› store
          · rfl
        simp [load, store, none]
  · simp [ROBEntry.deviceOp, device]

/-- The read of the oldest instruction, if it has happened. -/
def OOOState.headRead (o : OOOState) : List DeviceOp :=
  if o.robCount ≠ 0 ∧ (o.rob o.robHead).ReadDevice then
    [.read (o.rob o.robHead).physAddr (o.rob o.robHead).ir.memWidth]
  else []

/-! ## Memory -/

section Memory

variable {δ : Type} {cfg : MemConfig δ} {w w' : World (MemState δ)} {addr value : Word} {len : Nat}

theorem snoopRead_dev (m : MemState δ) (h : Fin 2) (addr : Nat) : (snoopRead cfg m h addr).dev = m.dev := by
  unfold snoopRead
  split
  · rfl
  · rfl

theorem snoopWrite_dev (m : MemState δ) (h : Fin 2) (addr : Nat) : (snoopWrite cfg m h addr).dev = m.dev := by
  unfold snoopWrite
  split
  · rfl
  · rfl

theorem vaddrIfetch_dev (cached : inDram addr = true) (read : vaddrIfetch cfg w addr len = some (value, w')) :
    w'.mem.dev = w.mem.dev := by
  unfold vaddrIfetch at read
  rw [if_pos cached] at read
  cases read
  rfl

theorem vaddrRead_dev (cached : inDram addr = true) (read : vaddrRead cfg w addr len = some (value, w')) :
    w'.mem.dev = w.mem.dev := by
  unfold vaddrRead at read
  rw [if_pos cached] at read
  cases read
  exact snoopRead_dev w.mem w.sys.hartid addr.toNat

theorem vaddrProbeLevel_dev (w : World (MemState δ)) (addr : Word) :
    (vaddrProbeLevel w addr).2.mem.dev = w.mem.dev := by
  unfold vaddrProbeLevel
  split
  · rfl
  · rfl

theorem vaddrWrite_dev {data : Word} (cached : inDram addr = true)
    (written : vaddrWrite cfg w addr len data = some w') : w'.mem.dev = w.mem.dev := by
  unfold vaddrWrite at written
  rw [if_pos cached] at written
  cases written
  exact snoopWrite_dev w.mem w.sys.hartid addr.toNat

end Memory

section Recorded

variable {δ : Type} {devices : Devices δ} {w w' : World (MemState (δ × List DeviceOp))} {addr value : Word} {len : Nat}
  {numCores : Nat} {hint : Nat → Nat}

theorem deviceOps_same {w w' : World (MemState (δ × List DeviceOp))} (same : w'.mem.dev = w.mem.dev) :
    deviceOps w' = deviceOps w := by
  unfold deviceOps
  rw [same]

/-- No cacheable address is a device's. -/
theorem below_of_inDram (inside : inDram addr = true) : ¬ mmioBase ≤ addr := by
  obtain ⟨_, below⟩ := inDram_iff.mp inside
  rw [BitVec.le_def]
  change ¬ 0xa0000000 ≤ addr.toNat
  omega

theorem deviceOps_append (ops : List DeviceOp) (op : DeviceOp) :
    (ops ++ [op]).filter (fun op => decide (mmioBase ≤ op.addr)) =
      ops.filter (fun op => decide (mmioBase ≤ op.addr)) ++ if mmioBase ≤ op.addr then [op] else [] := by
  rw [List.filter_append, List.filter_cons]
  simp only [decide_eq_true_eq, List.filter_nil]

theorem vaddrRead_deviceOps (read : vaddrRead ⟨numCores, hint, devices.recorded⟩ w addr len = some (value, w')) :
    deviceOps w' = deviceOps w ++ if mmioBase ≤ addr &&& 0xffffffff then [.read (addr &&& 0xffffffff) len] else [] := by
  by_cases cached : inDram addr = true
  · have outside := below_of_inDram cached
    rw [← truncPc_of_inDram cached, truncPc] at outside
    rw [deviceOps_same (vaddrRead_dev cached read), if_neg outside, List.append_nil]
  · unfold vaddrRead paddrRead at read
    rw [if_neg cached] at read
    simp only at read
    split at read
    · next inside =>
        cases read
        rw [if_neg (below_of_inDram inside), List.append_nil]
        rfl
    · simp only [Devices.recorded, Option.map_map, Option.map_eq_some_iff] at read
      obtain ⟨⟨value', dev⟩, _, same⟩ := read
      cases same
      exact deviceOps_append _ _

theorem vaddrWrite_deviceOps {data : Word}
    (written : vaddrWrite ⟨numCores, hint, devices.recorded⟩ w addr len data = some w') :
    deviceOps w' = deviceOps w ++
      if mmioBase ≤ addr &&& 0xffffffff then [.write (addr &&& 0xffffffff) len data] else [] := by
  by_cases cached : inDram addr = true
  · have outside := below_of_inDram cached
    rw [← truncPc_of_inDram cached, truncPc] at outside
    rw [deviceOps_same (vaddrWrite_dev cached written), if_neg outside, List.append_nil]
  · unfold vaddrWrite paddrWrite at written
    rw [if_neg cached] at written
    simp only at written
    split at written
    · next inside =>
        cases written
        rw [if_neg (below_of_inDram inside), List.append_nil]
        rfl
    · simp only [Devices.recorded, Option.map_map, Option.map_eq_some_iff] at written
      obtain ⟨dev, _, same⟩ := written
      cases same
      exact deviceOps_append _ _

end Recorded

/-! ## Entries and misses -/

namespace OOOState

variable {o o' : OOOState}

/-- Every miss in flight is of a cacheable line. -/
def LinesCached (o : OOOState) : Prop :=
  ∀ s m, (o.latch .lsu s).valid = true → (o.latch .lsu s).mshrIdx = some m → inDram (o.mshr m).lineAddr = true

/-- Reads of devices belong to the oldest instruction, and stores carry their operand. -/
structure AccessesOk (o : OOOState) : Prop where
  oldest : ∀ i, (o.rob i).valid = true → (o.rob i).ReadDevice → i = o.robHead
  data : ∀ i, (o.rob i).valid = true → (o.rob i).ready = true → (o.rob i).isStore = true →
    (o.rob i).ir.itype = .store → (o.rob i).storeData = (o.rob i).ir.src2Val

theorem LinesCached.keep (cached : o.LinesCached)
    (slots : ∀ s m, (o'.latch .lsu s).valid = true → (o'.latch .lsu s).mshrIdx = some m →
      (o.latch .lsu s).valid = true ∧ (o.latch .lsu s).mshrIdx = some m)
    (lines : ∀ m, (o'.mshr m).lineAddr = (o.mshr m).lineAddr) : o'.LinesCached := by
  intro s m valid waits
  obtain ⟨validBefore, waitsBefore⟩ := slots s m valid waits
  rw [lines]
  exact cached s m validBefore waitsBefore

theorem LinesCached.same (cached : o.LinesCached) (latch : o'.latch = o.latch)
    (lines : ∀ m, (o'.mshr m).lineAddr = (o.mshr m).lineAddr) : o'.LinesCached := by
  refine cached.keep ?_ lines
  intro s m valid waits
  rw [latch] at valid waits
  exact ⟨valid, waits⟩

theorem LinesCached.drop (cached : o.LinesCached) {eu : EU} {s : Fin 2} (latch : o'.latch = (o.dropLatch eu s).latch)
    (lines : ∀ m, (o'.mshr m).lineAddr = (o.mshr m).lineAddr) : o'.LinesCached := by
  refine cached.keep ?_ lines
  intro t m valid waits
  rw [latch, latch_dropLatch] at valid waits
  split at valid
  · cases valid
  · next other =>
      rw [if_neg other] at waits
      exact ⟨valid, waits⟩

/-- A change of a slot's counters. -/
theorem LinesCached.setLatch (cached : o.LinesCached) {eu : EU} {s : Fin 2} {l : OOOLatch}
    (waits : eu = .lsu → ∀ m, l.mshrIdx = some m →
      (o.latch .lsu s).valid = true ∧ (o.latch .lsu s).mshrIdx = some m ∨ inDram (o.mshr m).lineAddr = true) :
    (o.setLatch eu s l).LinesCached := by
  intro t m validT waitsT
  rw [latch_setLatch] at validT waitsT
  change inDram (o.mshr m).lineAddr = true
  split at waitsT
  · next here =>
      obtain ⟨rfl, rfl⟩ := here
      rcases waits rfl m waitsT with ⟨valid, before⟩ | inside
      · exact cached t m valid before
      · exact inside
  · next other =>
      rw [if_neg other] at validT
      exact cached t m validT waitsT

theorem LinesCached.flushes (cached : o.LinesCached) {b : RobIdx} (flushes : o.Flushes b o') : o'.LinesCached := by
  refine cached.keep ?_ (fun m => by rw [flushes.mshr])
  intro s m valid waits
  obtain ⟨was, _, same⟩ := flushes.latch .lsu s valid
  exact ⟨was, same ▸ waits⟩

/-- Entries that were finished stay as they are; the others meet the conditions or are not finished yet. -/
theorem AccessesOk.keep (ok : o.AccessesOk) (head : o'.robHead = o.robHead)
    (entries : ∀ i, (o'.rob i).valid = true → (o'.rob i).ready = true → o'.rob i = o.rob i ∨
      ((o'.rob i).ReadDevice → i = o.robHead) ∧ ((o'.rob i).isStore = true → (o'.rob i).ir.itype = .store →
        (o'.rob i).storeData = (o'.rob i).ir.src2Val)) : o'.AccessesOk where
  oldest := by
    intro i valid read
    rw [head]
    rcases entries i valid read.1 with same | ⟨oldest, _⟩
    · rw [same] at valid read
      exact ok.oldest i valid read
    · exact oldest read
  data := by
    intro i valid ready store kind
    rcases entries i valid ready with same | ⟨_, data⟩
    · rw [same] at valid ready store kind ⊢
      exact ok.data i valid ready store kind
    · exact data store kind

theorem AccessesOk.same (ok : o.AccessesOk) (rob : o'.rob = o.rob) (head : o'.robHead = o.robHead) : o'.AccessesOk :=
  ok.keep head fun i _ _ => .inl (by rw [rob])

/-- An instruction finishes. -/
theorem AccessesOk.update (ok : o.AccessesOk) {i : RobIdx} {entry : ROBEntry}
    (rob : o'.rob = setAt o.rob i entry) (head : o'.robHead = o.robHead)
    (oldest : entry.ReadDevice → i = o.robHead)
    (data : entry.ready = true → entry.isStore = true → entry.ir.itype = .store → entry.storeData = entry.ir.src2Val) :
    o'.AccessesOk := by
  refine ok.keep head ?_
  intro j valid ready
  rw [rob] at ready ⊢
  by_cases here : j = i
  · subst here
    rw [setAt_self] at ready ⊢
    exact .inr ⟨oldest, data ready⟩
  · rw [setAt_of_ne here]
    exact .inl rfl

theorem AccessesOk.flushes (ok : o.AccessesOk) {b : RobIdx} (flushes : o.Flushes b o') : o'.AccessesOk := by
  refine ok.keep flushes.head ?_
  intro i valid _
  by_cases older : o.pos i ≤ o.pos b
  · exact .inl (flushes.older i older)
  · rw [flushes.newer i (Nat.lt_of_not_le older)] at valid
    cases valid

theorem AccessesOk.afterCommit (ok : o.AccessesOk) : o.afterCommit.AccessesOk ∧
    ∀ i, (o.afterCommit.rob i).valid = true → ¬ (o.afterCommit.rob i).ReadDevice := by
  have frame := o.afterCommit_frame
  have kept : ∀ i, (o.afterCommit.rob i).valid = true → i ≠ o.robHead ∧ o.afterCommit.rob i = o.rob i := by
    intro i valid
    rw [frame.rob] at valid ⊢
    by_cases here : i = o.robHead
    · rw [here, setAt_self] at valid
      cases valid
    · rw [setAt_of_ne here]
      exact ⟨here, rfl⟩
  have none : ∀ i, (o.afterCommit.rob i).valid = true → ¬ (o.afterCommit.rob i).ReadDevice := by
    intro i valid read
    obtain ⟨other, same⟩ := kept i valid
    rw [same] at valid read
    exact other (ok.oldest i valid read)
  refine ⟨⟨fun i valid read => absurd read (none i valid), ?_⟩, none⟩
  intro i valid ready store kind
  obtain ⟨_, same⟩ := kept i valid
  rw [same] at valid ready store kind ⊢
  exact ok.data i valid ready store kind

/-! ## The read of the oldest instruction -/

theorem headRead_nil (unread : o.robCount ≠ 0 → ¬ (o.rob o.robHead).ReadDevice) : o.headRead = [] := by
  unfold headRead
  rw [if_neg]
  rintro ⟨live, read⟩
  exact unread live read

/-- A waiting entry is rewritten. -/
theorem headRead_update {i : RobIdx} {entry : ROBEntry} (rob : o'.rob = setAt o.rob i entry)
    (head : o'.robHead = o.robHead) (count : o'.robCount = o.robCount)
    (waiting : (o.rob i).ready = false) (unread : ¬ entry.ReadDevice) : o'.headRead = o.headRead := by
  by_cases here : i = o.robHead
  · subst here
    rw [headRead_nil, headRead_nil]
    · rintro _ ⟨ready, _⟩
      rw [waiting] at ready
      cases ready
    · intro _
      rw [rob, head, setAt_self]
      exact unread
  · unfold headRead
    rw [rob, head, count, setAt_of_ne (Ne.symm here)]

theorem headRead_flushes {b : RobIdx} (flushes : o.Flushes b o') (live : o.robCount ≠ 0) : o'.headRead = o.headRead := by
  obtain ⟨same, live'⟩ := flushes.head_entry
  unfold headRead
  rw [same]
  simp only [live, live', ne_eq, not_false_eq_true, true_and]

theorem headRead_rename (inv : o.Inv) (room : o.robCount < 32) {ir : IRInst} {seq : Nat} {slot : RsIdx}
    (renames : o.Renames ir seq slot o') : o'.headRead = o.headRead := by
  by_cases empty : o.robCount = 0
  · rw [headRead_nil, headRead_nil fun live => absurd empty live]
    have first : o.robTail = o.robHead := by
      rw [inv.renamed.tail, empty]
      exact add_zero _
    intro _
    rw [renames.rob, renames.head, first, setAt_self]
    rintro ⟨ready, _⟩
    cases ready
  · have live' : o'.robCount ≠ 0 := by
      rw [renames.count]
      exact Nat.succ_ne_zero _
    unfold headRead
    rw [renames.head_entry inv room empty]
    simp only [empty, live', ne_eq, not_false_eq_true, true_and]

end OOOState

/-! ## Misses are of cacheable lines -/

section Lines

variable {δ β : Type} {mem : MemConfig δ} {cfg : OooConfig β} {e e' : Engine (MemState δ) β}

theorem vaddrProbeLevel_missed {σ : Type} {w : World (MemState σ)} {addr : Word}
    (missed : (vaddrProbeLevel w addr).1 ≠ 0) : inDram addr = true := by
  unfold vaddrProbeLevel at missed
  split at missed
  · assumption
  · exact absurd rfl missed

theorem toNat_line (addr : Word) : (addr &&& ~~~(63 : Word)).toNat = addr.toNat / 64 * 64 := by
  have mask : ∀ i : Fin 64, (~~~(63 : Word))[i.val] = !decide (i.val < 6) := by decide
  have shifted : addr &&& ~~~(63 : Word) = (addr >>> 6) <<< 6 := by
    ext i inside
    rw [BitVec.getElem_and, mask ⟨i, inside⟩, BitVec.getElem_shiftLeft, BitVec.getElem_ushiftRight]
    by_cases low : i < 6
    · simp [low]
    · have back : 6 + (i - 6) = i := by omega
      simp [low, back, BitVec.getLsbD_eq_getElem inside]
  rw [shifted, BitVec.toNat_shiftLeft, BitVec.toNat_ushiftRight, Nat.shiftRight_eq_div_pow, Nat.shiftLeft_eq]
  omega

/-- The line of a cacheable address is cacheable. -/
theorem inDram_line {addr : Word} (cached : inDram addr = true) : inDram (addr &&& ~~~(63 : Word)) = true := by
  obtain ⟨lower, upper⟩ := inDram_iff.mp cached
  rw [inDram_iff, toNat_line]
  omega

theorem Engine.BackStep.linesCached (step : e.BackStep (hierarchy mem) cfg e') (ok : e.ooo.Ok)
    (cached : e.ooo.LinesCached) : e'.ooo.LinesCached := by
  cases step with
  | timer mshr tick lines => exact cached.same rfl lines
  | commit live ready ordered sound room stored checked =>
      rw [(commits_of_checked stored checked).ooo]
      exact cached.same e.ooo.afterCommit_frame.latch fun m => by rw [e.ooo.afterCommit_frame.mshr]
  | exec bpred fault unit live run completes faulted resolved => exact cached.drop completes.latch completes.lines
  | redirect live run completes control wrong target =>
      have dropped := cached.drop completes.latch completes.lines
      exact (dropped.flushes (redirect_flushes ok live run completes).2).same rfl fun _ => rfl
  | count live => exact cached.setLatch fun absurdity => nomatch absurdity
  | discard mshr valid flushed lines filled => exact cached.drop rfl lines
  | storeDone live computed store completes => exact cached.drop completes.latch completes.lines
  | delay addressed absent => exact cached.setLatch fun _ _ waits => .inl ⟨addressed.live.valid, waits⟩
  | miss addressed below missed line lines =>
      rename_i s m mshr w
      intro t n valid waits
      rw [OOOState.latch_setLatch] at valid waits
      change inDram (mshr n).lineAddr = true
      by_cases fresh : n = m
      · rw [fresh, line]
        exact inDram_line (vaddrProbeLevel_missed missed)
      · rw [lines n fresh]
        split at waits
        · cases waits
          exact absurd rfl fresh
        · next other =>
            rw [if_neg other] at valid
            exact cached t n valid waits
  | loadFault addressed outside completes => exact cached.drop completes.latch completes.lines
  | fill addressed device mapped read completes => exact cached.drop completes.latch completes.lines
  | issue empty chosen =>
      refine (cached.setLatch (fun _ m waits => ?_)).same rfl fun _ => rfl
      cases waits
  | _ => exact cached.same rfl fun _ => rfl

theorem Engine.FrontStep.linesCached (step : e.FrontStep (hierarchy mem) cfg e') (cached : e.ooo.LinesCached) :
    e'.ooo.LinesCached := by
  cases step with
  | rename valid inOrder alone room names renames =>
      exact cached.same renames.latch fun m => congrArg (fun mshr => (mshr m).lineAddr) renames.mshr
  | _ => exact cached.same rfl fun _ => rfl

end Lines

/-! ## Steps -/

section Steps

variable {δ β : Type}

/-- The devices have seen the accesses of the committed instructions and the read of the oldest one. -/
structure DevicesKept (e : Engine (MemState (δ × List DeviceOp)) β) : Prop where
  inactive : e.difftestActive = false
  buffered : e.ooo.Buffered
  lines : e.ooo.LinesCached
  accesses : e.ooo.AccessesOk
  order : (∀ entry ∈ commits e.log, entry.FullyEncoded) →
    deviceOps e.world = (commits e.log).filterMap ROBEntry.deviceOp ++ e.ooo.headRead
  fills : ∀ before world i value, .fill before world i value ∈ e.log → mmioBase ≤ (before.rob i).physAddr →
    Retained e.ooo e.log (before.rob i).seq

variable {devices : Devices δ} {numCores : Nat} {hint : Nat → Nat} {cfg : OooConfig β}
  {e e' : Engine (MemState (δ × List DeviceOp)) β}

/-- A step that commits nothing: what it does to the devices is the read of the oldest instruction. -/
theorem DevicesKept.advance (kept : DevicesKept e) (inactive : e'.difftestActive = e.difftestActive)
    (buffered : e'.ooo.Buffered) (lines : e'.ooo.LinesCached) (accesses : e'.ooo.AccessesOk)
    (retained : ∀ seq, Retained e.ooo e.log seq → Retained e'.ooo e'.log seq)
    (ops : ∀ earlier, deviceOps e.world = earlier ++ e.ooo.headRead → deviceOps e'.world = earlier ++ e'.ooo.headRead)
    {extra : List (Event (MemState (δ × List DeviceOp)))} (log : e'.log = e.log ++ extra)
    (silent : ∀ event ∈ extra, ∀ entry value, event ≠ .commit entry value)
    (fills : ∀ before world i value, .fill before world i value ∈ extra → mmioBase ≤ (before.rob i).physAddr →
      Retained e'.ooo e'.log (before.rob i).seq) : DevicesKept e' := by
  have committed : commits e'.log = commits e.log := by
    rw [log, commits_quiet _ silent]
  refine ⟨inactive.trans kept.inactive, buffered, lines, accesses, ?_, ?_⟩
  · intro encoded
    rw [committed] at encoded ⊢
    exact ops _ (kept.order encoded)
  · intro before world i value member device
    rw [log] at member
    rcases List.mem_append.mp member with old | new
    · exact retained _ (kept.fills before world i value old device)
    · exact fills before world i value new device

/-- A step that commits nothing, reads nothing and does not touch the devices. -/
theorem DevicesKept.quiet (kept : DevicesKept e) (inactive : e'.difftestActive = e.difftestActive)
    (buffered : e'.ooo.Buffered) (lines : e'.ooo.LinesCached) (accesses : e'.ooo.AccessesOk)
    (retained : ∀ seq, Retained e.ooo e.log seq → Retained e'.ooo e'.log seq)
    (same : e'.ooo.headRead = e.ooo.headRead) (dev : deviceOps e'.world = deviceOps e.world)
    {extra : List (Event (MemState (δ × List DeviceOp)))} (log : e'.log = e.log ++ extra)
    (silent : ∀ event ∈ extra, (∀ entry value, event ≠ .commit entry value) ∧
      ∀ before world i value, event ≠ .fill before world i value) : DevicesKept e' := by
  refine kept.advance inactive buffered lines accesses retained ?_ log (fun event member => (silent event member).1) ?_
  · intro earlier before
    rw [dev, same, before]
  · intro before world i value member _
    exact absurd rfl ((silent _ member).2 before world i value)

/-- What a commit adds to the devices: the write of a store. -/
theorem Engine.Commits.deviceOps (step : Commits (hierarchy ⟨numCores, hint, devices.recorded⟩) e e')
    (inactive : e.difftestActive = false) :
    deviceOps e'.world = deviceOps e.world ++
      if (e.ooo.rob e.ooo.robHead).ir.itype = .store ∧ mmioBase ≤ (e.ooo.rob e.ooo.robHead).physAddr then
        [.write (e.ooo.rob e.ooo.robHead).physAddr (e.ooo.rob e.ooo.robHead).ir.memWidth
          (e.ooo.rob e.ooo.robHead).storeData]
      else [] := by
  rcases step.world inactive with ⟨same, cached⟩ | ⟨store, _, written⟩
  · rw [same, if_neg, List.append_nil]
    rintro ⟨store, device⟩
    have inside := cached store
    apply below_of_inDram inside
    rwa [ROBEntry.physAddr, ← truncPc, truncPc_of_inDram inside] at device
  · rw [vaddrWrite_deviceOps written]
    simp only [store, true_and]
    rfl

/-- Commit keeps the order: the oldest instruction's read becomes a committed one. -/
theorem DevicesKept.commit (kept : DevicesKept e) (ok : e.ooo.Ok) (live : e.ooo.robCount ≠ 0)
    (ready : (e.ooo.rob e.ooo.robHead).ready = true) (buffered : e'.ooo.Buffered)
    (step : Commits (hierarchy ⟨numCores, hint, devices.recorded⟩) e e') : DevicesKept e' := by
  obtain ⟨extra, log, quiet⟩ := step.log
  have committed : commits e'.log = commits e.log ++ [e.ooo.rob e.ooo.robHead] := by
    rw [log, List.append_cons, commits_quiet, commits_append]
    · rfl
    · rintro event member entry value rfl
      obtain ⟨_, mismatch⟩ := quiet _ member
      cases mismatch
  have frame := e.ooo.afterCommit_frame
  obtain ⟨accesses, unread⟩ := kept.accesses.afterCommit
  have valid := ok.inv.renamed.head_valid live
  have nothing : e'.ooo.headRead = [] := by
    rw [step.ooo]
    exact OOOState.headRead_nil fun live' => unread _ ((ok.afterCommit live ready).inv.renamed.head_valid live')
  refine ⟨step.active.trans kept.inactive, buffered, ?_, ?_, ?_, ?_⟩
  · rw [step.ooo]
    exact kept.lines.same frame.latch fun m => by rw [frame.mshr]
  · rw [step.ooo]
    exact accesses
  · intro encoded
    rw [committed] at encoded
    have order := kept.order fun entry member => encoded entry (List.mem_append_left _ member)
    have encodedHead := encoded _ (List.mem_append_right _ List.mem_cons_self)
    rw [step.deviceOps kept.inactive, order, committed, nothing, List.append_nil, List.filterMap_append,
      List.append_assoc, List.append_cancel_left_eq]
    rw [← ROBEntry.deviceOp_split ready encodedHead (kept.accesses.data _ valid ready)]
    unfold OOOState.headRead
    simp only [live, ne_eq, not_false_eq_true, true_and]
  · intro before world i value member device
    have old : .fill before world i value ∈ e.log := by
      rw [log] at member
      rcases List.mem_append.mp member with old | new
      · exact old
      · rcases List.mem_cons.mp new with commit | other
        · cases commit
        · obtain ⟨_, mismatch⟩ := quiet _ other
          cases mismatch
    exact step.retained (kept.fills before world i value old device)

/-- An access with an address in the device range is a load by class and opcode. -/
theorem OOOState.Ok.device_load {o : OOOState} (ok : o.Ok) {s : Fin 2} (addressed : o.Addressed s)
    (device : mmioBase ≤ (o.slotEntry .lsu s).physAddr) :
    (o.slotEntry .lsu s).ir.itype = .load ∧ opcode7Of (o.slotEntry .lsu s).ir.raw = 0x03 := by
  have load : (o.slotEntry .lsu s).ir.itype = .load := by
    obtain ⟨run, executor, done⟩ := addressed.computed.done
    have kind := pure_itype executor (o.slotEntry .lsu s).ir
    rw [done] at kind
    have memory := ok.lsu_pure addressed.live
    have blank := (ok.decoded _ (ok.inv.live_entry addressed.live).1).1.blank
    have notStore := addressed.load
    rw [kind] at notStore ⊢
    cases fn : (o.slotEntry .lsu s).ir.execFn with
    | ld | lw | lh | lb | lwu | lhu | lbu => rfl
    | sd | sw | sh | sb =>
        rw [fn] at notStore
        exact absurd rfl notStore
    | inv =>
        -- A malformed word has no address.
        have zero : (o.slotEntry .lsu s).ir.memAddr = 0 := blank fn
        rw [ROBEntry.physAddr, zero] at device
        exact absurd device (by decide)
    | _ =>
        rw [fn] at memory
        cases memory
  exact ⟨load, (ok.addressed_load addressed load).1⟩

theorem le_of_phys {addr : Word} (device : mmioBase ≤ addr &&& 0xffffffff) : mmioBase ≤ addr := by
  rw [BitVec.le_def] at device ⊢
  rw [BitVec.toNat_and] at device
  exact device.trans Nat.and_le_left

theorem classify_memory {raw : Raw} (memory : opcode7Of raw = 0x03 ∨ opcode7Of raw = 0x23) :
    OOOState.classify raw = .lsu := if_pos memory

/-- The integer and multiply units execute nothing with the opcode of a load or a store. -/
theorem OOOState.Ok.not_memory {o : OOOState} (ok : o.Ok) {eu : EU} {s : Fin 2} (unit : eu ≠ .lsu) (live : o.Live eu s) :
    ¬ (opcode7Of (o.slotEntry eu s).ir.raw = 0x03 ∨ opcode7Of (o.slotEntry eu s).ir.raw = 0x23) := by
  intro memory
  apply unit
  rw [(ok.inv.placed.latched _ _ live.valid live.kept).euType]
  exact classify_memory memory

/-- An instruction that is executed by an integer or multiply unit. -/
theorem DevicesKept.executed (kept : DevicesKept e) (ok : e.ooo.Ok) {eu : EU} {s : Fin 2} (unit : eu ≠ .lsu)
    (live : e.ooo.Live eu s) {entry : ROBEntry} {result : Word} {o : OOOState}
    (completes : e.ooo.Completes eu s entry result o) (raw : entry.ir.raw = (e.ooo.slotEntry eu s).ir.raw) :
    o.AccessesOk ∧ o.headRead = e.ooo.headRead := by
  have other := ok.not_memory unit live
  rw [← raw] at other
  have unread : ¬ entry.ReadDevice := fun read => other (.inl read.2.1)
  refine ⟨kept.accesses.update completes.rob completes.head ?_ ?_,
    OOOState.headRead_update completes.rob completes.head completes.count (ok.inv.live_entry live).2 unread⟩
  · exact fun read => absurd read unread
  · intro _ store
    exact absurd (.inr (by simpa [ROBEntry.isStore] using store)) other

/-- A load that gets its value: if it reads a device, it is the oldest instruction. -/
theorem DevicesKept.fill (kept : DevicesKept e) (ok : e.ooo.Ok) {s : Fin 2} {o : OOOState} {raw : Word}
    {world : World (MemState (δ × List DeviceOp))} (addressed : e.ooo.Addressed s)
    (device : mmioBase ≤ (e.ooo.slotEntry .lsu s).ir.memAddr → (e.ooo.latch .lsu s).robIdx = e.ooo.robHead)
    (read : vaddrRead ⟨numCores, hint, devices.recorded⟩ e.world (e.ooo.slotEntry .lsu s).ir.memAddr
      (e.ooo.slotEntry .lsu s).ir.memWidth = some (raw, world))
    (completes : e.ooo.Completes .lsu s { e.ooo.slotEntry .lsu s with
      ir := { (e.ooo.slotEntry .lsu s).ir with result := e.ooo.loadValue s raw }
      ready := true } (e.ooo.loadValue s raw) o) :
    DevicesKept (({ e with world := world, ooo := o } : Engine _ β).emit
      (.fill e.ooo e.world (e.ooo.latch .lsu s).robIdx (e.ooo.loadValue s raw))) := by
  obtain ⟨valid, waiting⟩ := ok.inv.live_entry addressed.live
  have ops := vaddrRead_deviceOps read
  have oldest : mmioBase ≤ (e.ooo.slotEntry .lsu s).physAddr → (e.ooo.latch .lsu s).robIdx = e.ooo.robHead :=
    fun inside => device (le_of_phys inside)
  have accesses : o.AccessesOk := by
    refine kept.accesses.update completes.rob completes.head (fun done => oldest done.2.2.2) ?_
    exact fun _ _ store => absurd store addressed.load
  have lines := kept.lines.drop completes.latch completes.lines
  have buffered := kept.buffered.same completes.stores
  have retained : ∀ seq, Retained e.ooo e.log seq →
      Retained o (e.log ++ [.fill e.ooo e.world (e.ooo.latch .lsu s).robIdx (e.ooo.loadValue s raw)]) seq :=
    fun _ before => before.keep (.update completes.rob completes.head completes.count rfl)
  by_cases inside : mmioBase ≤ (e.ooo.slotEntry .lsu s).physAddr
  · obtain ⟨load, opcode⟩ := ok.device_load addressed inside
    have first := oldest inside
    have live : o.robCount ≠ 0 := by
      rw [completes.count]
      have position := (ok.inv.renamed.valid _).mp valid
      omega
    have entry : o.rob o.robHead = { e.ooo.slotEntry .lsu s with
        ir := { (e.ooo.slotEntry .lsu s).ir with result := e.ooo.loadValue s raw }
        ready := true } := by
      rw [completes.rob, completes.head, first, setAt_self]
    have before : e.ooo.headRead = [] := by
      apply OOOState.headRead_nil
      rintro _ ⟨ready, _⟩
      rw [← first] at ready
      exact absurd (waiting.symm.trans ready) (by decide)
    have after : o.headRead =
        [.read (e.ooo.slotEntry .lsu s).physAddr (e.ooo.slotEntry .lsu s).ir.memWidth] := by
      unfold OOOState.headRead
      rw [entry, if_pos ⟨live, rfl, opcode, load, inside⟩]
      rfl
    refine kept.advance rfl buffered lines accesses retained ?_ rfl (by simp) ?_
    · intro earlier done
      change deviceOps world = earlier ++ o.headRead
      rw [ops, done, before, after, List.append_nil]
      congr 1
      exact if_pos inside
    · intro before world' i value member _
      obtain ⟨rfl, rfl, rfl, rfl⟩ := Event.fill.inj (List.mem_singleton.mp member)
      refine .inr ⟨live, ?_⟩
      change (o.rob o.robHead).seq = _
      rw [entry]
      rfl
  · have same : o.headRead = e.ooo.headRead :=
      OOOState.headRead_update completes.rob completes.head completes.count waiting fun done => inside done.2.2.2
    refine kept.advance rfl buffered lines accesses retained ?_ rfl (by simp) ?_
    · intro earlier done
      change deviceOps world = earlier ++ o.headRead
      rw [ops, same, ← done]
      exact (congrArg _ (if_neg inside)).trans (List.append_nil _)
    · intro before world' i value member device'
      obtain ⟨rfl, rfl, rfl, rfl⟩ := Event.fill.inj (List.mem_singleton.mp member)
      exact absurd device' inside

theorem Engine.BackStep.devicesKept
    (step : e.BackStep (hierarchy ⟨numCores, hint, devices.recorded⟩) cfg e') (ok : e.ooo.Ok) (kept : DevicesKept e) :
    DevicesKept e' := by
  have buffered := step.buffered ok kept.buffered
  have lines := step.linesCached ok kept.lines
  have retained : ∀ seq, Retained e.ooo e.log seq → Retained e'.ooo e'.log seq := fun _ => step.retained ok
  cases step with
  | note quiet =>
      refine kept.quiet rfl buffered lines kept.accesses retained rfl rfl rfl ?_
      intro event member
      obtain ⟨_, _, rfl⟩ := quiet event member
      exact ⟨by simp, by simp⟩
  | timer mshr tick unmoved =>
      exact kept.quiet rfl buffered lines (kept.accesses.same rfl rfl) retained rfl rfl
        (List.append_nil _).symm (by simp)
  | drain waiting written =>
      have head : e.ooo.sbuf e.ooo.sbufHead ∈ e.ooo.buffered := by
        rw [OOOState.buffered_popStore kept.buffered waiting 0]
        exact List.mem_cons_self
      obtain ⟨_, cached, _⟩ := kept.buffered.entries _ head
      exact kept.quiet rfl buffered lines (kept.accesses.same rfl rfl) retained rfl
        (deviceOps_same (vaddrWrite_dev cached written)) rfl (by simp)
  | commit live ready ordered sound room stored checked =>
      exact kept.commit ok live ready buffered (commits_of_checked stored checked)
  | exec bpred fault unit live run completes faulted resolved =>
      obtain ⟨inst, _⟩ := executed_sameInst ok.inv live run
      obtain ⟨accesses, same⟩ := kept.executed ok unit live completes inst.raw
      exact kept.quiet rfl buffered lines accesses retained same rfl (List.append_nil _).symm (by simp)
  | redirect live run completes control wrong target =>
      obtain ⟨inst, _⟩ := executed_sameInst ok.inv live run
      obtain ⟨accesses, same⟩ := kept.executed ok (by decide) live completes inst.raw
      have flushes := (redirect_flushes ok live run completes).2
      have running : e.ooo.robCount ≠ 0 := by
        have position := (ok.inv.renamed.valid _).mp (ok.inv.live_entry live).1
        omega
      have flushed := OOOState.headRead_flushes flushes (by rw [completes.count]; exact running)
      exact kept.quiet rfl buffered lines ((accesses.flushes flushes).same rfl rfl) retained (flushed.trans same) rfl
        (List.append_nil _).symm (by simp)
  | count live =>
      exact kept.quiet rfl buffered lines (kept.accesses.same rfl rfl) retained rfl rfl (List.append_nil _).symm (by simp)
  | discard mshr valid flushed unmoved filled =>
      refine kept.quiet rfl buffered lines (kept.accesses.same rfl rfl) retained rfl ?_
        (List.append_nil _).symm (by simp)
      rcases filled with same | ⟨m, value, waits, filled⟩
      · exact congrArg deviceOps same
      · exact deviceOps_same (vaddrRead_dev (kept.lines _ m valid waits) filled)
  | address live first executor =>
      have waiting := (ok.inv.live_entry live).2
      have unready : ∀ ir, ({ e.ooo.slotEntry .lsu _ with ir := ir } : ROBEntry).ready = false := fun _ => waiting
      refine kept.quiet rfl buffered lines
        (kept.accesses.update rfl rfl (fun read => ?_) (fun ready => ?_))
        retained (OOOState.headRead_update rfl rfl rfl waiting fun read => ?_) rfl (List.append_nil _).symm (by simp)
      · exact absurd (waiting.symm.trans read.1) (by decide)
      · exact absurd (waiting.symm.trans ready) (by decide)
      · exact absurd (waiting.symm.trans read.1) (by decide)
  | storeDone live computed store completes =>
      refine kept.quiet rfl buffered lines (kept.accesses.update completes.rob completes.head (fun read => ?_) fun _ _ _ => rfl)
        retained (OOOState.headRead_update completes.rob completes.head completes.count (ok.inv.live_entry live).2 fun read => ?_) rfl
        (List.append_nil _).symm (by simp)
      · exact absurd (store.symm.trans read.2.2.1) (by decide)
      · exact absurd (store.symm.trans read.2.2.1) (by decide)
  | delay addressed absent =>
      exact kept.quiet rfl buffered lines (kept.accesses.same rfl rfl) retained rfl rfl (List.append_nil _).symm (by simp)
  | probe =>
      exact kept.quiet rfl buffered lines kept.accesses retained rfl
        (deviceOps_same (vaddrProbeLevel_dev e.world _)) (List.append_nil _).symm (by simp)
  | miss addressed cached missed line unmoved =>
      exact kept.quiet rfl buffered lines (kept.accesses.same rfl rfl) retained rfl rfl (List.append_nil _).symm (by simp)
  | loadFault addressed outside completes =>
      refine kept.quiet rfl buffered lines (kept.accesses.update completes.rob completes.head (fun read => ?_) fun _ _ store => ?_)
        retained (OOOState.headRead_update completes.rob completes.head completes.count (ok.inv.live_entry addressed.live).2 fun read => ?_) rfl
        (List.append_nil _).symm (by simp)
      · exact absurd read.2.2.2 (BitVec.not_le.mpr outside.2)
      · exact absurd store addressed.load
      · exact absurd read.2.2.2 (BitVec.not_le.mpr outside.2)
  | fill addressed device mapped read completes => exact kept.fill ok addressed device read completes
  | issue empty chosen =>
      exact kept.quiet rfl buffered lines (kept.accesses.same rfl rfl) retained rfl rfl (List.append_nil _).symm (by simp)

theorem Engine.FrontStep.devicesKept
    (step : e.FrontStep (hierarchy ⟨numCores, hint, devices.recorded⟩) cfg e') (ok : e.ooo.Ok) (kept : DevicesKept e) :
    DevicesKept e' := by
  have buffered := step.buffered kept.buffered
  have lines := step.linesCached kept.lines
  have retained : ∀ seq, Retained e.ooo e.log seq → Retained e'.ooo e'.log seq := fun _ => step.retained ok
  cases step with
  | rename valid inOrder alone room names renames =>
      have same := OOOState.headRead_rename ok.inv room renames
      refine kept.quiet rfl buffered lines (kept.accesses.update renames.rob renames.head (fun read => ?_) fun ready => ?_)
        retained same rfl rfl ?_
      · exact (nomatch read.1)
      · exact (nomatch ready)
      · split <;> simp
  | fetch inOrder mapped read answer =>
      exact kept.quiet rfl buffered lines (kept.accesses.same rfl rfl) retained rfl
        (deviceOps_same (vaddrIfetch_dev mapped read)) (List.append_nil _).symm (by simp)
  | _ =>
      exact kept.quiet rfl buffered lines (kept.accesses.same rfl rfl) retained rfl
        rfl (List.append_nil _).symm (by simp)

theorem init_devicesKept (off : cfg.difftestEn = false) (cpu : CPUState) (sys : Sys) (pmem : ByteMem) (dev : δ)
    (bpred : β) : DevicesKept (Engine.init cfg cpu ⟨sys, MemState.init pmem (dev, [])⟩ bpred) where
  inactive := by simp [Engine.init, off]
  buffered := ⟨Nat.zero_le _, rfl, fun _ absurdity => nomatch absurdity⟩
  lines := fun _ _ valid => (nomatch valid)
  accesses := ⟨fun _ valid => (nomatch valid), fun _ valid => (nomatch valid)⟩
  order := fun _ => rfl
  fills := fun _ _ _ _ absurdity => (nomatch absurdity)

end Steps

/-- What the devices have seen is what the committed instructions ask for, in order, possibly followed by the read of
the oldest instruction; and a load that read a device is committed or the oldest. -/
structure DevicesInOrder {δ β : Type} (e : Engine (MemState (δ × List DeviceOp)) β) : Prop where
  order : ∃ trailing, deviceOps e.world = (commits e.log).filterMap ROBEntry.deviceOp ++ trailing ∧
    (trailing = [] ∨ ∃ op, trailing = [op] ∧ e.ooo.robCount ≠ 0 ∧ (e.ooo.rob e.ooo.robHead).ir.itype = .load ∧
      (e.ooo.rob e.ooo.robHead).deviceOp = some op)
  fills : ∀ before world i value, .fill before world i value ∈ e.log → mmioBase ≤ (before.rob i).physAddr →
    Retained e.ooo e.log (before.rob i).seq

theorem DevicesKept.inOrder {δ β : Type} {e : Engine (MemState (δ × List DeviceOp)) β} (kept : DevicesKept e)
    (encoded : ∀ entry ∈ commits e.log, entry.FullyEncoded) : DevicesInOrder e where
  order := by
    refine ⟨e.ooo.headRead, kept.order encoded, ?_⟩
    unfold OOOState.headRead
    split
    · next reads =>
        obtain ⟨live, _, _, load, device⟩ := reads
        exact .inr ⟨_, rfl, live, load, by simp [ROBEntry.deviceOp, device, load]⟩
    · exact .inl rfl
  fills := kept.fills

/-- In every run whose committed device accesses are fully encoded, the devices see exactly the accesses of the
committed instructions, in order. -/
theorem devices_in_order {δ β : Type} (devices : Devices δ) (cfg : OooConfig β) (off : cfg.difftestEn = false)
    (cpu : CPUState) (sys : Sys) (pmem : ByteMem) (dev : δ) (bpred : β) (k : Nat)
    (e : Engine (MemState (δ × List DeviceOp)) β)
    (done : Engine.run (hierarchy ⟨1, prefetchHint, devices.recorded⟩) cfg k
      (Engine.init cfg cpu ⟨sys, MemState.init pmem (dev, [])⟩ bpred) = some e)
    (encoded : ∀ entry ∈ commits e.log, entry.FullyEncoded) : DevicesInOrder e := by
  have reached := Engine.run_keeps (P := DevicesKept) (fun _ _ ok kept step => step.devicesKept ok kept)
    (fun _ _ ok kept step => step.devicesKept ok kept) (oooInit_ok cpu) (oooInit_tidy cpu)
    (init_devicesKept off cpu sys pmem dev bpred) done
  exact reached.2.2.inOrder encoded

/-! ## The keyboard -/

/-- The keyboard register: every read takes a key from the queue, and there are no writes. -/
def Devices.keyboard : Devices (List (BitVec 32)) where
  read := fun keys addr len =>
    if addr = 0xa0000060 ∧ len ≤ 4 then some (((keys.headD 0).setWidth (8 * len)).setWidth 64, keys.tail) else .none
  write := fun _ _ _ _ => .none

/-- Cycles of a program from reset with keys in the queue. -/
def keyboardRun (words : List Raw) (keys : List (BitVec 32)) (k : Nat) :
    Option (Engine (MemState (List (BitVec 32) × List DeviceOp)) Unit) :=
  Engine.run (hierarchy ⟨1, prefetchHint, Devices.keyboard.recorded⟩) .solo k
    (Engine.init .solo ⟨.empty, mbase⟩ ⟨Sys.init, MemState.init (image words) (keys, [])⟩ ())

/-- `lui x6, 0xa0000` and `lw x7, 0x60(x6)`: the key is read once. -/
theorem devices_in_order_keyboard : ∃ e, keyboardRun [0xa0000337, 0x06032383] [0x801e] 7 = some e ∧
    deviceOps e.world = [.read 0xa0000060 4] ∧ DevicesInOrder e := by
  have reached : (keyboardRun [0xa0000337, 0x06032383] [0x801e] 7).any (fun e =>
      decide (deviceOps e.world = [.read 0xa0000060 4]) && (commits e.log).all fun entry => decide entry.FullyEncoded) =
        true := by
    decide +kernel
  obtain ⟨e, done, holds⟩ := (Option.any_eq_true _ _).mp reached
  obtain ⟨read, encoded⟩ := Bool.and_eq_true_iff.mp holds
  refine ⟨e, done, of_decide_eq_true read, ?_⟩
  apply devices_in_order Devices.keyboard .solo rfl _ Sys.init _ _ () 7 e done
  exact fun entry member => of_decide_eq_true (List.all_eq_true.mp encoded entry member)

/-- The same load without the low bits of its opcode commits, and the key stays in the queue. -/
theorem device_read_lost : ∃ e, keyboardRun [0xa0000337, 0x06032380] [0x801e] 7 = some e ∧
    deviceOps e.world = [] ∧ (commits e.log).filterMap ROBEntry.deviceOp = [.read 0xa0000060 4] ∧
      ¬ DevicesInOrder e := by
  have reached : (keyboardRun [0xa0000337, 0x06032380] [0x801e] 7).any (fun e =>
      decide (deviceOps e.world = []) &&
        decide ((commits e.log).filterMap ROBEntry.deviceOp = [.read 0xa0000060 4])) = true := by
    decide +kernel
  obtain ⟨e, done, holds⟩ := (Option.any_eq_true _ _).mp reached
  obtain ⟨none, asked⟩ := Bool.and_eq_true_iff.mp holds
  refine ⟨e, done, of_decide_eq_true none, of_decide_eq_true asked, ?_⟩
  rintro ⟨⟨trailing, order, _⟩, _⟩
  rw [of_decide_eq_true none, of_decide_eq_true asked] at order
  cases order

end Sustemu
