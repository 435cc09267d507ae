import Sustemu.Ooo.Cycle

/-!
# The renaming invariant

What every reachable state of the out-of-order engine satisfies about its
reorder buffer, register maps, free list, reservation stations and unit
latches. `mapAt n` is the register map after the `n` oldest entries of the
reorder buffer, replayed over the committed map.
-/

set_option autoImplicit false

namespace Sustemu

open Lib

/-- Where an instruction waits for execution. -/
inductive Place where
  | station (k : RsIdx)
  | slot (eu : EU) (s : Fin 2)
  deriving DecidableEq

namespace OOOState

/-- The slots of the live entries, oldest first. -/
def live (o : OOOState) : List RobIdx := window o.robHead o.robCount

/-- Position of a slot behind the head. -/
def pos (o : OOOState) (i : RobIdx) : Nat := age o.robHead i

/-- The register map after the `n` oldest entries. -/
def mapAt (o : OOOState) (n : Nat) : Reg → PReg :=
  replay o.rrat ((window o.robHead n).map fun i => (o.rob i).pending)

/-- Contents of the free list, next to be popped first. -/
def freeRegs (o : OOOState) : List PReg := (window o.freelist.head o.freelist.count).map o.freelist.regs

/-- Physical destinations of the live entries. -/
def inFlight (o : OOOState) : List PReg := o.live.filterMap fun i => (o.rob i).pending.map Rename.fresh

/-- The entry that waits at a place. A flushed latch holds no entry. -/
def occupant (o : OOOState) : Place → Option RobIdx
  | .station k => if (o.rs k).valid then some (o.rs k).robIdx else none
  | .slot eu s => if (o.latch eu s).valid && !(o.latch eu s).flushed then some (o.latch eu s).robIdx else none

/-- A source operand is captured as the map before its instruction and the register file say. -/
def Captured (o : OOOState) (before : Reg → PReg) (source : Option Reg) (decoded : Word) (ready : Bool)
    (value : Word) (tag : PReg) : Prop :=
  match source with
  | none => ready = true ∧ value = decoded
  | some a =>
      if a = 0 then ready = true ∧ value = 0
      else tag = before a ∧ ready = (o.prf tag).ready ∧ (ready = true → value = (o.prf tag).value)

/-- Reorder buffer, register maps and free list. -/
structure Renamed (o : OOOState) : Prop where
  bounded : o.robCount ≤ 32
  tail : o.robTail = o.robHead + Fin.ofNat 32 o.robCount
  valid : ∀ i, (o.rob i).valid = true ↔ o.pos i < o.robCount
  shape : ∀ i, (o.rob i).valid = true → (o.rob i).pending.isSome = (o.rob i).dest.isSome ∧
    ((o.rob i).dest = none → (o.rob i).physRd = none ∨ (o.rob i).physRd = some 0)
  previous : ∀ i r, (o.rob i).valid = true → (o.rob i).pending = some r → r.previous = o.mapAt (o.pos i) r.target
  after : ∀ i, (o.rob i).valid = true → (o.rob i).ratAfter = o.mapAt (o.pos i + 1)
  rat : o.rat = o.mapAt o.robCount
  freeTail : o.freelist.tail = o.freelist.head + Fin.ofNat 64 o.freelist.count
  conserved : (o.freeRegs ++ ((List.finRange 32).map o.rrat ++ o.inFlight)).Perm (List.finRange 64)
  zero : o.rrat 0 = 0

/-- Ready bits of the physical registers in use. -/
structure Settled (o : OOOState) : Prop where
  committed : ∀ a, a ≠ 0 → (o.prf (o.rrat a)).ready = true
  inFlight : ∀ i r, (o.rob i).valid = true → (o.rob i).pending = some r → (o.prf r.fresh).ready = (o.rob i).ready

/-- A reservation station and the entry it belongs to. -/
structure StationOk (o : OOOState) (rs : RSEntry) : Prop where
  physRd : rs.physRd = (o.rob rs.robIdx).physRd
  euType : rs.euType = classify (o.rob rs.robIdx).ir.raw
  src1 : o.Captured (o.mapAt (o.pos rs.robIdx)) (o.rob rs.robIdx).ir.rs1 (o.rob rs.robIdx).ir.src1Val
    rs.src1Ready rs.src1Val rs.src1Ptag
  src2 : o.Captured (o.mapAt (o.pos rs.robIdx)) (o.rob rs.robIdx).ir.rs2 (o.rob rs.robIdx).ir.src2Val
    rs.src2Ready rs.src2Val rs.src2Ptag

/-- A unit latch and the entry it belongs to. -/
structure LatchOk (o : OOOState) (eu : EU) (l : OOOLatch) : Prop where
  physRd : l.physRd = (o.rob l.robIdx).physRd
  euType : eu = classify (o.rob l.robIdx).ir.raw
  src1 : ∃ tag, o.Captured (o.mapAt (o.pos l.robIdx)) (o.rob l.robIdx).ir.rs1 (o.rob l.robIdx).ir.src1Val
    true l.src1Val tag
  src2 : ∃ tag, o.Captured (o.mapAt (o.pos l.robIdx)) (o.rob l.robIdx).ir.rs2 (o.rob l.robIdx).ir.src2Val
    true l.src2Val tag

/-- Waiting instructions, their places and the station masks. `limit` bounds the
positions whose waiting entries are known to have a place. -/
structure Placed (o : OOOState) (limit : Nat) : Prop where
  waiting : ∀ place i, o.occupant place = some i → (o.rob i).valid = true ∧ (o.rob i).ready = false
  unique : ∀ place place' i, o.occupant place = some i → o.occupant place' = some i → place = place'
  tracked : ∀ i, (o.rob i).valid = true → (o.rob i).ready = false → o.pos i < limit → ∃ place, o.occupant place = some i
  station : ∀ k, (o.rs k).valid = true → o.StationOk (o.rs k)
  latched : ∀ eu s, (o.latch eu s).valid = true → (o.latch eu s).flushed = false → o.LatchOk eu (o.latch eu s)
  flushed : ∀ eu s, (o.latch eu s).flushed = true → eu = .lsu
  freeMask : ∀ k, o.rsFreeMask k = !(o.rs k).valid
  readyMask : ∀ eu k, o.rsReadyMask eu k =
    ((o.rs k).valid && (o.rs k).src1Ready && (o.rs k).src2Ready && (o.rs k).euType == eu)

/-- The invariant of the renamed machine. -/
structure Inv (o : OOOState) : Prop where
  renamed : o.Renamed
  settled : o.Settled
  placed : o.Placed o.robCount

/-! ## Basic facts -/

section Basic

variable {o : OOOState}

theorem mapAt_zero (o : OOOState) : o.mapAt 0 = o.rrat := rfl

theorem mapAt_succ (o : OOOState) (n : Nat) :
    o.mapAt (n + 1) = applyRename (o.mapAt n) (o.rob (o.robHead + Fin.ofNat 32 n)).pending := by
  unfold mapAt
  rw [window_succ_last, List.map_append]
  exact replay_concat ..

/-- The map at a live position depends only on the older entries. -/
theorem mapAt_congr {o o' : OOOState} (rrat : o'.rrat = o.rrat) (head : o'.robHead = o.robHead) {n : Nat}
    (entries : ∀ i ∈ window o.robHead n, (o'.rob i).pending = (o.rob i).pending) : o'.mapAt n = o.mapAt n := by
  unfold mapAt
  rw [rrat, head, List.map_congr_left entries]

theorem pending_dest {entry : ROBEntry} {r : Rename Reg PReg} (pending : entry.pending = some r) :
    entry.dest = some r.target ∧ entry.physRd = some r.fresh ∧ entry.oldPhys = some r.previous := by
  unfold ROBEntry.pending at pending
  split at pending
  · next dest phys old =>
      cases pending
      exact ⟨dest, phys, old⟩
  · cases pending

theorem target_ne_zero {entry : ROBEntry} {r : Rename Reg PReg} (pending : entry.pending = some r) :
    r.target ≠ 0 := by
  have dest := (pending_dest pending).1
  unfold ROBEntry.dest at dest
  obtain ⟨_, nonzero⟩ := Option.filter_eq_some_iff.mp dest
  simpa using nonzero

namespace Renamed

variable (renamed : o.Renamed)
include renamed

theorem mem_live {i : RobIdx} : i ∈ o.live ↔ (o.rob i).valid = true := by
  rw [renamed.valid, live, mem_window_iff renamed.bounded]
  rfl

theorem head_valid (live : o.robCount ≠ 0) : (o.rob o.robHead).valid = true := by
  rw [renamed.valid, pos, age_self]
  omega

/-- Every name is in exactly one of the three places. -/
theorem nodup : (o.freeRegs ++ ((List.finRange 32).map o.rrat ++ o.inFlight)).Nodup :=
  renamed.conserved.nodup_iff.mpr (List.nodup_finRange 64)

theorem mem_inFlight {i : RobIdx} {r : Rename Reg PReg} (valid : (o.rob i).valid = true)
    (pending : (o.rob i).pending = some r) : r.fresh ∈ o.inFlight := by
  apply List.mem_filterMap.mpr
  exact ⟨i, renamed.mem_live.mpr valid, by rw [pending]; rfl⟩

theorem rrat_injective {a b : Reg} (same : o.rrat a = o.rrat b) : a = b := by
  have names := (List.nodup_append.mp (List.nodup_append.mp renamed.nodup).2.1).1
  exact List.inj_on_of_nodup_map names (List.mem_finRange a) (List.mem_finRange b) same

theorem rrat_ne_fresh {i : RobIdx} {r : Rename Reg PReg} (valid : (o.rob i).valid = true)
    (pending : (o.rob i).pending = some r) (a : Reg) : o.rrat a ≠ r.fresh := by
  have apart := (List.nodup_append.mp (List.nodup_append.mp renamed.nodup).2.1).2.2
  exact apart _ (List.mem_map_of_mem (List.mem_finRange a)) _ (renamed.mem_inFlight valid pending)

theorem fresh_ne_zero {i : RobIdx} {r : Rename Reg PReg} (valid : (o.rob i).valid = true)
    (pending : (o.rob i).pending = some r) : r.fresh ≠ 0 := by
  rw [← renamed.zero]
  exact (renamed.rrat_ne_fresh valid pending 0).symm

/-- Two live entries never share a physical destination. -/
theorem fresh_injective {i j : RobIdx} {r r' : Rename Reg PReg} (validI : (o.rob i).valid = true)
    (validJ : (o.rob j).valid = true) (pendingI : (o.rob i).pending = some r)
    (pendingJ : (o.rob j).pending = some r') (same : r.fresh = r'.fresh) : i = j := by
  have names := (List.nodup_append.mp (List.nodup_append.mp renamed.nodup).2.1).2.1
  have nameI : (o.rob i).pending.map Rename.fresh = some r.fresh := by
    rw [pendingI]
    rfl
  have nameJ : (o.rob j).pending.map Rename.fresh = some r.fresh := by
    rw [pendingJ, same]
    rfl
  exact eq_of_nodup_filterMap names (renamed.mem_live.mpr validI) (renamed.mem_live.mpr validJ) nameI nameJ

/-- The origin of a mapped name: committed, or the destination of an older live entry. -/
theorem mapAt_origin {n : Nat} (live : n ≤ o.robCount) (a : Reg) :
    o.mapAt n a = o.rrat a ∨ ∃ i r, (o.rob i).valid = true ∧ o.pos i < n ∧ (o.rob i).pending = some r ∧
      r.target = a ∧ r.fresh = o.mapAt n a := by
  rcases replay_origin o.rrat ((window o.robHead n).map fun i => (o.rob i).pending) a with committed | ⟨r, member, rest⟩
  · exact .inl committed
  · obtain ⟨i, inside, pending⟩ := List.mem_map.mp member
    have position : o.pos i < n := (mem_window_iff (live.trans renamed.bounded)).mp inside
    exact .inr ⟨i, r, (renamed.valid i).mpr (by omega), position, pending, rest⟩

theorem mapAt_mem {n : Nat} (live : n ≤ o.robCount) (a : Reg) :
    o.mapAt n a ∈ (List.finRange 32).map o.rrat ++ o.inFlight := by
  rcases renamed.mapAt_origin live a with committed | ⟨i, r, valid, _, pending, _, fresh⟩
  · rw [committed]
    exact List.mem_append_left _ (List.mem_map_of_mem (List.mem_finRange a))
  · rw [← fresh]
    exact List.mem_append_right _ (renamed.mem_inFlight valid pending)

/-- No map names a free register. -/
theorem mapAt_not_free {n : Nat} (live : n ≤ o.robCount) (a : Reg) {p : PReg} (free : p ∈ o.freeRegs) :
    o.mapAt n a ≠ p := by
  have apart := (List.nodup_append.mp renamed.nodup).2.2
  exact (apart p free _ (renamed.mapAt_mem live a)).symm

theorem mapAt_ne_zero {n : Nat} (live : n ≤ o.robCount) {a : Reg} (nonzero : a ≠ 0) : o.mapAt n a ≠ 0 := by
  rcases renamed.mapAt_origin live a with committed | ⟨i, r, valid, _, pending, _, fresh⟩
  · rw [committed, ← renamed.zero]
    exact fun same => nonzero (renamed.rrat_injective same)
  · rw [← fresh]
    exact renamed.fresh_ne_zero valid pending

end Renamed

end Basic

end OOOState

end Sustemu
