import Sustemu.Memory.Events

/-!
# First-level caches around one second level

Any number of first-level caches share a second level and the memory behind it.
The operations of `cache.c` reach them in any order. A run gives the answers of
the operations and the history of every cache.
-/

set_option autoImplicit false

namespace Sustemu

open Lib

/-- A call of `cache.c` on one first-level cache and what lies behind it. -/
inductive CacheOp where
  | read (addr len : Nat)
  | readLevel (addr len : Nat)
  | probeLevel (addr : Nat)
  | fillAndRead (addr len : Nat)
  | write (addr len : Nat) (data : Word)
  | l2Access (addr : Nat) (data : ByteMem) (isWrite : Bool)
  | snoopInvalidate (addr : Nat)
  | snoopFlushDirty (addr : Nat)

/-- What a call returns. -/
inductive Answer where
  | done
  | value (value : Word)
  | level (level : Fin 3)
  | leveled (level : Fin 3) (value : Word)
  | block (data : ByteMem)

namespace CacheOp

def apply (hint : Nat → Nat) (side : Hier) : CacheOp → Answer × Hier
  | read addr len | fillAndRead addr len => (.value (cacheRead hint side addr len).1, (cacheRead hint side addr len).2)
  | readLevel addr len =>
      let (level, value, side) := cacheReadLevel hint side addr len
      (.leveled level value, side)
  | probeLevel addr => (.level (cacheProbeLevel side addr).1, (cacheProbeLevel side addr).2)
  | write addr len data => (.done, cacheWrite hint side addr len data)
  | l2Access addr data isWrite =>
      (.block (accessL2 side.back addr data isWrite).1, ⟨side.l1, (accessL2 side.back addr data isWrite).2⟩)
  | snoopInvalidate addr => (.done, cacheSnoopInvalidate side addr)
  | snoopFlushDirty addr => (.done, cacheSnoopFlushDirty side addr)

def events (hint : Nat → Nat) (side : Hier) : CacheOp → SideLog
  | read addr _ | fillAndRead addr _ => touchEvents hint side addr
  | readLevel addr _ => readLevelEvents hint side addr
  | probeLevel addr => probeEvents side addr
  | write addr _ _ => writeEvents hint side addr
  | l2Access addr _ isWrite => atSecond (accessL2Events side.back.l2 addr isWrite)
  | snoopInvalidate addr => snoopInvalidateEvents side addr
  | snoopFlushDirty addr => snoopFlushDirtyEvents side addr

/-- A write stays inside its line. -/
def Inside : CacheOp → Prop
  | write addr len _ => addr % blockSize + len ≤ blockSize
  | _ => True

instance : DecidablePred Inside
  | write _ _ _ => inferInstanceAs (Decidable (_ ≤ _))
  | read .. | readLevel .. | probeLevel _ | fillAndRead .. | l2Access .. | snoopInvalidate _ | snoopFlushDirty _ =>
      inferInstanceAs (Decidable True)

theorem traces (hint : Nat → Nat) (side : Hier) {op : CacheOp} (inside : op.Inside) :
    Traces side (op.events hint side) (op.apply hint side).2 := by
  cases op with
  | read addr len | fillAndRead addr len => exact touch_traces hint side addr
  | readLevel addr len => exact readLevel_traces hint side addr len
  | probeLevel addr => exact probe_traces side addr
  | write addr len data => exact write_traces hint side inside data
  | l2Access addr data isWrite => exact .ofSecond (accessL2_run side.back addr data isWrite)
  | snoopInvalidate addr => exact snoopInvalidate_traces side addr
  | snoopFlushDirty addr => exact snoopFlushDirty_traces side addr

end CacheOp

structure CacheSystem (ι : Type) where
  l1 : ι → Cache
  back : Backing

namespace CacheSystem

variable {ι : Type}

/-- A first-level cache, or the second level. -/
def cache (m : CacheSystem ι) : Option ι → Cache
  | some i => m.l1 i
  | none => m.back.l2

def levelOf : Option ι → Level
  | some _ => .first
  | none => .second

def side (m : CacheSystem ι) (i : ι) : Hier := ⟨m.l1 i, m.back⟩

/-- Empty caches of the given set-index bits and ways. -/
def init (geometry : Option ι → Nat × Nat) (pmem : ByteMem) : CacheSystem ι where
  l1 := fun i => initCache (geometry (some i)).1 (geometry (some i)).2
  back := ⟨initCache (geometry none).1 (geometry none).2, pmem⟩

/-- First-level caches of 8 ways and 64 sets around a second level of 16 ways and 256 sets. -/
def sizes (x : Option Bool) : Nat × Nat := if x.isSome then (6, 8) else (8, 16)

variable [DecidableEq ι]

def put (m : CacheSystem ι) (i : ι) (side : Hier) : CacheSystem ι := ⟨setAt m.l1 i side.l1, side.back⟩

def step (hint : Nat → Nat) (m : CacheSystem ι) (call : ι × CacheOp) : Answer × CacheSystem ι :=
  let (answer, side) := call.2.apply hint (m.side call.1)
  (answer, m.put call.1 side)

/-- Calls in order: their answers and the caches after them. -/
def run (hint : Nat → Nat) : CacheSystem ι → List (ι × CacheOp) → List Answer × CacheSystem ι
  | m, [] => ([], m)
  | m, call :: rest =>
      let (answer, m) := m.step hint call
      let (answers, m) := run hint m rest
      (answer :: answers, m)

/-- The cache that an event of a side of cache `i` is about. -/
def owner (i : ι) : Level → Option ι
  | .first => some i
  | .second => none

/-- The events of all caches. -/
def log (hint : Nat → Nat) : CacheSystem ι → List (ι × CacheOp) → List (Option ι × CacheEvent)
  | _, [] => []
  | m, call :: rest =>
      (call.2.events hint (m.side call.1)).map (fun entry => (owner call.1 entry.1, entry.2)) ++
        log hint (m.step hint call).2 rest

omit [DecidableEq ι] in
theorem owner_injective (i : ι) : Function.Injective (owner i) := by
  intro level level' same
  cases level <;> cases level' <;> first | rfl | cases same

theorem history_owner (i : ι) (level : Level) (events : SideLog) :
    history (owner i level) (events.map fun entry => (owner i entry.1, entry.2)) = history level events := by
  unfold history
  rw [List.filterMap_map]
  refine List.filterMap_congr fun entry _ => ?_
  simp only [Function.comp_apply, (owner_injective i).eq_iff]

theorem history_bystander {i : ι} {x : Option ι} (other : ∀ level, owner i level ≠ x) (events : SideLog) :
    history x (events.map fun entry => (owner i entry.1, entry.2)) = [] := by
  unfold history
  rw [List.filterMap_map, List.filterMap_eq_nil_iff]
  exact fun entry _ => if_neg (other entry.1)

/-- The events of a call take every cache to its next state. -/
theorem step_traces (hint : Nat → Nat) (m : CacheSystem ι) {call : ι × CacheOp} (inside : call.2.Inside) (x : Option ι) :
    Run (CacheStep (levelOf x)) (m.cache x)
      (history x ((call.2.events hint (m.side call.1)).map fun entry => (owner call.1 entry.1, entry.2)))
      ((m.step hint call).2.cache x) := by
  obtain ⟨i, op⟩ := call
  have traced := CacheOp.traces hint (m.side i) inside
  cases x with
  | none =>
      rw [show (none : Option ι) = owner i .second from rfl, history_owner]
      exact traced.l2
  | some j =>
      by_cases same : j = i
      · subst same
        rw [show some j = owner j .first from rfl, history_owner]
        change Run _ _ _ (setAt m.l1 j _ j)
        rw [setAt_self]
        exact traced.l1
      · rw [history_bystander]
        · exact (setAt_of_ne same _ _).symm
        · intro level
          cases level with
          | first => exact fun equal => same (Option.some.inj equal).symm
          | second => exact nofun

/-- Every cache has run through its history. -/
theorem run_traces (hint : Nat → Nat) (m : CacheSystem ι) {calls : List (ι × CacheOp)}
    (inside : ∀ call ∈ calls, call.2.Inside) (x : Option ι) :
    Run (CacheStep (levelOf x)) (m.cache x) (history x (m.log hint calls)) ((m.run hint calls).2.cache x) := by
  induction calls generalizing m with
  | nil => rfl
  | cons call rest ih =>
      rw [log, history_append]
      have first := m.step_traces hint (inside call List.mem_cons_self) x
      exact (run_append _ _).mpr ⟨_, first, ih _ fun call member => inside call (List.mem_cons_of_mem _ member)⟩

end CacheSystem

end Sustemu
