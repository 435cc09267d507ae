import Sustemu.Memory.CacheSystem

/-!
# Histories without prefetching

The repository's `prefetch_hint` returns 0, so no way is filled but by a lookup
that missed. Lines are dropped, and first-level lines written back on their own,
by snoops only.
-/

set_option autoImplicit false

namespace Sustemu

open Lib

def CacheEvent.demanded : CacheEvent → Bool
  | .prefetch .. => false
  | _ => true

/-- A lookup, a refill or a write: neither a prefetch nor the work of a snoop. -/
def CacheEvent.plain : CacheEvent → Bool
  | .prefetch .. | .drop .. | .writeback => false
  | _ => true

/-- Every event of the log is allowed. -/
def Only (allowed : CacheEvent → Bool) (log : SideLog) : Prop := ∀ entry ∈ log, allowed entry.2 = true

namespace Only

variable {allowed : CacheEvent → Bool} {log log' : SideLog}

theorem nil : Only allowed [] := fun _ member => nomatch member

theorem single {entry : Level × CacheEvent} (fine : allowed entry.2 = true) : Only allowed [entry] := by
  intro other member
  rw [List.mem_singleton.mp member]
  exact fine

theorem append (first : Only allowed log) (second : Only allowed log') : Only allowed (log ++ log') := by
  intro entry member
  rcases List.mem_append.mp member with older | newer
  · exact first entry older
  · exact second entry newer

theorem level {events : List CacheEvent} (fine : ∀ event ∈ events, allowed event = true) (level : Level) :
    Only allowed (events.map fun event => (level, event)) := by
  intro entry member
  obtain ⟨event, present, rfl⟩ := List.mem_map.mp member
  exact fine event present

theorem demanded (plain : Only CacheEvent.plain log) : Only CacheEvent.demanded log := by
  intro entry member
  have fine := plain entry member
  cases same : entry.2 with
  | prefetch => rw [same] at fine; cases fine
  | quiet | hit | refill | change | drop | writeback => rfl

end Only

/-! ## Plain events -/

theorem accessL2Events_plain (l2 : Cache) (addr : Nat) (isWrite : Bool) :
    ∀ event ∈ accessL2Events l2 addr isWrite, event.plain = true := by
  unfold accessL2Events
  obtain ⟨hit, way⟩ := selectWay l2 addr
  cases hit <;> cases isWrite <;> simp [CacheEvent.plain]

theorem quietEvents_plain (c : Cache) (addr : Nat) : ∀ event ∈ quietEvents c addr, event.plain = true := by
  unfold quietEvents
  obtain ⟨hit, way⟩ := selectWay c addr
  cases hit <;> simp [CacheEvent.plain]

theorem fetchEvents_plain (side : Hier) (addr way : Nat) : ∀ event ∈ fetchEvents side addr way, event.plain = true := by
  unfold fetchEvents
  intro event member
  rcases List.mem_append.mp member with written | read
  · split at written
    · exact accessL2Events_plain _ _ _ event written
    · cases written
  · exact accessL2Events_plain _ _ _ event read

/-- The hint is 0, so a refill is all that happens. -/
theorem refillEvents_plain (side looked : Hier) (addr way : Nat) :
    Only CacheEvent.plain (refillEvents prefetchHint side looked addr way) := by
  have none : prefetchEvents prefetchHint prefetchDegree (fetchBlock looked addr way) addr = [] := rfl
  unfold refillEvents
  rw [none]
  exact Only.append (.level (fetchEvents_plain looked addr way) _) (.single rfl)

theorem touchEvents_plain (side : Hier) (addr : Nat) : Only CacheEvent.plain (touchEvents prefetchHint side addr) := by
  unfold touchEvents
  obtain ⟨hit, way⟩ := selectWay side.l1 addr
  cases hit with
  | true => exact .single rfl
  | false => exact refillEvents_plain _ _ _ _

theorem readLevelEvents_plain (side : Hier) (addr : Nat) :
    Only CacheEvent.plain (readLevelEvents prefetchHint side addr) := by
  unfold readLevelEvents
  obtain ⟨hit, way⟩ := selectWay side.l1 addr
  cases hit with
  | true => exact .single rfl
  | false => exact Only.append (.level (quietEvents_plain _ _) _) (refillEvents_plain _ _ _ _)

theorem probeEvents_plain (side : Hier) (addr : Nat) : Only CacheEvent.plain (probeEvents side addr) := by
  refine Only.append (.level (quietEvents_plain _ _) _) ?_
  split
  · exact .nil
  · exact .level (quietEvents_plain _ _) _

/-! ## Snoops -/

theorem writeBack_demanded (l2 : Cache) (addr : Nat) : Only CacheEvent.demanded (atSecond (accessL2Events l2 addr true)) :=
  (Only.level (accessL2Events_plain l2 addr true) _).demanded

theorem snoopInvalidateEvents_demanded (side : Hier) (addr : Nat) :
    Only CacheEvent.demanded (snoopInvalidateEvents side addr) := by
  unfold snoopInvalidateEvents
  split
  · exact .nil
  · dsimp only
    split
    · exact (writeBack_demanded _ _).append (Only.append (.single rfl) (.single rfl))
    · exact .single rfl

theorem snoopFlushDirtyEvents_demanded (side : Hier) (addr : Nat) :
    Only CacheEvent.demanded (snoopFlushDirtyEvents side addr) := by
  unfold snoopFlushDirtyEvents
  split
  · exact .nil
  · exact (writeBack_demanded _ _).append (Only.append (.single rfl) (.single rfl))

namespace CacheOp

/-- A call of a hart on its own caches. -/
def Own : CacheOp → Prop
  | snoopInvalidate _ | snoopFlushDirty _ => False
  | _ => True

theorem events_plain (side : Hier) {op : CacheOp} (own : op.Own) : Only CacheEvent.plain (op.events prefetchHint side) := by
  cases op with
  | read addr len | fillAndRead addr len => exact touchEvents_plain side addr
  | readLevel addr len => exact readLevelEvents_plain side addr
  | probeLevel addr => exact probeEvents_plain side addr
  | write addr len data => exact (touchEvents_plain side addr).append (.single rfl)
  | l2Access addr data isWrite => exact .level (accessL2Events_plain _ _ _) _
  | snoopInvalidate | snoopFlushDirty => cases own

theorem events_demanded (side : Hier) (op : CacheOp) : Only CacheEvent.demanded (op.events prefetchHint side) := by
  by_cases own : op.Own
  · exact (events_plain side own).demanded
  · cases op with
    | snoopInvalidate addr => exact snoopInvalidateEvents_demanded side addr
    | snoopFlushDirty addr => exact snoopFlushDirtyEvents_demanded side addr
    | read | fillAndRead | readLevel | probeLevel | write | l2Access => exact absurd trivial own

end CacheOp

namespace CacheSystem

variable {ι : Type} [DecidableEq ι] {allowed : CacheEvent → Bool}

/-- A history holds what the logs of the calls hold. -/
theorem history_only {calls : List (ι × CacheOp)}
    (fine : ∀ call ∈ calls, ∀ side, Only allowed (call.2.events prefetchHint side)) (m : CacheSystem ι) (x : Option ι) :
    ∀ event ∈ history x (m.log prefetchHint calls), allowed event = true := by
  induction calls generalizing m with
  | nil => exact fun _ member => nomatch member
  | cons call rest ih =>
      intro event member
      unfold log at member
      rw [history_append] at member
      rcases List.mem_append.mp member with now | later
      · obtain ⟨entry, present, chosen⟩ := List.mem_filterMap.mp now
        obtain ⟨source, known, rfl⟩ := List.mem_map.mp present
        split at chosen
        · cases chosen
          exact fine call List.mem_cons_self _ source known
        · cases chosen
      · exact ih (fun call member => fine call (List.mem_cons_of_mem _ member)) _ event later

theorem history_demanded (m : CacheSystem ι) (calls : List (ι × CacheOp)) (x : Option ι) :
    ∀ event ∈ history x (m.log prefetchHint calls), event.demanded = true :=
  history_only (fun call _ side => call.2.events_demanded side) m x

end CacheSystem

end Sustemu
