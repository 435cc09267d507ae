import Sustemu.Memory.Demand
import Sustemu.Memory.Hierarchy

/-!
# The accesses of the harts as calls

The caches of the harts are a system of first-level caches around one second
level. An access through `vmem.h` makes calls on it: a snoop of the other
hart's data cache when there are two cores, and then an access to its own.
-/

set_option autoImplicit false

namespace Sustemu

open Lib

/-- The first-level caches of the harts. -/
inductive Side where
  | fetch (h : Fin 2)
  | data (h : Fin 2)
  deriving DecidableEq

section Calls

variable {δ : Type}

def MemState.caches (m : MemState δ) : CacheSystem Side where
  l1 := fun side => match side with
    | .fetch h => m.l1i h
    | .data h => m.l1d h
  back := m.back

theorem MemState.caches_setFetchSide (m : MemState δ) (h : Fin 2) (side : Hier) :
    (m.setFetchSide h side).caches = m.caches.put (.fetch h) side := by
  refine congrArg₂ CacheSystem.mk (funext fun x => ?_) rfl
  cases x with
  | fetch g =>
      by_cases same : g = h
      · subst same
        simp [setFetchSide, caches]
      · simp [setFetchSide, caches, same]
  | data g => rfl

theorem MemState.caches_setDataSide (m : MemState δ) (h : Fin 2) (side : Hier) :
    (m.setDataSide h side).caches = m.caches.put (.data h) side := by
  refine congrArg₂ CacheSystem.mk (funext fun x => ?_) rfl
  cases x with
  | fetch g => rfl
  | data g =>
      by_cases same : g = h
      · subst same
        simp [setDataSide, caches]
      · simp [setDataSide, caches, same]

/-- The calls that an access of hart `h` makes. -/
def MemOp.calls (numCores : Nat) (h : Fin 2) (op : MemOp) : List (Side × CacheOp) :=
  let snoop (call : CacheOp) : List (Side × CacheOp) := if numCores > 1 then [(.data (otherHart h), call)] else []
  match op with
  | .ifetch addr len => if inDram addr then [(.fetch h, .read addr.toNat len)] else []
  | .read addr len => if inDram addr then snoop (.snoopFlushDirty addr.toNat) ++ [(.data h, .read addr.toNat len)] else []
  | .readLevel addr len =>
      if inDram addr then snoop (.snoopFlushDirty addr.toNat) ++ [(.data h, .readLevel addr.toNat len)] else []
  | .fillAndRead addr len =>
      if inDram addr then snoop (.snoopFlushDirty addr.toNat) ++ [(.data h, .fillAndRead addr.toNat len)] else []
  | .probeLevel addr => if inDram addr then [(.data h, .probeLevel addr.toNat)] else []
  | .write addr len data =>
      if inDram addr then snoop (.snoopInvalidate addr.toNat) ++ [(.data h, .write addr.toNat len data)] else []

theorem MemOp.Inside.calls {op : MemOp} (inside : op.Inside) (numCores : Nat) (h : Fin 2) :
    ∀ call ∈ op.calls numCores h, call.2.Inside := by
  have snoop : ∀ (call : CacheOp), call.Inside →
      ∀ made ∈ (if numCores > 1 then [(Side.data (otherHart h), call)] else []), made.2.Inside := by
    intro call fine made member
    split at member
    · rw [List.mem_singleton.mp member]
      exact fine
    · cases member
  intro made member
  unfold MemOp.calls at member
  cases op with
  | ifetch addr len | probeLevel addr =>
      dsimp only at member
      split at member
      · rw [List.mem_singleton.mp member]
        trivial
      · cases member
  | read addr len | readLevel addr len | fillAndRead addr len =>
      dsimp only at member
      split at member
      · rcases List.mem_append.mp member with asked | own
        · exact snoop (.snoopFlushDirty addr.toNat) trivial made asked
        · rw [List.mem_singleton.mp own]
          trivial
      · cases member
  | write addr len data =>
      dsimp only at member
      split at member
      · next cached =>
          rcases List.mem_append.mp member with asked | own
          · exact snoop (.snoopInvalidate addr.toNat) trivial made asked
          · rw [List.mem_singleton.mp own]
            exact inside cached
      · cases member

variable {cfg : MemConfig δ} {w w' : World (MemState δ)}

variable (cfg) in
theorem caches_snoopRead (m : MemState δ) (h : Fin 2) (addr : Nat) : (snoopRead cfg m h addr).caches =
    (m.caches.run cfg.prefetchHint
      (if cfg.numCores > 1 then [(.data (otherHart h), .snoopFlushDirty addr)] else [])).2 := by
  unfold snoopRead
  split
  · exact MemState.caches_setDataSide ..
  · rfl

variable (cfg) in
theorem caches_snoopWrite (m : MemState δ) (h : Fin 2) (addr : Nat) : (snoopWrite cfg m h addr).caches =
    (m.caches.run cfg.prefetchHint
      (if cfg.numCores > 1 then [(.data (otherHart h), .snoopInvalidate addr)] else [])).2 := by
  unfold snoopWrite
  split
  · exact MemState.caches_setDataSide ..
  · rfl

theorem CacheSystem.run_append {ι : Type} [DecidableEq ι] (hint : Nat → Nat) (m : CacheSystem ι)
    (calls calls' : List (ι × CacheOp)) : (m.run hint (calls ++ calls')).2 = ((m.run hint calls).2.run hint calls').2 := by
  induction calls generalizing m with
  | nil => rfl
  | cons call rest ih => exact ih _

/-- An uncached access reaches no cache. -/
theorem paddrRead_caches {addr value : Word} {len : Nat} (done : paddrRead cfg w addr len = some (value, w'))
    (x : Option Side) : w'.mem.caches.cache x = w.mem.caches.cache x := by
  unfold paddrRead at done
  dsimp only at done
  split at done
  · cases done
    rfl
  · obtain ⟨_, _, same⟩ := Option.map_eq_some_iff.mp done
    cases same
    rfl

theorem paddrWrite_caches {addr data : Word} {len : Nat} (done : paddrWrite cfg w addr len data = some w')
    (x : Option Side) : w'.mem.caches.cache x = w.mem.caches.cache x := by
  unfold paddrWrite at done
  dsimp only at done
  split at done
  · cases done
    cases x <;> rfl
  · obtain ⟨_, _, same⟩ := Option.map_eq_some_iff.mp done
    cases same
    rfl

/-- A call of hart `h` on its own data cache, after those that made `m`. -/
theorem caches_own {m : MemState δ} {start : CacheSystem Side} {snoop : List (Side × CacheOp)}
    (snooped : m.caches = (start.run cfg.prefetchHint snoop).2) (h : Fin 2) (call : CacheOp) :
    (m.setDataSide h (call.apply cfg.prefetchHint (m.dataSide h)).2).caches =
      (start.run cfg.prefetchHint (snoop ++ [(.data h, call)])).2 := by
  rw [MemState.caches_setDataSide, CacheSystem.run_append, ← snooped]
  rfl

theorem vaddrRead_caches {addr value : Word} {len : Nat} (call : CacheOp)
    (same : ∀ side, (call.apply cfg.prefetchHint side).2 = (cacheRead cfg.prefetchHint side addr.toNat len).2)
    (done : vaddrRead cfg w addr len = some (value, w')) (x : Option Side) :
    w'.mem.caches.cache x = (w.mem.caches.run cfg.prefetchHint
      (if inDram addr then
        (if cfg.numCores > 1 then [(.data (otherHart w.sys.hartid), .snoopFlushDirty addr.toNat)] else []) ++
          [(.data w.sys.hartid, call)]
      else [])).2.cache x := by
  unfold vaddrRead at done
  split at done
  · next inside =>
      have moved := caches_own (caches_snoopRead cfg w.mem w.sys.hartid addr.toNat) w.sys.hartid call
      rw [same] at moved
      cases done
      rw [if_pos inside]
      exact congrArg (CacheSystem.cache · x) moved
  · next outside =>
      rw [if_neg outside]
      exact paddrRead_caches done x

theorem vaddrReadLevel_caches {addr value : Word} {len : Nat} {level : Fin 3}
    (done : vaddrReadLevel cfg w addr len = some (level, value, w')) (x : Option Side) :
    w'.mem.caches.cache x = (w.mem.caches.run cfg.prefetchHint
      (if inDram addr then
        (if cfg.numCores > 1 then [(.data (otherHart w.sys.hartid), .snoopFlushDirty addr.toNat)] else []) ++
          [(.data w.sys.hartid, .readLevel addr.toNat len)]
      else [])).2.cache x := by
  unfold vaddrReadLevel at done
  split at done
  · next inside =>
      have moved := caches_own (caches_snoopRead cfg w.mem w.sys.hartid addr.toNat) w.sys.hartid
        (.readLevel addr.toNat len)
      cases done
      rw [if_pos inside]
      exact congrArg (CacheSystem.cache · x) moved
  · next outside =>
      rw [if_neg outside]
      obtain ⟨⟨_, _⟩, uncached, rest⟩ := Option.map_eq_some_iff.mp done
      cases rest
      exact paddrRead_caches uncached x

theorem vaddrWrite_caches {addr data : Word} {len : Nat} (done : vaddrWrite cfg w addr len data = some w')
    (x : Option Side) :
    w'.mem.caches.cache x = (w.mem.caches.run cfg.prefetchHint
      (if inDram addr then
        (if cfg.numCores > 1 then [(.data (otherHart w.sys.hartid), .snoopInvalidate addr.toNat)] else []) ++
          [(.data w.sys.hartid, .write addr.toNat len data)]
      else [])).2.cache x := by
  unfold vaddrWrite at done
  split at done
  · next inside =>
      have moved := caches_own (caches_snoopWrite cfg w.mem w.sys.hartid addr.toNat) w.sys.hartid
        (.write addr.toNat len data)
      cases done
      rw [if_pos inside]
      exact congrArg (CacheSystem.cache · x) moved
  · next outside =>
      rw [if_neg outside]
      exact paddrWrite_caches done x

/-- An access takes the caches where its calls take them. -/
theorem perform_caches {h : Fin 2} {op : MemOp} {value : Option Word}
    (done : op.perform (hierarchy cfg) w h = some (value, w')) (x : Option Side) :
    w'.mem.caches.cache x = (w.mem.caches.run cfg.prefetchHint (op.calls cfg.numCores h)).2.cache x := by
  cases op with
  | ifetch addr len =>
      obtain ⟨⟨_, _⟩, fetched, same⟩ := Option.map_eq_some_iff.mp done
      cases same
      change vaddrIfetch cfg _ addr len = _ at fetched
      unfold vaddrIfetch at fetched
      unfold MemOp.calls
      dsimp only
      split at fetched
      · next inside =>
          cases fetched
          rw [if_pos inside]
          exact congrArg (CacheSystem.cache · x) (MemState.caches_setFetchSide w.mem h _)
      · next outside =>
          rw [if_neg outside]
          exact paddrRead_caches fetched x
  | read addr len =>
      obtain ⟨⟨_, _⟩, read, same⟩ := Option.map_eq_some_iff.mp done
      cases same
      exact vaddrRead_caches (.read addr.toNat len) (fun _ => rfl) read x
  | fillAndRead addr len =>
      obtain ⟨⟨_, _⟩, read, same⟩ := Option.map_eq_some_iff.mp done
      cases same
      exact vaddrRead_caches (.fillAndRead addr.toNat len) (fun _ => rfl) read x
  | readLevel addr len =>
      obtain ⟨⟨_, _, _⟩, read, same⟩ := Option.map_eq_some_iff.mp done
      cases same
      exact vaddrReadLevel_caches read x
  | probeLevel addr =>
      cases done
      change (vaddrProbeLevel _ addr).2.mem.caches.cache x = _
      unfold vaddrProbeLevel MemOp.calls
      dsimp only
      split
      · exact congrArg (CacheSystem.cache · x) (MemState.caches_setDataSide w.mem h _)
      · rfl
  | write addr len data =>
      obtain ⟨_, written, same⟩ := Option.map_eq_some_iff.mp done
      cases same
      exact vaddrWrite_caches written x

/-- The events of all caches in a sequence of accesses. -/
def MemOp.log (cfg : MemConfig δ) : World (MemState δ) → List (Fin 2 × MemOp) → List (Option Side × CacheEvent)
  | _, [] => []
  | w, (h, op) :: rest =>
      w.mem.caches.log cfg.prefetchHint (op.calls cfg.numCores h) ++
        match op.perform (hierarchy cfg) w h with
        | none => []
        | some (_, w) => log cfg w rest

/-- Every cache has run through its history. -/
theorem performAll_traces {ops : List (Fin 2 × MemOp)} {values : List (Option Word)}
    (inside : ∀ access ∈ ops, access.2.Inside)
    (done : MemOp.performAll (hierarchy cfg) w ops = some (values, w')) (x : Option Side) :
    Run (CacheStep (CacheSystem.levelOf x)) (w.mem.caches.cache x) (history x (MemOp.log cfg w ops))
      (w'.mem.caches.cache x) := by
  induction ops generalizing w values with
  | nil =>
      cases done
      rfl
  | cons access rest ih =>
      obtain ⟨h, op⟩ := access
      unfold MemOp.performAll at done
      obtain ⟨⟨value, w₁⟩, first, later⟩ := Option.bind_eq_some_iff.mp done
      obtain ⟨⟨others, w₂⟩, final, same⟩ := Option.bind_eq_some_iff.mp later
      cases same
      unfold MemOp.log
      rw [history_append, first]
      refine (run_append _ _).mpr ⟨w₁.mem.caches.cache x, ?_, ih ?_ final⟩
      · rw [perform_caches first]
        have here := (inside (h, op) List.mem_cons_self).calls cfg.numCores h
        exact CacheSystem.run_traces cfg.prefetchHint w.mem.caches here x
      · exact fun access member => inside access (List.mem_cons_of_mem _ member)

theorem MemState.caches_init (pmem : ByteMem) (dev : δ) (x : Option Side) :
    ∃ s w, 0 < w ∧ (MemState.init pmem dev).caches.cache x = initCache s w := by
  cases x with
  | none => exact ⟨8, 16, by decide, rfl⟩
  | some side => cases side <;> exact ⟨6, 8, by decide, rfl⟩

end Calls

end Sustemu
