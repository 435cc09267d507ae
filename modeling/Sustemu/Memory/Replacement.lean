import Sustemu.Lib.Recency
import Sustemu.Memory.Demand

/-!
# Replacement

A refill takes the way with the least access time. The times order the ways by
their last hit or fill, so this is the way unused for longest, whether or not
it still holds a block: an invalidation clears a line and leaves its time.
-/

set_option autoImplicit false

namespace Sustemu

open Lib

/-- A hit or a fill of a way. -/
def CacheEvent.uses (place : Nat × Nat) : CacheEvent → Bool
  | .hit set way | .refill set way _ _ | .prefetch set way _ _ => (set, way) == place
  | _ => false

/-- A lookup of `find_line`. -/
def CacheEvent.looks : CacheEvent → Bool
  | .hit .. | .refill .. => true
  | _ => false

/-- The events of the cache since the last hit or fill of a way. -/
def idle (events : List CacheEvent) (set way : Nat) : Nat := sinceUse CacheEvent.uses events (set, way)

/-- An invalid way of the set if there is one, and otherwise the way whose last hit or fill lies furthest in the past. -/
def LruVictim (c : Cache) (events : List CacheEvent) (set victim : Nat) : Prop :=
  victim < c.w ∧
    if ∃ way, way < c.w ∧ (c.line set way).valid = false then (c.line set victim).valid = false
    else ∀ way, way < c.w → way ≠ victim → idle events set way < idle events set victim

/-- The set is full, or one of its invalid ways has been unused for longer than every valid one. -/
def FreeWayOldest (c : Cache) (events : List CacheEvent) (set : Nat) : Prop :=
  (∀ way, way < c.w → (c.line set way).valid = true) ∨
    ∃ way, way < c.w ∧ (c.line set way).valid = false ∧
      ∀ other, other < c.w → (c.line set other).valid = true → idle events set other < idle events set way

/-! ## The scan -/

theorem scanWays_least {lines : Nat → CacheLine} {tag left i lru minTime way : Nat}
    (found : scanWays lines tag left i lru minTime = (false, way)) :
    (way = lru ∧ ∀ j, i ≤ j → j < i + left → minTime ≤ (lines j).lastAccess) ∨
      (i ≤ way ∧ way < i + left ∧ (lines way).lastAccess < minTime ∧
        ∀ j, i ≤ j → j < i + left → (lines way).lastAccess ≤ (lines j).lastAccess) := by
  induction left generalizing i lru minTime with
  | zero =>
      have selected : lru = way := by simpa [scanWays] using found
      exact .inl ⟨selected.symm, fun j low high => absurd high (by omega)⟩
  | succ left ih =>
      unfold scanWays at found
      split at found
      · cases found
      · split at found
        · next older =>
            -- way `i` is the best so far
            rcases ih found with ⟨kept, rest⟩ | ⟨low, high, less, rest⟩
            · subst kept
              refine .inr ⟨Nat.le_refl _, by omega, older, fun j low high => ?_⟩
              rcases Nat.eq_or_lt_of_le low with here | later
              · rw [here]
              · exact rest j later (by omega)
            · refine .inr ⟨by omega, by omega, by omega, fun j low' high' => ?_⟩
              rcases Nat.eq_or_lt_of_le low' with here | later
              · rw [← here]
                exact Nat.le_of_lt less
              · exact rest j later (by omega)
        · next newer =>
            rcases ih found with ⟨kept, rest⟩ | ⟨low, high, less, rest⟩
            · refine .inl ⟨kept, fun j low high => ?_⟩
              rcases Nat.eq_or_lt_of_le low with here | later
              · rw [← here]
                omega
              · exact rest j later (by omega)
            · refine .inr ⟨by omega, by omega, less, fun j low' high' => ?_⟩
              rcases Nat.eq_or_lt_of_le low' with here | later
              · rw [← here]
                omega
              · exact rest j later (by omega)

/-- A miss selects a way with the least access time. -/
theorem selectWay_least {c : Cache} {addr way seen : Nat} (inside : seen < c.w)
    (early : (c.line (c.setIdx addr) seen).lastAccess < maxTime) (found : selectWay c addr = (false, way)) :
    way < c.w ∧ ∀ other, other < c.w →
      (c.line (c.setIdx addr) way).lastAccess ≤ (c.line (c.setIdx addr) other).lastAccess := by
  have scanned : scanWays (c.sets (c.setIdx addr)).lines (c.tagOf addr) c.w 0 0 maxTime = (false, way) := by
    unfold selectWay at found
    dsimp only at found
    split at found
    · split at found
      · cases found
      · exact found
    · exact found
  rcases scanWays_least scanned with ⟨_, late⟩ | ⟨_, high, _, least⟩
  · exact absurd early (Nat.not_lt_of_le (late seen (Nat.zero_le _) (by omega)))
  · exact ⟨by omega, fun other bound => least other (Nat.zero_le _) (by omega)⟩

/-! ## Access times -/

/-- The clock counts the lookups, and a line has the time of its last hit or fill. -/
structure Cache.Stamped (c : Cache) (events : List CacheEvent) : Prop where
  timer : c.timer = events.countP CacheEvent.looks
  lastAccess : ∀ set way, (c.line set way).lastAccess = stamp CacheEvent.uses CacheEvent.looks events (set, way)
  used : ∀ set way, (c.line set way).valid = true → 0 < (c.line set way).lastAccess

section Times

variable {level : Level} {c c' : Cache} {event : CacheEvent} {events : List CacheEvent}

theorem Cache.Stamped.next (stamped : c.Stamped events)
    (timer : c'.timer = c.timer + if event.looks = true then 1 else 0)
    (lines : ∀ set way, (c'.line set way).lastAccess =
      if event.uses (set, way) = true then c'.timer else (c.line set way).lastAccess)
    (used : ∀ set way, (c'.line set way).valid = true →
      (c.line set way).valid = true ∧ event.uses (set, way) = false ∨ 0 < (c'.line set way).lastAccess) :
    c'.Stamped (events ++ [event]) where
  timer := by rw [timer, stamped.timer, List.countP_append, List.countP_singleton]
  lastAccess := fun set way => by
    rw [lines, stamp_snoc, timer, stamped.timer, List.countP_append, List.countP_singleton, stamped.lastAccess]
  used := fun set way valid => by
    rcases used set way valid with ⟨before, idle⟩ | now
    · rw [lines, idle, if_neg Bool.false_ne_true]
      exact stamped.used set way before
    · exact now

theorem uses_here (set way : Nat) : ((set, way) == (set, way)) = true := beq_self_eq_true _

theorem uses_elsewhere {set way set' way' : Nat} (elsewhere : ¬(set' = set ∧ way' = way)) :
    ((set, way) == (set', way')) = false := by
  rw [beq_eq_false_iff_ne]
  rintro ⟨⟩
  exact elsewhere ⟨rfl, rfl⟩

theorem CacheStep.stamped (step : CacheStep level c event c') (demand : event.demanded = true)
    (stamped : c.Stamped events) : c'.Stamped (events ++ [event]) := by
  cases step with
  | quiet found =>
      refine stamped.next rfl (fun set way => ?_) fun set way valid => ?_
      · rw [Cache.line_setMru]
        rfl
      · rw [Cache.line_setMru] at valid
        exact .inl ⟨valid, rfl⟩
  | @hit addr way found =>
      rw [findLine_hit found]
      refine stamped.next rfl (fun set' way' => ?_) fun set' way' valid => ?_
      · rw [Cache.line_setMru, Cache.line_modifyLine]
        split
        · next here =>
            rw [here.1, here.2]
            exact (if_pos (uses_here _ _)).symm
        · next elsewhere => exact (if_neg (Bool.eq_false_iff.mp (uses_elsewhere elsewhere))).symm
      · rw [Cache.line_setMru, Cache.line_modifyLine] at valid ⊢
        split at valid
        · next here =>
            rw [if_pos here]
            exact .inr (Nat.succ_pos _)
        · next elsewhere => exact .inl ⟨valid, uses_elsewhere elsewhere⟩
  | @refill addr way _ _ found =>
      rw [findLine_miss found]
      refine stamped.next rfl (fun set' way' => ?_) fun set' way' valid => ?_
      · unfold Cache.filled
        rw [Cache.line_modifyLine]
        split
        · next here =>
            rw [here.1, here.2]
            exact (if_pos (uses_here _ _)).symm
        · next elsewhere => exact (if_neg (Bool.eq_false_iff.mp (uses_elsewhere elsewhere))).symm
      · unfold Cache.filled at valid ⊢
        rw [Cache.line_modifyLine] at valid ⊢
        split at valid
        · next here =>
            rw [if_pos here]
            exact .inr (Nat.succ_pos _)
        · next elsewhere => exact .inl ⟨valid, uses_elsewhere elsewhere⟩
  | prefetch => cases demand
  | change valid _ lastAccess =>
      refine stamped.next rfl (fun set' way' => ?_) fun set' way' live => ?_
      · rw [Cache.line_modifyLine]
        split
        · next here =>
            rw [here.1, here.2]
            exact lastAccess _
        · rfl
      · rw [Cache.line_modifyLine] at live
        split at live
        · next here =>
            rw [here.1, here.2]
            exact .inl ⟨(valid _).symm.trans live, rfl⟩
        · exact .inl ⟨live, rfl⟩
  | drop =>
      refine stamped.next rfl (fun set' way' => ?_) fun set' way' live => ?_
      · rw [Cache.line_modifyLine]
        split
        · next here =>
            rw [here.1, here.2]
            rfl
        · rfl
      · rw [Cache.line_modifyLine] at live
        split at live
        · cases live
        · exact .inl ⟨live, rfl⟩
  | writeback => exact stamped.next rfl (fun _ _ => rfl) fun _ _ valid => .inl ⟨valid, rfl⟩

theorem run_stamped {before : List CacheEvent} (stamped : c.Stamped before) (run : Run (CacheStep level) c events c')
    (demand : ∀ event ∈ events, event.demanded = true) : c'.Stamped (before ++ events) :=
  run.history (fun member step => step.stamped (demand _ member)) stamped

end Times

/-! ## Victims -/

theorem CacheEvent.looks_of_uses {event : CacheEvent} (demand : event.demanded = true) {place : Nat × Nat}
    (used : event.uses place = true) : event.looks = true := by
  cases event with
  | hit | refill => rfl
  | prefetch => cases demand
  | quiet | change | drop | writeback => cases used

theorem CacheEvent.uses_one {event : CacheEvent} {left right : Nat × Nat} (first : event.uses left = true)
    (second : event.uses right = true) : left = right := by
  cases event with
  | hit | refill | prefetch => exact (beq_iff_eq.mp first).symm.trans (beq_iff_eq.mp second)
  | quiet | change | drop | writeback => cases first

section Victims

variable {c : Cache} {events : List CacheEvent}

theorem idle_lt_iff (stamped : c.Stamped events) (demand : ∀ event ∈ events, event.demanded = true)
    (set left right : Nat) :
    (c.line set left).lastAccess < (c.line set right).lastAccess ↔ idle events set right < idle events set left := by
  rw [stamped.lastAccess, stamped.lastAccess]
  exact stamp_lt_iff (fun event member _ used => CacheEvent.looks_of_uses (demand event member) used) _ _

/-- The times of two ways differ when one of them has been used. -/
theorem idle_lt_of_used (stamped : c.Stamped events) (demand : ∀ event ∈ events, event.demanded = true)
    {set left right : Nat} (different : left ≠ right) (used : 0 < (c.line set right).lastAccess)
    (least : (c.line set left).lastAccess ≤ (c.line set right).lastAccess) :
    idle events set right < idle events set left := by
  refine (idle_lt_iff stamped demand set left right).mp (Nat.lt_of_le_of_ne least fun equal => ?_)
  rw [stamped.lastAccess, stamped.lastAccess] at equal
  rw [stamped.lastAccess] at used
  have place := stamp_injective (fun event member _ used => CacheEvent.looks_of_uses (demand event member) used)
    (fun event _ _ _ => CacheEvent.uses_one) equal used
  exact different (congrArg Prod.snd place)

theorem lruVictim_iff (ways : 0 < c.w) (stamped : c.Stamped events)
    (demand : ∀ event ∈ events, event.demanded = true) (early : c.timer < maxTime) {addr way : Nat}
    (found : selectWay c addr = (false, way)) :
    LruVictim c events (c.setIdx addr) way ↔ FreeWayOldest c events (c.setIdx addr) := by
  have times : ∀ other, (c.line (c.setIdx addr) other).lastAccess < maxTime := by
    intro other
    have bound := stamp_le CacheEvent.uses CacheEvent.looks events (c.setIdx addr, other)
    rw [← stamped.lastAccess, ← stamped.timer] at bound
    exact Nat.lt_of_le_of_lt bound early
  obtain ⟨bound, least⟩ := selectWay_least ways (times 0) found
  unfold LruVictim
  constructor
  · rintro ⟨_, victim⟩
    by_cases free : ∃ other, other < c.w ∧ (c.line (c.setIdx addr) other).valid = false
    · rw [if_pos free] at victim
      refine .inr ⟨way, bound, victim, fun other inside valid => ?_⟩
      have different : way ≠ other := by
        rintro rfl
        rw [victim] at valid
        cases valid
      exact idle_lt_of_used stamped demand different (stamped.used _ _ valid) (least other inside)
    · refine .inl fun other inside => ?_
      by_contra invalid
      exact free ⟨other, inside, Bool.eq_false_iff.mpr invalid⟩
  · rintro (full | ⟨free, inside, invalid, oldest⟩)
    · have none : ¬∃ other, other < c.w ∧ (c.line (c.setIdx addr) other).valid = false := by
        rintro ⟨other, inside, invalid⟩
        rw [full other inside] at invalid
        cases invalid
      refine ⟨bound, ?_⟩
      rw [if_neg none]
      exact fun other inside different =>
        idle_lt_of_used stamped demand different.symm (stamped.used _ _ (full other inside)) (least other inside)
    · refine ⟨bound, ?_⟩
      rw [if_pos ⟨free, inside, invalid⟩]
      cases valid : (c.line (c.setIdx addr) way).valid with
      | false => rfl
      | true =>
          -- the free way would have the smaller time
          have smaller := (idle_lt_iff stamped demand _ free way).mpr (oldest way bound valid)
          exact absurd (least free inside) (Nat.not_le_of_lt smaller)

end Victims

theorem initCache_stamped (s w : Nat) : (initCache s w).Stamped [] where
  timer := rfl
  lastAccess := fun _ _ => rfl
  used := fun _ _ valid => nomatch valid

namespace CacheSystem

variable {ι : Type} [DecidableEq ι]

/-- With writes that stay inside their lines every cache goes through its
history, and at each point of it a miss takes the least recently used way
exactly when no invalid way is younger than a valid one. -/
theorem victim_lru_iff (geometry : Option ι → Nat × Nat) (ways : ∀ x, 0 < (geometry x).2) (pmem : ByteMem)
    (calls : List (ι × CacheOp)) (inside : ∀ call ∈ calls, call.2.Inside) (x : Option ι) :
    let start := init geometry pmem
    let events := history x (start.log prefetchHint calls)
    Run (CacheStep (levelOf x)) (start.cache x) events ((start.run prefetchHint calls).2.cache x) ∧
      ∀ before after c, events = before ++ after → Run (CacheStep (levelOf x)) (start.cache x) before c →
        c.timer < maxTime → ∀ addr, (findLine c addr).1 = false →
          (LruVictim c before (c.setIdx addr) (findLine c addr).2.1 ↔ FreeWayOldest c before (c.setIdx addr)) := by
  intro start events
  refine ⟨run_traces prefetchHint start inside x, fun before after c split run early addr missed => ?_⟩
  have initial : start.cache x = initCache (geometry x).1 (geometry x).2 := by
    cases x <;> rfl
  have demand : ∀ event ∈ before, event.demanded = true := by
    intro event member
    refine history_demanded start calls x event ?_
    change event ∈ events
    rw [split]
    exact List.mem_append_left _ member
  rw [initial] at run
  have stamped := run_stamped (initCache_stamped _ _) run demand
  have positive : 0 < c.w := by
    rw [(run_geometry run).2]
    exact ways x
  cases found : selectWay c addr with
  | mk hit way =>
      rw [findLine_of_select found] at missed ⊢
      cases missed
      exact lruVictim_iff positive stamped demand early found

/-- Hart 0 fills a set of its data cache, and hart 1 then writes the block filled last. -/
def newestDropped : List (Bool × CacheOp) :=
  (List.range 8).map (fun i => (false, .read (0x80000000 + i * 0x1000) 8)) ++
    [(false, .snoopInvalidate 0x80007000), (true, .write 0x80007000 8 1)]

def withFreeWay : Cache := ((init sizes fun _ => 0).run prefetchHint newestDropped).2.l1 false

private theorem withFreeWay_state : selectWay withFreeWay 0x80008000 = (false, 0) ∧ withFreeWay.timer < maxTime ∧
    withFreeWay.w = 8 ∧ (withFreeWay.line (withFreeWay.setIdx 0x80008000) 7).valid = false ∧
      (withFreeWay.line (withFreeWay.setIdx 0x80008000) 0).valid = true := by decide +kernel

/-- Way 7 is free and way 0 gives its block up. -/
theorem victim_not_lru :
    (findLine withFreeWay 0x80008000).1 = false ∧
      ¬LruVictim withFreeWay (history (some false) ((init sizes fun _ => 0).log prefetchHint newestDropped))
        (withFreeWay.setIdx 0x80008000) (findLine withFreeWay 0x80008000).2.1 := by
  obtain ⟨found, _, ways, free, taken⟩ := withFreeWay_state
  rw [findLine_of_select found]
  refine ⟨rfl, fun victim => ?_⟩
  unfold LruVictim at victim
  rw [if_pos ⟨7, by rw [ways]; decide, free⟩, taken] at victim
  exact absurd victim.2.symm Bool.false_ne_true

theorem victim_lru_iff_dropped :
    LruVictim withFreeWay (history (some false) ((init sizes fun _ => 0).log prefetchHint newestDropped))
        (withFreeWay.setIdx 0x80008000) (findLine withFreeWay 0x80008000).2.1 ↔
      FreeWayOldest withFreeWay (history (some false) ((init sizes fun _ => 0).log prefetchHint newestDropped))
        (withFreeWay.setIdx 0x80008000) := by
  have ways : ∀ x, 0 < (sizes x).2 := by
    intro x
    cases x <;> exact Nat.succ_pos _
  obtain ⟨run, victims⟩ := victim_lru_iff sizes ways (fun _ => 0) newestDropped (by decide +kernel) (some false)
  refine victims _ [] withFreeWay (List.append_nil _).symm run withFreeWay_state.2.1 _ ?_
  rw [findLine_of_select withFreeWay_state.1]

end CacheSystem

end Sustemu
