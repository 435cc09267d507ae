import Sustemu.Ooo.Invariant

/-!
# Renaming, committing and rolling back

The three operations that move physical registers between the free list, the
register maps and the reorder buffer keep the renaming invariant.
-/

set_option autoImplicit false

namespace Sustemu

open Lib

/-- Two entries that agree on everything renaming looks at. -/
structure ROBEntry.SameRename (entry entry' : ROBEntry) : Prop where
  valid : entry'.valid = entry.valid
  archRd : entry'.archRd = entry.archRd
  physRd : entry'.physRd = entry.physRd
  oldPhys : entry'.oldPhys = entry.oldPhys
  ratAfter : entry'.ratAfter = entry.ratAfter

theorem ROBEntry.SameRename.refl (entry : ROBEntry) : entry.SameRename entry := ⟨rfl, rfl, rfl, rfl, rfl⟩

theorem ROBEntry.SameRename.dest {entry entry' : ROBEntry} (same : entry.SameRename entry') : entry'.dest = entry.dest := by
  unfold ROBEntry.dest
  rw [same.archRd]

theorem ROBEntry.SameRename.pending {entry entry' : ROBEntry} (same : entry.SameRename entry') :
    entry'.pending = entry.pending := by
  unfold ROBEntry.pending
  rw [same.dest, same.physRd, same.oldPhys]

namespace OOOState

variable {o o' : OOOState}

/-- The invariant looks at no other field. -/
theorem Renamed.congr (renamed : o.Renamed) (head : o'.robHead = o.robHead) (tail : o'.robTail = o.robTail)
    (count : o'.robCount = o.robCount) (rat : o'.rat = o.rat) (rrat : o'.rrat = o.rrat)
    (freelist : o'.freelist = o.freelist) (entries : ∀ i, (o.rob i).SameRename (o'.rob i)) : o'.Renamed := by
  have maps : ∀ n, o'.mapAt n = o.mapAt n := fun n => mapAt_congr rrat head fun i _ => (entries i).pending
  have positions : ∀ i, o'.pos i = o.pos i := fun i => by rw [pos, head]; rfl
  have regs : o'.inFlight = o.inFlight := by
    unfold inFlight live
    rw [head, count]
    apply List.filterMap_congr
    intro i _
    rw [(entries i).pending]
  constructor
  · rw [count]
    exact renamed.bounded
  · rw [tail, head, count]
    exact renamed.tail
  · intro i
    rw [(entries i).valid, positions, count]
    exact renamed.valid i
  · intro i valid
    rw [(entries i).valid] at valid
    rw [(entries i).pending, (entries i).dest, (entries i).physRd]
    exact renamed.shape i valid
  · intro i r valid pending
    rw [(entries i).valid] at valid
    rw [(entries i).pending] at pending
    rw [maps, positions]
    exact renamed.previous i r valid pending
  · intro i valid
    rw [(entries i).valid] at valid
    rw [(entries i).ratAfter, maps, positions]
    exact renamed.after i valid
  · rw [rat, maps, count]
    exact renamed.rat
  · rw [freelist]
    exact renamed.freeTail
  · have free : o'.freeRegs = o.freeRegs := by
      unfold freeRegs
      rw [freelist]
    rw [free, rrat, regs]
    exact renamed.conserved
  · rw [rrat]
    exact renamed.zero

/-! ## The free list -/

theorem freeRegs_push (tail : o.freelist.tail = o.freelist.head + Fin.ofNat 64 o.freelist.count)
    (room : o.freelist.count < 64) (p : PReg) :
    (o.freelistPush p).freeRegs = o.freeRegs ++ [p] ∧
      (o.freelistPush p).freelist.tail =
        (o.freelistPush p).freelist.head + Fin.ofNat 64 (o.freelistPush p).freelist.count := by
  constructor
  · unfold freeRegs freelistPush
    simp only
    rw [window_succ_last, List.map_append, tail]
    rw [map_update_window_of_not_mem _ _ _ _ (last_not_mem_window _ (by omega))]
    simp
  · simp only [freelistPush, tail]
    exact add_ofNat_succ ..

theorem freeRegs_pop (tail : o.freelist.tail = o.freelist.head + Fin.ofNat 64 o.freelist.count)
    (some : o.freelist.count ≠ 0) :
    o.freeRegs = o.freelistPop.1 :: o.freelistPop.2.freeRegs ∧
      o.freelistPop.2.freelist.tail =
        o.freelistPop.2.freelist.head + Fin.ofNat 64 o.freelistPop.2.freelist.count := by
  obtain ⟨n, count⟩ := Nat.exists_eq_succ_of_ne_zero some
  constructor
  · unfold freeRegs freelistPop
    simp only [count, Nat.succ_eq_add_one, Nat.add_sub_cancel]
    rw [window_succ, List.map_cons]
  · simp only [freelistPop, tail, count, Nat.succ_eq_add_one, Nat.add_sub_cancel]
    exact (succ_add_ofNat ..).symm

/-! ## Rename -/

/-- Names in use after a push or before a pop, counted. -/
theorem Renamed.freelist_count (renamed : o.Renamed) : o.freelist.count + 32 + o.inFlight.length = 64 := by
  have total := renamed.conserved.length_eq
  simp only [freeRegs, List.length_append, List.length_map, length_window, List.length_finRange] at total
  omega

private theorem pos_tail (renamed : o.Renamed) (room : o.robCount < 32) : o.pos o.robTail = o.robCount := by
  rw [renamed.tail, pos, age_add _ room]

/-- A new youngest entry, with the map after it and the names it takes from the free list. -/
theorem Renamed.push (renamed : o.Renamed) (room : o.robCount < 32) {entry : ROBEntry} (valid : entry.valid = true)
    (rob : o'.rob = setAt o.rob o.robTail entry) (head : o'.robHead = o.robHead)
    (tail : o'.robTail = o.robTail + 1) (count : o'.robCount = o.robCount + 1) (rrat : o'.rrat = o.rrat)
    (rat : o'.rat = applyRename o.rat entry.pending) (after : entry.ratAfter = o'.rat)
    (shape : entry.pending.isSome = entry.dest.isSome ∧
      (entry.dest = none → entry.physRd = none ∨ entry.physRd = some 0))
    (previous : ∀ r, entry.pending = some r → r.previous = o.rat r.target)
    (freeTail : o'.freelist.tail = o'.freelist.head + Fin.ofNat 64 o'.freelist.count)
    (free : (o'.freeRegs ++ (entry.pending.map Rename.fresh).toList).Perm o.freeRegs) : o'.Renamed := by
  have tailPos := pos_tail renamed room
  have positions : ∀ i, o'.pos i = o.pos i := fun i => by rw [pos, head]; rfl
  -- The new slot lies outside every window of live entries.
  have outside : ∀ n, n ≤ o.robCount → o.robTail ∉ window o.robHead n := by
    intro n small member
    have older := (mem_window_iff (by omega)).mp member
    unfold pos at tailPos
    omega
  have other : ∀ i, i ≠ o.robTail → o'.rob i = o.rob i := fun i different => by
    rw [rob, setAt_of_ne different]
  have new : o'.rob o.robTail = entry := by rw [rob, setAt_self]
  have maps : ∀ n, n ≤ o.robCount → o'.mapAt n = o.mapAt n := by
    intro n small
    apply mapAt_congr rrat head
    intro i member
    rw [other i]
    rintro rfl
    exact outside n small member
  have mapLast : o'.mapAt (o.robCount + 1) = o'.rat := by
    rw [mapAt_succ, maps _ (Nat.le_refl _), head, ← renamed.tail, new, rat, ← renamed.rat]
  have oldValid : ∀ i, i ≠ o.robTail → ((o.rob i).valid = true ↔ o.pos i < o.robCount + 1) := by
    intro i different
    rw [renamed.valid]
    constructor
    · omega
    · intro within
      have notLast : o.pos i ≠ o.robCount := fun same => different (age_injective (same.trans tailPos.symm))
      omega
  have regs : o'.inFlight = o.inFlight ++ (entry.pending.map Rename.fresh).toList := by
    unfold inFlight live
    rw [head, count, window_succ_last, List.filterMap_append, ← renamed.tail]
    congr 1
    · apply List.filterMap_congr
      intro i member
      rw [other i]
      rintro rfl
      exact outside _ (Nat.le_refl _) member
    · simp only [List.filterMap_cons, List.filterMap_nil, new]
      cases entry.pending with
      | none => rfl
      | some r => rfl
  constructor
  · omega
  · rw [tail, head, count, renamed.tail]
    exact add_ofNat_succ ..
  · intro i
    rw [positions, count]
    by_cases same : i = o.robTail
    · rw [same, new, tailPos]
      simp [valid]
    · rw [other i same]
      exact oldValid i same
  · intro i
    by_cases same : i = o.robTail
    · rw [same, new]
      exact fun _ => shape
    · rw [other i same]
      exact renamed.shape i
  · intro i r
    rw [positions]
    by_cases same : i = o.robTail
    · rw [same, new, tailPos, maps _ (Nat.le_refl _), ← renamed.rat]
      exact fun _ => previous r
    · rw [other i same]
      intro validI
      rw [maps _ (Nat.le_of_lt ((renamed.valid i).mp validI))]
      exact renamed.previous i r validI
  · intro i
    rw [positions]
    by_cases same : i = o.robTail
    · rw [same, new, tailPos, mapLast]
      exact fun _ => after
    · rw [other i same]
      intro validI
      rw [maps _ ((renamed.valid i).mp validI)]
      exact renamed.after i validI
  · rw [count, mapLast]
  · exact freeTail
  · rw [rrat, regs]
    refine List.Perm.trans ?_ renamed.conserved
    have moved : (o'.freeRegs ++ ((List.finRange 32).map o.rrat ++
        (o.inFlight ++ (entry.pending.map Rename.fresh).toList))).Perm
        (o'.freeRegs ++ ((entry.pending.map Rename.fresh).toList ++ ((List.finRange 32).map o.rrat ++ o.inFlight))) := by
      rw [← List.append_assoc ((List.finRange 32).map o.rrat)]
      exact List.perm_append_comm.append_left _
    refine moved.trans ?_
    rw [← List.append_assoc]
    exact free.append_right _
  · rw [rrat]
    exact renamed.zero

/-! ## Roll back -/

/-- The map with the rename of an entry undone. -/
def undoRename (map : Reg → PReg) : Option (Rename Reg PReg) → Reg → PReg
  | none => map
  | some r => setAt map r.target r.previous

/-- The youngest entry is discarded and its name returned. -/
theorem Renamed.dropYoungest (renamed : o.Renamed) {n : Nat} (count : o.robCount = n + 1) {entry : ROBEntry}
    (invalid : entry.valid = false) (rob : o'.rob = setAt o.rob (o.robTail - 1) entry)
    (head : o'.robHead = o.robHead) (tail : o'.robTail = o.robTail - 1) (count' : o'.robCount = n)
    (rrat : o'.rrat = o.rrat) (rat : o'.rat = undoRename o.rat (o.rob (o.robTail - 1)).pending)
    (freeTail : o'.freelist.tail = o'.freelist.head + Fin.ofNat 64 o'.freelist.count)
    (free : o'.freeRegs = o.freeRegs ++ ((o.rob (o.robTail - 1)).pending.map Rename.fresh).toList) : o'.Renamed := by
  have bounded := renamed.bounded
  have youngest : o.robTail - 1 = o.robHead + Fin.ofNat 32 n := by
    rw [renamed.tail, count, ← add_ofNat_succ, add_sub_cancel_right]
  have lastPos : o.pos (o.robTail - 1) = n := by
    rw [youngest, pos, age_add _ (by omega)]
  have positions : ∀ i, o'.pos i = o.pos i := fun i => by rw [pos, head]; rfl
  have outside : ∀ m, m ≤ n → o.robTail - 1 ∉ window o.robHead m := by
    intro m small member
    have older := (mem_window_iff (by omega)).mp member
    unfold pos at lastPos
    omega
  have other : ∀ i, i ≠ o.robTail - 1 → o'.rob i = o.rob i := fun i different => by
    rw [rob, setAt_of_ne different]
  have gone : (o'.rob (o.robTail - 1)).valid = false := by rw [rob, setAt_self, invalid]
  have maps : ∀ m, m ≤ n → o'.mapAt m = o.mapAt m := by
    intro m small
    apply mapAt_congr rrat head
    intro i member
    rw [other i]
    rintro rfl
    exact outside m small member
  have valid : ∀ i, (o'.rob i).valid = true → i ≠ o.robTail - 1 ∧ (o.rob i).valid = true ∧ o.pos i < n := by
    intro i validI
    have different : i ≠ o.robTail - 1 := by
      rintro rfl
      rw [gone] at validI
      cases validI
    rw [other i different] at validI
    have within := (renamed.valid i).mp validI
    have notLast : o.pos i ≠ n := fun same => different (age_injective (same.trans lastPos.symm))
    exact ⟨different, validI, by omega⟩
  have regs : o.inFlight = o'.inFlight ++ ((o.rob (o.robTail - 1)).pending.map Rename.fresh).toList := by
    unfold inFlight live
    rw [head, count', count, window_succ_last, List.filterMap_append, ← youngest]
    congr 1
    apply List.filterMap_congr
    intro i member
    rw [other i]
    rintro rfl
    exact outside _ (Nat.le_refl _) member
  constructor
  · omega
  · rw [tail, youngest, head, count']
  · intro i
    rw [positions, count']
    constructor
    · exact fun validI => (valid i validI).2.2
    · intro within
      have different : i ≠ o.robTail - 1 := by
        rintro rfl
        omega
      rw [other i different, renamed.valid]
      omega
  · intro i validI
    obtain ⟨different, validBefore, _⟩ := valid i validI
    rw [other i different]
    exact renamed.shape i validBefore
  · intro i r validI
    obtain ⟨different, validBefore, older⟩ := valid i validI
    rw [other i different, positions, maps _ (Nat.le_of_lt older)]
    exact renamed.previous i r validBefore
  · intro i validI
    obtain ⟨different, validBefore, older⟩ := valid i validI
    rw [other i different, positions, maps _ older]
    exact renamed.after i validBefore
  · rw [count', maps _ (Nat.le_refl _), rat, renamed.rat, count, mapAt_succ, ← youngest]
    have validLast : (o.rob (o.robTail - 1)).valid = true := by
      rw [renamed.valid, lastPos]
      omega
    cases pending : (o.rob (o.robTail - 1)).pending with
    | none => rfl
    | some r =>
        have before := renamed.previous _ r validLast pending
        rw [lastPos] at before
        exact update_applyRename_previous before
  · exact freeTail
  · rw [rrat, free]
    have conserved := renamed.conserved
    rw [regs] at conserved
    refine List.Perm.trans ?_ conserved
    rw [List.append_assoc]
    refine List.Perm.append_left _ ?_
    rw [← List.append_assoc ((List.finRange 32).map o.rrat)]
    exact List.perm_append_comm
  · rw [rrat]
    exact renamed.zero

/-! ## Commit -/

/-- Positions and maps once the oldest entry is committed. -/
theorem mapAt_dropOldest (bounded : o.robCount ≤ 32) {entry : ROBEntry}
    (rob : o'.rob = setAt o.rob o.robHead entry) (head : o'.robHead = o.robHead + 1)
    (rrat : o'.rrat = applyRename o.rrat (o.rob o.robHead).pending) {m : Nat} (small : m < o.robCount) :
    o'.mapAt m = o.mapAt (m + 1) := by
  unfold mapAt
  rw [rrat, head, window_succ, List.map_cons, replay_cons]
  congr 1
  apply List.map_congr_left
  intro i member
  rw [rob, setAt_of_ne]
  rintro rfl
  exact head_not_mem_window_tail o.robHead (by omega) member

/-- The oldest entry becomes committed and the name it replaced is freed. -/
theorem Renamed.dropOldest (renamed : o.Renamed) {n : Nat} (count : o.robCount = n + 1) {entry : ROBEntry}
    (invalid : entry.valid = false) (rob : o'.rob = setAt o.rob o.robHead entry)
    (head : o'.robHead = o.robHead + 1) (tail : o'.robTail = o.robTail) (count' : o'.robCount = n)
    (rrat : o'.rrat = applyRename o.rrat (o.rob o.robHead).pending) (rat : o'.rat = o.rat)
    (freeTail : o'.freelist.tail = o'.freelist.head + Fin.ofNat 64 o'.freelist.count)
    (free : o'.freeRegs = o.freeRegs ++ ((o.rob o.robHead).pending.map Rename.previous).toList) : o'.Renamed := by
  have bounded := renamed.bounded
  have other : ∀ i, i ≠ o.robHead → o'.rob i = o.rob i := fun i different => by
    rw [rob, setAt_of_ne different]
  have gone : (o'.rob o.robHead).valid = false := by rw [rob, setAt_self, invalid]
  have positions : ∀ i, i ≠ o.robHead → o.pos i = o'.pos i + 1 := by
    intro i different
    unfold pos
    rw [head]
    exact age_succ_head different
  have headOutside : ∀ m, m ≤ n → o.robHead ∉ window (o.robHead + 1) m := fun m small =>
    head_not_mem_window_tail o.robHead (by omega)
  have maps : ∀ m, m ≤ n → o'.mapAt m = o.mapAt (m + 1) := fun m small =>
    mapAt_dropOldest bounded rob head rrat (by omega)
  have valid : ∀ i, (o'.rob i).valid = true → i ≠ o.robHead ∧ (o.rob i).valid = true ∧ o'.pos i < n := by
    intro i validI
    have different : i ≠ o.robHead := by
      rintro rfl
      rw [gone] at validI
      cases validI
    rw [other i different] at validI
    have within := (renamed.valid i).mp validI
    have shifted := positions i different
    exact ⟨different, validI, by omega⟩
  have regs : o.inFlight = ((o.rob o.robHead).pending.map Rename.fresh).toList ++ o'.inFlight := by
    unfold inFlight live
    rw [head, count', count, window_succ]
    have rest : (window (o.robHead + 1) n).filterMap (fun i => (o'.rob i).pending.map Rename.fresh) =
        (window (o.robHead + 1) n).filterMap fun i => (o.rob i).pending.map Rename.fresh := by
      apply List.filterMap_congr
      intro i member
      rw [other i]
      rintro rfl
      exact headOutside n (Nat.le_refl _) member
    rw [rest]
    cases pending : (o.rob o.robHead).pending with
    | none => simp [pending]
    | some r => simp [pending]
  have headValid := renamed.head_valid (by omega)
  constructor
  · omega
  · rw [tail, head, count', renamed.tail, count]
    exact (succ_add_ofNat ..).symm
  · intro i
    rw [count']
    constructor
    · exact fun validI => (valid i validI).2.2
    · intro within
      have different : i ≠ o.robHead := by
        rintro rfl
        -- The old head is now the farthest slot.
        have last : o'.pos o.robHead = 31 := by
          unfold pos age
          rw [head]
          simp
        omega
      rw [other i different, renamed.valid, positions i different]
      omega
  · intro i validI
    obtain ⟨different, validBefore, _⟩ := valid i validI
    rw [other i different]
    exact renamed.shape i validBefore
  · intro i r validI
    obtain ⟨different, validBefore, older⟩ := valid i validI
    rw [other i different, maps _ (Nat.le_of_lt older), ← positions i different]
    exact renamed.previous i r validBefore
  · intro i validI
    obtain ⟨different, validBefore, older⟩ := valid i validI
    rw [other i different, maps (o'.pos i + 1) older, ← positions i different]
    exact renamed.after i validBefore
  · rw [count', maps _ (Nat.le_refl _), rat, renamed.rat, count]
  · exact freeTail
  · have conserved := renamed.conserved
    rw [regs] at conserved
    rw [free, rrat]
    refine List.Perm.trans ?_ conserved
    cases pending : (o.rob o.robHead).pending with
    | none => simp [applyRename]
    | some r =>
        have before := renamed.previous _ r headValid pending
        rw [pos, age_self, mapAt_zero] at before
        have exchanged := cons_map_update_perm o.rrat (List.nodup_finRange 32) (List.mem_finRange r.target) r.fresh
        rw [← before] at exchanged
        simp only [Option.map_some, Option.toList_some, List.append_assoc, applyRename]
        refine List.Perm.append_left _ ?_
        rw [← List.append_assoc, List.singleton_append]
        refine (exchanged.append_right _).trans ?_
        rw [List.cons_append, List.singleton_append]
        exact List.perm_middle.symm
  · rw [rrat]
    cases pending : (o.rob o.robHead).pending with
    | none => exact renamed.zero
    | some r =>
        rw [applyRename, setAt_of_ne (target_ne_zero pending).symm]
        exact renamed.zero

end OOOState

end Sustemu
