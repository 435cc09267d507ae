import Sustemu.Lib.Bytes

/-!
# Forwarding from pending writes

A queue of writes that have not reached memory yet, oldest first. A load that is
served by the last write containing it gets the right value as long as no later
write reaches into the load without containing it.
-/

set_option autoImplicit false

namespace Sustemu.Lib

/-- A write of `width` bytes that has not reached memory. -/
structure Write where
  addr : Nat
  width : Nat
  data : BitVec 64
deriving DecidableEq

/-- Memory once the pending writes are performed in order. -/
def applyWrites (mem : ByteMem) (writes : List Write) : ByteMem :=
  writes.foldl (fun mem w => storeLE mem w.addr w.width w.data) mem

section Load

variable (la lw : Nat) (signed : Bool)

/-- The value of the last write that contains the load, or else `out`. -/
def forward (writes : List Write) (out : BitVec 64) : BitVec 64 :=
  writes.foldl (fun (out : BitVec 64) (w : Write) =>
    if Covers w.addr w.width la lw then extend signed lw (w.data >>> (8 * (la - w.addr))) else out) out

/-- No write reaches into the load behind the last one that contains it; `start` says whether the value
without forwarding would do. -/
def forwardsExactly (writes : List Write) (start : Bool) : Bool :=
  writes.foldl (fun exact w =>
    if Covers w.addr w.width la lw then true else exact && decide (Apart w.addr w.width la lw)) start

theorem forward_append (older newer : List Write) (out : BitVec 64) :
    forward la lw signed (older ++ newer) out = forward la lw signed newer (forward la lw signed older out) :=
  List.foldl_append

variable {la lw}

/-- Forwarding gives what the load would read once every pending write is performed. -/
theorem forward_eq (ordinary : lw = 1 ∨ lw = 2 ∨ lw = 4 ∨ lw = 8) (writes : List Write) (mem : ByteMem)
    (out : BitVec 64) (start : Bool) (initial : start = true → out = extend signed lw (loadLE mem la lw))
    (exactly : forwardsExactly la lw writes start = true) :
    forward la lw signed writes out = extend signed lw (loadLE (applyWrites mem writes) la lw) := by
  induction writes generalizing mem out start with
  | nil => exact initial exactly
  | cons w rest ih =>
      simp only [forward, forwardsExactly, applyWrites, List.foldl_cons] at exactly ⊢
      refine ih _ _ _ ?_ exactly
      intro good
      by_cases covers : Covers w.addr w.width la lw
      · rw [if_pos covers]
        exact (extend_loadLE_storeLE_covers mem signed w.data covers ordinary).symm
      · rw [if_neg covers] at good ⊢
        obtain ⟨before, apart⟩ := Bool.and_eq_true_iff.mp good
        rw [loadLE_storeLE_disjoint mem w.data (of_decide_eq_true apart)]
        exact initial before

/-- Once some write serves the load, what was there before does not matter. -/
theorem forwardsExactly_start {writes : List Write} (served : forwardsExactly la lw writes false = true) (start : Bool) :
    forwardsExactly la lw writes start = true := by
  induction writes generalizing start with
  | nil => cases served
  | cons w rest ih =>
      simp only [forwardsExactly, List.foldl_cons] at served ⊢
      by_cases covers : Covers w.addr w.width la lw
      · rw [if_pos covers] at served ⊢
        exact served
      · rw [if_neg covers, Bool.false_and] at served
        exact ih served _

theorem forward_start {writes : List Write} (served : forwardsExactly la lw writes false = true) (out out' : BitVec 64) :
    forward la lw signed writes out = forward la lw signed writes out' := by
  induction writes generalizing out out' with
  | nil => cases served
  | cons w rest ih =>
      simp only [forward, forwardsExactly, List.foldl_cons] at served ⊢
      by_cases covers : Covers w.addr w.width la lw
      · rw [if_pos covers, if_pos covers]
      · rw [if_neg covers, Bool.false_and] at served
        exact ih served _ _

/-- A write that leaves the queue does not change what serves the load. -/
theorem forward_tail {w : Write} {rest : List Write} (served : forwardsExactly la lw rest false = true) (out : BitVec 64) :
    forwardsExactly la lw (w :: rest) false = true ∧
      forward la lw signed (w :: rest) out = forward la lw signed rest out :=
  ⟨forwardsExactly_start served _, forward_start signed served _ _⟩

/-- Either some write serves the load, or all writes are elsewhere. -/
theorem served_or_apart {writes : List Write} (exactly : forwardsExactly la lw writes true = true) :
    forwardsExactly la lw writes false = true ∨ ∀ w ∈ writes, Apart w.addr w.width la lw := by
  induction writes with
  | nil => exact .inr nofun
  | cons w rest ih =>
      simp only [forwardsExactly, List.foldl_cons] at exactly ⊢
      by_cases covers : Covers w.addr w.width la lw
      · rw [if_pos covers] at exactly ⊢
        exact .inl exactly
      · rw [if_neg covers, Bool.true_and] at exactly
        rw [if_neg covers, Bool.false_and]
        by_cases apart : Apart w.addr w.width la lw
        · rw [decide_eq_true apart] at exactly
          rcases ih exactly with served | elsewhere
          · exact .inl served
          · refine .inr fun w' member => ?_
            rcases List.mem_cons.mp member with rfl | later
            · exact apart
            · exact elsewhere w' later
        · rw [decide_eq_false apart] at exactly
          exact .inl exactly

theorem forwardsExactly_of_all {writes : List Write} {start : Bool} (initial : start = true)
    (all : ∀ w ∈ writes, Covers w.addr w.width la lw ∨ Apart w.addr w.width la lw) :
    forwardsExactly la lw writes start = true := by
  induction writes generalizing start with
  | nil => exact initial
  | cons w rest ih =>
      simp only [forwardsExactly, List.foldl_cons]
      refine ih ?_ fun w' member => all w' (List.mem_cons_of_mem _ member)
      rcases all w List.mem_cons_self with covers | apart
      · rw [if_pos covers]
      · simp [apart, initial]

end Load

theorem applyWrites_append (mem : ByteMem) (older newer : List Write) :
    applyWrites mem (older ++ newer) = applyWrites (applyWrites mem older) newer := List.foldl_append

/-- Writes elsewhere do not change a load. -/
theorem loadLE_applyWrites {writes : List Write} {la lw : Nat} (mem : ByteMem)
    (apart : ∀ w ∈ writes, Apart w.addr w.width la lw) : loadLE (applyWrites mem writes) la lw = loadLE mem la lw := by
  induction writes generalizing mem with
  | nil => rfl
  | cons w rest ih =>
      rw [applyWrites, List.foldl_cons]
      have later := ih (storeLE mem w.addr w.width w.data) fun w' member => apart w' (List.mem_cons_of_mem _ member)
      rw [applyWrites] at later
      rw [later, loadLE_storeLE_disjoint mem w.data (apart w List.mem_cons_self)]

end Sustemu.Lib
