import Mathlib.Algebra.Group.Nat.Defs
import Mathlib.Data.List.Basic

/-!
# `malloc` and `free`

The bump allocator of `klib/src/stdlib.c`. `last` is the block of the last call:
its size is added to the pointer only by the next call, and `free` of the last
block sets it to zero. A client frees blocks that it has not freed yet, or
`NULL`.
-/

set_option autoImplicit false

namespace Sustemu.Runtime

/-! ## The functions -/

abbrev Ptr := BitVec 64

/-- `heap`: a range of memory, or `RANGE(NULL, NULL)`. -/
structure Area where
  start : Ptr
  finish : Ptr
  range : start = 0 → finish = 0

structure Last where
  ptr : Ptr
  size : BitVec 64
  deriving DecidableEq, Repr

/-- `ROUNDUP(size, sizeof(uintptr_t))`. -/
def roundup (size : BitVec 64) : BitVec 64 := (size + 8 - 1) &&& ~~~(8 - 1)

/-- What `malloc` returns, where the bump pointer is afterwards, and the address that it prints. -/
structure Malloced where
  ret : Ptr
  last : Last
  printed : Option Ptr

def malloc (heap : Area) (last : Last) (size : BitVec 64) : Malloced :=
  let (last, printed) := if last.ptr = 0 then ({ last with ptr := heap.start }, some heap.start) else (last, none)
  let size := roundup size
  let last := { last with ptr := last.ptr + last.size }
  if last.ptr + size ≥ heap.finish then ⟨0, last, printed⟩ else ⟨last.ptr, { last with size := size }, printed⟩

def free (last : Last) (ptr : Ptr) : Last := if ptr = last.ptr then { last with size := 0 } else last

/-! ## Clients -/

/-- A block that was returned, with the size that was asked for. -/
structure Block where
  addr : Ptr
  size : BitVec 64
  deriving DecidableEq, Repr

/-- The allocator and the blocks that are not freed, in the order of their calls. -/
structure Heap where
  last : Last
  live : List Block
  deriving DecidableEq, Repr

def Heap.init : Heap := ⟨⟨0, 0⟩, []⟩

inductive HeapCall where
  | malloc (size : BitVec 64)
  /-- The block at a position among those that are not freed. -/
  | free (k : Nat)
  | freeNull

/-- A call: the pointer it returns, if any, and the state after it. There is no call where there is no block to free. -/
def Heap.call (heap : Area) (s : Heap) : HeapCall → Option Ptr × Heap
  | .malloc size =>
      let result := Runtime.malloc heap s.last size
      (some result.ret,
        ⟨result.last, if result.ret = 0 then s.live else s.live ++ [⟨result.ret, size⟩]⟩)
  | .free k =>
      match s.live[k]? with
      | some block => (none, ⟨Runtime.free s.last block.addr, s.live.eraseIdx k⟩)
      | none => (none, s)
  | .freeNull => (none, { s with last := Runtime.free s.last 0 })

/-- The state after a sequence of calls. -/
def Heap.run (heap : Area) (s : Heap) (calls : List HeapCall) : Heap :=
  calls.foldl (fun s c => (s.call heap c).2) s

/-- The pointers that a sequence of calls returns. -/
def Heap.results (heap : Area) : Heap → List HeapCall → List (Option Ptr)
  | _, [] => []
  | s, c :: calls => (s.call heap c).1 :: Heap.results heap (s.call heap c).2 calls

/-! ## The contract -/

/-- The address lies in the block. -/
def Block.Contains (b : Block) (address : Nat) : Prop := b.addr.toNat ≤ address ∧ address < b.addr.toNat + b.size.toNat

/-- The blocks that are not freed are disjoint, aligned and inside the heap. -/
structure Heap.Safe (heap : Area) (s : Heap) : Prop where
  disjoint : s.live.Pairwise fun a b => ∀ address, ¬ (a.Contains address ∧ b.Contains address)
  aligned : ∀ b ∈ s.live, 8 ∣ b.addr.toNat - heap.start.toNat
  inside : ∀ b ∈ s.live, heap.start.toNat ≤ b.addr.toNat ∧ b.addr.toNat + b.size.toNat ≤ heap.finish.toNat

/-- The call of `malloc` returns `NULL`. -/
def Heap.Fails (heap : Area) (s : Heap) (size : BitVec 64) : Prop := (s.call heap (.malloc size)).1 = some 0

/-- Every later sequence of calls returns what it returns without the call. -/
def Heap.Atomic (heap : Area) (s : Heap) (size : BitVec 64) : Prop :=
  ∀ later, Heap.results heap (s.call heap (.malloc size)).2 later = Heap.results heap s later

/-! ## The condition -/

/-- Where the last block starts, before the next call. -/
def Heap.base (heap : Area) (s : Heap) : Ptr := if s.last.ptr = 0 then heap.start else s.last.ptr

/-- The next multiple of eight. -/
def rounded (size : BitVec 64) : Nat := (size.toNat + 7) / 8 * 8

/-- The sums of `malloc` stay below the end of the address space. -/
def Heap.Fits (heap : Area) (s : Heap) (size : BitVec 64) : Prop :=
  size.toNat + 7 < 2 ^ 64 ∧ (s.base heap).toNat + s.last.size.toNat + rounded size < 2 ^ 64

/-- The block does not fit below the end of the heap. -/
def Heap.Full (heap : Area) (s : Heap) (size : BitVec 64) : Prop :=
  heap.finish.toNat ≤ (s.base heap).toNat + s.last.size.toNat + rounded size

/-- No sum wraps, a block that does not fit is asked for only where the last block is empty, and an empty block is
not freed at the address of a last block that is not empty. -/
def Heap.Proper (heap : Area) (s : Heap) : HeapCall → Prop
  | .malloc size => s.Fits heap size ∧ (s.Full heap size → s.last.size = 0)
  | .free k => ∀ b ∈ s.live[k]?, b.size = 0 → b.addr = s.last.ptr → s.last.size = 0
  | .freeNull => True

/-- Every call of the sequence meets the condition. -/
def Heap.AllProper (heap : Area) : Heap → List HeapCall → Prop
  | _, [] => True
  | s, c :: calls => s.Proper heap c ∧ Heap.AllProper heap (s.call heap c).2 calls

instance (heap : Area) (s : Heap) (size : BitVec 64) : Decidable (s.Fits heap size) :=
  inferInstanceAs (Decidable (_ ∧ _))

instance (heap : Area) (s : Heap) (size : BitVec 64) : Decidable (s.Full heap size) :=
  inferInstanceAs (Decidable (_ ≤ _))

instance (heap : Area) (s : Heap) : (c : HeapCall) → Decidable (s.Proper heap c)
  | .malloc size => inferInstanceAs (Decidable (s.Fits heap size ∧ (s.Full heap size → s.last.size = 0)))
  | .free k => inferInstanceAs (Decidable (∀ b ∈ s.live[k]?, b.size = 0 → b.addr = s.last.ptr → s.last.size = 0))
  | .freeNull => inferInstanceAs (Decidable True)

instance Heap.decidableAllProper (heap : Area) : (s : Heap) → (calls : List HeapCall) → Decidable (s.AllProper heap calls)
  | _, [] => inferInstanceAs (Decidable True)
  | s, c :: calls =>
      have := Heap.decidableAllProper heap (s.call heap c).2 calls
      inferInstanceAs (Decidable (s.Proper heap c ∧ Heap.AllProper heap (s.call heap c).2 calls))

/-! ## One call -/

theorem and_not_seven (x : BitVec 64) : (x &&& ~~~(8 - 1 : BitVec 64)).toNat = x.toNat / 8 * 8 := by
  have shifted : x &&& ~~~(8 - 1 : BitVec 64) = (x >>> 3) <<< 3 := by
    refine BitVec.eq_of_getLsbD_eq fun i inside => ?_
    have seven : (8 - 1 : BitVec 64).getLsbD i = decide (i < 3) := by
      rw [show (8 - 1 : BitVec 64) = BitVec.ofNat 64 (2 ^ 3 - 1) from rfl, BitVec.getLsbD_ofNat,
        Nat.testBit_two_pow_sub_one, decide_eq_true inside, Bool.true_and]
    rw [BitVec.getLsbD_and, BitVec.getLsbD_not, seven, BitVec.getLsbD_shiftLeft, BitVec.getLsbD_ushiftRight]
    by_cases low : i < 3
    · simp [low]
    · simp [low, inside, show 3 + (i - 3) = i by omega]
  rw [shifted, BitVec.toNat_shiftLeft, BitVec.toNat_ushiftRight, Nat.shiftLeft_eq, Nat.shiftRight_eq_div_pow]
  have bound := x.isLt
  omega

theorem roundup_toNat {size : BitVec 64} (fits : size.toNat + 7 < 2 ^ 64) : (roundup size).toNat = rounded size := by
  have sum : (size + 8 - 1).toNat = size.toNat + 7 := by
    rw [BitVec.toNat_sub, BitVec.toNat_add]
    simp
    omega
  unfold roundup rounded
  rw [and_not_seven, sum]

variable {heap : Area} {s : Heap}

theorem Heap.base_of_ptr (placed : s.last.ptr ≠ 0) : s.base heap = s.last.ptr := if_neg placed

theorem Heap.base_of_fresh (fresh : s.last.ptr = 0) : s.base heap = heap.start := if_pos fresh

theorem Heap.start_of_base (zero : s.base heap = 0) : heap.start = 0 := by
  by_cases fresh : s.last.ptr = 0
  · exact (base_of_fresh fresh).symm.trans zero
  · exact absurd ((base_of_ptr fresh).symm.trans zero) fresh

/-- Where the next block would start. -/
def Heap.next (heap : Area) (s : Heap) : Ptr := s.base heap + s.last.size

theorem Heap.next_toNat {size : BitVec 64} (fits : s.Fits heap size) :
    (s.next heap).toNat = (s.base heap).toNat + s.last.size.toNat := by
  have bound := fits.2
  unfold next
  rw [BitVec.toNat_add, Nat.mod_eq_of_lt (by omega)]

/-- `malloc` without its output. -/
theorem Heap.malloc_eq (heap : Area) (s : Heap) (size : BitVec 64) :
    (malloc heap s.last size).ret = (if s.next heap + roundup size ≥ heap.finish then 0 else s.next heap) ∧
      (malloc heap s.last size).last =
        ⟨s.next heap, if s.next heap + roundup size ≥ heap.finish then s.last.size else roundup size⟩ := by
  unfold malloc next base
  by_cases fresh : s.last.ptr = 0
  · simp only [if_pos fresh]
    split <;> exact ⟨rfl, rfl⟩
  · simp only [if_neg fresh]
    split <;> exact ⟨rfl, rfl⟩

/-- What fits below the end wraps nowhere. -/
theorem Heap.fits_of_room {size : BitVec 64} (room : ¬ s.Full heap size) : s.Fits heap size := by
  have bound := heap.finish.isLt
  unfold Full rounded at room
  unfold Fits rounded
  omega

theorem Heap.full_iff {size : BitVec 64} (fits : s.Fits heap size) :
    s.next heap + roundup size ≥ heap.finish ↔ s.Full heap size := by
  have bound := fits.2
  have sum : (s.next heap + roundup size).toNat = (s.base heap).toNat + s.last.size.toNat + rounded size := by
    rw [BitVec.toNat_add, next_toNat fits, roundup_toNat fits.1, Nat.mod_eq_of_lt bound]
  unfold Full
  rw [ge_iff_le, BitVec.le_def, sum]

theorem Heap.call_full {size : BitVec 64} (fits : s.Fits heap size) (full : s.Full heap size) :
    s.call heap (.malloc size) = (some 0, ⟨⟨s.next heap, s.last.size⟩, s.live⟩) := by
  have reached := (full_iff fits).mpr full
  obtain ⟨ret, last⟩ := malloc_eq heap s size
  rw [if_pos reached] at ret last
  unfold call
  simp only [ret, last, if_true]

/-- The heap has an end, so that a returned block is not at `NULL`. -/
theorem Heap.next_ne_zero {size : BitVec 64} (fits : s.Fits heap size) (room : ¬ s.Full heap size) :
    s.next heap ≠ 0 := by
  intro zero
  have sum := next_toNat fits
  rw [zero] at sum
  have base : s.base heap = 0 := BitVec.eq_of_toNat_eq (by simp at sum ⊢; omega)
  unfold Full at room
  rw [heap.range (start_of_base base)] at room
  exact room (Nat.zero_le _)

theorem Heap.call_room {size : BitVec 64} (fits : s.Fits heap size) (room : ¬ s.Full heap size) :
    s.call heap (.malloc size) =
      (some (s.next heap), ⟨⟨s.next heap, roundup size⟩, s.live ++ [⟨s.next heap, size⟩]⟩) := by
  have below := mt (full_iff fits).mp room
  obtain ⟨ret, last⟩ := malloc_eq heap s size
  rw [if_neg below] at ret last
  unfold call
  simp only [ret, last, if_neg (next_ne_zero fits room)]

theorem Heap.fails_iff {size : BitVec 64} (fits : s.Fits heap size) : s.Fails heap size ↔ s.Full heap size := by
  unfold Fails
  by_cases full : s.Full heap size
  · rw [call_full fits full]
    exact iff_of_true rfl full
  · rw [call_room fits full]
    exact iff_of_false (fun same => next_ne_zero fits full (Option.some.inj same)) full

/-! ## The invariant -/

/-- A block lies inside the heap, and ends where the last block starts or is the last block. -/
structure Block.Placed (heap : Area) (s : Heap) (b : Block) : Prop where
  started : heap.start.toNat ≤ b.addr.toNat
  aligned : 8 ∣ b.addr.toNat - heap.start.toNat
  ended : b.addr.toNat + rounded b.size < heap.finish.toNat
  position : b.addr.toNat + rounded b.size ≤ (s.base heap).toNat ∨
    b.addr = s.last.ptr ∧ rounded b.size = s.last.size.toNat

/-- What the calls keep: the blocks lie in the order of their addresses, below the next block. -/
structure Heap.Inv (heap : Area) (s : Heap) : Prop where
  fresh : s.last.ptr = 0 → s.last.size = 0 ∧ s.live = []
  started : heap.start.toNat ≤ (s.base heap).toNat
  bounded : s.last.size ≠ 0 → (s.base heap).toNat + s.last.size.toNat < heap.finish.toNat
  aligned : 8 ∣ (s.base heap).toNat - heap.start.toNat
  sized : 8 ∣ s.last.size.toNat
  ordered : s.live.Pairwise fun a b => a.addr.toNat + rounded a.size ≤ b.addr.toNat
  placed : ∀ b ∈ s.live, b.Placed heap s

theorem Heap.inv_init : Heap.init.Inv heap where
  fresh _ := ⟨rfl, rfl⟩
  started := Nat.le_refl _
  bounded other := absurd rfl other
  aligned := by rw [base_of_fresh rfl, Nat.sub_self]; exact Nat.dvd_zero 8
  sized := Nat.dvd_zero 8
  ordered := .nil
  placed _ member := absurd member List.not_mem_nil

/-- Every block ends where the next block would start. -/
theorem Block.Placed.le_next {size : BitVec 64} {b : Block} (placed : b.Placed heap s) (fits : s.Fits heap size)
    (given : s.last.ptr ≠ 0) : b.addr.toNat + rounded b.size ≤ (s.next heap).toNat := by
  rw [Heap.next_toNat fits]
  obtain before | ⟨same, size⟩ := placed.position
  · omega
  · refine Nat.le_of_eq ?_
    rw [Heap.base_of_ptr given, same, size]

theorem Heap.Inv.ptr_ne_zero (inv : s.Inv heap) {b : Block} (member : b ∈ s.live) : s.last.ptr ≠ 0 := by
  intro zero
  rw [(inv.fresh zero).2] at member
  exact List.not_mem_nil member

theorem Heap.next_of_empty (empty : s.last.size = 0) : s.next heap = s.base heap := by
  unfold next
  rw [empty]
  exact BitVec.add_zero _

/-- A call that does not find room keeps the bump pointer where it is, if the last block is empty. -/
theorem Heap.base_full (heap : Area) (empty : s.last.size = 0) :
    Heap.base heap ⟨⟨s.next heap, s.last.size⟩, s.live⟩ = s.base heap := by
  have same : s.next heap = s.base heap := next_of_empty empty
  by_cases zero : s.base heap = 0
  · rw [base_of_fresh (same.trans zero), start_of_base zero, zero]
  · rw [base_of_ptr (by exact same ▸ zero)]
    exact same

theorem Heap.inv_full {size : BitVec 64} (inv : s.Inv heap) (fits : s.Fits heap size) (full : s.Full heap size)
    (empty : s.last.size = 0) : (s.call heap (.malloc size)).2.Inv heap := by
  rw [call_full fits full]
  have same := base_full heap empty
  have position : s.next heap = s.base heap := next_of_empty empty
  show Heap.Inv heap ⟨⟨s.next heap, s.last.size⟩, s.live⟩
  exact {
    fresh := fun zero => by
      have first : s.last.ptr = 0 := by
        by_contra given
        rw [show s.base heap = s.last.ptr from base_of_ptr given] at position
        exact given (position ▸ zero)
      exact ⟨empty, (inv.fresh first).2⟩
    started := by rw [same]; exact inv.started
    bounded := fun other => absurd empty other
    aligned := by rw [same]; exact inv.aligned
    sized := inv.sized
    ordered := inv.ordered
    placed := fun b member => by
      have old := inv.placed b member
      have given := inv.ptr_ne_zero member
      refine ⟨old.started, old.aligned, old.ended, ?_⟩
      rw [same]
      exact old.position.imp_right fun ⟨at_last, size⟩ =>
        ⟨at_last.trans (position.trans (base_of_ptr given)).symm, size⟩ }

theorem Heap.inv_room {size : BitVec 64} (inv : s.Inv heap) (room : ¬ s.Full heap size) :
    (s.call heap (.malloc size)).2.Inv heap := by
  have fits := fits_of_room room
  rw [call_room fits room]
  have sum := next_toNat fits
  have length := roundup_toNat fits.1
  have given : s.next heap ≠ 0 := next_ne_zero fits room
  have below : (s.next heap).toNat + rounded size < heap.finish.toNat := by
    unfold Full at room
    omega
  have base : Heap.base heap ⟨⟨s.next heap, roundup size⟩, s.live ++ [⟨s.next heap, size⟩]⟩ = s.next heap :=
    base_of_ptr given
  have started : heap.start.toNat ≤ (s.next heap).toNat := Nat.le_trans inv.started (by omega)
  have aligned : 8 ∣ (s.next heap).toNat - heap.start.toNat := by
    have lower := inv.started
    rw [sum, show (s.base heap).toNat + s.last.size.toNat - heap.start.toNat =
      (s.base heap).toNat - heap.start.toNat + s.last.size.toNat by omega]
    exact Nat.dvd_add inv.aligned inv.sized
  show Heap.Inv heap ⟨⟨s.next heap, roundup size⟩, s.live ++ [⟨s.next heap, size⟩]⟩
  exact {
    fresh := fun zero => absurd zero given
    started := by rw [base]; exact started
    bounded := fun _ => by rw [base]; exact length ▸ below
    aligned := by rw [base]; exact aligned
    sized := by rw [length]; exact Nat.dvd_mul_left 8 _
    ordered := by
      refine List.pairwise_append.mpr ⟨inv.ordered, List.pairwise_singleton _ _, fun a first b last => ?_⟩
      cases List.mem_singleton.mp last
      exact (inv.placed a first).le_next fits (inv.ptr_ne_zero first)
    placed := fun b member => by
      obtain old | new := List.mem_append.mp member
      · have placed := inv.placed b old
        refine ⟨placed.started, placed.aligned, placed.ended, .inl ?_⟩
        rw [base]
        exact placed.le_next fits (inv.ptr_ne_zero old)
      · cases List.mem_singleton.mp new
        exact ⟨started, aligned, below, .inr ⟨rfl, length.symm⟩⟩ }

theorem Heap.inv_erase (inv : s.Inv heap) (k : Nat) : Heap.Inv heap ⟨s.last, s.live.eraseIdx k⟩ where
  fresh zero := ⟨(inv.fresh zero).1, by simp [(inv.fresh zero).2]⟩
  started := inv.started
  bounded := inv.bounded
  aligned := inv.aligned
  sized := inv.sized
  ordered := inv.ordered.sublist (List.eraseIdx_sublist _ k)
  placed b member := by
    have old := inv.placed b (List.mem_of_mem_eraseIdx member)
    exact ⟨old.started, old.aligned, old.ended, old.position⟩

theorem Heap.inv_clear (inv : s.Inv heap)
    (clear : ∀ b ∈ s.live, b.addr = s.last.ptr → rounded b.size = s.last.size.toNat → s.last.size = 0) :
    Heap.Inv heap ⟨⟨s.last.ptr, 0⟩, s.live⟩ where
  fresh zero := ⟨rfl, (inv.fresh zero).2⟩
  started := inv.started
  bounded other := absurd rfl other
  aligned := inv.aligned
  sized := Nat.dvd_zero 8
  ordered := inv.ordered
  placed b member := by
    have old := inv.placed b member
    refine ⟨old.started, old.aligned, old.ended, old.position.imp_right fun ⟨same, size⟩ => ⟨same, ?_⟩⟩
    rw [size, clear b member same size]

theorem rounded_pos {size : BitVec 64} (other : size ≠ 0) : 0 < rounded size := by
  have positive : size.toNat ≠ 0 := fun zero => other (BitVec.eq_of_toNat_eq zero)
  unfold rounded
  omega

/-- Two blocks at one address cannot both have a size. -/
theorem Heap.Inv.apart (inv : s.Inv heap) {i j : Nat} (di : i < s.live.length) (dj : j < s.live.length)
    (other : i ≠ j) (same : s.live[i].addr = s.live[j].addr) :
    rounded s.live[i].size = 0 ∨ rounded s.live[j].size = 0 := by
  have pairs := List.pairwise_iff_getElem.mp inv.ordered
  obtain before | after := Nat.lt_or_gt_of_ne other
  · have order := pairs i j di dj before
    rw [same] at order
    exact .inl (by omega)
  · have order := pairs j i dj di after
    rw [same] at order
    exact .inr (by omega)

theorem Heap.inv_free (inv : s.Inv heap) {k : Nat} (proper : s.Proper heap (.free k)) :
    (s.call heap (.free k)).2.Inv heap := by
  have shorter := inv_erase inv k
  cases found : s.live[k]? with
  | none =>
      have unchanged : s.call heap (.free k) = (none, s) := by simp only [call, found]
      rw [unchanged]
      exact inv
  | some block =>
      have called : s.call heap (.free k) = (none, ⟨Runtime.free s.last block.addr, s.live.eraseIdx k⟩) := by
        simp only [call, found]
      rw [called]
      unfold Runtime.free
      by_cases same : block.addr = s.last.ptr
      · rw [if_pos same]
        refine inv_clear shorter fun c member at_last size => ?_
        obtain ⟨dk, rfl⟩ := List.getElem?_eq_some_iff.mp found
        obtain ⟨i, di, other, rfl⟩ := List.mem_eraseIdx_iff_getElem.mp member
        by_contra some_size
        have freed : s.live[k].size ≠ 0 := fun zero => some_size (proper _ found zero same)
        obtain zero | zero := inv.apart di dk other (at_last.trans same.symm)
        · exact some_size (BitVec.eq_of_toNat_eq (size.symm.trans zero))
        · exact absurd zero (Nat.ne_of_gt (rounded_pos freed))
      · rw [if_neg same]
        exact shorter

theorem Heap.inv_freeNull (inv : s.Inv heap) : (s.call heap .freeNull).2.Inv heap := by
  unfold call Runtime.free
  simp only
  split
  · next null =>
    exact inv_clear inv fun _ _ _ _ => (inv.fresh null.symm).1
  · exact inv

/-- What one call keeps. -/
theorem Heap.inv_call (inv : s.Inv heap) {c : HeapCall} (proper : s.Proper heap c) : (s.call heap c).2.Inv heap := by
  cases c with
  | malloc size =>
      by_cases full : s.Full heap size
      · exact inv_full inv proper.1 full (proper.2 full)
      · exact inv_room inv full
  | free k => exact inv_free inv proper
  | freeNull => exact inv_freeNull inv

/-- What a whole run keeps. -/
theorem Heap.inv_run {calls : List HeapCall} (inv : s.Inv heap) (proper : s.AllProper heap calls) :
    (s.run heap calls).Inv heap := by
  induction calls generalizing s with
  | nil => exact inv
  | cons c calls ih => exact ih (inv_call inv proper.1) proper.2

/-! ## From the invariant to the contract -/

theorem size_le_rounded (size : BitVec 64) : size.toNat ≤ rounded size := by
  unfold rounded
  omega

theorem Heap.Inv.safe (inv : s.Inv heap) : s.Safe heap where
  disjoint := inv.ordered.imp fun {a b} order address ⟨first, second⟩ => by
    have fits := size_le_rounded a.size
    unfold Block.Contains at first second
    omega
  aligned b member := (inv.placed b member).aligned
  inside b member := by
    have placed := inv.placed b member
    have fits := size_le_rounded b.size
    have ended := placed.ended
    exact ⟨placed.started, by omega⟩

/-- Before the first block the pointer may be `NULL` or the start of the heap: no call can tell. -/
theorem Heap.results_start (later : List HeapCall) :
    Heap.results heap ⟨⟨heap.start, 0⟩, []⟩ later = Heap.results heap ⟨⟨0, 0⟩, []⟩ later := by
  induction later with
  | nil => rfl
  | cons c later ih =>
      cases c with
      | malloc size =>
          have same : Heap.call heap ⟨⟨heap.start, 0⟩, []⟩ (.malloc size) = Heap.call heap ⟨⟨0, 0⟩, []⟩ (.malloc size) := by
            have next : Heap.next heap ⟨⟨heap.start, 0⟩, []⟩ = Heap.next heap ⟨⟨0, 0⟩, []⟩ := by
              unfold Heap.next base
              split <;> rfl
            obtain ⟨ret, last⟩ := malloc_eq heap ⟨⟨heap.start, 0⟩, []⟩ size
            obtain ⟨ret', last'⟩ := malloc_eq heap ⟨⟨0, 0⟩, []⟩ size
            unfold call
            simp only at ret ret' last last' ⊢
            rw [ret, ret', last, last', next]
          unfold results
          rw [same]
      | free k => exact congrArg _ ih
      | freeNull =>
          have cleared : Heap.call heap ⟨⟨heap.start, 0⟩, []⟩ .freeNull = (none, ⟨⟨heap.start, 0⟩, []⟩) := by
            simp only [call, Runtime.free, ite_self]
          unfold results
          rw [cleared]
          exact congrArg _ ih

/-- The failing call moves the bump pointer behind the last block, and every later call sees it unless the block is
empty. -/
theorem Heap.atomic_iff {size : BitVec 64} (inv : s.Inv heap) (fits : s.Fits heap size) (full : s.Full heap size) :
    s.Atomic heap size ↔ s.last.size = 0 := by
  unfold Atomic
  rw [call_full fits full]
  constructor
  · intro atomic
    by_contra given
    have room : ¬ s.Full heap 0 := Nat.not_le.mpr (inv.bounded given)
    have first := call_room (fits_of_room room) room
    have results := atomic [.malloc 0]
    unfold Heap.results at results
    rw [first] at results
    have same := Option.some.inj (List.cons.inj results).1
    have next : s.next heap ≠ 0 := next_ne_zero (fits_of_room room) room
    have moved : Heap.next heap ⟨⟨s.next heap, s.last.size⟩, s.live⟩ = s.next heap + s.last.size := by
      rw [Heap.next, base_of_ptr next]
    have second := (malloc_eq heap ⟨⟨s.next heap, s.last.size⟩, s.live⟩ 0).1
    simp only [second, moved] at same
    split at same
    · exact next same.symm
    · exact given (BitVec.add_right_eq_self.mp same)
  · intro empty later
    rw [next_of_empty empty]
    by_cases null : s.last.ptr = 0
    · obtain ⟨⟨ptr, length⟩, live⟩ := s
      obtain ⟨-, none⟩ := inv.fresh null
      simp only at null empty none
      subst null empty none
      exact results_start later
    · rw [base_of_ptr null]

theorem Heap.allProper_append {before after : List HeapCall} (proper : s.AllProper heap (before ++ after)) :
    s.AllProper heap before ∧ (s.run heap before).AllProper heap after := by
  induction before generalizing s with
  | nil => exact ⟨trivial, proper⟩
  | cons c before ih =>
      obtain ⟨first, rest⟩ := ih proper.2
      exact ⟨⟨proper.1, first⟩, rest⟩

/-- In every state of a run, the blocks are safe and a `malloc` that fails is atomic. -/
theorem allocator_contract (heap : Area) (calls : List HeapCall) (proper : Heap.init.AllProper heap calls)
    (before after : List HeapCall) (reached : calls = before ++ after) :
    (Heap.init.run heap before).Safe heap ∧
      ∀ size rest, after = .malloc size :: rest → (Heap.init.run heap before).Fails heap size →
        (Heap.init.run heap before).Atomic heap size := by
  subst reached
  obtain ⟨first, rest⟩ := Heap.allProper_append proper
  have inv := Heap.inv_run Heap.inv_init first
  refine ⟨inv.safe, fun size rest' malloc fails => ?_⟩
  subst malloc
  obtain ⟨fits, empty⟩ := rest.1
  have full := (Heap.fails_iff fits).mp fails
  exact (Heap.atomic_iff inv fits full).mpr (empty full)

/-- A heap of four words. -/
def fourWords : Area := ⟨0x1000, 0x1020, by decide⟩

/-- A block is freed before a `malloc` that fails. -/
theorem allocator_contract_freed :
    (Heap.init.run fourWords [.malloc 8, .malloc 5, .free 1]).Safe fourWords ∧
      ∀ size rest, [HeapCall.malloc 100] = .malloc size :: rest →
        (Heap.init.run fourWords [.malloc 8, .malloc 5, .free 1]).Fails fourWords size →
          (Heap.init.run fourWords [.malloc 8, .malloc 5, .free 1]).Atomic fourWords size :=
  allocator_contract fourWords [.malloc 8, .malloc 5, .free 1, .malloc 100]
    (by decide)
    [.malloc 8, .malloc 5, .free 1] [.malloc 100] rfl

/-- A `malloc` that fails behind a block in use makes the next one skip a word, a size near the end of the address
space is rounded to nothing, and freeing an empty block gives the block after it away. -/
theorem allocator_contract_broken :
    ¬ (Heap.init.run fourWords [.malloc 8]).Atomic fourWords 100 ∧
      ¬ (Heap.init.run fourWords [.malloc (BitVec.ofNat 64 (2 ^ 64 - 1))]).Safe fourWords ∧
      ¬ (Heap.init.run fourWords [.malloc 0, .malloc 8, .free 0, .malloc 8]).Safe fourWords := by
  refine ⟨fun atomic => ?_, fun safe => ?_, fun safe => ?_⟩
  · exact absurd (atomic [.malloc 8]) (by decide)
  · have outside := (safe.inside ⟨0x1000, BitVec.ofNat 64 (2 ^ 64 - 1)⟩ (by decide)).2
    exact absurd outside (by decide)
  · have blocks : (Heap.init.run fourWords [.malloc 0, .malloc 8, .free 0, .malloc 8]).live =
      [⟨0x1000, 8⟩, ⟨0x1000, 8⟩] := by decide
    have apart := safe.disjoint
    rw [blocks] at apart
    have first : Block.Contains ⟨0x1000, 8⟩ 0x1000 := ⟨by decide, by decide⟩
    exact List.rel_of_pairwise_cons apart (List.mem_singleton.mpr rfl) 0x1000 ⟨first, first⟩

end Sustemu.Runtime
