import Sustemu.Isa.Csr

/-!
# Regions of PMP entries

The regions that the privileged architecture gives to the entries are sets of
numbers. `pmp_check` computes bounds in 64 bits instead, and for a NAPOT entry
it counts the trailing ones of the shifted address, which is one short. An entry
therefore covers the lower half of its region only, and nothing once the size
no longer fits.
-/

set_option autoImplicit false

namespace Sustemu

/-! ## The architecture -/

/-- The number of ones below the lowest zero. -/
def trailingOnes (value : Word) : Nat := (List.range 64).findIdx fun i => !value.getLsbD i

/-- The region of entry `i`: nothing if it is off. -/
def PmpRegion (sys : Sys) (i : Fin 8) (addr : Nat) : Prop :=
  if pmpField (sys.pmpcfg i) = 0x08 then
    (if i = 0 then 0 else 4 * (sys.pmpaddr (i - 1)).toNat) ≤ addr ∧ addr < 4 * (sys.pmpaddr i).toNat
  else if pmpField (sys.pmpcfg i) = 0x10 then
    4 * (sys.pmpaddr i).toNat ≤ addr ∧ addr < 4 * (sys.pmpaddr i).toNat + 4
  else if pmpField (sys.pmpcfg i) = 0x18 then
    addr / 2 ^ (trailingOnes (sys.pmpaddr i) + 3) = 4 * (sys.pmpaddr i).toNat / 2 ^ (trailingOnes (sys.pmpaddr i) + 3)
  else False

instance (sys : Sys) (i : Fin 8) (addr : Nat) : Decidable (PmpRegion sys i addr) := by
  unfold PmpRegion
  infer_instance

/-- The architecture's rule: machine mode is bound by locked entries only. -/
def PmpAllows (sys : Sys) (addr : Word) (isExecute isWrite : Bool) : Prop :=
  match (List.finRange 8).find? fun i => decide (PmpRegion sys i addr.toNat) with
  | some i =>
      sys.privLevel = machineLevel ∧ sys.pmpcfg i &&& 0x80 = 0 ∨
        (isExecute = true → sys.pmpcfg i &&& 0x04 ≠ 0) ∧ (isWrite = true → sys.pmpcfg i &&& 0x02 ≠ 0) ∧
          (isExecute = false ∧ isWrite = false → sys.pmpcfg i &&& 0x01 ≠ 0)
  | none => sys.privLevel = machineLevel

/-! ## What the code reads -/

/-- What `pmp_check` takes for the region of entry `i`. -/
def PmpTaken (sys : Sys) (i : Fin 8) (addr : Nat) : Prop :=
  if pmpField (sys.pmpcfg i) = 0x08 then
    (if i = 0 then 0 else 4 * (sys.pmpaddr (i - 1)).toNat % 2 ^ 64) ≤ addr ∧ addr < 4 * (sys.pmpaddr i).toNat % 2 ^ 64
  else if pmpField (sys.pmpcfg i) = 0x10 then
    4 * (sys.pmpaddr i).toNat % 2 ^ 64 + 4 < 2 ^ 64 ∧
      4 * (sys.pmpaddr i).toNat % 2 ^ 64 ≤ addr ∧ addr < 4 * (sys.pmpaddr i).toNat % 2 ^ 64 + 4
  else if pmpField (sys.pmpcfg i) = 0x18 then
    trailingOnes (sys.pmpaddr i) < 62 ∧ addr / 2 ^ (trailingOnes (sys.pmpaddr i) + 2) =
      4 * (sys.pmpaddr i).toNat % 2 ^ 64 / 2 ^ (trailingOnes (sys.pmpaddr i) + 2)
  else False

instance (sys : Sys) (i : Fin 8) (addr : Nat) : Decidable (PmpTaken sys i addr) := by
  unfold PmpTaken
  infer_instance

theorem trailingOnes_spec (value : Word) : trailingOnes value ≤ 64 ∧
    (∀ i, i < trailingOnes value → value.getLsbD i = true) ∧ value.getLsbD (trailingOnes value) = false := by
  have bound : trailingOnes value ≤ 64 := by
    have bounded : trailingOnes value ≤ (List.range 64).length := List.findIdx_le_length
    rwa [List.length_range] at bounded
  refine ⟨bound, ?_, ?_⟩
  · intro i below
    have one := List.not_of_lt_findIdx below
    simpa using one
  · by_cases last : trailingOnes value = 64
    · rw [last]
      exact BitVec.getLsbD_of_ge _ _ (Nat.le_refl _)
    · have inside : (List.range 64).findIdx (fun i => !value.getLsbD i) < (List.range 64).length := by
        rw [List.length_range]
        change trailingOnes value < 64
        omega
      have zero := List.findIdx_getElem (w := inside)
      rw [List.getElem_range] at zero
      exact Bool.not_eq_true' _ ▸ zero

/-- The size loop shifts once for each trailing one. -/
theorem napotSize_eq (fuel n : Nat) (mask size : Word) (enough : n ≤ fuel) (ones : ∀ i, i < n → mask.getLsbD i = true)
    (zero : mask.getLsbD n = false) : napotSize fuel mask size = size <<< n := by
  induction n generalizing fuel mask size with
  | zero =>
      cases fuel with
      | zero => simp [napotSize]
      | succ fuel => rw [napotSize, if_neg (by rw [zero]; exact Bool.false_ne_true), BitVec.shiftLeft_zero]
  | succ n ih =>
      cases fuel with
      | zero => omega
      | succ fuel =>
          rw [napotSize, if_pos (ones 0 (Nat.succ_pos _)), ih fuel _ _ (by omega)]
          · rw [← BitVec.shiftLeft_add, Nat.add_comm]
          · intro i below
            rw [BitVec.getLsbD_ushiftRight]
            exact ones _ (by omega)
          · rw [BitVec.getLsbD_ushiftRight, Nat.add_comm]
            exact zero

/-- The trailing ones of the mask, and that 64 turns of the loop are enough. -/
theorem napotSize_mask (addr : Word) (fuel : Nat) (enough : 64 ≤ fuel) :
    napotSize fuel (addr <<< 2 ||| 0x3) 1 = (1 : Word) <<< (min (trailingOnes addr) 62 + 2) := by
  obtain ⟨_, ones, zero⟩ := trailingOnes_spec addr
  have low : ∀ i, i < 2 → (addr <<< 2 ||| 0x3 : Word).getLsbD i = true := by
    intro i below
    obtain rfl | rfl : i = 0 ∨ i = 1 := by omega
    · rw [BitVec.getLsbD_or]
      exact Bool.or_true _
    · rw [BitVec.getLsbD_or]
      exact Bool.or_true _
  have high : ∀ i, i < 62 → (addr <<< 2 ||| 0x3 : Word).getLsbD (i + 2) = addr.getLsbD i := by
    intro i below
    have none : (0x3 : Word).getLsbD (i + 2) = false := by
      apply Nat.testBit_lt_two_pow
      exact Nat.lt_of_lt_of_le (by decide) (Nat.pow_le_pow_right (by decide) (by omega : 2 ≤ i + 2))
    rw [BitVec.getLsbD_or, none, Bool.or_false, BitVec.getLsbD_shiftLeft]
    simp
    omega
  apply napotSize_eq
  · omega
  · intro i below
    by_cases first : i < 2
    · exact low i first
    · obtain ⟨j, rfl⟩ : ∃ j, i = j + 2 := ⟨i - 2, by omega⟩
      rw [high j (by omega)]
      exact ones j (by omega)
  · by_cases whole : trailingOnes addr < 62
    · rw [Nat.min_eq_left (by omega), high _ whole]
      exact zero
    · rw [Nat.min_eq_right (by omega)]
      exact BitVec.getLsbD_of_ge _ _ (Nat.le_refl _)

theorem toNat_one_shiftLeft {n : Nat} (inside : n < 64) : ((1 : Word) <<< n).toNat = 2 ^ n := by
  rw [BitVec.toNat_shiftLeft, Nat.shiftLeft_eq]
  change 1 * 2 ^ n % 2 ^ 64 = _
  rw [Nat.one_mul, Nat.mod_eq_of_lt (Nat.pow_lt_pow_right (by decide) inside)]

/-- Clearing the low bits rounds down. -/
theorem toNat_and_not_mask (addr : Word) {n : Nat} (inside : n < 64) :
    (addr &&& ~~~((1 : Word) <<< n - 1)).toNat = 2 ^ n * (addr.toNat / 2 ^ n) := by
  have mask : ((1 : Word) <<< n - 1).toNat = 2 ^ n - 1 := by
    have power : 2 ^ n < 2 ^ 64 := Nat.pow_lt_pow_right (by decide) inside
    have positive := Nat.two_pow_pos n
    rw [BitVec.toNat_sub, toNat_one_shiftLeft inside]
    change (2 ^ 64 - 1 + 2 ^ n) % 2 ^ 64 = _
    omega
  have rounded : addr &&& ~~~((1 : Word) <<< n - 1) = addr >>> n <<< n := by
    apply BitVec.eq_of_getLsbD_eq
    intro i below
    have bit : ((1 : Word) <<< n - 1).getLsbD i = decide (i < n) := by
      rw [BitVec.getLsbD, mask, Nat.testBit_two_pow_sub_one]
    rw [BitVec.getLsbD_and, BitVec.getLsbD_not, bit, BitVec.getLsbD_shiftLeft, BitVec.getLsbD_ushiftRight]
    by_cases low : i < n
    · simp [low]
    · simp [low, below, Nat.add_sub_cancel' (Nat.le_of_not_lt low)]
  rw [rounded, BitVec.toNat_shiftLeft, BitVec.toNat_ushiftRight, Nat.shiftLeft_eq, Nat.shiftRight_eq_div_pow, Nat.mul_comm]
  apply Nat.mod_eq_of_lt
  exact Nat.lt_of_le_of_lt (Nat.mul_div_le _ _) addr.isLt

/-- An aligned block that does not touch the end of the address space. -/
theorem block_iff (value addr : Word) {n : Nat} (inside : n < 64) (zero : value.getLsbD n = false) :
    (value &&& ~~~((1 : Word) <<< n - 1) ≤ addr ∧ addr < (value &&& ~~~((1 : Word) <<< n - 1)) + (1 : Word) <<< n) ↔
      addr.toNat / 2 ^ n = value.toNat / 2 ^ n := by
  have positive := Nat.two_pow_pos n
  have fits : 2 ^ n * (value.toNat / 2 ^ n) + 2 ^ n < 2 ^ 64 := by
    have even : value.toNat / 2 ^ n % 2 = 0 := by
      have bit : value.toNat.testBit n = false := zero
      rw [Nat.testBit_eq_decide_div_mod_eq, decide_eq_false_iff_not] at bit
      omega
    have split : 2 ^ 64 = 2 ^ n * 2 ^ (64 - n) := by rw [← Nat.pow_add, Nat.add_sub_cancel' (Nat.le_of_lt inside)]
    have quotient : value.toNat / 2 ^ n < 2 ^ (64 - n) := by
      rw [Nat.div_lt_iff_lt_mul positive, Nat.mul_comm, ← split]
      exact value.isLt
    have half : 2 ^ (64 - n) = 2 * 2 ^ (63 - n) := by
      rw [show 64 - n = 63 - n + 1 by omega, Nat.pow_succ, Nat.mul_comm]
    have next : value.toNat / 2 ^ n + 1 < 2 ^ (64 - n) := by omega
    rw [split, ← Nat.mul_succ]
    exact Nat.mul_lt_mul_of_pos_left next positive
  rw [BitVec.le_def, BitVec.lt_def, BitVec.toNat_add, toNat_and_not_mask _ inside, toNat_one_shiftLeft inside,
    Nat.mod_eq_of_lt fits, Nat.div_eq_iff positive, Nat.mul_comm]
  omega

/-- The bounds of the code, as numbers. -/
theorem pmpTaken_iff (sys : Sys) (i : Fin 8) (addr : Word) : PmpTaken sys i addr.toNat ↔
    pmpField (sys.pmpcfg i) ≠ 0 ∧ (pmpRange sys i).1 ≤ addr ∧ addr < (pmpRange sys i).2 := by
  have shifted : ∀ j, (sys.pmpaddr j <<< 2).toNat = 4 * (sys.pmpaddr j).toNat % 2 ^ 64 := by
    intro j
    rw [BitVec.toNat_shiftLeft, Nat.shiftLeft_eq, Nat.mul_comm]
  have bound := addr.isLt
  unfold PmpTaken pmpRange
  simp only
  split
  · next tor =>
      rw [BitVec.le_def, BitVec.lt_def, shifted]
      have first : (if i = 0 then (0 : Word) else sys.pmpaddr (i - 1) <<< 2).toNat =
          if i = 0 then 0 else 4 * (sys.pmpaddr (i - 1)).toNat % 2 ^ 64 := by
        split
        · rfl
        · exact shifted _
      rw [first, tor]
      simp
  · split
    · next na4 =>
        rw [BitVec.le_def, BitVec.lt_def, BitVec.toNat_add, shifted, na4]
        have four : (4 : Word).toNat = 4 := rfl
        have on : (0x10 : BitVec 8) ≠ 0 := by decide
        simp only [four, on, ne_eq, not_false_eq_true, true_and]
        omega
    · split
      · next napot =>
          rw [napotSize_mask _ 64 (Nat.le_refl _), napot]
          have on : (0x18 : BitVec 8) ≠ 0 := by decide
          simp only [on, ne_eq, not_false_eq_true, true_and]
          by_cases fits : trailingOnes (sys.pmpaddr i) < 62
          · have zero : (sys.pmpaddr i <<< 2).getLsbD (trailingOnes (sys.pmpaddr i) + 2) = false := by
              rw [BitVec.getLsbD_shiftLeft, Nat.add_sub_cancel, (trailingOnes_spec _).2.2, Bool.and_false]
            rw [Nat.min_eq_left (Nat.le_of_lt fits), block_iff _ _ (by omega) zero, shifted]
            exact and_iff_right fits
          · rw [Nat.min_eq_right (Nat.le_of_not_lt fits)]
            refine iff_of_false (fun taken => fits taken.1) ?_
            rintro ⟨_, above⟩
            have empty : ((1 : Word) <<< (62 + 2)) = 0 := by decide
            have none : sys.pmpaddr i <<< 2 &&& ~~~((0 : Word) - 1) = 0 := by
              rw [show ~~~((0 : Word) - 1) = 0 by decide]
              exact BitVec.and_zero
            rw [empty, none] at above
            exact absurd above (by simp)
      · next other => simp

/-! ## Decisions -/

/-- What an entry says about accesses. A lock on an entry that permits everything binds nobody. -/
structure PmpRights where
  read : Bool
  write : Bool
  execute : Bool
  binding : Bool
  deriving DecidableEq

def pmpRights (cfg : BitVec 8) : PmpRights :=
  let read := cfg &&& 0x01 != 0
  let write := cfg &&& 0x02 != 0
  let execute := cfg &&& 0x04 != 0
  ⟨read, write, execute, cfg &&& 0x80 != 0 && !(read && write && execute)⟩

/-- The rights of the lowest-numbered entry that covers an address; without one, machine mode alone has access. -/
def pmpDeciding (sys : Sys) (covers : Fin 8 → Bool) : PmpRights :=
  match (List.finRange 8).find? covers with
  | some i => pmpRights (sys.pmpcfg i)
  | none => ⟨false, false, false, false⟩

def PmpRights.grant (rights : PmpRights) (machine isExecute isWrite : Bool) : Bool :=
  machine && !rights.binding || (!isExecute || rights.execute) && (!isWrite || rights.write) &&
    (isExecute || isWrite || rights.read)

/-- Rights are what they grant. -/
theorem PmpRights.ext_grant {rights rights' : PmpRights}
    (same : ∀ machine isExecute isWrite, rights.grant machine isExecute isWrite = rights'.grant machine isExecute isWrite)
    (first : rights.binding = true → (rights.read && rights.write && rights.execute) = false)
    (second : rights'.binding = true → (rights'.read && rights'.write && rights'.execute) = false) : rights = rights' := by
  obtain ⟨r, w, x, l⟩ := rights
  obtain ⟨r', w', x', l'⟩ := rights'
  revert r w x l r' w' x' l'
  unfold PmpRights.grant
  decide

theorem pmpDeciding_binding (sys : Sys) (covers : Fin 8 → Bool) : (pmpDeciding sys covers).binding = true →
    ((pmpDeciding sys covers).read && (pmpDeciding sys covers).write && (pmpDeciding sys covers).execute) = false := by
  unfold pmpDeciding
  split
  · intro binding
    exact (Bool.not_eq_true' _).mp (Bool.and_eq_true_iff.mp binding).2
  · exact nofun

theorem pmpGrants_eq (sys : Sys) (cfg : BitVec 8) (isExecute isWrite : Bool) : pmpGrants sys cfg isExecute isWrite =
    (pmpRights cfg).grant (decide (sys.privLevel = machineLevel)) isExecute isWrite := by
  unfold pmpGrants pmpRights PmpRights.grant
  have lock : (cfg &&& 0x80 = 0) ↔ (cfg &&& 0x80 != 0) = false := by simp
  simp only [lock]
  generalize (cfg &&& 0x80 != 0) = l
  generalize (cfg &&& 0x01 != 0) = r
  generalize (cfg &&& 0x02 != 0) = w
  generalize (cfg &&& 0x04 != 0) = x
  by_cases machine : sys.privLevel = machineLevel
  · simp only [machine, true_and, decide_true]
    revert l r w x isExecute isWrite
    decide
  · simp only [machine, false_and, if_false, decide_false]
    revert l r w x isExecute isWrite
    decide

/-- The architecture's rule, in the same terms. -/
theorem pmpAllows_iff (sys : Sys) (addr : Word) (isExecute isWrite : Bool) : PmpAllows sys addr isExecute isWrite ↔
    (pmpDeciding sys fun i => decide (PmpRegion sys i addr.toNat)).grant (decide (sys.privLevel = machineLevel)) isExecute
      isWrite = true := by
  unfold PmpAllows pmpDeciding
  split
  · next i found =>
      rw [← pmpGrants_eq]
      unfold pmpGrants
      by_cases free : sys.privLevel = machineLevel ∧ sys.pmpcfg i &&& 0x80 = 0
      · rw [if_pos free]
        exact iff_of_true (.inl free) rfl
      · rw [if_neg free, or_iff_right free]
        cases isExecute <;> cases isWrite <;> simp
  · next found => cases isExecute <;> cases isWrite <;> simp [PmpRights.grant]

/-- `pmp_check` goes by the regions it takes the entries for. -/
theorem pmpCheck_grant (sys : Sys) (counted : sys.pmpOnCount = 0 → ∀ i, isPmpOn sys i = false) (addr : Word)
    (isExecute isWrite : Bool) : (pmpCheck sys addr isExecute isWrite).1 =
      (pmpDeciding sys fun i => decide (PmpTaken sys i addr.toNat)).grant (decide (sys.privLevel = machineLevel)) isExecute
        isWrite := by
  have covers : (fun i => pmpField (sys.pmpcfg i) != 0 && decide ((pmpRange sys i).1 ≤ addr) &&
      decide (addr < (pmpRange sys i).2)) = fun i => decide (PmpTaken sys i addr.toNat) := by
    funext i
    rw [Bool.eq_iff_iff, decide_eq_true_iff, pmpTaken_iff]
    simp [and_assoc]
  unfold pmpCheck pmpDeciding
  simp only [covers]
  split
  · next shortcut =>
      have none : (List.finRange 8).find? (fun i => decide (PmpTaken sys i addr.toNat)) = none := by
        apply List.find?_eq_none.mpr
        intro i _
        rw [decide_eq_true_iff, pmpTaken_iff]
        rintro ⟨on, _⟩
        have off := counted shortcut.1 i
        simp only [isPmpOn, bne_eq_false_iff_eq] at off
        exact on off
      rw [none, PmpRights.grant]
      simp [shortcut.2]
  · cases found : (List.finRange 8).find? fun i => decide (PmpTaken sys i addr.toNat) with
    | some i =>
        simp only
        rw [← pmpGrants_eq]
        split
        · next granted => exact granted.symm
        · next denied => exact (Bool.eq_false_iff.mpr denied).symm
    | none =>
        simp only
        split
        · next machine => simp [PmpRights.grant, machine]
        · next below => cases isExecute <;> cases isWrite <;> simp [PmpRights.grant, below]

/-- What is claimed of an address under the entries of `sys`: at every level every access is granted exactly as the
architecture has it, and no size loop runs forever or wraps. -/
structure PmpFollows (sys : Sys) (addr : Word) : Prop where
  granted : ∀ level isExecute isWrite, (pmpCheck { sys with privLevel := level } addr isExecute isWrite).1 = true ↔
    PmpAllows { sys with privLevel := level } addr isExecute isWrite
  terminates : ∀ i fuel, 64 ≤ fuel →
    napotSize fuel (sys.pmpaddr i <<< 2 ||| 0x3) 1 = napotSize 64 (sys.pmpaddr i <<< 2 ||| 0x3) 1
  sized : ∀ i, pmpField (sys.pmpcfg i) = 0x18 → napotSize 64 (sys.pmpaddr i <<< 2 ||| 0x3) 1 ≠ 0

/-- `pmp_check` follows the architecture at an address exactly if the entry it finds there, by the regions it takes the
entries for, has the rights of the entry that covers the address, and no NAPOT entry has its low 62 address bits set. -/
theorem pmp_follows_iff (sys : Sys) (counted : sys.pmpOnCount = 0 → ∀ i, isPmpOn sys i = false) (addr : Word) :
    PmpFollows sys addr ↔
      (pmpDeciding sys fun i => decide (PmpTaken sys i addr.toNat)) =
        (pmpDeciding sys fun i => decide (PmpRegion sys i addr.toNat)) ∧
      ∀ i, pmpField (sys.pmpcfg i) = 0x18 → trailingOnes (sys.pmpaddr i) < 62 := by
  have code : ∀ level isExecute isWrite, (pmpCheck { sys with privLevel := level } addr isExecute isWrite).1 =
      (pmpDeciding sys fun i => decide (PmpTaken sys i addr.toNat)).grant (decide (level = machineLevel)) isExecute isWrite :=
    fun level => pmpCheck_grant { sys with privLevel := level } counted addr
  have rule : ∀ level isExecute isWrite, PmpAllows { sys with privLevel := level } addr isExecute isWrite ↔
      (pmpDeciding sys fun i => decide (PmpRegion sys i addr.toNat)).grant (decide (level = machineLevel)) isExecute
        isWrite = true := fun level => pmpAllows_iff { sys with privLevel := level } addr
  have size : ∀ i, napotSize 64 (sys.pmpaddr i <<< 2 ||| 0x3) 1 ≠ 0 ↔ trailingOnes (sys.pmpaddr i) < 62 := by
    intro i
    rw [napotSize_mask _ 64 (Nat.le_refl _)]
    by_cases fits : trailingOnes (sys.pmpaddr i) < 62
    · refine iff_of_true (fun zero => ?_) fits
      have value := congrArg BitVec.toNat zero
      rw [Nat.min_eq_left (Nat.le_of_lt fits), toNat_one_shiftLeft (by omega)] at value
      exact absurd value (Nat.ne_of_gt (Nat.two_pow_pos _))
    · rw [Nat.min_eq_right (Nat.le_of_not_lt fits)]
      exact iff_of_false (fun nonzero => nonzero (by decide)) fits
  constructor
  · intro follows
    refine ⟨?_, fun i napot => (size i).mp (follows.sized i napot)⟩
    apply PmpRights.ext_grant _ (pmpDeciding_binding _ _) (pmpDeciding_binding _ _)
    intro machine isExecute isWrite
    obtain ⟨level, rfl⟩ : ∃ level, decide (level = machineLevel) = machine := by
      cases machine
      · exact ⟨userLevel, by decide⟩
      · exact ⟨machineLevel, by decide⟩
    rw [Bool.eq_iff_iff, ← code, follows.granted, rule]
  · rintro ⟨same, fits⟩
    refine ⟨fun level isExecute isWrite => ?_, fun i fuel enough => ?_, fun i napot => (size i).mpr (fits i napot)⟩
    · rw [code, same, rule]
    · rw [napotSize_mask _ _ enough, napotSize_mask _ 64 (Nat.le_refl _)]

/-- One entry with all rights. -/
def oneEntrySys (field : BitVec 8) (addr : Word) : Sys :=
  { Sys.init with
    privLevel := userLevel
    pmpcfg := fun i => if i = 0 then field ||| 0x07 else 0
    pmpaddr := fun i => if i = 0 then addr else 0
    pmpOnCount := 1 }

/-- The memory below `0x88000000`, as a TOR region. -/
theorem pmp_follows_iff_tor : PmpFollows (oneEntrySys 0x08 0x22000000) 0x80000004 :=
  (pmp_follows_iff (oneEntrySys 0x08 0x22000000) (by decide) 0x80000004).mpr ⟨by decide +kernel, by decide⟩

/-- The eight bytes at `0x80000000` as a NAPOT region: the upper four are denied. -/
theorem napot_upper_half_denied : (oneEntrySys 0x18 0x20000000).pmpOnCount ≠ 0 ∧
    PmpAllows (oneEntrySys 0x18 0x20000000) 0x80000004 false false ∧
    (pmpCheck (oneEntrySys 0x18 0x20000000) 0x80000004 false false).1 = false ∧
    ¬PmpFollows (oneEntrySys 0x18 0x20000000) 0x80000004 := by
  have allowed : PmpAllows (oneEntrySys 0x18 0x20000000) 0x80000004 false false := by
    rw [pmpAllows_iff]
    decide +kernel
  have denied : (pmpCheck (oneEntrySys 0x18 0x20000000) 0x80000004 false false).1 = false := by decide +kernel
  refine ⟨by decide, allowed, denied, fun follows => ?_⟩
  have granted := (follows.granted userLevel false false).mpr allowed
  exact absurd (granted.symm.trans denied) (by decide)

end Sustemu
