import Mathlib.Tactic.IntervalCases
import Sustemu.Isa.Csr

/-!
# Trap entry and return

`exception_priv_transfer` and `mret_priv_transfer` keep the interrupted level
and interrupt enable in fields of `mstatus`. The two functions place the level
at different bits, and neither replaces a field it means to write.
-/

set_option autoImplicit false

namespace Sustemu

/-! ## Fields of `mstatus` -/

/-- `MIE`: bit 3. -/
def Sys.interruptEnable (sys : Sys) : Bool := sys.csr.mstatus.getLsbD 3

/-- `MPIE`: bit 7. -/
def Sys.previousEnable (sys : Sys) : Bool := sys.csr.mstatus.getLsbD 7

/-- `MPP`: bits 12 and 11. -/
def Sys.previousLevel (sys : Sys) : Word := (sys.csr.mstatus.extractLsb' 11 2).setWidth 64

/-- `USER`, `SUPERVISOR` or `MACHINE`. -/
def LegalLevel (level : Word) : Prop := level = userLevel ∨ level = supervisorLevel ∨ level = machineLevel

instance (level : Word) : Decidable (LegalLevel level) := by
  unfold LegalLevel
  infer_instance

/-! ## Sequences of transfers -/

inductive Transfer where
  | exception | mret
  deriving DecidableEq

def Transfer.apply (sys : Sys) : Transfer → Sys
  | .exception => exceptionPrivTransfer sys
  | .mret => mretPrivTransfer sys

def transfers (sequence : List Transfer) (sys : Sys) : Sys := sequence.foldl Transfer.apply sys

/-- A trap enters machine mode with interrupts off and saves where it came from. -/
def TrapEnters (sys : Sys) : Prop :=
  (exceptionPrivTransfer sys).privLevel = machineLevel ∧ (exceptionPrivTransfer sys).interruptEnable = false ∧
    (exceptionPrivTransfer sys).previousEnable = sys.interruptEnable ∧
    (exceptionPrivTransfer sys).previousLevel = sys.privLevel

/-- A return takes level and interrupt enable from the saved fields. -/
def TrapReturns (sys : Sys) : Prop :=
  (mretPrivTransfer sys).privLevel = sys.previousLevel ∧ (mretPrivTransfer sys).interruptEnable = sys.previousEnable

/-- A return right after a trap restores level and interrupt enable. -/
def TrapRestores (sys : Sys) : Prop :=
  (mretPrivTransfer (exceptionPrivTransfer sys)).privLevel = sys.privLevel ∧
    (mretPrivTransfer (exceptionPrivTransfer sys)).interruptEnable = sys.interruptEnable

/-- No sequence of transfers leaves the three levels. -/
def LevelsStay (sys : Sys) : Prop := ∀ sequence, LegalLevel (transfers sequence sys).privLevel

/-- Traps and returns nest. -/
structure TrapsNest (sys : Sys) : Prop where
  enters : TrapEnters sys
  returns : TrapReturns sys
  restores : TrapRestores sys
  stays : LegalLevel sys.previousLevel → LevelsStay sys

/-! ## What each transfer does to the fields -/

/-- The field that `mret_priv_transfer` takes the level from: bits 16 and 15. -/
def Sys.returnField (sys : Sys) : Word := (sys.csr.mstatus &&& 0x18000) >>> 11

theorem returnField_getLsbD (sys : Sys) {i : Nat} (bound : i < 64) :
    sys.returnField.getLsbD i = (decide (i = 4 ∨ i = 5) && sys.csr.mstatus.getLsbD (11 + i)) := by
  unfold Sys.returnField
  interval_cases i <;> simp

theorem previousLevel_getLsbD (sys : Sys) {i : Nat} (bound : i < 64) :
    sys.previousLevel.getLsbD i = (decide (i < 2) && sys.csr.mstatus.getLsbD (11 + i)) := by
  unfold Sys.previousLevel
  simp only [BitVec.getLsbD_setWidth, BitVec.getLsbD_extractLsb', bound, decide_true, Bool.true_and]

theorem exception_interruptEnable (sys : Sys) : (exceptionPrivTransfer sys).interruptEnable = false := by
  simp [Sys.interruptEnable, exceptionPrivTransfer]

theorem exception_previousEnable (sys : Sys) :
    (exceptionPrivTransfer sys).previousEnable = (sys.interruptEnable || (sys.privLevel <<< 11).getLsbD 3) := by
  simp [Sys.previousEnable, Sys.interruptEnable, exceptionPrivTransfer]

/-- The interrupted level is added to the field, which is not cleared first. -/
theorem exception_previousLevel (sys : Sys) :
    (exceptionPrivTransfer sys).previousLevel = sys.previousLevel ||| (sys.privLevel &&& 3) := by
  apply BitVec.eq_of_getLsbD_eq
  intro i bound
  rw [BitVec.getLsbD_or, previousLevel_getLsbD _ bound, previousLevel_getLsbD _ bound]
  simp only [exceptionPrivTransfer]
  interval_cases i <;> simp

theorem exception_returnField (sys : Sys) : (exceptionPrivTransfer sys).returnField = sys.privLevel &&& 0x30 := by
  apply BitVec.eq_of_getLsbD_eq
  intro i bound
  rw [returnField_getLsbD _ bound]
  simp only [exceptionPrivTransfer]
  interval_cases i <;> simp

/-- The saved enable bit is added to the current one, which is not cleared first. -/
theorem mret_interruptEnable (sys : Sys) :
    (mretPrivTransfer sys).interruptEnable = (sys.interruptEnable || sys.previousEnable) := by
  simp [Sys.interruptEnable, Sys.previousEnable, mretPrivTransfer, Bool.or_comm]

theorem mret_returnField (sys : Sys) : (mretPrivTransfer sys).returnField = 0 := by
  apply BitVec.eq_of_getLsbD_eq
  intro i bound
  rw [returnField_getLsbD _ bound]
  simp only [mretPrivTransfer]
  interval_cases i <;> simp

/-! ## When each part holds -/

theorem trapEnters_iff {sys : Sys} (legal : LegalLevel sys.privLevel) :
    TrapEnters sys ↔ sys.previousLevel ||| sys.privLevel = sys.privLevel := by
  have narrow : sys.privLevel &&& 3 = sys.privLevel ∧ (sys.privLevel <<< 11).getLsbD 3 = false := by
    rcases legal with user | supervisor | machine
    · rw [user]
      decide
    · rw [supervisor]
      decide
    · rw [machine]
      decide
  unfold TrapEnters
  rw [exception_interruptEnable, exception_previousEnable, exception_previousLevel, narrow.1, narrow.2, Bool.or_false]
  simp only [exceptionPrivTransfer, true_and]

/-- The two fields have no bit in common, so they agree only when both are zero. -/
theorem trapReturns_iff (sys : Sys) : TrapReturns sys ↔
    sys.previousLevel = 0 ∧ sys.returnField = 0 ∧ (sys.interruptEnable = true → sys.previousEnable = true) := by
  have level : (mretPrivTransfer sys).privLevel = sys.previousLevel ↔ sys.previousLevel = 0 ∧ sys.returnField = 0 := by
    change sys.returnField = sys.previousLevel ↔ _
    constructor
    · intro same
      have zero : sys.previousLevel = 0 := by
        apply BitVec.eq_of_getLsbD_eq
        intro i bound
        have bits := congrArg (BitVec.getLsbD · i) same
        simp only [returnField_getLsbD _ bound, previousLevel_getLsbD _ bound] at bits
        rw [previousLevel_getLsbD _ bound]
        refine .trans ?_ BitVec.getLsbD_zero.symm
        by_cases small : i < 2
        · rw [← bits, decide_eq_false (by omega), Bool.false_and]
        · rw [decide_eq_false small, Bool.false_and]
      exact ⟨zero, same.trans zero⟩
    · rintro ⟨previous, field⟩
      rw [previous, field]
  unfold TrapReturns
  rw [level, mret_interruptEnable, and_assoc]
  cases sys.interruptEnable <;> cases sys.previousEnable <;> simp

theorem LegalLevel.returnField_zero {level : Word} (legal : LegalLevel level) : level &&& 0x30 = 0 := by
  rcases legal with rfl | rfl | rfl <;> decide

theorem trapRestores_iff {sys : Sys} (legal : LegalLevel sys.privLevel) :
    TrapRestores sys ↔ sys.privLevel = userLevel := by
  have enable : (mretPrivTransfer (exceptionPrivTransfer sys)).interruptEnable = sys.interruptEnable := by
    rw [mret_interruptEnable, exception_interruptEnable, exception_previousEnable]
    rcases legal with level | level | level <;> rw [level] <;> simp [userLevel, supervisorLevel, machineLevel]
  unfold TrapRestores
  rw [enable]
  change (exceptionPrivTransfer sys).returnField = sys.privLevel ∧ _ ↔ _
  rw [exception_returnField, legal.returnField_zero]
  exact ⟨fun same => same.1.symm, fun user => ⟨user.symm, rfl⟩⟩

/-- A legal level and a zero field are kept by both transfers. -/
theorem Transfer.apply_legal {sys : Sys} (transfer : Transfer) (legal : LegalLevel sys.privLevel)
    (field : sys.returnField = 0) :
    LegalLevel (transfer.apply sys).privLevel ∧ (transfer.apply sys).returnField = 0 := by
  cases transfer with
  | exception => exact ⟨.inr (.inr rfl), (exception_returnField sys).trans legal.returnField_zero⟩
  | mret => exact ⟨.inl field, mret_returnField sys⟩

theorem transfers_legal {sys : Sys} (sequence : List Transfer) (legal : LegalLevel sys.privLevel)
    (field : sys.returnField = 0) : LegalLevel (transfers sequence sys).privLevel := by
  induction sequence generalizing sys with
  | nil => exact legal
  | cons first rest ih =>
      obtain ⟨legal', field'⟩ := first.apply_legal legal field
      exact ih legal' field'

theorem levelsStay_iff {sys : Sys} (legal : LegalLevel sys.privLevel) : LevelsStay sys ↔ sys.returnField = 0 := by
  constructor
  · intro stays
    have after : LegalLevel sys.returnField := stays [.mret]
    apply BitVec.eq_of_getLsbD_eq
    intro i bound
    have known := returnField_getLsbD sys bound
    by_cases high : i = 4 ∨ i = 5
    · have zero := congrArg (BitVec.getLsbD · i) after.returnField_zero
      rcases high with rfl | rfl <;> simpa using zero
    · rw [known, decide_eq_false high, Bool.false_and]
      exact BitVec.getLsbD_zero.symm
  · exact fun field sequence => transfers_legal sequence legal field

/-- Traps and returns nest exactly from user mode with both level fields zero, and with the saved enable bit
set if interrupts are enabled. -/
theorem trapsNest_iff (sys : Sys) (legal : LegalLevel sys.privLevel) : TrapsNest sys ↔
    sys.privLevel = userLevel ∧ sys.previousLevel = 0 ∧ sys.returnField = 0 ∧
      (sys.interruptEnable = true → sys.previousEnable = true) := by
  constructor
  · intro nest
    exact ⟨(trapRestores_iff legal).mp nest.restores, (trapReturns_iff sys).mp nest.returns⟩
  · rintro ⟨user, returns⟩
    refine ⟨(trapEnters_iff legal).mpr ?_, (trapReturns_iff sys).mpr returns, (trapRestores_iff legal).mpr user,
      fun _ => (levelsStay_iff legal).mpr returns.2.1⟩
    rw [returns.1]
    exact BitVec.zero_or

theorem trapsNest_iff_user : TrapsNest { Sys.init with privLevel := userLevel } :=
  (trapsNest_iff { Sys.init with privLevel := userLevel } (.inl rfl)).mpr (by decide)

/-- A trap from supervisor mode returns to user mode. -/
theorem trap_from_supervisor :
    LegalLevel supervisorLevel ∧ ¬ TrapsNest { Sys.init with privLevel := supervisorLevel } :=
  ⟨.inr (.inl rfl), fun nest => absurd nest.restores.1 (by decide)⟩

end Sustemu
