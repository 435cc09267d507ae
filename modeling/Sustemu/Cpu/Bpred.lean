import Sustemu.Ooo.Engine

/-!
# Branch predictors

The predictors of `bpred.c` and `bpred2.c`: a branch target buffer, local and
global histories with saturating counters, and a return-address stack. Tables
are functions of an index that the code masks.
-/

set_option autoImplicit false

namespace Sustemu

open Lib

def btbSize : Nat := 512

def lhtSize : Nat := 1024

def gphtSize : Nat := 4096

def rasSize : Nat := 16

structure BTBEntry where
  tag : Word
  target : Word
  valid : Bool

structure BranchPredictor where
  btb : Nat → BTBEntry
  lht : Nat → Nat
  lpht : Nat → Nat
  ghr : Nat
  gpht : Nat → Nat
  choice : Nat → Nat
  ras : Nat → Word
  rasTop : Nat
  rasCount : Nat
  predictions : Nat
  mispredictions : Nat
  btbMisses : Nat

/-- `bpred_init`. -/
def bpredInit : BranchPredictor where
  btb := fun _ => ⟨0, 0, false⟩
  lht := fun _ => 0
  lpht := fun _ => 0
  ghr := 0
  gpht := fun _ => 0
  choice := fun _ => 0
  ras := fun _ => 0
  rasTop := 0
  rasCount := 0
  predictions := 0
  mispredictions := 0
  btbMisses := 0

def rdField (raw : Raw) : Nat := (raw.extractLsb' 7 5).toNat

def rs1Field (raw : Raw) : Nat := (raw.extractLsb' 15 5).toNat

/-- `(raw & 0x707f) == 0x0067`. -/
def isJalr (raw : Raw) : Bool := raw &&& 0x707f == 0x67

def isCall (raw : Raw) : Bool :=
  if raw &&& 0x7f == 0x6f then rdField raw == 1 || rdField raw == 5
  else if isJalr raw then (rdField raw == 1 || rdField raw == 5) && rs1Field raw != rdField raw
  else false

def isRet (raw : Raw) : Bool := isJalr raw && (rdField raw == 0 && (rs1Field raw == 1 || rs1Field raw == 5))

namespace BranchPredictor

def btbIndex (pc : Word) : Nat := (pc >>> 2).toNat % btbSize

def btbTag (pc : Word) : Word := pc >>> 11

def lhtIndex (pc : Word) : Nat := (pc >>> 2).toNat % lhtSize

def gphtIndex (bp : BranchPredictor) (pc : Word) : Nat := (bp.ghr ^^^ (pc >>> 2).toNat) % gphtSize

/-- The entry for `pc`, if it holds one. -/
def lookup (bp : BranchPredictor) (pc : Word) : Option BTBEntry :=
  let entry := bp.btb (btbIndex pc)
  if entry.valid && entry.tag == btbTag pc then some entry else none

/-- Push the return address of a call. -/
def rasPush (bp : BranchPredictor) (pc : Word) : BranchPredictor :=
  let top := (bp.rasTop + 1) % rasSize
  { bp with
    ras := setAt bp.ras top (pc + 4)
    rasTop := top
    rasCount := if bp.rasCount < rasSize then bp.rasCount + 1 else bp.rasCount }

def rasPop (bp : BranchPredictor) : BranchPredictor :=
  { bp with rasTop := (bp.rasTop + rasSize - 1) % rasSize, rasCount := bp.rasCount - 1 }

end BranchPredictor

/-- A saturating counter moves with the outcome. -/
def saturate (actual : Bool) (counter : Nat) : Nat :=
  if actual then (if counter < 3 then counter + 1 else counter) else counter - 1

open BranchPredictor

def bpredPredict (bp : BranchPredictor) (pc : Word) (raw : Raw) : BPredResult × BranchPredictor :=
  if isRet raw && decide (bp.rasCount > 0) then (⟨true, bp.ras bp.rasTop, true⟩, bp.rasPop)
  else
    let bp := if isCall raw then bp.rasPush pc else bp
    let entry := bp.lookup pc
    let localPred := decide (bp.lpht (bp.lht (lhtIndex pc)) ≥ 2)
    let gi := bp.gphtIndex pc
    let globalPred := decide (bp.gpht gi ≥ 2)
    let taken := if bp.choice gi ≥ 2 then globalPred else localPred
    (⟨taken, (entry.map BTBEntry.target).getD 0, entry.isSome⟩, bp)

/-- The target buffer learns a taken branch. -/
def BranchPredictor.learn (bp : BranchPredictor) (pc target : Word) : BranchPredictor :=
  { bp with
    btb := setAt bp.btb (btbIndex pc) ⟨btbTag pc, target, true⟩
    btbMisses := if (bp.lookup pc).isSome then bp.btbMisses else bp.btbMisses + 1 }

/-- Shift an outcome into a history of `size` values. -/
def shiftHistory (size history : Nat) (actual : Bool) : Nat := (history * 2 + actual.toNat) % size

/-- The counters, histories and target buffer of `bpred_update` for a control-flow instruction. -/
def BranchPredictor.train (bp : BranchPredictor) (ir : IRInst) : BranchPredictor :=
  let pc := ir.pc
  let actual := ir.dnpc != ir.snpc
  let bp := { bp with
    predictions := bp.predictions + 1
    mispredictions := if ir.dnpc ≠ ir.bpPredictedPc then bp.mispredictions + 1 else bp.mispredictions }
  let bp := if actual then bp.learn pc ir.dnpc else bp
  let hist := bp.lht (lhtIndex pc)
  let localPred := decide (bp.lpht hist ≥ 2)
  let gi := bp.gphtIndex pc
  let globalPred := decide (bp.gpht gi ≥ 2)
  let choice := bp.choice gi
  let choice := if localPred != globalPred then
      let choice := if actual == globalPred && decide (choice < 3) then choice + 1 else choice
      if actual == localPred && decide (choice > 0) then choice - 1 else choice
    else choice
  { bp with
    lpht := setAt bp.lpht hist (saturate actual (bp.lpht hist))
    lht := setAt bp.lht (lhtIndex pc) (shiftHistory lhtSize hist actual)
    gpht := setAt bp.gpht gi (saturate actual (bp.gpht gi))
    choice := setAt bp.choice gi choice
    ghr := shiftHistory gphtSize bp.ghr actual }

def bpredUpdate (bp : BranchPredictor) (ir : IRInst) : BranchPredictor :=
  if ir.itype ≠ .branch ∧ ir.itype ≠ .jal ∧ ir.itype ≠ .jalr then bp else bp.train ir

/-- `spec_lht`, which nothing writes. -/
def specLht : Nat → Nat := fun _ => 0

/-- `bpred2_predict`; its tag is truncated to 32 bits. -/
def bpred2Predict (bp : BranchPredictor) (pc : Word) : BPredResult :=
  let entry := bp.btb (btbIndex pc)
  let hit := entry.valid && entry.tag == (btbTag pc &&& 0xffffffff)
  ⟨decide (bp.lpht (specLht (lhtIndex pc) % lhtSize) ≥ 2), if hit then entry.target else 0, hit⟩

def bpred2Update (bp : BranchPredictor) (ir : IRInst) : BranchPredictor :=
  let pc := ir.pc
  let tag := btbTag pc &&& 0xffffffff
  let actual := ir.dnpc != ir.snpc
  let bp := { bp with
    predictions := bp.predictions + 1
    mispredictions := if ir.dnpc ≠ ir.bpPredictedPc then bp.mispredictions + 1 else bp.mispredictions }
  let entry := bp.btb (btbIndex pc)
  let bp := if actual then
      { bp with
        btb := setAt bp.btb (btbIndex pc) ⟨tag, ir.dnpc, true⟩
        btbMisses := if entry.valid && entry.tag == tag then bp.btbMisses else bp.btbMisses + 1 }
    else bp
  let hist := bp.lht (lhtIndex pc)
  let lphi := hist % lhtSize
  { bp with
    lpht := setAt bp.lpht lphi (saturate actual (bp.lpht lphi))
    lht := setAt bp.lht (lhtIndex pc) (shiftHistory lhtSize hist actual)
    ghr := shiftHistory gphtSize bp.ghr actual }

/-- `bpred` and `bpred2_state`. -/
structure Predictors where
  bpred : BranchPredictor
  bpred2 : BranchPredictor

/-- The predictor of the out-of-order engine under `g_bpred_mode` and `g_bpred2_mode`; the second one wins. -/
def BPred.ofMode (bpredMode bpred2Mode : Bool) : BPred Predictors where
  enabled := bpredMode || bpred2Mode
  init := fun p =>
    let p := if bpredMode then { p with bpred := bpredInit } else p
    if bpred2Mode then { p with bpred2 := bpredInit } else p
  predict := fun p pc raw =>
    if bpred2Mode then (bpred2Predict p.bpred2 pc, p)
    else
      let (r, bpred) := bpredPredict p.bpred pc raw
      (r, { p with bpred := bpred })
  update := fun p ir =>
    if bpred2Mode then { p with bpred2 := bpred2Update p.bpred2 ir }
    else if bpredMode then { p with bpred := bpredUpdate p.bpred ir }
    else p
  rasTop := fun p => p.bpred.rasTop
  rasCount := fun p => p.bpred.rasCount
  rasRestore := fun p top count =>
    if bpredMode then { p with bpred := { p.bpred with rasTop := top, rasCount := count } } else p

end Sustemu
