import Sustemu.Cpu.Agreement

/-!
# The footprint of a functional run

A run depends only on the bytes it fetches and the bytes its loads and stores
touch. A memory that agrees with the run on these bytes serves it as well as
the run's own, whatever happens elsewhere.
-/

set_option autoImplicit false

namespace Sustemu

open Lib

/-- The byte is one of the instruction at `pc`. -/
def InCode (pc : Word) (byte : Nat) : Prop := pc.toNat ≤ byte ∧ byte < pc.toNat + 4

/-- The instruction accesses the byte. -/
def IRInst.Touches (ir : IRInst) (byte : Nat) : Prop :=
  (ir.itype = .load ∨ ir.itype = .store) ∧ ir.memAddr.toNat ≤ byte ∧ byte < ir.memAddr.toNat + ir.memWidth

theorem IRInst.touches_of_write {ir : IRInst} {w : Write} (write : ir.write = some w) {byte : Nat} (low : w.addr ≤ byte)
    (high : byte < w.addr + w.width) : ir.Touches byte := by
  unfold IRInst.write at write
  split at write
  · next store =>
      cases write
      exact ⟨.inr store, low, high⟩
  · cases write

namespace Trace

variable {σ : Type} {vm : VMem σ} (t : Trace vm)

/-- The bytes a run depends on. -/
def Footprint (byte : Nat) : Prop := ∃ n, InCode (t.pc n) byte ∨ (t.inst n).Touches byte

/-- `g` holds what the run expects to find from instruction `n` on. -/
structure Sees (f g : Flat) (n : Nat) : Prop where
  bytes : ∀ byte, t.Footprint byte → g.bytes byte = (t.memory f n).bytes byte
  fresh : ∀ i, n ≤ i → ∀ byte, InCode (t.pc i) byte → byte ∉ g.written

variable {t} {f g : Flat} {n : Nat}

theorem sees_self (t : Trace vm) (unwritten : f.written = ∅) : t.Sees f f 0 where
  bytes := fun _ _ => rfl
  fresh := by
    intro i _ byte _ written
    rw [unwritten] at written
    exact written

theorem Sees.load (sees : t.Sees f g n) (load : (t.inst n).itype = .load) :
    loadLE g.bytes (t.inst n).memAddr.toNat (t.inst n).memWidth =
      loadLE (t.memory f n).bytes (t.inst n).memAddr.toNat (t.inst n).memWidth :=
  loadLE_congr fun byte low high => sees.bytes byte ⟨n, .inr ⟨.inl load, low, high⟩⟩

theorem Sees.word (sees : t.Sees f g n) (contained : t.Contained) {i : Nat} (later : n ≤ i) :
    loadLE g.bytes (t.pc i).toNat 4 = loadLE f.bytes (t.pc i).toNat 4 := by
  rw [← contained.word (f := f) later]
  exact loadLE_congr fun byte low high => sees.bytes byte ⟨i, .inl ⟨low, high⟩⟩

/-- The run itself performs its next instruction. -/
theorem Sees.perform (sees : t.Sees f g n) (contained : t.Contained) :
    t.Sees f (g.perform (t.inst n).write) (n + 1) := by
  cases write : (t.inst n).write with
  | none =>
      constructor
      · rw [memory, write]
        exact sees.bytes
      · exact fun i later => sees.fresh i (by omega)
  | some w =>
      constructor
      · intro byte inside
        rw [memory, write]
        change storeLE _ _ _ _ byte = storeLE _ _ _ _ byte
        unfold storeLE
        rw [sees.bytes byte inside]
      · rintro i later byte inside (before | ⟨low, high⟩)
        · exact sees.fresh i (by omega) byte inside before
        · have apart := contained.code n i (by omega) w write
          unfold Apart at apart
          unfold InCode at inside
          omega

/-- A store elsewhere. -/
theorem Sees.elsewhere (sees : t.Sees f g n) {w : Write}
    (outside : ∀ byte, w.addr ≤ byte → byte < w.addr + w.width → ¬t.Footprint byte) :
    t.Sees f (g.store w.addr w.width w.data) n := by
  constructor
  · intro byte inside
    rw [← sees.bytes byte inside]
    apply storeLE_of_outside
    by_contra within
    exact outside byte (by omega) (by omega) inside
  · rintro i later byte inside (before | ⟨low, high⟩)
    · exact sees.fresh i later byte inside before
    · exact outside byte low high ⟨i, .inl inside⟩

variable {τ : Type} {vm' : VMem τ} (t) in
/-- The run shares no line of data with another one and does not store to its code. -/
structure Isolated (t' : Trace vm') : Prop where
  lines : ∀ i j, (t.inst i).itype = .load ∨ (t.inst i).itype = .store → (t'.inst j).itype = .load ∨ (t'.inst j).itype = .store →
    (t.inst i).memAddr.toNat / blockSize ≠ (t'.inst j).memAddr.toNat / blockSize
  code : ∀ i n, ∀ w ∈ (t.inst i).write, Apart w.addr w.width (t'.pc n).toNat 4

/-- The bytes of an access are in its line. -/
theorem Contained.line (contained : t.Contained) {i byte : Nat} (touches : (t.inst i).Touches byte) :
    byte / blockSize = (t.inst i).memAddr.toNat / blockSize := by
  obtain ⟨memory, low, high⟩ := touches
  have inside := (contained.accesses i memory).2
  unfold InLine blockSize at inside
  unfold blockSize
  omega

theorem Isolated.outside {τ : Type} {vm' : VMem τ} {t' : Trace vm'} (isolated : t.Isolated t') (contained : t.Contained)
    (contained' : t'.Contained) {i : Nat} {w : Write} (write : (t.inst i).write = some w) {byte : Nat} (low : w.addr ≤ byte)
    (high : byte < w.addr + w.width) : ¬t'.Footprint byte := by
  have touches := IRInst.touches_of_write write low high
  rintro ⟨n, inCode | touches'⟩
  · have apart := isolated.code i n w write
    unfold Apart at apart
    unfold InCode at inCode
    omega
  · apply isolated.lines i n touches.1 touches'.1
    rw [← contained.line touches, ← contained'.line touches']

/-- What another run sees is not changed by this run. -/
theorem Isolated.sees {τ : Type} {vm' : VMem τ} {t' : Trace vm'} (isolated : t.Isolated t') (contained : t.Contained)
    (contained' : t'.Contained) {i n : Nat} (sees : t'.Sees f g n) : t'.Sees f (g.perform (t.inst i).write) n := by
  cases write : (t.inst i).write with
  | none => exact sees
  | some w => exact sees.elsewhere fun _ low high => isolated.outside contained contained' write low high

end Trace

end Sustemu
