import Sustemu.Ooo.Refinement
import Sustemu.Cpu.Core

/-!
# Two out-of-order harts with disjoint data

The stores that one hart drains lie outside the footprint of the other. So the
memory is, for each hart, the initial memory changed elsewhere by the other
hart and then by its own stores, and each hart refines its own functional run.
-/

set_option autoImplicit false

namespace Sustemu

open Lib Engine

/-! ## Stores that commute -/

namespace Flat

theorem store_comm (f : Flat) {a m b n : Nat} (x y : Word)
    (disjoint : ∀ byte, a ≤ byte ∧ byte < a + m → ¬(b ≤ byte ∧ byte < b + n)) :
    (f.store a m x).store b n y = (f.store b n y).store a m x := by
  unfold Flat.store
  rw [Flat.mk.injEq]
  constructor
  · funext byte
    simp only [storeLE]
    by_cases left : a ≤ byte ∧ byte < a + m
    · rw [if_pos left, if_pos left, if_neg (disjoint byte left)]
    · rw [if_neg left, if_neg left]
  · rw [Set.union_assoc, Set.union_assoc, Set.union_comm { byte | a ≤ byte ∧ byte < a + m }]

theorem drained_store (f : Flat) {a m : Nat} (x : Word) {stores : List StoreBufEntry}
    (disjoint : ∀ entry ∈ stores, ∀ byte, a ≤ byte ∧ byte < a + m →
      ¬(entry.write.addr ≤ byte ∧ byte < entry.write.addr + entry.write.width)) :
    (f.store a m x).drained stores = (f.drained stores).store a m x := by
  induction stores generalizing f with
  | nil => rfl
  | cons entry rest ih =>
      rw [drained_cons, drained_cons, store_comm f _ _ (disjoint entry List.mem_cons_self)]
      exact ih _ fun entry member => disjoint entry (List.mem_cons_of_mem _ member)

theorem drained_comm (f : Flat) {left right : List StoreBufEntry}
    (disjoint : ∀ a ∈ left, ∀ b ∈ right, ∀ byte, a.write.addr ≤ byte ∧ byte < a.write.addr + a.write.width →
      ¬(b.write.addr ≤ byte ∧ byte < b.write.addr + b.write.width)) :
    (f.drained left).drained right = (f.drained right).drained left := by
  induction left generalizing f with
  | nil => rfl
  | cons entry rest ih =>
      rw [drained_cons, drained_cons, ih _ fun entry member => disjoint entry (List.mem_cons_of_mem _ member)]
      rw [drained_store f _ (disjoint entry List.mem_cons_self)]

/-- A byte that no store touches keeps its value, and is as written as before. -/
theorem drained_outside (f : Flat) {stores : List StoreBufEntry} {byte : Nat}
    (outside : ∀ entry ∈ stores, byte < entry.write.addr ∨ entry.write.addr + entry.write.width ≤ byte) :
    (f.drained stores).bytes byte = f.bytes byte ∧ (byte ∈ (f.drained stores).written → byte ∈ f.written) := by
  constructor
  · induction stores generalizing f with
    | nil => rfl
    | cons entry rest ih =>
        rw [drained_cons, ih _ fun entry member => outside entry (List.mem_cons_of_mem _ member)]
        exact storeLE_of_outside _ (outside entry List.mem_cons_self)
  · intro written
    rcases drained_written written with before | ⟨entry, member, low, high⟩
    · exact before
    · have apart := outside entry member
      omega

end Flat

namespace Trace

variable {σ : Type} {vm : VMem σ} {t : Trace vm} {f g : Flat}

theorem memory_congr {byte : Nat} (same : g.bytes byte = f.bytes byte) (n : Nat) :
    (t.memory g n).bytes byte = (t.memory f n).bytes byte := by
  induction n with
  | zero => exact same
  | succ n ih =>
      rw [memory, memory]
      cases (t.inst n).write with
      | none => exact ih
      | some w =>
          change storeLE _ _ _ _ byte = storeLE _ _ _ _ byte
          unfold storeLE
          rw [ih]

/-- A run knows of memory only what is in its footprint. -/
theorem Known.congr {n : Nat} (known : t.Known f n) (same : ∀ byte, t.Footprint byte → g.bytes byte = f.bytes byte) :
    t.Known g n := by
  obtain ⟨pc, raw, decoded, rd, reads, kind, load, outcome, next, regs⟩ := known
  refine ⟨pc, ?_, decoded, rd, reads, kind, ?_, outcome, next, regs⟩
  · rw [raw]
    congr 1
    exact loadLE_congr fun byte low high => (same byte ⟨n, .inl ⟨low, high⟩⟩).symm
  · intro isLoad
    rw [load isLoad]
    congr 1
    exact loadLE_congr fun byte low high => (memory_congr (same byte ⟨n, .inr ⟨.inl isLoad, low, high⟩⟩) n).symm

end Trace

namespace Engine

variable {σ β : Type} {vm : VMem σ} {e e' : Engine σ β} {Rep : World σ → Flat → Prop} {f g : Flat} {pc : Word}
  {t : Trace vm}

/-- Nothing that the invariants speak of has changed but the memory. -/
theorem Sound.congr (sound : e.Sound Rep f pc) (ooo : e'.ooo = e.ooo) (log : e'.log = e.log)
    (memory : (∀ entry ∈ commits e.log, entry.ir.StoresPlainly) → Rep e'.world (g.drained (drains e.log))) : e'.Sound Rep g pc := by
  obtain ⟨continues, resulted, kept, cleared, exact⟩ := sound
  refine ⟨continues.same (by rw [ooo]) (by rw [ooo]) (by rw [log]), by rw [ooo]; exact resulted, by rw [ooo, log]; exact kept,
    by rw [ooo]; exact cleared, ?_⟩
  rw [log]
  exact fun plain => ⟨memory plain, (exact plain).2⟩

theorem Refines.congr (refines : e.Refines t) (ooo : e'.ooo = e.ooo) (log : e'.log = e.log) : e'.Refines t :=
  refines.keep (by rw [ooo]; exact fun _ _ => rfl) (by rw [log]) (by rw [log]) (by rw [log, ooo])
    (by rw [ooo]; exact refines.nodes)

end Engine

/-! ## Two harts -/

namespace OooDual

variable {σ β : Type} {vm : VMem σ} {cfg : OooConfig β} {Rep : World σ → Flat → Prop} {f : Flat} {m m' : OooDual σ β}
  {t : Fin 2 → Trace vm}

/-- The memory hart `h` started with, changed by the stores of the other hart. -/
def base (f : Flat) (m : OooDual σ β) (h : Fin 2) : Flat := f.drained (drains (m.engine (otherHart h)).log)

variable (Rep t f) in
/-- Hart `h` has retired a prefix of its run. -/
structure Refines (m : OooDual σ β) (h : Fin 2) : Prop where
  ok : (m.engine h).ooo.Ok
  tidy : (m.engine h).ooo.Tidy
  sound : (m.engine h).Sound Rep (m.base f h) ((t h).pc 0)
  refines : (m.engine h).Refines (t h)

section Run

variable (standard : ∀ h, (t h).Standard) (known : ∀ h n, (t h).Known f n) (unwritten : f.written = ∅)
  (isolated : ∀ h, (t h).Isolated (t (otherHart h))) (refines : ∀ h, m.Refines Rep f t h)

include standard isolated refines in
/-- What the other hart has drained is outside the footprint. -/
theorem drained_isolated (h : Fin 2) {entry : StoreBufEntry} (member : entry ∈ drains (m.engine (otherHart h)).log) :
    ∀ byte, entry.write.addr ≤ byte → byte < entry.write.addr + entry.write.width → ¬(t h).Footprint byte := by
  obtain ⟨i, _, write⟩ := (refines (otherHart h)).refines.drained member
  intro byte low high
  have apart := isolated (otherHart h)
  rw [otherHart_otherHart] at apart
  exact apart.outside (standard _).contained (standard h).contained write low high

include standard isolated refines in
theorem base_outside (h : Fin 2) {byte : Nat} (inside : (t h).Footprint byte) :
    (m.base f h).bytes byte = f.bytes byte ∧ (byte ∈ (m.base f h).written → byte ∈ f.written) := by
  refine f.drained_outside fun entry member => ?_
  have outside := drained_isolated standard isolated refines h member byte
  by_contra within
  exact outside (by omega) (by omega) inside

include standard known isolated refines in
/-- The other hart does not change what a hart knows. -/
theorem base_known (h : Fin 2) (n : Nat) : (t h).Known (m.base f h) n :=
  (known h n).congr fun _ inside => (base_outside standard isolated refines h inside).1

variable (law : CoherentMemory vm Rep) (shared : ∀ {w f} (sys : Sys), Rep w f → Rep { w with sys := sys } f)
  (targets : ∀ state pc raw, (cfg.bpred.predict state pc raw).1.taken = true →
    (cfg.bpred.predict state pc raw).1.btbHit = true → (cfg.bpred.predict state pc raw).1.target ≠ 0)

include standard known unwritten isolated refines law targets in
/-- A cycle of one hart, as the hart sees it. -/
theorem Refines.cycle {h : Fin 2} {e : Engine σ β} (cycled : (m.engine h).cycle vm cfg = some e) :
    e.ooo.Ok ∧ e.ooo.Tidy ∧ e.Sound Rep (m.base f h) ((t h).pc 0) ∧ e.Refines (t h) := by
  have knows := base_known standard known isolated refines h
  have fresh : ∀ n byte, InCode ((t h).pc n) byte → byte ∉ (m.base f h).written := by
    intro n byte inside written
    have initial := (base_outside standard isolated refines h ⟨n, .inl inside⟩).2 written
    rw [unwritten] at initial
    exact initial
  obtain ⟨ok, tidy, sound, refined⟩ := refines h
  exact Engine.cycle_keeps (P := fun e => e.Sound Rep (m.base f h) ((t h).pc 0) ∧ e.Refines (t h))
    (fun _ _ ok holds step => ⟨step.sound law ok holds.1, step.simulates knows ok holds.2 holds.1 (standard h) law⟩)
    (fun _ _ ok holds step => ⟨step.sound law ((standard h).contained.mapped 0) ok holds.1,
      step.simulates knows ok holds.2 holds.1 (standard h) law fresh targets⟩)
    ok tidy ⟨sound, refined⟩ cycled

include standard known unwritten isolated refines law shared targets in
theorem Refines.coreCycle {h : Fin 2} (done : m.coreCycle vm cfg h = some m') : ∀ h', m'.Refines Rep f t h' := by
  obtain ⟨e, cycled, rfl⟩ := Option.map_eq_some_iff.mp done
  obtain ⟨ok, tidy, sound, refined⟩ := Refines.cycle standard known unwritten isolated refines law targets cycled
  obtain ⟨rep, _⟩ := sound.loads.memory fun entry member => (refined.followed entry member).2
  have swapped : (m.base f h).drained (drains e.log) =
      (f.drained (drains e.log)).drained (drains (m.engine (otherHart h)).log) := by
    apply f.drained_comm
    intro a other b own byte inA inB
    obtain ⟨i, _, write⟩ := refined.drained own
    exact drained_isolated standard isolated refines h other byte inA.1 inA.2 ⟨i, .inr (IRInst.touches_of_write write inB.1 inB.2)⟩
  intro h'
  by_cases same : h' = h
  · subst same
    have others : (m.save h' e).base f h' = m.base f h' := by
      unfold base
      rw [(engine_save_other m (otherHart_ne h') e).2]
    obtain ⟨ooo, log⟩ := engine_save_self m h' e
    refine ⟨ooo ▸ ok, ooo ▸ tidy, ?_, refined.congr ooo log⟩
    rw [others]
    exact sound.congr ooo log fun _ => shared _ rep
  · obtain ⟨ooo, log⟩ := engine_save_other m same e
    obtain ⟨ok', tidy', sound', refined'⟩ := refines h'
    refine ⟨ooo ▸ ok', ooo ▸ tidy', ?_, refined'.congr ooo log⟩
    refine sound'.congr ooo log fun _ => ?_
    obtain rfl := eq_otherHart same
    unfold base
    rw [otherHart_otherHart, (engine_save_self m h e).2, ← swapped]
    exact shared _ rep

end Run

section Schedule

variable (standard : ∀ h, (t h).Standard) (known : ∀ h n, (t h).Known f n) (unwritten : f.written = ∅)
  (isolated : ∀ h, (t h).Isolated (t (otherHart h))) (law : CoherentMemory vm Rep)
  (shared : ∀ {w f} (sys : Sys), Rep w f → Rep { w with sys := sys } f)
  (targets : ∀ state pc raw, (cfg.bpred.predict state pc raw).1.taken = true →
    (cfg.bpred.predict state pc raw).1.btbHit = true → (cfg.bpred.predict state pc raw).1.target ≠ 0)

include standard known unwritten isolated law shared targets in
theorem Refines.run {schedule : List (Fin 2)} (refines : ∀ h, m.Refines Rep f t h)
    (done : m.run vm cfg schedule = some m') (h : Fin 2) : m'.Refines Rep f t h := by
  induction schedule generalizing m with
  | nil =>
      cases done
      exact refines h
  | cons first rest ih =>
      obtain ⟨m₁, stepped, done⟩ := Option.bind_eq_some_iff.mp done
      exact ih (Refines.coreCycle standard known unwritten isolated refines law shared targets stepped) done

end Schedule

theorem init_refines {arch : Fin 2 → CoreArch} {world : World σ} (bpred : Fin 2 → β)
    (start : ∀ h, ((t h).state 0).cpu = (arch h).cpu) (mapped : ∀ h, inDram ((t h).pc 0) = true) (rep : Rep world f)
    (shared : ∀ {w f} (sys : Sys), Rep w f → Rep { w with sys := sys } f) (h : Fin 2) :
    (init cfg arch world bpred).Refines Rep f t h := by
  have atPc : (t h).pc 0 = (arch h).cpu.pc := congrArg CPUState.pc (start h)
  refine ⟨oooInit_ok _, oooInit_tidy _, ⟨⟨trivial, fun _ => ⟨trivial, ?_⟩⟩, nofun, ?_⟩, ?_⟩
  · have inside := mapped h
    rw [atPc] at inside ⊢
    exact truncPc_of_inDram inside
  · exact ⟨oooInit_storesKept _, fun _ live => (nomatch live.valid),
      fun _ => ⟨shared _ rep, fun _ absurdity => nomatch absurdity⟩⟩
  · refine ⟨rfl, fun _ absurdity => (nomatch absurdity), rfl, trivial, ?_, rfl⟩
    intro a _
    have gpr : ((t h).state 0).cpu.gpr = (arch h).cpu.gpr := congrArg CPUState.gpr (start h)
    change _ = (((t h).state 0).cpu.gpr).get a
    rw [gpr]
    simp [engine, init, OOOState.committedValue, oooInit, a.isLt]

end OooDual

end Sustemu
