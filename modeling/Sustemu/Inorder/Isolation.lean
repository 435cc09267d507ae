import Sustemu.Inorder.Dual
import Sustemu.Inorder.Refinement

/-!
# Two in-order harts with disjoint data

Each hart runs along its own functional run. What a hart needs of the memory is
on its footprint, and the stores of the other hart stay outside of it.
-/

set_option autoImplicit false

namespace Sustemu

open Lib

namespace InorderDual

variable {σ τ β : Type} {vm : VMem σ} {vm' : VMem τ} {cfg : PipeConfig β} {Rep : World τ → Flat → Prop}
  {m m' : InorderDual τ β} {t : Fin 2 → Trace vm} {f : Flat}

variable (Rep t f) in
/-- The memory holds what hart `h` expects from instruction `n` on and the other hart from instruction `k` on. -/
def Serving (h : Fin 2) (k n : Nat) (w : World τ) : Prop :=
  ∃ g, Rep w g ∧ (t h).Sees f g n ∧ (t (otherHart h)).Sees f g k

theorem serving_comm {h : Fin 2} {k n : Nat} {w : World τ} (serving : Serving Rep t f h k n w) :
    Serving Rep t f (otherHart h) n k w := by
  obtain ⟨g, rep, own, other⟩ := serving
  refine ⟨g, rep, other, ?_⟩
  rw [otherHart_otherHart]
  exact own

variable (cfg Rep t f) in
/-- Hart `h` is at position `n h` of its run. -/
def Mirrors (n : Fin 2 → Nat) (m : InorderDual τ β) : Prop :=
  ∀ h, (m.engine h).Mirrors (t h) (Serving Rep t f h (n (otherHart h))) cfg h (n h) (logOf h m.log)

section Run

variable (off : cfg.difftestEn = false) (tame : vm'.Tame) (law : CoherentMemory vm' Rep)
  (shared : ∀ {w f} (sys : Sys), Rep w f → Rep { w with sys := sys } f)
  (targets : cfg.bpred.enabled = true → ∀ state pc raw, (cfg.bpred.predict state pc raw).1.taken = true →
    (cfg.bpred.predict state pc raw).1.btbHit = true → inDram (cfg.bpred.predict state pc raw).1.target = true)
  (regular : ∀ h, (t h).Regular) (determined : ∀ h n, (t h).Determined f n)
  (hart : ∀ h n, ((t h).state n).world.sys.hartid = h) (isolated : ∀ h, (t h).Isolated (t (otherHart h)))

include law regular determined isolated in
theorem serves_serving (h : Fin 2) (k : Nat) : Serves vm' (t h) (Serving Rep t f h k) :=
  serves_sees law (regular h).contained (determined h) fun _ _ sees =>
    (isolated h).sees (regular h).contained (regular (otherHart h)).contained sees

include off tame law shared targets regular determined hart isolated in
theorem Mirrors.coreCycle {n : Fin 2 → Nat} (mirrors : m.Mirrors cfg Rep t f n) (h : Fin 2) :
    ∃ m' n', m.coreCycle vm' cfg h = some m' ∧ m'.Mirrors cfg Rep t f n' := by
  have serves := serves_serving law regular determined isolated h (n (otherHart h))
  obtain ⟨e, events, n', done, logged, after⟩ := (mirrors h).pipelineCycleCore (determined h) (hart h) serves tame (regular h)
    targets off
  have log : e.log = events := logged
  obtain ⟨g, rep, own, other⟩ := after.follows.memory
  refine ⟨m.save h e, setAt n h n', by unfold InorderDual.coreCycle; rw [done]; rfl, ?_⟩
  intro h'
  by_cases same : h' = h
  · subst same
    obtain ⟨pipe, cpu, sys⟩ := engine_save_self m after.follows.flow.hart
    have logs : logOf h' (m.save h' e).log = logOf h' m.log ++ events := by
      rw [save, logOf_append, logOf_self, log]
    rw [logs, setAt_self, setAt_of_ne (otherHart_ne h')]
    exact after.congr (by rw [pipe]) (by rw [pipe]) cpu sys ⟨g, shared _ rep, own, other⟩
  · obtain ⟨pipe, cpu, sys⟩ := engine_save_other m same e
    have logs : logOf h' (m.save h e).log = logOf h' m.log := by
      rw [save, logOf_append, logOf_other same, List.append_nil]
    rw [logs, setAt_of_ne same]
    refine (mirrors h').congr (by rw [pipe]) (by rw [pipe]) cpu sys ?_
    obtain rfl := eq_otherHart same
    rw [otherHart_otherHart, setAt_self]
    exact serving_comm ⟨g, shared _ rep, own, other⟩

include off tame law shared targets regular determined hart isolated in
theorem Mirrors.run {n : Fin 2 → Nat} (mirrors : m.Mirrors cfg Rep t f n) (schedule : List (Fin 2)) :
    ∃ m' n', m.run vm' cfg schedule = some m' ∧ m'.Mirrors cfg Rep t f n' := by
  induction schedule generalizing m n with
  | nil => exact ⟨m, n, rfl, mirrors⟩
  | cons h rest ih =>
      obtain ⟨m₁, n₁, stepped, after⟩ := mirrors.coreCycle off tame law shared targets regular determined hart isolated h
      obtain ⟨m', n', done, last⟩ := ih after
      refine ⟨m', n', ?_, last⟩
      unfold InorderDual.run
      rw [List.foldlM_cons, stepped]
      exact done

end Run

theorem init_mirrors {arch : Fin 2 → CoreArch} {world : World τ} (bpred : Fin 2 → β)
    (start : ∀ h, (t h).arch 0 = arch h) (rep : Rep world f) (unwritten : f.written = ∅)
    (shared : ∀ {w f} (sys : Sys), Rep w f → Rep { w with sys := sys } f) :
    (init cfg arch world bpred).Mirrors cfg Rep t f fun _ => 0 := by
  intro h
  refine ⟨⟨⟨rfl, ?_, fun _ => ?_, nofun, nofun, nofun, fun _ => ?_⟩, ?_, nofun, nofun, nofun⟩, rfl, rfl⟩
  · rw [start]
    rfl
  · rw [start]
    rfl
  · rw [start]
    rfl
  · exact ⟨f, shared _ rep, (t h).sees_self unwritten, (t (otherHart h)).sees_self unwritten⟩

end InorderDual

end Sustemu
