import Sustemu.Inorder.History
import Sustemu.Cpu.Trace

/-!
# The accesses of a pipeline on a flat memory

Over a coherent memory the memory stage reads and writes a flat memory, and
the fetch stage reads the initial code as long as nothing stores to it.
-/

set_option autoImplicit false

namespace Sustemu

open Lib

/-- The stores of a list of accesses, in order. -/
def writesOf (accesses : List IRInst) : List Write := accesses.filterMap IRInst.write

/-- A flat memory after a list of accesses. -/
def Flat.performed (f : Flat) (accesses : List IRInst) : Flat := accesses.foldl (fun f ir => f.perform ir.write) f

/-- A cacheable access inside its line. -/
def IRInst.Contained (ir : IRInst) : Prop := inDram ir.memAddr = true ∧ InLine ir.memAddr ir.memWidth

instance (ir : IRInst) : Decidable ir.Contained := inferInstanceAs (Decidable (_ ∧ _))

/-- Every load of the list returns what the stores before it have left. -/
def LoadsSee : Flat → List IRInst → Prop
  | _, [] => True
  | f, ir :: rest =>
      (ir.itype = .load → ir.result = extend ir.memSign ir.memWidth (loadLE f.bytes ir.memAddr.toNat ir.memWidth)) ∧
        LoadsSee (f.perform ir.write) rest

/-- One access of a pipeline. -/
theorem loadsSee_content {f : Flat} {r : PipeReg} (sees : ∀ ir ∈ r.content, ir.itype = .load →
    ir.result = extend ir.memSign ir.memWidth (loadLE f.bytes ir.memAddr.toNat ir.memWidth)) :
    LoadsSee f (r.content.filter IRInst.isMemory) := by
  unfold PipeReg.content at sees ⊢
  split at sees
  · next live =>
      rw [if_pos live, List.filter_cons]
      split
      · exact ⟨sees r.ir List.mem_cons_self, trivial⟩
      · trivial
  · next empty =>
      rw [if_neg empty]
      trivial

theorem loadsSee_append (f : Flat) (older newer : List IRInst) :
    LoadsSee f (older ++ newer) ↔ LoadsSee f older ∧ LoadsSee (f.performed older) newer := by
  induction older generalizing f with
  | nil => simp [LoadsSee, Flat.performed]
  | cons ir rest ih =>
      rw [List.cons_append, LoadsSee, LoadsSee, ih, and_assoc]
      rfl

namespace Flat

variable (f : Flat)

theorem performed_append (older newer : List IRInst) : f.performed (older ++ newer) = (f.performed older).performed newer :=
  List.foldl_append

theorem performed_bytes (accesses : List IRInst) : (f.performed accesses).bytes = applyWrites f.bytes (writesOf accesses) := by
  induction accesses generalizing f with
  | nil => rfl
  | cons ir rest ih =>
      rw [performed, List.foldl_cons, writesOf, List.filterMap_cons]
      have later := ih (f.perform ir.write)
      rw [performed, writesOf] at later
      rw [later]
      cases ir.write with
      | none => rfl
      | some w => rfl

theorem performed_written {accesses : List IRInst} {byte : Nat} (written : byte ∈ (f.performed accesses).written) :
    byte ∈ f.written ∨ ∃ w ∈ writesOf accesses, w.addr ≤ byte ∧ byte < w.addr + w.width := by
  induction accesses generalizing f with
  | nil => exact .inl written
  | cons ir rest ih =>
      rw [writesOf, List.filterMap_cons]
      cases store : ir.write with
      | none =>
          rw [performed, List.foldl_cons, store] at written
          exact ih f written
      | some w =>
          rw [performed, List.foldl_cons, store] at written
          rcases ih _ written with (before | here) | ⟨later, member, range⟩
          · exact .inl before
          · exact .inr ⟨w, List.mem_cons_self, here⟩
          · exact .inr ⟨later, List.mem_cons_of_mem _ member, range⟩

theorem written_performed {byte : Nat} (written : byte ∈ f.written) (accesses : List IRInst) :
    byte ∈ (f.performed accesses).written := by
  induction accesses generalizing f with
  | nil => exact written
  | cons ir rest ih =>
      rw [performed, List.foldl_cons]
      cases ir.write with
      | none => exact ih f written
      | some w => exact ih _ (.inl written)

/-- Bytes that have not been written keep their values. -/
theorem performed_unwritten {accesses : List IRInst} {byte : Nat} (fresh : byte ∉ (f.performed accesses).written) :
    (f.performed accesses).bytes byte = f.bytes byte := by
  induction accesses generalizing f with
  | nil => rfl
  | cons ir rest ih =>
      have step : (f.perform ir.write).bytes byte = f.bytes byte := by
        cases write : ir.write with
        | none => rfl
        | some w =>
            apply storeLE_of_outside
            by_contra inside
            apply fresh
            rw [performed, List.foldl_cons, write]
            have here : byte ∈ (f.store w.addr w.width w.data).written := .inr ⟨by omega, by omega⟩
            exact written_performed _ here rest
      exact (ih (f.perform ir.write) fresh).trans step

end Flat

section Stages

variable {σ β : Type} {vm : VMem σ} {cfg : PipeConfig β} {Rep : World σ → Flat → Prop} {f : Flat}

/-- A cacheable access of the memory stage acts on the flat memory. -/
theorem MemStage.represents {r r' : PipeReg} {w w' : World σ} (stage : MemStage vm r w r' w') (law : CoherentMemory vm Rep)
    (rep : Rep w f) (contained : ∀ ir ∈ r'.content.filter IRInst.isMemory, ir.Contained) :
    Rep w' (f.performed (r'.content.filter IRInst.isMemory)) ∧ w'.sys = w.sys ∧
      ∀ ir ∈ r'.content, ir.itype = .load →
        ir.result = extend ir.memSign ir.memWidth (loadLE f.bytes ir.memAddr.toNat ir.memWidth) := by
  cases stage with
  | bubble empty => simp [PipeReg.content, empty, rep, Flat.performed]
  | access valid done =>
      rename_i ir lat
      simp only [PipeReg.content, if_true] at contained ⊢
      unfold irMemAccessLat at done
      split at done
      · next load =>
          obtain ⟨⟨level, raw, world⟩, read, same⟩ := Option.map_eq_some_iff.mp done
          cases same
          have memory : ({ r.ir with result := extend r.ir.memSign r.ir.memWidth raw } : IRInst).isMemory = true := by
            simp [IRInst.isMemory, load]
          obtain ⟨cached, inside⟩ := contained _ (List.mem_filter.mpr ⟨List.mem_cons_self, memory⟩)
          obtain ⟨_, _, _, found, sys, after, value⟩ := law.readLevel r.ir.memWidth rep cached
          cases found.symm.trans read
          refine ⟨?_, sys, ?_⟩
          · have none : ({ r.ir with result := extend r.ir.memSign r.ir.memWidth raw } : IRInst).write = none := by
              simp [IRInst.write, load]
            rw [List.filter_cons_of_pos memory, List.filter_nil, Flat.performed, List.foldl_cons, none]
            exact after
          · intro ir member _
            cases List.mem_singleton.mp member
            rw [value inside]
      · next store =>
          obtain ⟨world, wrote, same⟩ := Option.map_eq_some_iff.mp done
          cases same
          have memory : r.ir.isMemory = true := by
            simp [IRInst.isMemory, store]
          obtain ⟨cached, inside⟩ := contained _ (List.mem_filter.mpr ⟨List.mem_cons_self, memory⟩)
          obtain ⟨_, found, sys, after⟩ := law.write r.ir.src2Val rep cached inside
          cases found.symm.trans wrote
          refine ⟨?_, sys, ?_⟩
          · have some : r.ir.write = some ⟨r.ir.memAddr.toNat, r.ir.memWidth, r.ir.src2Val⟩ := if_pos store
            rw [List.filter_cons_of_pos memory, List.filter_nil, Flat.performed, List.foldl_cons, some]
            exact after
          · intro ir member load
            cases List.mem_singleton.mp member
            cases store.symm.trans load
      · next other notStore =>
          cases done
          refine ⟨?_, rfl, ?_⟩
          · have notMemory : ¬r.ir.isMemory = true := by
              rw [IRInst.isMemory, decide_eq_true_iff]
              exact fun either => either.elim other notStore
            rw [List.filter_cons_of_neg notMemory]
            exact rep
          · intro ir member load
            cases List.mem_singleton.mp member
            exact absurd load other

theorem ExStage.represents {r r' : PipeReg} {w w' : World σ} (stage : ExStage vm r w r' w') (law : CoherentMemory vm Rep)
    (rep : Rep w f) : Rep w' f := by
  have hart := stage.hart
  cases stage with
  | bubble empty => exact rep
  | execute valid done => exact law.sys _ rep hart

/-- Fetches outside the cacheable range leave the memory alone. -/
def StraysHarmless (vm : VMem σ) (Rep : World σ → Flat → Prop) : Prop :=
  ∀ {w f addr len value w'}, Rep w f → inDram addr = false → vm.ifetch w addr len = some (value, w') → Rep w' f

/-- The instruction is the one in the initial memory, unless its address is odd or its bytes have been written. -/
def IRInst.Genuine (ir : IRInst) (initial : ByteMem) (written : Set Nat) : Prop :=
  inDram ir.pc = true → ir.pc.toNat % 4 = 0 → (∀ byte, ir.pc.toNat ≤ byte → byte < ir.pc.toNat + 4 → byte ∉ written) →
    ir.raw = (loadLE initial ir.pc.toNat 4).setWidth 32

theorem IRInst.Genuine.mono {ir ir' : IRInst} {initial : ByteMem} {written written' : Set Nat}
    (genuine : ir.Genuine initial written) (grows : ∀ byte ∈ written, byte ∈ written') (pc : ir'.pc = ir.pc)
    (raw : ir'.raw = ir.raw) : ir'.Genuine initial written' := by
  unfold IRInst.Genuine
  rw [pc, raw]
  exact fun mapped aligned fresh => genuine mapped aligned fun byte low high old => fresh byte low high (grows byte old)

theorem Inorder.Fetches.represents {w : World σ} {id : PipeReg} {pc : Word} {e' : Inorder σ β} {stalled : Bool}
    (front : Inorder.Fetches vm cfg w id pc e' stalled) (law : CoherentMemory vm Rep) (strays : StraysHarmless vm Rep)
    (rep : Rep w f) : Rep e'.world f := by
  cases front with
  | stall ex id fetch world =>
      rw [world]
      exact rep
  | fetch read guess ex id fetch world =>
      rw [world]
      cases mapped : inDram pc with
      | true =>
          obtain ⟨_, _, found, _, after, _⟩ := law.ifetch 4 rep mapped
          cases found.symm.trans read
          exact after
      | false => exact strays rep mapped read

/-- Every instruction behind the write-back latch is genuine. -/
def Inorder.CodeGenuine (e : Inorder σ β) (initial : ByteMem) (written : Set Nat) : Prop :=
  ∀ l, (e.pipe.reg l).valid = true → (e.pipe.reg l).ir.Genuine initial written

section Code

variable {e e' e₀ : Inorder σ β} {mem ex : PipeReg} {w₁ w₂ : World σ}

/-- What the latches of a cycle hold was in a latch before or has been fetched. -/
theorem Inorder.Cycle.genuine (cycle : Inorder.Cycle vm cfg e e' e₀ mem ex w₁ w₂) (tame : vm.Tame)
    (law : CoherentMemory vm Rep) {initial : ByteMem} {accesses : List IRInst}
    (rep : Rep w₂ ((⟨initial, ∅⟩ : Flat).performed accesses)) {written : Set Nat}
    (grows : ∀ byte ∈ written, byte ∈ ((⟨initial, ∅⟩ : Flat).performed accesses).written)
    (genuine : e.CodeGenuine initial written) :
    e'.CodeGenuine initial ((⟨initial, ∅⟩ : Flat).performed accesses).written := by
  obtain ⟨_, value, loaded⟩ := cycle.memory.loaded tame
  obtain ⟨exValid, exPc, exRaw, _⟩ := cycle.execute.keeps cfg
  have idGenuine : ∀ r : PipeReg, (decodeStage e.written.gpr mem ex (cfg.steer ex (e.pipe.reg .id) e.pipe.fetchPc).1).1 = r →
      r.valid = true → r.ir.Genuine initial ((⟨initial, ∅⟩ : Flat).performed accesses).written := by
    rintro r rfl live
    obtain ⟨valid, atPc, raw, _⟩ := Inorder.decodeStage_keeps cfg e.written.gpr mem ex
      (cfg.steer ex (e.pipe.reg .id) e.pipe.fetchPc).1
    rw [valid] at live
    have same := Inorder.steer_of_valid live
    rw [same] at live atPc raw ⊢
    exact (genuine .id live).mono grows atPc raw
  have front := cycle.front
  intro l live
  cases l with
  | wb =>
      rw [cycle.wbLatch, loaded] at live ⊢
      exact (genuine .mem live).mono grows (withLoad_pc _ _) (withLoad_raw _ _)
  | mem =>
      rw [cycle.memLatch] at live ⊢
      exact (genuine .ex (exValid.symm.trans live)).mono grows exPc exRaw
  | ex =>
      generalize (decodeStage e.written.gpr mem ex (cfg.steer ex (e.pipe.reg .id) e.pipe.fetchPc).1).2 = stalled at front
      cases front with
      | stall empty id fetch world =>
          rw [empty] at live
          cases live
      | fetch read guess exLatch id fetch world =>
          exact idGenuine _ exLatch.symm live
  | id =>
      generalize (decodeStage e.written.gpr mem ex (cfg.steer ex (e.pipe.reg .id) e.pipe.fetchPc).1).2 = stalled at front
      cases front with
      | stall empty id fetch world => exact idGenuine _ id.symm live
      | fetch read guess exLatch id fetch world =>
          rename_i word w' gpr junk taken next bpred bpred'
          obtain ⟨_, atPc, raw⟩ := irDecode_fetched gpr (word.setWidth 32) (cfg.steer ex (e.pipe.reg .id) e.pipe.fetchPc).2 junk
          rw [id]
          intro mapped aligned fresh
          change inDram (irDecode gpr (word.setWidth 32) _ _ junk).pc = true at mapped
          change (irDecode gpr (word.setWidth 32) _ _ junk).pc.toNat % 4 = 0 at aligned
          change (irDecode gpr (word.setWidth 32) _ _ junk).raw =
            (loadLE initial (irDecode gpr (word.setWidth 32) _ _ junk).pc.toNat 4).setWidth 32
          change ∀ byte, (irDecode gpr (word.setWidth 32) _ _ junk).pc.toNat ≤ byte →
            byte < (irDecode gpr (word.setWidth 32) _ _ junk).pc.toNat + 4 → _ at fresh
          rw [atPc] at mapped aligned fresh
          rw [atPc, raw]
          obtain ⟨_, _, found, _, _, same⟩ := law.ifetch 4 rep mapped
          cases found.symm.trans read
          rw [same (.of_aligned aligned) fresh]
          congr 1
          exact loadLE_congr fun byte low high => Flat.performed_unwritten _ (fresh byte low high)

end Code

end Stages

theorem hierarchy_strays {δ : Type} (cfg : MemConfig δ) :
    StraysHarmless (hierarchy cfg) fun w f => Represents cfg f w := by
  intro w f addr len value w' rep outside done
  change vaddrIfetch cfg w addr len = _ at done
  unfold vaddrIfetch at done
  rw [if_neg (by rw [outside]; exact Bool.false_ne_true)] at done
  exact (paddrRead_represents rep done).1

end Sustemu
