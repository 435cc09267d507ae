import Sustemu.Ooo.StoreOrder
import Sustemu.Memory.Hierarchy

/-!
# Store-to-load forwarding

A load reads memory and then lets every pending store that contains it replace
the value. Along every run memory is the initial one with the drained stores
performed, and the value a load gets is the one of program order as long as no
pending store reaches into the load behind the last one that contains it.
-/

set_option autoImplicit false

namespace Sustemu

open Lib

/-! ## Accesses of a coherent memory -/

section Laws

variable {σ : Type} {vm : VMem σ} {Rep : World σ → Flat → Prop} {w w' : World σ} {f : Flat} {addr value : Word} {len : Nat}

theorem CoherentMemory.read_any (law : CoherentMemory vm Rep) (rep : Rep w f)
    (done : vm.read w addr len = some (value, w')) : Rep w' f ∧ w'.sys.hartid = w.sys.hartid := by
  cases cached : inDram addr with
  | false => exact law.uncached len rep cached (.inl done)
  | true =>
      obtain ⟨_, _, found, sys, after, _⟩ := law.read len rep cached
      cases found.symm.trans done
      exact ⟨after, by rw [sys]⟩

theorem CoherentMemory.fill_any (law : CoherentMemory vm Rep) (rep : Rep w f)
    (done : vm.fillAndRead w addr len = some (value, w')) : Rep w' f := by
  cases cached : inDram addr with
  | false => exact (law.uncached len rep cached (.inr done)).1
  | true =>
      obtain ⟨_, _, found, _, after, _⟩ := law.fillAndRead len rep cached
      cases found.symm.trans done
      exact after

end Laws

/-! ## Memory along a run -/

/-- Memory once buffered stores have been written through the caches. -/
def Flat.drained (f : Flat) (stores : List StoreBufEntry) : Flat :=
  stores.foldl (fun f entry => f.store entry.addr.toNat entry.width entry.data) f

theorem Flat.drained_concat (f : Flat) (stores : List StoreBufEntry) (entry : StoreBufEntry) :
    f.drained (stores ++ [entry]) = (f.drained stores).store entry.addr.toNat entry.width entry.data := by
  simp [Flat.drained]

/-- The store buffer holds committed stores, so that their lines contain what it drains. -/
theorem StoresKept.inLine {σ : Type} {o : OOOState} {log : List (Event σ)} (kept : StoresKept o log)
    (plain : ∀ entry ∈ commits log, entry.ir.StoresPlainly) :
    ∀ entry ∈ drains log ++ o.buffered, InLine entry.addr entry.width := by
  intro entry member
  have stored : entry.store ∈ (drains log ++ o.buffered).map StoreBufEntry.store := List.mem_map_of_mem member
  rw [kept.order] at stored
  obtain ⟨committed, inLog, same⟩ := List.mem_filterMap.mp stored
  unfold ROBEntry.cacheableStore at same
  split at same
  · next store =>
      obtain ⟨addr, rest⟩ := Prod.mk.inj (Option.some.inj same)
      have inside := (plain committed inLog).inLine store.1 store.2
      rwa [addr, (Prod.mk.inj rest).1] at inside
  · cases same

namespace Engine

variable {σ β : Type} {vm : VMem σ} {cfg : OooConfig β} {e e' : Engine σ β} {Rep : World σ → Flat → Prop} {f : Flat}

theorem difftestStep_represents (law : CoherentMemory vm Rep) (rep : Rep e.world f)
    (done : e.difftestStep vm cfg = some e') : Rep e'.world f := by
  simp only [difftestStep, Option.bind_eq_bind, Option.bind_eq_some_iff] at done
  obtain ⟨⟨raw, w₁⟩, fetched, ⟨ir, sys⟩, executed, last⟩ := done
  have executed : Rep { w₁ with sys := sys } f := law.sys sys (law.read_any rep fetched).1 (irExecute_hartid executed)
  split at last
  · next load =>
      obtain ⟨⟨ir', w₂⟩, accessed, same⟩ := Option.bind_eq_some_iff.mp last
      cases same
      unfold irMemAccess at accessed
      rw [load] at accessed
      obtain ⟨⟨value, w₃⟩, read, same⟩ := Option.map_eq_some_iff.mp accessed
      cases same
      exact (law.read_any executed read).1
  · cases last
    exact executed

theorem difftestCheck_represents (law : CoherentMemory vm Rep) {entry : ROBEntry} (rep : Rep e.world f)
    (done : e.difftestCheck vm cfg entry = some e') : Rep e'.world f := by
  simp only [difftestCheck, Option.bind_eq_bind, Option.bind_eq_some_iff] at done
  obtain ⟨stepped, step, rest⟩ := done
  have after := difftestStep_represents law rep step
  have same : e'.world = stepped.world := by
    split at rest
    · cases rest
      rfl
    · cases rest
      rfl
    · split at rest
      · split at rest
        · cases rest
          rfl
        · split at rest
          · cases rest
            rfl
          · cases rest
            rfl
      · split at rest
        · cases rest
          rfl
        · cases rest
          rfl
  rw [same]
  exact after

theorem commits_mem_append {log : List (Event σ)} {entry : ROBEntry} (extra : List (Event σ))
    (member : entry ∈ commits log) : entry ∈ commits (log ++ extra) := by
  rw [commits_append]
  exact List.mem_append_left _ member

/-- A committed store enters the store buffer or goes to a device. -/
theorem commitStore_represents (law : CoherentMemory vm Rep) {e₁ : Engine σ β} (rep : Rep e.world f)
    (plain : (e.ooo.rob e.ooo.robHead).ir.StoresPlainly)
    (stored : e.commitStore vm (e.ooo.rob e.ooo.robHead) = some e₁) : Rep e₁.world f := by
  rcases commitStore_cases stored with ⟨_, _, rfl⟩ | ⟨store, device, world, write, rfl⟩ | ⟨_, rfl⟩
  · exact rep
  · exact (law.uncachedWrite _ _ rep (plain.device store device) write).1
  · exact rep

/-- A commit leaves cacheable memory alone. -/
theorem commit_represents (law : CoherentMemory vm Rep) {e₁ e₂ : Engine σ β} (rep : Rep e.world f)
    (plain : (e.ooo.rob e.ooo.robHead).ir.StoresPlainly)
    (stored : e.commitStore vm (e.ooo.rob e.ooo.robHead) = some e₁)
    (checked : (if e₁.difftestActive then e₁.committed.difftestCheck vm cfg (e.ooo.rob e.ooo.robHead)
      else some e₁.committed) = some e₂) : Rep e₂.retire.world f := by
  have written := commitStore_represents law rep plain stored
  split at checked
  · have same : e₂.retire.world = e₂.world := rfl
    rw [same]
    exact difftestCheck_represents law (e := e₁.committed) written checked
  · cases checked
    exact written

theorem BackStep.represents (law : CoherentMemory vm Rep) (step : e.BackStep vm cfg e') (kept : StoresKept e.ooo e.log)
    (plain : ∀ entry ∈ commits e'.log, entry.ir.StoresPlainly) (rep : Rep e.world (f.drained (drains e.log))) :
    Rep e'.world (f.drained (drains e'.log)) := by
  cases step with
  | note quiet =>
      simp only
      rw [drains_quiet]
      · exact rep
      · rintro event member entry rfl
        obtain ⟨_, _, line⟩ := quiet _ member
        cases line
  | timer mshr tick lines => exact rep
  | drain waiting written =>
      have head : e.ooo.sbuf e.ooo.sbufHead ∈ e.ooo.buffered := by
        rw [OOOState.buffered_popStore kept.buffered waiting 0]
        exact List.mem_cons_self
      obtain ⟨_, cached, _⟩ := kept.buffered.entries _ head
      have inside : InLine (e.ooo.sbuf e.ooo.sbufHead).addr (e.ooo.sbuf e.ooo.sbufHead).width := by
        refine kept.inLine ?_ _ (List.mem_append_right _ head)
        exact fun entry member => plain entry (commits_mem_append _ member)
      obtain ⟨world, done, _, after⟩ := law.write _ rep cached inside
      cases done.symm.trans written
      simp only [emit]
      rw [drains_append, show drains [Event.drain (e.ooo.sbuf e.ooo.sbufHead)] = [e.ooo.sbuf e.ooo.sbufHead] from rfl,
        Flat.drained_concat]
      exact after
  | commit live ready ordered sound room stored checked =>
      obtain ⟨extra, log, quiet⟩ := (commits_of_checked stored checked).log
      have head : (e.ooo.rob e.ooo.robHead).ir.StoresPlainly := by
        apply plain
        rw [log, commits_append]
        exact List.mem_append_right _ List.mem_cons_self
      rw [log, drains_quiet]
      · exact commit_represents law rep head stored checked
      · rintro event member entry rfl
        rcases List.mem_cons.mp member with commit | other
        · cases commit
        · obtain ⟨_, mismatch⟩ := quiet _ other
          cases mismatch
  | exec bpred fault unit live run completes faulted resolved => exact law.sys _ rep (irExecute_hartid run)
  | redirect live run completes control wrong target => exact law.sys _ rep (irExecute_hartid run)
  | count live => exact rep
  | discard mshr valid flushed lines filled =>
      rcases filled with same | ⟨m, value, _, filled⟩
      · rw [same]
        exact rep
      · exact law.fill_any rep filled
  | address live first executor => exact rep
  | storeDone live computed store completes => exact rep
  | delay addressed absent => exact rep
  | probe => exact (law.probeLevel _ rep).1
  | miss addressed cached missed line lines => exact rep
  | loadFault addressed outside completes => exact rep
  | fill addressed device mapped read completes =>
      simp only [emit]
      rw [drains_quiet _ (by simp)]
      exact law.fill_any rep read
  | issue empty chosen => exact rep

theorem FrontStep.represents (law : CoherentMemory vm Rep) (step : e.FrontStep vm cfg e')
    (rep : Rep e.world (f.drained (drains e.log))) : Rep e'.world (f.drained (drains e'.log)) := by
  cases step with
  | note => exact rep
  | rename valid inOrder alone room names renames =>
      simp only
      rw [drains_quiet]
      · exact rep
      · split <;> simp
  | compact consumed left => exact rep
  | decode group consumed => exact rep
  | fetch inOrder mapped read answer =>
      obtain ⟨_, _, found, _, after, _⟩ := law.ifetch 4 rep mapped
      cases found.symm.trans read
      exact after
  | skip unmapped => exact rep
  | tick => exact law.sys _ rep rfl

end Engine

/-! ## The value of a load -/

theorem stlfTry_eq {sa sd out : Word} {sw : Nat} {ir : IRInst} (cached : inDram ir.memAddr = true)
    (narrow : ir.memWidth ≤ 8) (narrowStore : sw ≤ 8) :
    stlfTry sa sw sd ir out =
      if Covers sa.toNat sw ir.memAddr.toNat ir.memWidth then
        extend ir.memSign ir.memWidth (sd >>> (8 * (ir.memAddr.toNat - sa.toNat)))
      else out := by
  obtain ⟨_, above⟩ := inDram_iff.mp cached
  have finish : (ir.memAddr + BitVec.ofNat 64 ir.memWidth).toNat = ir.memAddr.toNat + ir.memWidth := by
    rw [BitVec.toNat_add, BitVec.toNat_ofNat]
    omega
  have finishStore : sa.toNat ≤ ir.memAddr.toNat → (sa + BitVec.ofNat 64 sw).toNat = sa.toNat + sw := by
    intro below
    rw [BitVec.toNat_add, BitVec.toNat_ofNat]
    omega
  unfold stlfTry
  by_cases below : sa ≤ ir.memAddr
  · have below' := BitVec.le_def.mp below
    have distance : (ir.memAddr - sa).toNat * 8 = 8 * (ir.memAddr.toNat - sa.toNat) := by
      rw [BitVec.toNat_sub_of_le below]
      omega
    have same : (sa ≤ ir.memAddr ∧ ir.memAddr + BitVec.ofNat 64 ir.memWidth ≤ sa + BitVec.ofNat 64 sw) ↔
        Covers sa.toNat sw ir.memAddr.toNat ir.memWidth := by
      rw [BitVec.le_def, BitVec.le_def, finish, finishStore below']
      rfl
    rw [if_congr same rfl rfl, distance]
  · rw [if_neg fun both => below both.1, if_neg]
    exact fun covers => below (BitVec.le_def.mpr covers.1)

namespace OOOState

variable {o : OOOState}

/-- The stores before slot `i` that have not reached memory: the store buffer, then the reorder buffer. -/
def pendingWrites (o : OOOState) (i : RobIdx) : List Write :=
  o.buffered.map StoreBufEntry.write ++ (o.olderStores i).map ROBEntry.write

/-- The value of the load in slot `i` by program order, over the memory `mem`. -/
def programOrderValue (o : OOOState) (mem : ByteMem) (i : RobIdx) : Word :=
  let ir := (o.rob i).ir
  extend ir.memSign ir.memWidth (loadLE (applyWrites mem (o.pendingWrites i)) ir.memAddr.toNat ir.memWidth)

/-- The newest pending store that reaches into the load contains it; without one the load stays inside its line. -/
def ForwardsExactly (o : OOOState) (i : RobIdx) : Prop :=
  forwardsExactly (o.rob i).ir.memAddr.toNat (o.rob i).ir.memWidth (o.pendingWrites i)
    (decide (InLine (o.rob i).ir.memAddr (o.rob i).ir.memWidth)) = true

instance (o : OOOState) (i : RobIdx) : Decidable (o.ForwardsExactly i) := inferInstanceAs (Decidable (_ = _))

theorem forwardSbuf_eq (buffered : o.Buffered) {ir : IRInst} (cached : inDram ir.memAddr = true)
    (narrow : ir.memWidth ≤ 8) (out : Word) : o.forwardSbuf ir out =
      forward ir.memAddr.toNat ir.memWidth ir.memSign (o.buffered.map StoreBufEntry.write) out := by
  unfold forwardSbuf forward OOOState.buffered
  rw [List.map_map, List.foldl_map]
  apply List.foldl_ext
  intro out i member
  obtain ⟨valid, _, narrowStore⟩ := buffered.entries _ (List.mem_map_of_mem member)
  simp only [valid, ↓reduceIte]
  exact stlfTry_eq cached narrow narrowStore

theorem forwardRob_eq {i : RobIdx} {ir : IRInst}
    (older : ∀ j ∈ o.olderSlots i, (o.rob j).valid = true ∧ (o.rob j).ir.memWidth ≤ 8 ∧
      ((o.rob j).isStore = true → (o.rob j).ready = true))
    (cached : inDram ir.memAddr = true) (narrow : ir.memWidth ≤ 8) (out : Word) : o.forwardRob i ir out =
      forward ir.memAddr.toNat ir.memWidth ir.memSign ((o.olderStores i).map ROBEntry.write) out := by
  unfold forwardRob forward olderStores
  rw [List.foldl_map, List.foldl_filter, List.foldl_map]
  apply List.foldl_ext
  intro out j member
  obtain ⟨valid, narrowStore, ready⟩ := older j member
  cases store : (o.rob j).isStore with
  | true =>
      have opcode : (opcode7Of (o.rob j).ir.raw == 0x23) = true := store
      simp only [valid, ready store, opcode, Bool.and_self, ↓reduceIte]
      exact stlfTry_eq cached narrow narrowStore
  | false =>
      have opcode : (opcode7Of (o.rob j).ir.raw == 0x23) = false := store
      simp [opcode]

/-- The entries older than a live one. -/
theorem Ok.older_entries (ok : o.Ok) (cleared : o.Cleared) {s : Fin 2} (live : o.Live .lsu s)
    (load : opcode7Of (o.slotEntry .lsu s).ir.raw = 0x03) :
    ∀ j ∈ o.olderSlots (o.latch .lsu s).robIdx, (o.rob j).valid = true ∧ (o.rob j).ir.memWidth ≤ 8 ∧
      ((o.rob j).isStore = true → (o.rob j).ready = true) := by
  intro j member
  have older : o.pos j < o.pos (o.latch .lsu s).robIdx := (mem_window_iff (age_lt o.robHead _).le).mp member
  have inside := (ok.inv.renamed.valid _).mp (ok.inv.live_entry live).1
  have valid : (o.rob j).valid = true := (ok.inv.renamed.valid j).mpr (Nat.lt_trans older inside)
  exact ⟨valid, (ok.decoded j valid).1.width, cleared s live load j valid older⟩

/-- A load that has its address is a load by its opcode, of an ordinary width. -/
theorem Ok.addressed_load (ok : o.Ok) {s : Fin 2} (addressed : o.Addressed s)
    (load : (o.slotEntry .lsu s).ir.itype = .load) : opcode7Of (o.slotEntry .lsu s).ir.raw = 0x03 ∧
      ((o.slotEntry .lsu s).ir.memWidth = 1 ∨ (o.slotEntry .lsu s).ir.memWidth = 2 ∨
        (o.slotEntry .lsu s).ir.memWidth = 4 ∨ (o.slotEntry .lsu s).ir.memWidth = 8) := by
  obtain ⟨run, executor, done⟩ := addressed.computed.done
  have kind := pure_itype executor (o.slotEntry .lsu s).ir
  rw [done, load] at kind
  have unit := (ok.inv.placed.latched _ _ addressed.live.valid addressed.live.kept).euType
  have decoded := (ok.decoded _ (ok.inv.live_entry addressed.live).1).1
  have fn : (o.slotEntry .lsu s).ir.execFn = (irSelect (o.slotEntry .lsu s).ir.raw).2.1 := decoded.fn
  refine ⟨opcode7Of_load ?_ (by rw [← fn]; exact kind.symm), ?_⟩
  · unfold classify at unit
    split at unit
    · next memory => exact memory
    · split at unit
      · cases unit
      · cases unit
  · have width := pure_load executor kind.symm (o.slotEntry .lsu s).ir
    rwa [done] at width

/-- The value of a load is forwarded from the pending stores, or else read. -/
theorem Ok.loadValue_forward (ok : o.Ok) (buffered : o.Buffered) (cleared : o.Cleared) {s : Fin 2}
    (addressed : o.Addressed s) (load : (o.slotEntry .lsu s).ir.itype = .load)
    (cached : inDram (o.slotEntry .lsu s).ir.memAddr = true) (raw : Word) :
    o.loadValue s raw = forward (o.slotEntry .lsu s).ir.memAddr.toNat (o.slotEntry .lsu s).ir.memWidth
      (o.slotEntry .lsu s).ir.memSign (o.pendingWrites (o.latch .lsu s).robIdx)
      (extend (o.slotEntry .lsu s).ir.memSign (o.slotEntry .lsu s).ir.memWidth raw) := by
  obtain ⟨opcode, _⟩ := ok.addressed_load addressed load
  have narrow := (ok.decoded _ (ok.inv.live_entry addressed.live).1).1.width
  have older := ok.older_entries cleared addressed.live opcode
  unfold loadValue
  unfold slotEntry at cached narrow
  simp only
  rw [forwardRob_eq older cached narrow, forwardSbuf_eq buffered cached narrow]
  unfold pendingWrites
  rw [← forward_append]
  rfl

/-- A load that forwards exactly gets the value of program order. -/
theorem Ok.loadValue_eq (ok : o.Ok) (buffered : o.Buffered) (cleared : o.Cleared) {s : Fin 2} (addressed : o.Addressed s)
    (load : (o.slotEntry .lsu s).ir.itype = .load) (cached : inDram (o.slotEntry .lsu s).ir.memAddr = true)
    {mem : ByteMem} {raw : Word}
    (read : InLine (o.slotEntry .lsu s).ir.memAddr (o.slotEntry .lsu s).ir.memWidth →
      raw = loadLE mem (o.slotEntry .lsu s).ir.memAddr.toNat (o.slotEntry .lsu s).ir.memWidth)
    (exactly : o.ForwardsExactly (o.latch .lsu s).robIdx) :
    o.loadValue s raw = o.programOrderValue mem (o.latch .lsu s).robIdx := by
  obtain ⟨_, ordinary⟩ := ok.addressed_load addressed load
  rw [ok.loadValue_forward buffered cleared addressed load cached]
  refine forward_eq _ ordinary _ mem _ _ ?_ exactly
  intro inside
  rw [read (of_decide_eq_true inside)]

end OOOState

/-! ## Runs -/

namespace Engine

section Runs

variable {σ β : Type} {vm : VMem σ} {cfg : OooConfig β} {e e' : Engine σ β} {Rep : World σ → Flat → Prop} {f : Flat}

/-- A load of memory that forwards exactly got the value of program order. -/
def Event.Exact (Rep : World σ → Flat → Prop) : Event σ → Prop
  | .fill before world i value => ∃ f, Rep world f ∧ ((before.rob i).ir.itype = .load →
      inDram (before.rob i).ir.memAddr = true → before.ForwardsExactly i → value = before.programOrderValue f.bytes i)
  | _ => True

/-- What holds of memory, the store buffer and the loads of a run. -/
structure LoadsExact (Rep : World σ → Flat → Prop) (f : Flat) (e : Engine σ β) : Prop where
  kept : StoresKept e.ooo e.log
  cleared : e.ooo.Cleared
  memory : (∀ entry ∈ commits e.log, entry.ir.StoresPlainly) →
    Rep e.world (f.drained (drains e.log)) ∧ ∀ event ∈ e.log, Event.Exact Rep event

theorem exact_append {log extra : List (Event σ)} (before : ∀ event ∈ log, Event.Exact Rep event)
    (quiet : ∀ event ∈ extra, ∀ o w i value, event ≠ .fill o w i value) :
    ∀ event ∈ log ++ extra, Event.Exact Rep event := by
  intro event member
  rcases List.mem_append.mp member with old | new
  · exact before event old
  · cases event with
    | fill o w i value => exact absurd rfl (quiet _ new o w i value)
    | pop | drain | commit | logLine | mismatch => trivial

/-- Only a fill adds a load to the log. -/
theorem BackStep.exact (law : CoherentMemory vm Rep) (step : e.BackStep vm cfg e') (ok : e.ooo.Ok)
    (buffered : e.ooo.Buffered) (cleared : e.ooo.Cleared) (rep : Rep e.world f)
    (before : ∀ event ∈ e.log, Event.Exact Rep event) : ∀ event ∈ e'.log, Event.Exact Rep event := by
  cases step with
  | note quiet =>
      refine exact_append before ?_
      rintro event member o w i value rfl
      obtain ⟨_, _, line⟩ := quiet _ member
      cases line
  | drain waiting written => exact exact_append before (by simp)
  | commit live ready ordered sound room stored checked =>
      obtain ⟨extra, log, quiet⟩ := (commits_of_checked stored checked).log
      rw [log]
      refine exact_append before ?_
      rintro event member o w i value rfl
      rcases List.mem_cons.mp member with commit | other
      · cases commit
      · obtain ⟨_, mismatch⟩ := quiet _ other
        cases mismatch
  | fill addressed device mapped read completes =>
      intro event member
      rcases List.mem_append.mp member with old | new
      · exact before event old
      · rw [List.mem_singleton.mp new]
        refine ⟨f, rep, ?_⟩
        intro load cached exactly
        apply ok.loadValue_eq buffered cleared addressed load cached ?_ exactly
        obtain ⟨_, _, found, _, _, value⟩ := law.fillAndRead _ rep cached
        cases found.symm.trans read
        exact value
  | timer | exec | redirect | count | discard | address | storeDone | delay | probe | miss | loadFault | issue =>
      exact before

theorem BackStep.loadsExact (law : CoherentMemory vm Rep) (step : e.BackStep vm cfg e') (ok : e.ooo.Ok)
    (loads : e.LoadsExact Rep f) : e'.LoadsExact Rep f := by
  refine ⟨step.storesKept ok loads.kept, step.cleared ok loads.cleared, ?_⟩
  intro plain
  obtain ⟨extra, log⟩ := step.log_extends
  obtain ⟨rep, before⟩ := loads.memory fun entry member => plain entry (log ▸ commits_mem_append extra member)
  exact ⟨step.represents law loads.kept plain rep, step.exact law ok loads.kept.buffered loads.cleared rep before⟩

theorem FrontStep.loadsExact (law : CoherentMemory vm Rep) (step : e.FrontStep vm cfg e') (ok : e.ooo.Ok)
    (loads : e.LoadsExact Rep f) : e'.LoadsExact Rep f := by
  refine ⟨step.storesKept loads.kept, step.cleared ok loads.cleared, ?_⟩
  intro plain
  obtain ⟨extra, log⟩ := step.log_extends
  obtain ⟨rep, before⟩ := loads.memory fun entry member => plain entry (log ▸ commits_mem_append extra member)
  refine ⟨step.represents law rep, ?_⟩
  cases step with
  | rename valid inOrder alone room names renames =>
      refine exact_append before ?_
      split <;> simp
  | note | compact | decode | fetch | skip | tick => exact before

variable (cfg) in
theorem init_loadsExact (cpu : CPUState) {world : World σ} (rep : Rep world f) (bpred : β) :
    (Engine.init cfg cpu world bpred).LoadsExact Rep f :=
  ⟨oooInit_storesKept cpu, fun _ live => (nomatch live.valid), fun _ => ⟨rep, fun _ absurdity => nomatch absurdity⟩⟩

variable {δ : Type} (devices : Devices δ)

/-- In every single-core run without aliasing stores, a load of memory that forwards exactly gets the value that
program order gives it: the cached memory, then the store buffer, then the older stores of the reorder buffer. -/
theorem loads_forward (cfg : OooConfig β) (cpu : CPUState) (sys : Sys) (hart : sys.hartid = 0) (pmem : ByteMem) (dev : δ)
    (bpred : β) (k : Nat) (e : Engine (MemState δ) β)
    (done : run (hierarchy ⟨1, prefetchHint, devices⟩) cfg k
      (Engine.init cfg cpu ⟨sys, MemState.init pmem dev⟩ bpred) = some e)
    (plain : ∀ entry ∈ commits e.log, entry.ir.StoresPlainly) :
    ∀ before world i value, Event.fill before world i value ∈ e.log → (before.rob i).ir.itype = .load →
      inDram (before.rob i).ir.memAddr = true → before.ForwardsExactly i →
        value = before.programOrderValue (world.mem.content 0) i := by
  have law : CoherentMemory (hierarchy ⟨1, prefetchHint, devices⟩)
      fun w f => Represents ⟨1, prefetchHint, devices⟩ f w := hierarchy_coherent rfl
  have start : (Engine.init cfg cpu ⟨sys, MemState.init pmem dev⟩ bpred).LoadsExact
      (fun w f => Represents ⟨1, prefetchHint, devices⟩ f w) ⟨pmem, ∅⟩ :=
    init_loadsExact cfg cpu ⟨init_represents _ pmem dev, fun _ => hart⟩ bpred
  have reached := (run_keeps (P := LoadsExact _ _) (fun _ _ ok holds step => step.loadsExact law ok holds)
    (fun _ _ ok holds step => step.loadsExact law ok holds) (oooInit_ok cpu) (oooInit_tidy cpu) start done).2.2
  intro before world i value member load cached exactly
  obtain ⟨f, rep, same⟩ := (reached.memory plain).2 _ member
  rw [rep.content (Nat.le_refl 1)]
  exact same load cached exactly

end Runs

end Engine

/-- The instruction of a fill and the value it got, with what program order gives, whether it is a load of memory
and whether it forwards exactly. -/
def Event.loaded {δ : Type} : Event (MemState δ) → Option (Word × Word × Word × Bool × Bool)
  | .fill before world i value => some ((before.rob i).ir.pc, value,
      before.programOrderValue (world.mem.content 0) i,
      (before.rob i).ir.itype == .load && inDram (before.rob i).ir.memAddr, decide (before.ForwardsExactly i))
  | _ => none

/-- The instruction a commit retires and the value it writes. -/
def Event.written {σ : Type} : Event σ → Option (Word × Word)
  | .commit entry value => some (entry.ir.pc, value)
  | _ => none

/-- `auipc x5, 0`, `lw x8, 0x38(x5)`, `addi x6, x0, 1`, the two given accesses, and then `nop`s. -/
def forwardProgram (store load : Raw) : List Raw :=
  [0x00000297, 0x0382a403, 0x00100313, store, load] ++ List.replicate 59 0x00000013

/-- `sw x6, 0x38(x5)` and then `lhu x7, 0x38(x5)`: the store contains the load. -/
theorem Engine.loads_forward_contained : ∃ e before world i,
    bootRun (forwardProgram 0x0262ac23 0x0382d383) 13 = some e ∧ Event.fill before world i 1 ∈ e.log ∧
      (before.rob i).ir.pc = 0x80000010 ∧ 1 = before.programOrderValue (world.mem.content 0) i := by
  have reached : (bootRun (forwardProgram 0x0262ac23 0x0382d383) 13).any (fun e =>
      e.log.any (fun event => event.loaded == some (0x80000010, 1, 1, true, true)) &&
        (commits e.log).all fun entry => decide entry.ir.StoresPlainly) = true := by
    decide +kernel
  obtain ⟨e, done, holds⟩ := (Option.any_eq_true _ _).mp reached
  obtain ⟨found, plain⟩ := Bool.and_eq_true_iff.mp holds
  obtain ⟨event, member, same⟩ := List.any_eq_true.mp found
  cases event with
  | fill before world i value =>
      simp only [Event.loaded, beq_iff_eq, Option.some.injEq, Prod.mk.injEq, Bool.and_eq_true, decide_eq_true_eq] at same
      obtain ⟨atPc, rfl, _, ⟨load, cached⟩, exactly⟩ := same
      refine ⟨e, before, world, i, done, member, atPc, ?_⟩
      refine Engine.loads_forward Devices.none .solo _ Sys.init rfl _ () () 13 e done ?_ before world i 1 member load cached
        exactly
      exact fun entry inside => of_decide_eq_true (List.all_eq_true.mp plain entry inside)
  | pop | drain | commit | logLine | mismatch => cases same

/-- `sb x6, 0x38(x5)` and then `lw x7, 0x38(x5)`: the load reads the old word and commits it, although the store
is older and changes its low byte. -/
theorem partial_overlap_lost : ∃ e before world i,
    bootRun (forwardProgram 0x02628c23 0x0382a383) 16 = some e ∧ Event.fill before world i 0x13 ∈ e.log ∧
      (before.rob i).ir.pc = 0x80000010 ∧ (before.rob i).ir.itype = .load ∧
      inDram (before.rob i).ir.memAddr = true ∧ before.programOrderValue (world.mem.content 0) i = 1 ∧
      ∃ event ∈ e.log, event.written = some (0x80000010, 0x13) := by
  have reached : (bootRun (forwardProgram 0x02628c23 0x0382a383) 16).any (fun e =>
      e.log.any (fun event => event.loaded == some (0x80000010, 0x13, 1, true, false)) &&
        e.log.any fun event => event.written == some (0x80000010, 0x13)) = true := by
    decide +kernel
  obtain ⟨e, done, holds⟩ := (Option.any_eq_true _ _).mp reached
  obtain ⟨found, committed⟩ := Bool.and_eq_true_iff.mp holds
  obtain ⟨event, member, same⟩ := List.any_eq_true.mp found
  obtain ⟨last, memberLast, sameLast⟩ := List.any_eq_true.mp committed
  cases event with
  | fill before world i value =>
      simp only [Event.loaded, beq_iff_eq, Option.some.injEq, Prod.mk.injEq, Bool.and_eq_true] at same
      obtain ⟨atPc, rfl, ordered, ⟨load, cached⟩, _⟩ := same
      exact ⟨e, before, world, i, done, member, atPc, load, cached, ordered, last, memberLast, by simpa using sameLast⟩
  | pop | drain | commit | logLine | mismatch => cases same

end Sustemu
