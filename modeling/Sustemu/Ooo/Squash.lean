import Sustemu.Ooo.Devices

/-!
# Squashed instructions

Apart from commit, the store buffer and the clock, no phase of a cycle changes
registers, system registers, devices, the store buffer or memory, unless it
acts for the oldest instruction, which no flush removes. What a squashed
instruction does leave behind is its trace in the caches, and with it in their
performance counters.
-/

set_option autoImplicit false

namespace Sustemu

open Lib Engine

/-! ## Serialising instructions are the oldest -/

namespace OOOState

variable {o o' : OOOState}

/-- A serialising instruction has nothing before it. -/
def SerialOldest (o : OOOState) : Prop :=
  ∀ i, (o.rob i).valid = true → (irSelect (o.rob i).ir.raw).2.2 = true → i = o.robHead

theorem SerialOldest.keep (serial : o.SerialOldest) (head : o'.robHead = o.robHead)
    (entries : ∀ i, (o'.rob i).valid = true → (o.rob i).valid = true ∧ (o'.rob i).ir.raw = (o.rob i).ir.raw) :
    o'.SerialOldest := by
  intro i valid serializing
  obtain ⟨before, raw⟩ := entries i valid
  rw [raw] at serializing
  rw [head]
  exact serial i before serializing

theorem SerialOldest.same (serial : o.SerialOldest) (rob : o'.rob = o.rob) (head : o'.robHead = o.robHead) :
    o'.SerialOldest := by
  refine serial.keep head ?_
  intro i valid
  rw [rob] at valid ⊢
  exact ⟨valid, rfl⟩

theorem SerialOldest.update (serial : o.SerialOldest) {i : RobIdx} {entry : ROBEntry}
    (rob : o'.rob = setAt o.rob i entry) (head : o'.robHead = o.robHead)
    (valid : (o.rob i).valid = true) (raw : entry.ir.raw = (o.rob i).ir.raw) : o'.SerialOldest := by
  refine serial.keep head ?_
  intro j validJ
  rw [rob] at validJ ⊢
  by_cases here : j = i
  · rw [here, setAt_self]
    exact ⟨valid, raw⟩
  · rw [setAt_of_ne here] at validJ ⊢
    exact ⟨validJ, rfl⟩

theorem SerialOldest.flushes (serial : o.SerialOldest) {b : RobIdx} (flushes : o.Flushes b o') : o'.SerialOldest := by
  refine serial.keep flushes.head ?_
  intro i valid
  by_cases older : o.pos i ≤ o.pos b
  · rw [flushes.older i older] at valid ⊢
    exact ⟨valid, rfl⟩
  · rw [flushes.newer i (Nat.lt_of_not_le older)] at valid
    cases valid

theorem SerialOldest.afterCommit (serial : o.SerialOldest) : o.afterCommit.SerialOldest := by
  intro i valid serializing
  rw [o.afterCommit_frame.rob] at valid serializing
  by_cases here : i = o.robHead
  · rw [here, setAt_self] at valid
    cases valid
  · rw [setAt_of_ne here] at valid serializing
    exact absurd (serial i valid serializing) here

theorem SerialOldest.rename (serial : o.SerialOldest) (inv : o.Inv) {ir : IRInst} {seq : Nat} {slot : RsIdx}
    (alone : (irSelect ir.raw).2.2 = true → o.robCount = 0) (renames : o.Renames ir seq slot o') : o'.SerialOldest := by
  intro i valid serializing
  rw [renames.rob] at valid serializing
  rw [renames.head]
  by_cases here : i = o.robTail
  · rw [here, setAt_self] at serializing
    rw [here, inv.renamed.tail, alone serializing]
    exact add_zero _
  · rw [setAt_of_ne here] at valid serializing
    exact serial i valid serializing

end OOOState

section Steps

variable {σ β : Type} {vm : VMem σ} {cfg : OooConfig β} {e e' : Engine σ β}

theorem Engine.BackStep.serialOldest (step : e.BackStep vm cfg e') (ok : e.ooo.Ok) (serial : e.ooo.SerialOldest) :
    e'.ooo.SerialOldest := by
  cases step with
  | commit live ready ordered sound room stored checked =>
      rw [(commits_of_checked stored checked).ooo]
      exact serial.afterCommit
  | exec bpred fault unit live run completes faulted resolved =>
      obtain ⟨inst, _⟩ := executed_sameInst ok.inv live run
      exact serial.update completes.rob completes.head (ok.inv.live_entry live).1 inst.raw
  | redirect live run completes control wrong target =>
      obtain ⟨inst, _⟩ := executed_sameInst ok.inv live run
      have executed := serial.update completes.rob completes.head (ok.inv.live_entry live).1 inst.raw
      exact (executed.flushes (redirect_flushes ok live run completes).2).same rfl rfl
  | address live first executor =>
      obtain ⟨inst, _⟩ := pure_sameInst (operands e.ooo (e.ooo.latch .lsu _)) executor
      exact serial.update rfl rfl (ok.inv.live_entry live).1 inst.raw
  | storeDone live computed store completes =>
      exact serial.update completes.rob completes.head (ok.inv.live_entry live).1 rfl
  | loadFault addressed outside completes =>
      exact serial.update completes.rob completes.head (ok.inv.live_entry addressed.live).1 rfl
  | fill addressed device mapped read completes =>
      exact serial.update completes.rob completes.head (ok.inv.live_entry addressed.live).1 rfl
  | _ => exact serial.same rfl rfl

theorem Engine.FrontStep.serialOldest (step : e.FrontStep vm cfg e') (ok : e.ooo.Ok) (serial : e.ooo.SerialOldest) :
    e'.ooo.SerialOldest := by
  cases step with
  | rename valid inOrder alone room names renames =>
      refine (serial.rename ok.inv ?_ renames).same rfl rfl
      intro serializing
      refine (alone ?_).1
      rw [(ok.idRn _ valid).serializing]
      exact serializing
  | _ => exact serial.same rfl rfl

/-- An executor that touches the system registers is serialising. -/
theorem serializing_of_not_pure {raw : Raw} (system : (irSelect raw).2.1.pure = none) : (irSelect raw).2.2 = true := by
  have table : ∀ selected ∈ selections, selected.2.1.pure.isNone = true → selected.2.2 = true := by decide +kernel
  exact table _ (irSelect_mem raw) (by rw [system]; rfl)

/-- Executing an instruction that is not the oldest leaves the system registers alone. -/
theorem irExecute_sys (ok : e.ooo.Ok) (serial : e.ooo.SerialOldest) {eu : EU} {s : Fin 2} (live : e.ooo.Live eu s)
    {perf : Perf} {ir : IRInst} {sys sys' : Sys}
    (run : irExecute perf (operands e.ooo (e.ooo.latch eu s)) sys = some (ir, sys')) :
    sys' = sys ∨ (e.ooo.latch eu s).robIdx = e.ooo.robHead := by
  have valid := (ok.inv.live_entry live).1
  have fn : (operands e.ooo (e.ooo.latch eu s)).execFn = (irSelect (e.ooo.slotEntry eu s).ir.raw).2.1 :=
    (ok.decoded _ valid).1.fn
  unfold irExecute at run
  split at run
  · cases run
    exact .inl rfl
  · next system =>
      rw [fn] at system
      exact .inr (serial _ valid (serializing_of_not_pure system))

end Steps

/-! ## What a phase leaves alone -/

section Quiet

variable {δ β : Type} {mem : MemConfig δ} {w w' w'' : World (MemState δ)} {cfg : OooConfig β}
  {e e' e'' : Engine (MemState δ) β}

/-- System registers, devices and the represented memory are the same. -/
structure WorldQuiet (mem : MemConfig δ) (w w' : World (MemState δ)) : Prop where
  sys : w'.sys = w.sys
  dev : w'.mem.dev = w.mem.dev
  memory : ∀ f, Represents mem f w → Represents mem f w'

theorem WorldQuiet.refl (w : World (MemState δ)) : WorldQuiet mem w w := ⟨rfl, rfl, fun _ => id⟩

theorem WorldQuiet.trans (first : WorldQuiet mem w w') (second : WorldQuiet mem w' w'') : WorldQuiet mem w w'' :=
  ⟨second.sys.trans first.sys, second.dev.trans first.dev, fun f rep => second.memory f (first.memory f rep)⟩

theorem vaddrRead_sys {addr value : Word} {len : Nat} (cached : inDram addr = true)
    (read : vaddrRead mem w addr len = some (value, w')) : w'.sys = w.sys := by
  unfold vaddrRead at read
  rw [if_pos cached] at read
  cases read
  rfl

theorem vaddrRead_quiet (hint : mem.prefetchHint = prefetchHint) {addr value : Word} {len : Nat}
    (cached : inDram addr = true) (read : vaddrRead mem w addr len = some (value, w')) : WorldQuiet mem w w' := by
  refine ⟨vaddrRead_sys cached read, vaddrRead_dev cached read, ?_⟩
  intro f rep
  obtain ⟨_, _, done, _, after, _⟩ := (hierarchy_coherent hint).read len rep cached
  cases done.symm.trans read
  exact after

theorem vaddrIfetch_quiet (hint : mem.prefetchHint = prefetchHint) {addr value : Word} {len : Nat}
    (cached : inDram addr = true) (read : vaddrIfetch mem w addr len = some (value, w')) : WorldQuiet mem w w' := by
  refine ⟨?_, vaddrIfetch_dev cached read, ?_⟩
  · unfold vaddrIfetch at read
    rw [if_pos cached] at read
    cases read
    rfl
  · intro f rep
    obtain ⟨_, _, done, _, after, _⟩ := (hierarchy_coherent hint).ifetch len rep cached
    cases done.symm.trans read
    exact after

theorem vaddrProbeLevel_quiet (w : World (MemState δ)) (addr : Word) : WorldQuiet mem w (vaddrProbeLevel w addr).2 := by
  refine ⟨?_, vaddrProbeLevel_dev w addr, fun f rep => (vaddrProbeLevel_spec rep addr).1⟩
  unfold vaddrProbeLevel
  split
  · rfl
  · rfl

/-- The store buffer. -/
def OOOState.storeBuf (o : OOOState) : (SbufIdx → StoreBufEntry) × SbufIdx × SbufIdx × Nat :=
  (o.sbuf, o.sbufHead, o.sbufTail, o.sbufCount)

/-- Registers, store buffer and the rest of the machine are the same. -/
structure Quiet (mem : MemConfig δ) (e e' : Engine (MemState δ) β) : Prop where
  cpu : e'.cpu = e.cpu
  stores : e'.ooo.storeBuf = e.ooo.storeBuf
  world : WorldQuiet mem e.world e'.world

theorem Quiet.refl (e : Engine (MemState δ) β) : Quiet mem e e := ⟨rfl, rfl, .refl _⟩

theorem Quiet.trans (first : Quiet mem e e') (second : Quiet mem e' e'') : Quiet mem e e'' :=
  ⟨second.cpu.trans first.cpu, second.stores.trans first.stores, first.world.trans second.world⟩

theorem OOOState.storeBuf_congr {o o' : OOOState}
    (stores : o'.sbuf = o.sbuf ∧ o'.sbufHead = o.sbufHead ∧ o'.sbufTail = o.sbufTail ∧ o'.sbufCount = o.sbufCount) :
    o'.storeBuf = o.storeBuf := by
  obtain ⟨sbuf, head, tail, count⟩ := stores
  unfold OOOState.storeBuf
  rw [sbuf, head, tail, count]

end Quiet

/-! ## Functional units -/

section Slots

variable {δ β : Type} {mem : MemConfig δ} {cfg : OooConfig β} {e e' : Engine (MemState δ) β}

/-- The instruction in a slot is the oldest one. -/
def OOOState.Oldest (o : OOOState) (eu : EU) (s : Fin 2) : Prop := o.Live eu s ∧ (o.latch eu s).robIdx = o.robHead

theorem OOOState.storeBuf_flushAfter (o : OOOState) (b : RobIdx) : (o.flushAfter b).storeBuf = o.storeBuf :=
  OOOState.storeBuf_congr (OOOState.rollback_frame (o.robTail - (b + 1)).val o).stores

theorem resolveBranch_unseen (e : Engine (MemState δ) β) (i : RobIdx) (ir : IRInst) :
    Quiet mem e (e.resolveBranch cfg i ir) := by
  rcases resolveBranch_cases cfg e i ir with ⟨_, done⟩ | ⟨_, done⟩ | ⟨_, _, done⟩
  · rw [done]
    exact ⟨rfl, rfl, .refl _⟩
  · rw [done]
    exact ⟨rfl, rfl, .refl _⟩
  · rw [done]
    exact ⟨rfl, e.ooo.storeBuf_flushAfter i, .refl _⟩

variable (mem) in
theorem finishExec_unseen (ok : e.ooo.Ok) {eu : EU} {s : Fin 2} (live : e.ooo.Live eu s) (ir : IRInst) :
    Quiet mem e { e.setSys e.world.sys with
      ooo := (e.ooo.dropLatch eu s).finishExec (e.ooo.latch eu s).robIdx (e.ooo.latch eu s).physRd ir } :=
  ⟨rfl, OOOState.storeBuf_congr (ok.inv.completes_finishExec live ir).stores, .refl _⟩

theorem intSlot_unseen (ok : e.ooo.Ok) (serial : e.ooo.SerialOldest) {s : Fin 2}
    (done : e.intSlot (hierarchy mem) cfg s = some e') : Quiet mem e e' ∨ e.ooo.Oldest .int s := by
  unfold intSlot at done
  simp only at done
  split at done
  · cases done
    exact .inl (.refl _)
  · next valid =>
      have live : e.ooo.Live .int s := live_of_valid ok.inv (by decide) (by simpa using valid)
      split at done
      · cases done
        exact .inl ⟨rfl, rfl, .refl _⟩
      · obtain ⟨⟨ir, sys⟩, run, same⟩ := Option.map_eq_some_iff.mp done
        rcases irExecute_sys ok serial live run with unchanged | oldest
        · left
          rw [← same, unchanged]
          have finished := finishExec_unseen mem ok live ir
          simp only
          split
          · exact finished.trans (resolveBranch_unseen _ _ _)
          · exact finished
        · exact .inr ⟨live, oldest⟩

theorem mulFinish_unseen (ok : e.ooo.Ok) (serial : e.ooo.SerialOldest) {s : Fin 2} (live : e.ooo.Live .mul s)
    (done : e.mulFinish (hierarchy mem) s = some e') : Quiet mem e e' ∨ e.ooo.Oldest .mul s := by
  unfold mulFinish at done
  simp only at done
  split at done
  · cases done
    exact .inl ⟨rfl, rfl, .refl _⟩
  · obtain ⟨⟨ir, sys⟩, run, same⟩ := Option.map_eq_some_iff.mp done
    rcases irExecute_sys ok serial live run with unchanged | oldest
    · left
      rw [← same, unchanged]
      exact finishExec_unseen mem ok live ir
    · exact .inr ⟨live, oldest⟩

theorem mulSlot_unseen (ok : e.ooo.Ok) (serial : e.ooo.SerialOldest) {s : Fin 2}
    (done : e.mulSlot (hierarchy mem) s = some e') : Quiet mem e e' ∨ e.ooo.Oldest .mul s := by
  cases mulSlot_visit ok done with
  | idle same =>
      rw [same]
      exact .inl (.refl _)
  | count live same =>
      rw [same]
      exact .inl ⟨rfl, rfl, .refl _⟩
  | @first cycles live finished =>
      obtain ⟨ok', slot, live'⟩ := live_counted ok live cycles
      have serial' : (e.ooo.setLatch .mul s { e.ooo.latch .mul s with cyclesRem := cycles }).SerialOldest := serial.same rfl rfl
      rcases mulFinish_unseen (e := { e with ooo := e.ooo.setLatch .mul s { e.ooo.latch .mul s with cyclesRem := cycles } })
        ok' serial' live' finished with quiet | ⟨_, oldest⟩
      · exact .inl ⟨quiet.cpu, quiet.stores, quiet.world⟩
      · rw [slot] at oldest
        exact .inr ⟨live, oldest⟩
  | last live finished => exact mulFinish_unseen ok serial live finished

theorem phys_of_below {addr : Word} (below : addr < mmioBase) : addr &&& 0xffffffff = addr := by
  rw [BitVec.lt_def] at below
  change addr.toNat < 0xa0000000 at below
  apply BitVec.eq_of_toNat_eq
  rw [BitVec.toNat_and]
  change addr.toNat &&& (2 ^ 32 - 1) = addr.toNat
  rw [Nat.and_two_pow_sub_one_eq_mod, Nat.mod_eq_of_lt (by omega)]

/-- A load reads through the cache or is the oldest instruction. -/
theorem lsuFill_unseen (hint : mem.prefetchHint = prefetchHint) (ok : e.ooo.Ok) {s : Fin 2} {mshr : Option MshrIdx}
    (live : e.ooo.Live .lsu s)
    (device : mmioBase ≤ (e.ooo.slotEntry .lsu s).ir.memAddr → (e.ooo.latch .lsu s).robIdx = e.ooo.robHead)
    (done : e.lsuFill (hierarchy mem) s mshr = some e') : Quiet mem e e' ∨ e.ooo.Oldest .lsu s := by
  unfold lsuFill at done
  simp only at done
  split at done
  · cases done
    exact .inl ⟨rfl, OOOState.storeBuf_congr (ok.inv.completes_lsuFault live).stores, .refl _⟩
  · next mapped =>
      obtain ⟨⟨raw, world⟩, read, same⟩ := Option.map_eq_some_iff.mp done
      by_cases above : mmioBase ≤ (e.ooo.slotEntry .lsu s).ir.memAddr
      · exact .inr ⟨live, device above⟩
      · left
        have below : (e.ooo.slotEntry .lsu s).ir.memAddr < mmioBase := BitVec.not_le.mp above
        have cached : inDram (e.ooo.slotEntry .lsu s).ir.memAddr = true := by
          simp only [Bool.and_eq_true, Bool.not_eq_true', decide_eq_true_eq, not_and] at mapped
          have phys : (e.ooo.rob (e.ooo.latch .lsu s).robIdx).ir.memAddr &&& 0xffffffff = _ := phys_of_below below
          by_contra outside
          rw [phys] at mapped
          exact mapped (Bool.eq_false_of_not_eq_true outside) below
        rw [← same]
        exact ⟨rfl, OOOState.storeBuf_congr (ok.inv.completes_lsuFinish live mshr _).stores,
          vaddrRead_quiet hint cached read⟩

theorem lsuFlushed_unseen (hint : mem.prefetchHint = prefetchHint) (lines : e.ooo.LinesCached) {s : Fin 2}
    (valid : (e.ooo.latch .lsu s).valid = true) (done : e.lsuFlushed (hierarchy mem) s = some e') : Quiet mem e e' := by
  unfold lsuFlushed at done
  simp only at done
  split at done
  · cases done
    exact ⟨rfl, rfl, .refl _⟩
  · next m missed =>
      split at done
      · cases done
        exact .refl _
      · obtain ⟨⟨value, world⟩, filled, same⟩ := Option.map_eq_some_iff.mp done
        obtain ⟨mshr, released, _⟩ := e.ooo.mshrRelease_eq s m
        rw [← same, released]
        exact ⟨rfl, rfl, vaddrRead_quiet hint (lines s m valid missed) filled⟩

theorem lsuStart_unseen (hint : mem.prefetchHint = prefetchHint) (ok : e.ooo.Ok) {s : Fin 2} (live : e.ooo.Live .lsu s)
    (done : e.lsuStart (hierarchy mem) s = some e') : Quiet mem e e' ∨ e.ooo.Oldest .lsu s := by
  unfold lsuStart at done
  simp only at done
  split at done
  · cases done
    exact .inl ⟨rfl, rfl, .refl _⟩
  · split at done
    · split at done
      · cases done
        exact .inl ⟨rfl, rfl, .refl _⟩
      · next head => exact lsuFill_unseen hint ok live (fun _ => by simpa using head) done
    · next cached =>
        have probed : Quiet mem e
            { e with world := ((hierarchy mem).probeLevel e.world (e.ooo.slotEntry .lsu s).ir.memAddr).2 } :=
          ⟨rfl, rfl, vaddrProbeLevel_quiet _ _⟩
        split at done
        · rcases lsuFill_unseen
              (e := { e with world := ((hierarchy mem).probeLevel e.world (e.ooo.slotEntry .lsu s).ir.memAddr).2 })
              hint ok live (fun above => absurd above cached) done with quiet | oldest
          · exact .inl (probed.trans quiet)
          · exact .inr oldest
        · left
          rcases mshrFindOrAlloc_cases e.ooo ((e.ooo.slotEntry .lsu s).ir.memAddr &&& ~~~(63 : Word))
            (levelToLat ((hierarchy mem).probeLevel e.world (e.ooo.slotEntry .lsu s).ir.memAddr).1) with
            full | ⟨m, mshr, allocated, _, _⟩
          · unfold OOOState.slotEntry at full
            rw [full] at done
            cases done
            exact probed
          · unfold OOOState.slotEntry at allocated
            rw [allocated] at done
            cases done
            exact ⟨rfl, rfl, probed.world⟩

variable (cfg) in
include cfg in
theorem lsuSlot_unseen (hint : mem.prefetchHint = prefetchHint) (ok : e.ooo.Ok) (lines : e.ooo.LinesCached) {s : Fin 2}
    (done : e.lsuSlot (hierarchy mem) s = some e') : Quiet mem e e' ∨ e.ooo.Oldest .lsu s := by
  cases lsuSlot_visit cfg ok done with
  | idle same =>
      rw [same]
      exact .inl (.refl _)
  | flushed valid flushed done => exact .inl (lsuFlushed_unseen hint lines valid done)
  | first live hit executor same step computed started =>
      have ok' := step.ok ok
      subst same
      rcases lsuStart_unseen hint ok' ⟨live.valid, live.kept⟩ started with quiet | ⟨_, oldest⟩
      · exact .inl ⟨quiet.cpu, quiet.stores, quiet.world⟩
      · exact .inr ⟨live, oldest⟩
  | waited addressed hit head filled => exact lsuFill_unseen hint ok addressed.live (fun _ => head) filled
  | missed addressed index cached filled =>
      exact lsuFill_unseen hint ok addressed.live (fun above => absurd above (BitVec.not_le.mpr cached)) filled

end Slots

/-! ## The other phases -/

section Phases

variable {δ β : Type} {mem : MemConfig δ} {cfg : OooConfig β} {e e' : Engine (MemState δ) β}

theorem OOOState.storeBuf_issueSlot (eu : EU) (o : OOOState) (s : Fin 2) : (issueSlot eu o s).storeBuf = o.storeBuf := by
  unfold issueSlot
  split
  · rfl
  · split
    · rfl
    · rfl

theorem OOOState.storeBuf_issueUnit (o : OOOState) (eu : EU) : (o.issueUnit eu).storeBuf = o.storeBuf := by
  unfold issueUnit
  cases eu with
  | int | mul | lsu => simp only [EU.slots, List.foldl_cons, List.foldl_nil, storeBuf_issueSlot]

theorem OOOState.storeBuf_stageIs (o : OOOState) : o.stageIs.storeBuf = o.storeBuf := by
  unfold stageIs
  rw [storeBuf_issueUnit, storeBuf_issueUnit, storeBuf_issueUnit]

theorem renameSlot_unseen {n : Fin 2} (done : e.renameSlot n = some e') : Quiet mem e e' := by
  obtain ⟨o, renamed, same⟩ := Option.map_eq_some_iff.mp done
  obtain ⟨slot, renames⟩ := OOOState.renames_of_renameInst renamed
  rw [← same]
  exact ⟨rfl, OOOState.storeBuf_congr renames.sbuf, .refl _⟩

variable (mem) in
theorem renameLoop_unseen {slots : List (Fin 2)} {used : Nat} (done : renameLoop slots used e = some e') :
    Quiet mem e e' := by
  induction slots generalizing e used with
  | nil =>
      cases done
      exact .refl _
  | cons n rest ih =>
      unfold renameLoop at done
      split at done
      · cases done
        exact .refl _
      · split at done
        · cases done
          exact ⟨rfl, rfl, .refl _⟩
        · obtain ⟨e₁, first, rest⟩ := Option.bind_eq_some_iff.mp done
          exact (renameSlot_unseen first).trans (ih rest)

theorem stageRn_unseen (done : e.stageRn = some e') : Quiet mem e e' := by
  unfold stageRn at done
  split at done
  · cases done
    exact .refl _
  · obtain ⟨e₁, renamed, same⟩ := Option.map_eq_some_iff.mp done
    rw [← same]
    have quiet := renameLoop_unseen mem renamed
    unfold compact
    split
    · exact ⟨quiet.cpu, quiet.stores, quiet.world⟩
    · exact quiet

theorem stageId_unseen (e : Engine (MemState δ) β) : Quiet mem e e.stageId := by
  unfold stageId
  simp only
  split
  · exact .refl _
  · exact ⟨rfl, rfl, .refl _⟩

theorem fetchSlot_unseen (hint : mem.prefetchHint = prefetchHint) {s : Fin 2} {goesOn : Bool}
    (done : e.fetchSlot (hierarchy mem) cfg s = some (e', goesOn)) : Quiet mem e e' := by
  unfold fetchSlot at done
  simp only at done
  split at done
  · cases done
    exact ⟨rfl, rfl, .refl _⟩
  · next mapped =>
      obtain ⟨⟨word, world⟩, read, same⟩ := Option.map_eq_some_iff.mp done
      have quiet := vaddrIfetch_quiet hint (by simpa using mapped) read
      simp only at same
      split at same
      · split at same
        · cases same
          exact ⟨rfl, rfl, quiet⟩
        · cases same
          exact ⟨rfl, rfl, quiet⟩
      · cases same
        exact ⟨rfl, rfl, quiet⟩

theorem fetchLoop_unseen (hint : mem.prefetchHint = prefetchHint) {slots : List (Fin 2)}
    (done : fetchLoop (hierarchy mem) cfg slots e = some e') : Quiet mem e e' := by
  induction slots generalizing e with
  | nil =>
      cases done
      exact .refl _
  | cons s rest ih =>
      obtain ⟨⟨e₁, more⟩, first, rest⟩ := Option.bind_eq_some_iff.mp done
      have quiet := fetchSlot_unseen hint first
      simp only at rest
      split at rest
      · exact quiet.trans (ih rest)
      · cases rest
        exact quiet

theorem stageIf_unseen (hint : mem.prefetchHint = prefetchHint) (done : e.stageIf (hierarchy mem) cfg = some e') :
    Quiet mem e e' := by
  unfold stageIf at done
  split at done
  · cases done
    exact .refl _
  · exact fetchLoop_unseen hint done

variable (mem) in
/-- A commit phase that commits nothing is quiet. -/
theorem commitLoop_unseen {turns : Nat} (done : commitLoop (hierarchy mem) cfg turns e = some e') :
    Quiet mem e e' ∨ commits e'.log ≠ commits e.log := by
  cases turns with
  | zero =>
      cases done
      exact .inl (.refl _)
  | succ turns =>
      simp only [commitLoop, Option.bind_eq_bind, Option.bind_eq_some_iff] at done
      obtain ⟨⟨e₁, goesOn⟩, one, rest⟩ := done
      obtain ⟨tcIr, lines, quiet, ⟨stops, same⟩ | ⟨_, step⟩⟩ := commitOne_cases one
      · subst stops
        cases rest
        rw [same]
        exact .inl ⟨rfl, rfl, .refl _⟩
      · right
        obtain ⟨extra, first, _⟩ := step.log
        have later : ∃ extra, e'.log = e₁.log ++ extra := by
          simp only at rest
          split at rest
          · exact backSteps_log (commitLoop_steps rest)
          · cases rest
            exact ⟨[], (List.append_nil _).symm⟩
        obtain ⟨extra', log⟩ := later
        intro same
        have counted := congrArg List.length same
        rw [log, first] at counted
        simp only [commits_append, List.length_append] at counted
        simp only [commits, List.filterMap_cons, List.length_cons] at counted
        omega

/-- What the phases other than the clock may change, and for which instruction. -/
theorem phase_unseen (hint : mem.prefetchHint = prefetchHint) (ok : e.ooo.Ok) (serial : e.ooo.SerialOldest)
    (lines : e.ooo.LinesCached) {phase : Phase} (done : phase.step (hierarchy mem) cfg e = some e') :
    Quiet mem e e' ∨ phase = .drain ∨ phase = .commit ∧ commits e'.log ≠ commits e.log ∨ phase = .tick ∨
      ∃ eu s, phase = .slot eu s ∧ e.ooo.Oldest eu s := by
  cases phase with
  | drain => exact .inr (.inl rfl)
  | commit =>
      rcases commitLoop_unseen mem (e := { e with tcIr := [] }) done with quiet | committed
      · exact .inl ⟨quiet.cpu, quiet.stores, quiet.world⟩
      · exact .inr (.inr (.inl ⟨rfl, committed⟩))
  | tick => exact .inr (.inr (.inr (.inl rfl)))
  | mshr =>
      cases done
      exact .inl ⟨rfl, rfl, .refl _⟩
  | slot eu s =>
      have acted : Quiet mem e e' ∨ e.ooo.Oldest eu s := by
        cases eu with
        | int => exact intSlot_unseen ok serial done
        | mul => exact mulSlot_unseen ok serial done
        | lsu => exact lsuSlot_unseen cfg hint ok lines done
      rcases acted with quiet | oldest
      · exact .inl quiet
      · exact .inr (.inr (.inr (.inr ⟨eu, s, rfl, oldest⟩)))
  | issue =>
      cases done
      exact .inl ⟨rfl, e.ooo.storeBuf_stageIs, .refl _⟩
  | rename => exact .inl (stageRn_unseen done)
  | decode =>
      cases done
      exact .inl (stageId_unseen e)
  | fetch => exact .inl (stageIf_unseen hint done)

end Phases

/-! ## Whole runs -/

section Runs

variable {δ β : Type} {mem : MemConfig δ} {cfg : OooConfig β} {e e' : Engine (MemState δ) β} {f : Flat}

/-- What holds between the phases of a run. -/
structure Between (mem : MemConfig δ) (f : Flat) (e : Engine (MemState δ) β) : Prop where
  serial : e.ooo.SerialOldest
  lines : e.ooo.LinesCached
  kept : StoresKept e.ooo e.log
  memory : (∀ entry ∈ commits e.log, entry.ir.StoresPlainly) → Represents mem (f.drained (drains e.log)) e.world

theorem Engine.Step.between (hint : mem.prefetchHint = prefetchHint) (step : Step (hierarchy mem) cfg e e') (ok : e.ooo.Ok)
    (between : Between mem f e) : Between mem f e' := by
  have law := hierarchy_coherent hint
  rcases step with back | front
  · refine ⟨back.serialOldest ok between.serial, back.linesCached ok between.lines, back.storesKept ok between.kept, ?_⟩
    intro plain
    obtain ⟨extra, log⟩ := back.log_extends
    refine back.represents law between.kept plain (between.memory fun entry member => plain entry ?_)
    rw [log]
    exact commits_mem_append extra member
  · refine ⟨front.serialOldest ok between.serial, front.linesCached between.lines, front.storesKept between.kept, ?_⟩
    intro plain
    obtain ⟨extra, log⟩ := front.log_extends
    refine front.represents law (between.memory fun entry member => plain entry ?_)
    rw [log]
    exact commits_mem_append extra member

/-- The byte that a data read of `addr` returns. -/
def readByte (vm : VMem (MemState δ)) (w : World (MemState δ)) (addr : Word) : Option Word :=
  (vm.read w addr 1).map Prod.fst

/-- Nothing that a program can see has changed, apart from the performance counters of the caches. Bytes are read at
cacheable addresses and at devices, provided every committed store stayed inside its line or went to a device. -/
structure Unaffected (vm : VMem (MemState δ)) (e e' : Engine (MemState δ) β) : Prop where
  cpu : e'.cpu = e.cpu
  sys : e'.world.sys = e.world.sys
  dev : e'.world.mem.dev = e.world.mem.dev
  stores : e'.ooo.storeBuf = e.ooo.storeBuf
  bytes : (∀ entry ∈ commits e.log, entry.ir.StoresPlainly) → ∀ addr,
    inDram addr = true ∨ inDram (addr &&& 0xffffffff) = false → readByte vm e'.world addr = readByte vm e.world addr

theorem readByte_cached (hint : mem.prefetchHint = prefetchHint) {w : World (MemState δ)} (rep : Represents mem f w)
    {addr : Word} (cached : inDram addr = true) :
    readByte (hierarchy mem) w addr = some (loadLE f.bytes addr.toNat 1) := by
  obtain ⟨value, w', read, _, _, same⟩ := (hierarchy_coherent hint).read 1 rep cached
  have inside : InLine addr 1 := Nat.mod_lt addr.toNat (by decide : 0 < blockSize)
  unfold readByte
  rw [read, same inside]
  rfl

theorem readByte_device {w w' : World (MemState δ)} (dev : w'.mem.dev = w.mem.dev) {addr : Word}
    (outside : inDram (addr &&& 0xffffffff) = false) :
    readByte (hierarchy mem) w' addr = readByte (hierarchy mem) w addr := by
  have uncached := inDram_of_truncated outside
  have value : ∀ w : World (MemState δ), readByte (hierarchy mem) w addr =
      (mem.devices.read w.mem.dev (addr &&& 0xffffffff) 1).map Prod.fst := by
    intro w
    change (vaddrRead mem w addr 1).map Prod.fst = _
    unfold vaddrRead paddrRead
    simp only [uncached, outside, Bool.false_eq_true, ↓reduceIte, Option.map_map]
    rfl
  rw [value, value, dev]

theorem Quiet.unaffected (hint : mem.prefetchHint = prefetchHint) (quiet : Quiet mem e e') (between : Between mem f e) :
    Unaffected (hierarchy mem) e e' where
  cpu := quiet.cpu
  sys := quiet.world.sys
  dev := quiet.world.dev
  stores := quiet.stores
  bytes := by
    intro plain addr reachable
    rcases reachable with cached | outside
    · have rep := between.memory plain
      rw [readByte_cached hint rep cached, readByte_cached hint (quiet.world.memory _ rep) cached]
    · exact readByte_device quiet.world.dev outside

end Runs

/-- In every single-core run, a phase other than the drain of the store buffer and the clock changes nothing a program
can see, except when it commits instructions or acts for an instruction that is never removed: from then on it is the
oldest one or committed. -/
theorem squashed_unaffected {δ β : Type} (devices : Devices δ) (cfg : OooConfig β) (cpu : CPUState)
    (sys : Sys) (hart : sys.hartid = 0) (pmem : ByteMem) (dev : δ) (bpred : β) (n : Nat)
    (e e' : Engine (MemState δ) β)
    (reached : runPhases (hierarchy ⟨1, prefetchHint, devices⟩) cfg 0 n
      (Engine.init cfg cpu ⟨sys, MemState.init pmem dev⟩ bpred) = some e)
    (done : (phaseAt n).step (hierarchy ⟨1, prefetchHint, devices⟩) cfg e = some e') :
    Unaffected (hierarchy ⟨1, prefetchHint, devices⟩) e e' ∨ phaseAt n = .drain ∨
      phaseAt n = .commit ∧ commits e'.log ≠ commits e.log ∨ phaseAt n = .tick ∨
        ∃ eu s, phaseAt n = .slot eu s ∧ e.ooo.Live eu s ∧ ∀ m e'',
          runPhases (hierarchy ⟨1, prefetchHint, devices⟩) cfg (n + 1) m e' = some e'' →
            Retained e''.ooo e''.log (e.ooo.slotEntry eu s).seq := by
  have start : Between ⟨1, prefetchHint, devices⟩ ⟨pmem, ∅⟩
      (Engine.init cfg cpu ⟨sys, MemState.init pmem dev⟩ bpred) :=
    ⟨fun _ valid => (nomatch valid), fun _ _ valid => (nomatch valid), oooInit_storesKept cpu, fun _ => ⟨init_represents _ pmem dev, fun _ => hart⟩⟩
  obtain ⟨ok, tidy, between⟩ := runPhases_keep (P := Between ⟨1, prefetchHint, devices⟩ ⟨pmem, ∅⟩)
    (fun _ _ ok holds step => Step.between rfl step ok holds) (oooInit_ok cpu) (oooInit_tidy cpu) start reached
  rcases phase_unseen rfl ok between.serial between.lines done with quiet | drain | commit | tick | ⟨eu, s, slot, live, oldest⟩
  · exact .inl (quiet.unaffected rfl between)
  · exact .inr (.inl drain)
  · exact .inr (.inr (.inl commit))
  · exact .inr (.inr (.inr (.inl tick)))
  · refine .inr (.inr (.inr (.inr ⟨eu, s, slot, live, ?_⟩)))
    intro m e'' later
    -- It is the oldest one now, and stays so until it commits.
    have now : Retained e.ooo e.log (e.ooo.slotEntry eu s).seq := by
      right
      rw [OOOState.slotEntry, oldest]
      refine ⟨?_, rfl⟩
      have position := (ok.inv.renamed.valid _).mp (ok.inv.live_entry live).1
      omega
    have whole : runPhases (hierarchy ⟨1, prefetchHint, devices⟩) cfg n (m + 1) e = some e'' := by
      rw [runPhases, done]
      exact later
    exact (runPhases_keep (P := fun e₁ => Retained e₁.ooo e₁.log (e.ooo.slotEntry eu s).seq)
      (fun _ _ ok holds step => Step.retained step ok holds) ok tidy now whole).2.2

/-! ## What does change -/

/-- `auipc x6, 0`, `mul x5, x0, x0`, `beq x5, x0, 16` and, on the path not taken, `lw x7, 0(x6)`. -/
def squashProgram : List Raw := [0x00000317, 0x020002b3, 0x00028863, 0x00032383] ++ List.replicate 12 0x00000013

/-- A state between phases of that program. -/
def squashRun (n : Nat) : Option (Engine (MemState Unit) Unit) :=
  runPhases (hierarchy (.plain 1)) .solo 0 n (boot squashProgram)

theorem squashRun_add (n m : Nat) :
    squashRun (n + m) = (squashRun n).bind (runPhases (hierarchy (.plain 1)) .solo n m) := by
  unfold squashRun
  rw [runPhases_add, Nat.zero_add]

/-- The load is the instruction with number 3. It computes its address and misses, and later it is neither committed
nor the oldest one: so its execution left everything alone. -/
theorem squashed_unaffected_load : ∃ e e', squashRun 71 = some e ∧ squashRun 72 = some e' ∧
    e.ooo.Live .lsu 0 ∧ (e.ooo.slotEntry .lsu 0).seq = 3 ∧ Unaffected (hierarchy (.plain 1)) e e' := by
  have reached : (squashRun 71).any (fun e => (e.ooo.latch .lsu 0).valid && !(e.ooo.latch .lsu 0).flushed &&
      (e.ooo.slotEntry .lsu 0).seq == 3) = true := by
    decide +kernel
  have removed : (squashRun (72 + 36)).any (fun e => (commits e.log).all (fun entry => entry.seq != 3) &&
      (e.ooo.rob e.ooo.robHead).seq != 3) = true := by
    decide +kernel
  obtain ⟨e, first, holds⟩ := (Option.any_eq_true _ _).mp reached
  obtain ⟨e'', last, gone⟩ := (Option.any_eq_true _ _).mp removed
  simp only [Bool.and_eq_true, Bool.not_eq_true', beq_iff_eq] at holds
  obtain ⟨⟨valid, kept⟩, seq⟩ := holds
  simp only [Bool.and_eq_true, List.all_eq_true, bne_iff_ne, ne_eq] at gone
  rw [squashRun_add] at last
  obtain ⟨e', second, later⟩ := Option.bind_eq_some_iff.mp last
  refine ⟨e, e', first, second, ⟨valid, kept⟩, seq, ?_⟩
  have done : (phaseAt 71).step (hierarchy (.plain 1)) .solo e = some e' := by
    rw [squashRun_add 71 1, first] at second
    have one : runPhases (hierarchy (.plain 1)) .solo 71 1 e = some e' := second
    obtain ⟨_, step, same⟩ := Option.bind_eq_some_iff.mp one
    cases same
    exact step
  rcases squashed_unaffected Devices.none .solo _ Sys.init rfl _ () () 71 e e' first done with
    unaffected | drain | ⟨commit, _⟩ | tick | ⟨eu, s, slot, _, retained⟩
  · exact unaffected
  · cases drain
  · cases commit
  · cases tick
  · cases slot
    rcases retained 36 e'' later with ⟨entry, done, same⟩ | ⟨_, same⟩
    · exact absurd (same.trans seq) (gone.1 entry done)
    · exact absurd (same.trans seq) gone.2

/-- A flushed load still fills the cache, and `csrr` of the miss counter shows it. -/
theorem squashed_load_counted : ∃ e e', squashRun 162 = some e ∧
    (phaseAt 162).step (hierarchy (.plain 1)) .solo e = some e' ∧ phaseAt 162 = .slot .lsu 0 ∧
      (e.ooo.latch .lsu 0).valid = true ∧ (e.ooo.latch .lsu 0).flushed = true ∧
        (readCsr (perfCounters e.world) e.world.sys 0xc04).map Prod.fst = some 0 ∧
          (readCsr (perfCounters e'.world) e'.world.sys 0xc04).map Prod.fst = some 1 := by
  have reached : (squashRun 162).any (fun e =>
      ((phaseAt 162).step (hierarchy (.plain 1)) .solo e).any fun e' =>
        (e.ooo.latch .lsu 0).valid && (e.ooo.latch .lsu 0).flushed &&
          (readCsr (perfCounters e.world) e.world.sys 0xc04).map Prod.fst == some 0 &&
            (readCsr (perfCounters e'.world) e'.world.sys 0xc04).map Prod.fst == some 1) = true := by
    decide +kernel
  obtain ⟨e, first, rest⟩ := (Option.any_eq_true _ _).mp reached
  obtain ⟨e', second, holds⟩ := (Option.any_eq_true _ _).mp rest
  simp only [Bool.and_eq_true, beq_iff_eq] at holds
  obtain ⟨⟨⟨valid, flushed⟩, before⟩, after⟩ := holds
  exact ⟨e, e', first, second, rfl, valid, flushed, before, after⟩

end Sustemu
