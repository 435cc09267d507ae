import Sustemu.Ooo.Difftest
import Sustemu.Ooo.Loads

/-!
# What differential testing detects

As long as nothing is reported, every committed instruction has the program
counter and the value of the functional engine. For most instructions this is
the doing of the engine, since a commit is a step on committed registers. A
load needs the reference: it reads memory without the store buffer, which is
right unless a buffered store reaches into the load. If one does, the newest
such store has to contain the load.
-/

set_option autoImplicit false

namespace Sustemu

open Lib Engine

theorem RegFile.set_get (regs : RegFile) (a : Reg) : regs.set a (regs.get a) = regs := by
  apply RegFile.ext
  intro b
  rw [RegFile.get_set]
  by_cases zero : b = 0
  · rw [if_pos zero, zero, RegFile.get_zero]
  · rw [if_neg zero]
    split
    · next same => rw [same]
    · rfl

namespace Engine

variable {σ β : Type} {vm : VMem σ} {cfg : OooConfig β} {e e' : Engine σ β} {Rep : World σ → Flat → Prop} {f g : Flat}

/-! ## A comparison that reports nothing -/

/-- The reference after a comparison that reports nothing: it has executed `x` and taken over the destination. -/
structure Synced (e e' : Engine σ β) (entry : ROBEntry) (x : IRInst) : Prop where
  cpu : e'.cpu = e.cpu
  pc : e'.difftestRef.pc = x.dnpc
  gpr : e'.difftestRef.gpr = match entry.dest with
    | some a => (irWriteback x e.difftestRef.gpr).set a (e.cpu.gpr.get a)
    | none => irWriteback x e.difftestRef.gpr
  load : entry.ir.itype = .load → ∀ a, entry.dest = some a → mmioBase ≤ entry.ir.memAddr ∨
    e.cpu.gpr.get a = (irWriteback x e.difftestRef.gpr).get a ∨ sbufCovers e.ooo entry.ir = true

theorem emit_log (e : Engine σ β) (event : Event σ) : (e.emit event).log ≠ e.log := by
  intro same
  have length := congrArg List.length same
  simp [emit] at length

theorem difftestCheck_synced (law : CoherentMemory vm Rep) (rep : Rep e.world g) {entry : ROBEntry}
    (mapped : inDram e.difftestRef.pc = true) (inside : InLine e.difftestRef.pc 4) (quiet : e'.log = e.log)
    (checked : e.difftestCheck vm cfg entry = some e') : ∃ x : IRInst,
      x.ExecutedFrom e.difftestRef ((loadLE g.bytes e.difftestRef.pc.toNat 4).setWidth 32) ∧
      (x.itype = .load → inDram x.memAddr = true → InLine x.memAddr x.memWidth →
        x.result = extend x.memSign x.memWidth (loadLE g.bytes x.memAddr.toNat x.memWidth)) ∧
      e.Synced e' entry x := by
  simp only [difftestCheck, Option.bind_eq_bind, Option.bind_eq_some_iff] at checked
  obtain ⟨e₁, stepped, rest⟩ := checked
  obtain ⟨x, world, executed, value, rfl⟩ := difftestStep_executes law rep mapped inside stepped
  refine ⟨x, executed, value, ?_⟩
  split at rest
  · next a skip named =>
      cases rest
      refine ⟨rfl, rfl, ?_, fun load => ?_⟩
      · rw [named]
        rfl
      · rw [load] at skip
        cases skip
  · next skip none =>
      cases rest
      refine ⟨rfl, rfl, ?_, fun load => ?_⟩
      · rw [none]
      · rw [load] at skip
        cases skip
  · next _ compared =>
      split at rest
      · next a found =>
          split at found
          · next load =>
              split at rest
              · next device =>
                  cases rest
                  refine ⟨rfl, rfl, ?_, fun _ _ _ => .inl device⟩
                  rw [found]
                  rfl
              · split at rest
                · cases rest
                  exact absurd quiet (emit_log _ _)
                · next accepted =>
                    cases rest
                    refine ⟨rfl, rfl, ?_, ?_⟩
                    · rw [found]
                      rfl
                    · intro _ b named
                      cases found.symm.trans named
                      by_cases same : e.cpu.gpr.get a = (irWriteback x e.difftestRef.gpr).get a
                      · exact .inr (.inl same)
                      · refine .inr (.inr ?_)
                        by_contra uncovered
                        exact accepted ⟨same, by simpa using uncovered⟩
          · cases found
      · next found =>
          split at rest
          · next equal =>
              cases rest
              have same : irWriteback x e.difftestRef.gpr = e.cpu.gpr := by
                apply RegFile.ext
                intro a
                exact (beq_iff_eq.mp (List.all_eq_true.mp equal a (List.mem_finRange a))).symm
              refine ⟨rfl, rfl, ?_, ?_⟩
              · change irWriteback x e.difftestRef.gpr = _
                rw [same]
                cases entry.dest with
                | none => rfl
                | some a => exact (RegFile.set_get e.cpu.gpr a).symm
              · intro _ a _
                exact .inr (.inl (by rw [same]))
          · cases rest
            exact absurd quiet (emit_log _ _)

end Engine

/-! ## One commit -/

/-- The writes of the first `n` instructions, in order. -/
def Execution.writes {σ : Type} {vm : VMem σ} {N : Nat} (t : Execution vm N) (n : Nat) : List Write :=
  (List.range n).filterMap fun i => (t.inst i).write

theorem Execution.writes_succ {σ : Type} {vm : VMem σ} {N : Nat} (t : Execution vm N) (n : Nat) :
    t.writes (n + 1) = t.writes n ++ (t.inst n).write.toList := by
  unfold writes
  rw [List.range_succ, List.filterMap_append]
  cases write : (t.inst n).write with
  | none => simp [write]
  | some w => simp [write]

/-- Pending stores as writes. -/
def storeWrites (stores : List StoreData) : List Write := stores.map fun store => ⟨store.1.toNat, store.2.1, store.2.2⟩

/-- What a commit of `entry` has to find, if the functional engine executes `ir` there: memory without the store buffer
holds the word that both have executed, fetch followed the instruction, accesses stay inside a line of memory, and for
a load the newest pending store that reaches into it contains it. -/
structure Comparable (ir : IRInst) (mem : ByteMem) (pending : List StoreData) (entry : ROBEntry) : Prop where
  raw : entry.ir.raw = ir.raw
  code : inDram ir.pc = true ∧ InLine ir.pc 4 ∧ (loadLE mem ir.pc.toNat 4).setWidth 32 = ir.raw
  target : inDram ir.dnpc = true
  predicted : entry.ir.bpPredictedPc ≠ 0
  special : ir.itype ≠ .csr ∧ ¬ ir.execFn.Traps
  access : ir.itype = .load ∨ ir.itype = .store →
    inDram ir.memAddr = true ∧ InLine ir.memAddr ir.memWidth ∧ ir.raw.toNat % 4 = 3
  load : ir.itype = .load → forwardsExactly ir.memAddr.toNat ir.memWidth (storeWrites pending) true = true

namespace Engine

variable {σ β : Type} {vm : VMem σ} {cfg : OooConfig β} {e e' : Engine σ β} {Rep : World σ → Flat → Prop} {f g : Flat}

/-- The head entry as an execution of the word on the registers `gpr`. -/
theorem head_reads (ok : e.ooo.Ok) (operated : e.ooo.Operated) (live : e.ooo.robCount ≠ 0)
    (ready : (e.ooo.rob e.ooo.robHead).ready = true) {gpr : RegFile}
    (regs : ∀ a, a ≠ 0 → e.ooo.committedValue a = gpr.get a) :
    (e.ooo.rob e.ooo.robHead).ir.Ran ∧ (e.ooo.rob e.ooo.robHead).ir.ReadsFrom gpr := by
  have valid := ok.inv.renamed.head_valid live
  obtain ⟨ran, src1, src2, _⟩ := operated _ valid ready
  have front : e.ooo.pos e.ooo.robHead = 0 := age_self _
  refine ⟨ran, OOOState.reads_of_provided (ok.decoded _ valid).1 rfl src1 src2 fun a nonzero _ => ?_⟩
  rw [front, OOOState.mapAt_zero]
  exact regs a nonzero

/-- What the head entry has in common with the instruction of the functional engine. -/
structure HeadMatches (entry : ROBEntry) (ir : IRInst) : Prop where
  pc : entry.ir.pc = ir.pc
  itype : entry.ir.itype = ir.itype
  dnpc : entry.ir.dnpc = ir.dnpc
  dest : entry.dest = ir.rd.filter (· ≠ 0)
  plain : ir.itype.Plain = true → ir.SameOutcome entry.ir
  data : ir.itype = .store → entry.storeData = ir.src2Val

/-- The opcode of a fully encoded access. -/
theorem opcode_of_encoded {ir : IRInst} (ran : ir.Ran) (decoded : ir.Decoded) (encoded : ir.raw.toNat % 4 = 3) :
    (ir.itype = .load → opcode7Of ir.raw = 0x03) ∧ (ir.itype = .store → opcode7Of ir.raw = 0x23) := by
  have kind : ir.itype = (irSelect ir.raw).2.1.itype := by
    rw [ran.itype, decoded.fn]
  rw [kind, opcode7Of_encoded encoded]
  constructor
  · intro load
    rw [opcodeOf_memory.1 load]
  · intro store
    rw [opcodeOf_memory.2 store]

/-- A completed store, by its opcode. -/
theorem store_of_opcode {entry : ROBEntry} (typed : entry.Typed) (noFault : entry.ir.fault = false) (isStore : entry.isStore = true) :
    entry.ir.itype = .store := by
  have opcode : opcodeOf entry.ir.raw = 8 := by
    rw [opcodeOf_eq, beq_iff_eq.mp isStore]
  have wellFormed : (irSelect entry.ir.raw).2.1 ≠ .inv := by
    intro malformed
    rw [typed.malformed malformed] at noFault
    cases noFault
  rw [typed.itype]
  revert wellFormed
  unfold irSelect
  simp only [opcode]
  split
  all_goals intro wellFormed
  all_goals first | rfl | exact absurd rfl wellFormed

section Head

variable {stack ir : IRInst} {m m' : Machine σ} {mem : ByteMem} {pending : List StoreData}
  (ok : e.ooo.Ok) (operated : e.ooo.Operated) (live : e.ooo.robCount ≠ 0)
  (ready : (e.ooo.rob e.ooo.robHead).ready = true) (step : execOnce vm stack m = some (ir, m'))
  (regs : ∀ a, a ≠ 0 → e.ooo.committedValue a = m.cpu.gpr.get a)
  (here : (e.ooo.rob e.ooo.robHead).ir.pc = m.cpu.pc) (comparable : Comparable ir mem pending (e.ooo.rob e.ooo.robHead))

include ok operated live ready step regs here comparable in
theorem head_matches : HeadMatches (e.ooo.rob e.ooo.robHead) ir := by
  have valid := ok.inv.renamed.head_valid live
  obtain ⟨decodedE, archRd⟩ := ok.decoded _ valid
  obtain ⟨ranE, readsE⟩ := head_reads ok operated live ready regs
  obtain ⟨ran, decoded, reads, pc, rd⟩ := execOnce_ran step
  have raw := comparable.raw
  have fn : (e.ooo.rob e.ooo.robHead).ir.execFn = ir.execFn := by
    rw [decodedE.fn, decoded.fn, raw]
  have itype : (e.ooo.rob e.ooo.robHead).ir.itype = ir.itype := by
    rw [ranE.itype, ran.itype, fn]
  have samePc : (e.ooo.rob e.ooo.robHead).ir.pc = ir.pc := here.trans pc.symm
  refine ⟨samePc, itype, ran.sameNext ranE decoded decodedE samePc raw reads readsE comparable.special.2, ?_, ?_, ?_⟩
  · unfold ROBEntry.dest
    rw [archRd, rd, raw]
  · intro plain
    rw [ran.itype] at plain
    exact ran.sameOutcome ranE decoded decodedE samePc raw reads readsE plain
  · intro store
    have opcode := (opcode_of_encoded ran decoded (comparable.access (.inr store)).2.2).2 store
    have register : rs2Of ir.raw = some (regField ir.raw 20) := by
      have kind := ran.itype.symm.trans store
      rw [decoded.fn] at kind
      unfold rs2Of
      rw [irSelect_store kind]
    have stored := (operated _ valid ready).stored (by
      unfold ROBEntry.isStore
      rw [raw, opcode]
      rfl) (itype.trans store)
    rw [stored, readsE.src2 _ (by rw [raw]; exact register), reads.src2 _ register]

/-- The widths of loads. -/
theorem load_width (ran : ir.Ran) (load : ir.itype = .load) :
    ir.memWidth = 1 ∨ ir.memWidth = 2 ∨ ir.memWidth = 4 ∨ ir.memWidth = 8 := by
  have kind := ran.itype.symm.trans load
  have plain : ir.execFn.itype.Plain = true := by
    rw [kind]
    rfl
  obtain ⟨run, executor⟩ := plain_pure plain
  have width := pure_load executor kind ir
  have outcome := ran.plain run executor plain
  rwa [(outcome.access (.inl (outcome.itype.symm.trans load))).2.1]

include ok operated live ready step regs here comparable in
/-- The value of a load that a pending store serves. -/
theorem served_value (served : e.ooo.Served) (sound : (e.ooo.rob e.ooo.robHead).ir.fault = false)
    (buffered : e.ooo.buffered.map StoreBufEntry.write = storeWrites pending) (load : ir.itype = .load)
    (exactly : forwardsExactly ir.memAddr.toNat ir.memWidth (storeWrites pending) false = true) (mem : ByteMem) :
    (e.ooo.rob e.ooo.robHead).ir.result =
      extend ir.memSign ir.memWidth (loadLE (applyWrites mem (storeWrites pending)) ir.memAddr.toNat ir.memWidth) := by
  obtain ⟨ran, decoded, _⟩ := execOnce_ran step
  have found := head_matches ok operated live ready step regs here comparable
  obtain ⟨addr, width, sign⟩ := (found.plain (by rw [load]; rfl)).access (.inl load)
  obtain ⟨cached, _, encoded⟩ := comparable.access (.inl load)
  have loaded : e.ooo.Loaded e.ooo.robHead := by
    refine ⟨ok.inv.renamed.head_valid live, ready, ?_, found.itype.trans load, ?_, sound⟩
    · rw [comparable.raw]
      exact (opcode_of_encoded ran decoded encoded).1 load
    · rw [addr]
      exact cached
  have front : e.ooo.pendingWrites e.ooo.robHead = storeWrites pending := by
    have none : e.ooo.olderSlots e.ooo.robHead = [] := by
      change window _ (e.ooo.pos e.ooo.robHead) = []
      rw [OOOState.pos, age_self]
      rfl
    unfold OOOState.pendingWrites OOOState.olderStores
    rw [none, ← buffered]
    simp
  have value := (served _ loaded).value
  rw [front, addr, width, sign load] at value
  rw [value exactly]
  exact forward_eq _ (load_width ran load) _ mem _ false (fun absurdity => absurd absurdity Bool.false_ne_true) exactly

/-- The reference reads the value of the functional engine if no pending store reaches into the load. -/
theorem reference_value {x : IRInst} (first : ir.ExecutedFrom m.cpu ir.raw) (second : x.ExecutedFrom m.cpu ir.raw)
    (load : ir.itype = .load) (access : inDram ir.memAddr = true ∧ InLine ir.memAddr ir.memWidth)
    (value : ir.result = extend ir.memSign ir.memWidth
      (loadLE (applyWrites mem (storeWrites pending)) ir.memAddr.toNat ir.memWidth))
    (read : x.itype = .load → inDram x.memAddr = true → InLine x.memAddr x.memWidth →
      x.result = extend x.memSign x.memWidth (loadLE mem x.memAddr.toNat x.memWidth))
    (apart : ∀ w ∈ storeWrites pending, Apart w.addr w.width ir.memAddr.toNat ir.memWidth) : x.result = ir.result := by
  have again := first.again second
  obtain ⟨addr, width, sign⟩ := again.load load
  rw [addr, width, sign] at read
  rw [read (again.itype.trans load) access.1 access.2, value, loadLE_applyWrites mem apart]

/-- A pending store with the address and the width of a load reaches into it. -/
theorem not_apart_of_covers (buffered : e.ooo.Buffered) {load : IRInst}
    (pendingEq : pending = e.ooo.buffered.map StoreBufEntry.store)
    (width : load.memWidth = 1 ∨ load.memWidth = 2 ∨ load.memWidth = 4 ∨ load.memWidth = 8)
    (covers : sbufCovers e.ooo load = true) :
    ¬ ∀ w ∈ storeWrites pending, Apart w.addr w.width load.memAddr.toNat load.memWidth := by
  intro apart
  obtain ⟨store, member, addr, same⟩ := (sbufCovers_iff buffered load).mp covers
  rw [← pendingEq] at member
  have separate := apart _ (List.mem_map_of_mem member)
  rw [addr, same] at separate
  simp only [Apart] at separate
  omega

end Head

/-! ## Runs -/

variable {N : Nat} {t : Execution vm N}

/-- Engine and reference are where the functional engine is. -/
structure Agrees (Rep : World σ → Flat → Prop) (f : Flat) (t : Execution vm N) (e : Engine σ β) : Prop where
  active : e.difftestActive = true
  retired : retirements e.log = (List.range (commits e.log).length).map fun n => (t.inst n).retired
  followed : ∀ entry ∈ commits e.log, entry.ir.Followed ∧ entry.ir.StoresPlainly
  filed : ∀ entry ∈ commits e.log, entry.isStore = true ↔ entry.ir.itype = .store ∧ inDram entry.ir.memAddr = true
  next : nextAfter (t.state 0).cpu.pc (commits e.log) = (t.state (commits e.log).length).cpu.pc
  regs : ∀ a, a ≠ 0 → e.ooo.committedValue a = (t.state (commits e.log).length).cpu.gpr.get a
  gpr : e.cpu.gpr = (t.state (commits e.log).length).cpu.gpr
  ref : e.difftestRef = (t.state (commits e.log).length).cpu
  stores : (drains e.log ++ e.ooo.buffered).map StoreBufEntry.write = t.writes (commits e.log).length
  memory : ∃ g, Rep (t.state (commits e.log).length).world g ∧
    g.bytes = applyWrites f.bytes (t.writes (commits e.log).length)

/-- A step that commits nothing. -/
theorem Agrees.keep (agrees : e.Agrees Rep f t) (active : e'.difftestActive = e.difftestActive) (cpu : e'.cpu = e.cpu)
    (ref : e'.difftestRef = e.difftestRef) (regs : ∀ a, a ≠ 0 → e'.ooo.committedValue a = e.ooo.committedValue a)
    (stores : drains e'.log ++ e'.ooo.buffered = drains e.log ++ e.ooo.buffered)
    (committed : commits e'.log = commits e.log) (retired : retirements e'.log = retirements e.log) : e'.Agrees Rep f t := by
  refine ⟨active.trans agrees.active, ?_, ?_, ?_, ?_, ?_, ?_, ?_, ?_, ?_⟩
  · rw [retired, committed]
    exact agrees.retired
  · rw [committed]
    exact agrees.followed
  · rw [committed]
    exact agrees.filed
  · rw [committed]
    exact agrees.next
  · intro a nonzero
    rw [regs a nonzero, committed]
    exact agrees.regs a nonzero
  · rw [cpu, committed]
    exact agrees.gpr
  · rw [ref, committed]
    exact agrees.ref
  · rw [stores, committed]
    exact agrees.stores
  · rw [committed]
    exact agrees.memory

theorem Agrees.head (agrees : e.Agrees Rep f t) (sound : e.Sound Rep f (t.state 0).cpu.pc) (ok : e.ooo.Ok)
    (live : e.ooo.robCount ≠ 0) :
    (e.ooo.rob e.ooo.robHead).ir.pc = (t.state (commits e.log).length).cpu.pc := by
  obtain ⟨_, leads⟩ := sound.continues.committed fun entry member => (agrees.followed entry member).1
  rw [e.ooo.afterCommit_frame.path ok.inv.renamed live, agrees.next] at leads
  exact leads

section Commit

variable (law : CoherentMemory vm Rep) (agrees : e.Agrees Rep f t) (sound : e.Sound Rep f (t.state 0).cpu.pc) (ok : e.ooo.Ok)
  (operated : e.ooo.Operated) (typed : e.ooo.Typed) (kept : StoresKept e.ooo e.log) (served : e.ooo.Served)
  (live : e.ooo.robCount ≠ 0) (ready : (e.ooo.rob e.ooo.robHead).ready = true)
  (noFault : (e.ooo.rob e.ooo.robHead).ir.fault = false) (inside : (commits e.log).length < N)
  (comparable : Comparable (t.inst (commits e.log).length) (f.drained (drains e.log)).bytes (pendingStores e.log)
    (e.ooo.rob e.ooo.robHead))

include agrees kept in
/-- The memory of the functional engine is the engine's with the store buffer drained. -/
theorem Agrees.pending : e.ooo.buffered.map StoreBufEntry.write = storeWrites (pendingStores e.log) ∧
    applyWrites (f.drained (drains e.log)).bytes (storeWrites (pendingStores e.log)) =
      applyWrites f.bytes (t.writes (commits e.log).length) := by
  have buffered : e.ooo.buffered.map StoreBufEntry.write = storeWrites (pendingStores e.log) := by
    rw [kept.pending, storeWrites, List.map_map]
    rfl
  refine ⟨buffered, ?_⟩
  rw [f.drained_bytes, ← buffered, ← applyWrites_append, ← List.map_append, agrees.stores]

include law agrees kept inside comparable in
/-- What the functional engine does to memory, and what a load of it reads. -/
theorem Agrees.performs : (∃ g, Rep (t.state ((commits e.log).length + 1)).world g ∧
      g.bytes = applyWrites f.bytes (t.writes ((commits e.log).length + 1))) ∧
    ((t.inst (commits e.log).length).itype = .load → (t.inst (commits e.log).length).result =
      extend (t.inst (commits e.log).length).memSign (t.inst (commits e.log).length).memWidth
        (loadLE (applyWrites (f.drained (drains e.log)).bytes (storeWrites (pendingStores e.log)))
          (t.inst (commits e.log).length).memAddr.toNat (t.inst (commits e.log).length).memWidth)) := by
  have step := t.step _ inside
  obtain ⟨g, rep, bytes⟩ := agrees.memory
  have mapped : inDram (t.state (commits e.log).length).cpu.pc = true := by
    rw [← (execOnce_ran step).2.2.2.1]
    exact comparable.code.1
  obtain ⟨after, value⟩ := execOnce_performs law rep mapped
    (fun memory => ⟨(comparable.access memory).1, (comparable.access memory).2.1⟩) step
  refine ⟨⟨_, after, ?_⟩, fun load => ?_⟩
  · rw [Execution.writes_succ, applyWrites_append, ← bytes]
    cases (t.inst (commits e.log).length).write with
    | none => rfl
    | some w => rfl
  · rw [(agrees.pending kept).2, ← bytes]
    exact value load

include ok live ready noFault typed in
/-- Results other than those of loads. -/
theorem head_result {stack ir : IRInst} {m m' : Machine σ} {mem : ByteMem} {pending : List StoreData}
    (step : execOnce vm stack m = some (ir, m')) (found : HeadMatches (e.ooo.rob e.ooo.robHead) ir)
    (comparable : Comparable ir mem pending (e.ooo.rob e.ooo.robHead)) (other : ir.itype ≠ .load)
    (dest : (e.ooo.rob e.ooo.robHead).dest.isSome = true) : (e.ooo.rob e.ooo.robHead).ir.result = ir.result := by
  obtain ⟨ran, decoded, _, _, rd⟩ := execOnce_ran step
  have valid := ok.inv.renamed.head_valid live
  have kind : ir.itype = (irSelect ir.raw).2.1.itype := by
    rw [ran.itype, decoded.fn]
  have writes : rdOf ir.raw ≠ none := by
    rw [← rd]
    intro none
    rw [found.dest, none] at dest
    cases dest
  have noDest : ir.itype ≠ .store ∧ ir.itype ≠ .branch ∧ ir.itype ≠ .system ∧ ir.itype ≠ .fence := by
    rw [kind]
    exact ⟨fun store => writes (rdOf_eq_none (.inl store)), fun branch => writes (rdOf_eq_none (.inr branch)),
      fun system => writes (rdOf_special (.inl system)), fun fence => writes (rdOf_special (.inr fence))⟩
  have wellFormed : ir.itype ≠ .invalid := by
    intro invalid
    have malformed := (typed _ valid ready).malformed (by
      rw [comparable.raw]
      exact itype_invalid (kind.symm.trans invalid))
    rw [noFault] at malformed
    cases malformed
  have plain : ir.itype.Plain = true := by
    cases type : ir.itype <;> first | rfl | skip
    · exact absurd type comparable.special.1
    · exact absurd type noDest.2.2.1
    · exact absurd type noDest.2.2.2
    · exact absurd type wellFormed
  exact (found.plain plain).result other noDest.1 noDest.2.1

include ok sound live ready in
/-- A commit writes the result of the head entry. -/
theorem committed_value {a : Reg} (dest : (e.ooo.rob e.ooo.robHead).dest = some a) :
    commitValue e.ooo (e.ooo.rob e.ooo.robHead) = (e.ooo.rob e.ooo.robHead).ir.result ∧
      e.committed.cpu.gpr.get a = (e.ooo.rob e.ooo.robHead).ir.result := by
  have valid := ok.inv.renamed.head_valid live
  obtain ⟨r, pending, physRd⟩ := ok.inv.renamed.pending_of_dest valid (by rw [dest]; rfl)
  have result := sound.resulted _ r valid ready pending
  have target : r.target = a := Option.some.inj ((OOOState.pending_dest pending).1.symm.trans dest)
  have nonzero := OOOState.target_ne_zero pending
  constructor
  · rw [commitValue, physRd]
    exact result
  · unfold committed commitRegs
    simp only [emit, pending]
    rw [← target, RegFile.get_set_self _ _ nonzero]
    exact result

/-- The register map after a commit holds what the commit writes. -/
theorem committed_regs {a : Reg} (regs : e.ooo.committedValue a = e.cpu.gpr.get a) (nonzero : a ≠ 0) :
    e.ooo.afterCommit.committedValue a = e.committed.cpu.gpr.get a := by
  rw [OOOState.afterCommit_committedValue]
  unfold committed commitRegs
  simp only [emit]
  cases (e.ooo.rob e.ooo.robHead).pending with
  | none => exact regs
  | some r =>
      simp only
      rw [RegFile.get_set, if_neg nonzero, regs]

include agrees sound ok operated kept served live ready noFault inside comparable law in
/-- The value of a load, if the reference has nothing to report. -/
theorem loaded_result {entry : ROBEntry} {x : IRInst} (same : entry = e.ooo.rob e.ooo.robHead)
    (load : (t.inst (commits e.log).length).itype = .load) {a : Reg} (dest : entry.dest = some a)
    (executed : x.ExecutedFrom (t.state (commits e.log).length).cpu (t.inst (commits e.log).length).raw)
    (read : x.itype = .load → inDram x.memAddr = true → InLine x.memAddr x.memWidth →
      x.result = extend x.memSign x.memWidth (loadLE (f.drained (drains e.log)).bytes x.memAddr.toNat x.memWidth))
    (synced : e.committed.Synced e' entry x) (ref : e.committed.difftestRef = (t.state (commits e.log).length).cpu) :
    entry.ir.result = (t.inst (commits e.log).length).result := by
  subst same
  have step := t.step _ inside
  obtain ⟨executedT, _⟩ := execOnce_executedFrom step
  have ran := (execOnce_ran step).1
  have here := agrees.head sound ok live
  have found := head_matches ok operated live ready step agrees.regs here comparable
  obtain ⟨addr, width, _⟩ := (found.plain (by rw [load]; rfl)).access (.inl load)
  obtain ⟨buffered, _⟩ := agrees.pending kept
  have value := (agrees.performs law kept inside comparable).2 load
  obtain ⟨cached, inLine, _⟩ := comparable.access (.inl load)
  rcases served_or_apart (comparable.load load) with serves | apart
  · rw [value]
    exact served_value ok operated live ready step agrees.regs here comparable served noFault buffered load serves _
  · have reference := reference_value executedT executed load ⟨cached, inLine⟩ value read apart
    rcases synced.load (found.itype.trans load) a dest with device | equal | covers
    · rw [addr] at device
      have below := (inDram_iff.mp cached).2
      have above := BitVec.le_def.mp device
      exact absurd above (by change ¬ 0xa0000000 ≤ _; omega)
    · rw [(committed_value sound ok live ready dest).2, ref] at equal
      have destX : x.rd.filter (· ≠ 0) = some a := by
        rw [(executedT.again executed).rd, ← found.dest, dest]
      obtain ⟨writes, nonzero⟩ := irWriteback_dest destX (t.state (commits e.log).length).cpu.gpr
      rw [equal, writes, RegFile.get_set_self _ _ nonzero, reference]
    · have covered : sbufCovers e.ooo (e.ooo.rob e.ooo.robHead).ir = true :=
        (sbufCovers_commitRename ..).symm.trans covers
      have widths := load_width ran load
      rw [← width] at widths
      rw [← addr, ← width] at apart
      exact absurd apart (not_apart_of_covers kept.buffered kept.pending widths covered)

include agrees sound ok operated kept typed served live ready noFault inside comparable law in
/-- The head entry retires as the functional engine's instruction, and the reference follows it. -/
theorem Agrees.head_retired {e₁ e₂ : Engine σ β} (stored : e.commitStore vm (e.ooo.rob e.ooo.robHead) = some e₁)
    (rep : Rep e₁.world (f.drained (drains e.log))) (quiet : e₂.log = e₁.committed.log)
    (checked : e₁.committed.difftestCheck vm cfg (e.ooo.rob e.ooo.robHead) = some e₂) :
    (e.ooo.rob e.ooo.robHead).retired (commitValue e.ooo (e.ooo.rob e.ooo.robHead)) = (t.inst (commits e.log).length).retired ∧
      e₂.cpu.gpr = (t.state ((commits e.log).length + 1)).cpu.gpr ∧
      e₂.difftestRef = (t.state ((commits e.log).length + 1)).cpu := by
  have step := t.step _ inside
  obtain ⟨executedT, next⟩ := execOnce_executedFrom step
  obtain ⟨ran, decoded, _, pc, _⟩ := execOnce_ran step
  have here := agrees.head sound ok live
  have found := head_matches ok operated live ready step agrees.regs here comparable
  obtain ⟨cpu, ref, _, _, rob, head, prf, loads⟩ := commitStore_same stored
  have refState : e₁.committed.difftestRef = (t.state (commits e.log).length).cpu := ref.trans agrees.ref
  have committedGpr : e₁.committed.cpu.gpr = e.committed.cpu.gpr := by
    unfold committed commitRegs
    simp only [emit]
    rw [rob, head, prf, cpu]
  obtain ⟨mapped, inLine, word⟩ := comparable.code
  rw [pc] at mapped inLine word
  have repC : Rep e₁.committed.world (f.drained (drains e.log)) := rep
  obtain ⟨x, executed, read, synced⟩ := difftestCheck_synced law repC (by rw [refState]; exact mapped)
    (by rw [refState]; exact inLine) quiet checked
  rw [refState, word] at executed
  have again := executedT.again executed
  have result : ∀ a, (e.ooo.rob e.ooo.robHead).dest = some a →
      (e.ooo.rob e.ooo.robHead).ir.result = (t.inst (commits e.log).length).result := by
    intro a dest
    by_cases load : (t.inst (commits e.log).length).itype = .load
    · have unchanged := loads (found.itype.trans load)
      subst unchanged
      exact loaded_result law agrees sound ok operated kept served live ready noFault inside comparable rfl load dest executed
        read synced refState
    · exact head_result ok typed live ready noFault step found comparable load (by rw [dest]; rfl)
  have retired : (e.ooo.rob e.ooo.robHead).retired (commitValue e.ooo (e.ooo.rob e.ooo.robHead)) =
      (t.inst (commits e.log).length).retired := by
    unfold ROBEntry.retired IRInst.retired
    rw [Retired.mk.injEq]
    refine ⟨found.pc, ?_, ?_⟩
    · rw [← found.dest]
      cases dest : (e.ooo.rob e.ooo.robHead).dest with
      | none => rfl
      | some a => rw [Option.map_some, Option.map_some, (committed_value sound ok live ready dest).1, result a dest]
    · rw [found.itype]
      split
      · next store =>
          obtain ⟨addr, width, _⟩ := (found.plain (by rw [store]; rfl)).access (.inr store)
          rw [addr, width, found.data store]
      · rfl
  have regs := (committed_gpr ok live (congrArg Retired.result retired)).2
  rw [agrees.gpr] at regs
  have gpr : e₂.cpu.gpr = (t.state ((commits e.log).length + 1)).cpu.gpr := by
    rw [synced.cpu, committedGpr, regs, next]
  refine ⟨retired, gpr, ?_⟩
  have refGpr : e₂.difftestRef.gpr = (t.state ((commits e.log).length + 1)).cpu.gpr := by
    have blank : x.rd.filter (· ≠ 0) = (e.ooo.rob e.ooo.robHead).dest := by
      rw [again.rd, found.dest]
    rw [synced.gpr, refState, next]
    cases dest : (e.ooo.rob e.ooo.robHead).dest with
    | none =>
        simp only
        rw [irWriteback_blank (blank.trans dest), irWriteback_blank (found.dest.symm.trans dest)]
    | some a =>
        simp only
        obtain ⟨writesX, _⟩ := irWriteback_dest (blank.trans dest) (t.state (commits e.log).length).cpu.gpr
        obtain ⟨writes, _⟩ := irWriteback_dest (found.dest.symm.trans dest) (t.state (commits e.log).length).cpu.gpr
        rw [writesX, writes, committedGpr, (committed_value sound ok live ready dest).2, RegFile.set_set, result a dest]
  have refPc : e₂.difftestRef.pc = (t.state ((commits e.log).length + 1)).cpu.pc := by
    rw [synced.pc, next]
    exact again.dnpc comparable.special.2
  cases whole : e₂.difftestRef
  rw [whole] at refGpr refPc
  simp only at refGpr refPc
  rw [refGpr, refPc]

include agrees sound ok operated kept typed served live ready noFault inside comparable law in
theorem Agrees.commit {e₁ e₂ : Engine σ β}
    (room : (e.ooo.rob e.ooo.robHead).ir.itype = .store → inDram (e.ooo.rob e.ooo.robHead).ir.memAddr = true →
      e.ooo.sbufCount < storeBufSize)
    (stored : e.commitStore vm (e.ooo.rob e.ooo.robHead) = some e₁)
    (checked : (if e₁.difftestActive then e₁.committed.difftestCheck vm cfg (e.ooo.rob e.ooo.robHead)
      else some e₁.committed) = some e₂)
    (silent : ∀ entry, Event.mismatch entry ∉ e₂.retire.log) : e₂.retire.Agrees Rep f t := by
  have commit := commits_of_checked stored checked
  obtain ⟨extra, log, reports⟩ := commit.log
  have nothing : extra = [] := by
    apply List.eq_nil_iff_forall_not_mem.mpr
    intro event member
    obtain ⟨entry, rfl⟩ := reports event member
    apply silent entry
    rw [log]
    exact List.mem_append_right _ (List.mem_cons_of_mem _ member)
  subst nothing
  have step := t.step _ inside
  obtain ⟨ran, decoded, _⟩ := execOnce_ran step
  have here := agrees.head sound ok live
  have found := head_matches ok operated live ready step agrees.regs here comparable
  have valid := ok.inv.renamed.head_valid live
  obtain ⟨_, _, active, sameLog, rob, head, prf, _⟩ := commitStore_same stored
  have committedLog : e₁.committed.log = e.log ++ [.commit (e.ooo.rob e.ooo.robHead) (commitValue e.ooo (e.ooo.rob e.ooo.robHead))] := by
    unfold committed
    simp only [emit, commitRegs, commitValue]
    rw [sameLog, rob, head, prf]
  have access : (t.inst (commits e.log).length).itype = .store →
      (e.ooo.rob e.ooo.robHead).ir.memAddr = (t.inst (commits e.log).length).memAddr ∧
      (e.ooo.rob e.ooo.robHead).ir.memWidth = (t.inst (commits e.log).length).memWidth ∧
      inDram (t.inst (commits e.log).length).memAddr = true ∧
      InLine (t.inst (commits e.log).length).memAddr (t.inst (commits e.log).length).memWidth := by
    intro store
    obtain ⟨addr, width, _⟩ := (found.plain (by rw [store]; rfl)).access (.inr store)
    obtain ⟨cached, inLine, _⟩ := comparable.access (.inr store)
    exact ⟨addr, width, cached, inLine⟩
  have plain : (e.ooo.rob e.ooo.robHead).ir.StoresPlainly := by
    constructor
    · intro store _
      obtain ⟨addr, width, _, inLine⟩ := access (found.itype.symm.trans store)
      rw [addr, width]
      exact inLine
    · intro store outside
      obtain ⟨addr, _, cached, _⟩ := access (found.itype.symm.trans store)
      rw [addr, cached] at outside
      cases outside
  have filed : (e.ooo.rob e.ooo.robHead).isStore = true ↔
      (e.ooo.rob e.ooo.robHead).ir.itype = .store ∧ inDram (e.ooo.rob e.ooo.robHead).ir.memAddr = true := by
    constructor
    · intro isStore
      have store := store_of_opcode (typed _ valid ready) noFault isStore
      obtain ⟨addr, _, cached, _⟩ := access (found.itype.symm.trans store)
      exact ⟨store, addr ▸ cached⟩
    · intro both
      have store := found.itype.symm.trans both.1
      unfold ROBEntry.isStore
      rw [comparable.raw, (opcode_of_encoded ran decoded (comparable.access (.inr store)).2.2).2 store]
      rfl
  have followed : (e.ooo.rob e.ooo.robHead).ir.Followed := by
    have ranE := (head_reads ok operated live ready agrees.regs).1
    refine ⟨found.dnpc ▸ comparable.target, comparable.predicted, fun system => ?_⟩
    apply ranE.straight
    · rw [← ranE.itype, system]
      rfl
    · rw [(ok.decoded _ valid).1.fn, comparable.raw, ← decoded.fn]
      exact comparable.special.2
  have buffered : e.ooo.afterCommit.buffered = e.ooo.buffered ++
      if (e.ooo.rob e.ooo.robHead).ir.itype = .store ∧ inDram (e.ooo.rob e.ooo.robHead).ir.memAddr = true then
        [⟨(e.ooo.rob e.ooo.robHead).ir.memAddr, (e.ooo.rob e.ooo.robHead).storeData, (e.ooo.rob e.ooo.robHead).ir.memWidth,
          true, (e.ooo.rob e.ooo.robHead).seq⟩] else [] := by
    rw [OOOState.buffered_afterCommit]
    split
    · next both => exact OOOState.buffered_pushStore kept.buffered (room both.1 both.2) _
    · exact (List.append_nil _).symm
  have rep := (sound.loads.memory fun entry member => (agrees.followed entry member).2).1
  have quiet : e₂.log = e₁.committed.log := log.trans committedLog.symm
  rw [active, agrees.active, if_pos rfl] at checked
  obtain ⟨retired, gpr, ref⟩ := agrees.head_retired law sound ok operated typed kept served live ready noFault inside
    comparable stored (commitStore_represents law rep plain stored) quiet checked
  have committedAll : commits e₂.retire.log = commits e.log ++ [e.ooo.rob e.ooo.robHead] := by
    rw [log, commits_append]
    rfl
  have length : (commits e₂.retire.log).length = (commits e.log).length + 1 := by
    rw [committedAll, List.length_append]
    rfl
  have drained : drains e₂.retire.log = drains e.log := by
    rw [log, drains_quiet _ (by simp)]
  refine ⟨commit.active.trans agrees.active, ?_, ?_, ?_, ?_, ?_, ?_, ?_, ?_, ?_⟩
  · rw [length, List.range_succ, List.map_append, ← agrees.retired, List.map_singleton, ← retired, log, retirements_append]
    rfl
  · rw [committedAll]
    intro entry member
    rcases List.mem_append.mp member with old | new
    · exact agrees.followed entry old
    · rw [List.mem_singleton.mp new]
      exact ⟨followed, plain⟩
  · rw [committedAll]
    intro entry member
    rcases List.mem_append.mp member with old | new
    · exact agrees.filed entry old
    · rw [List.mem_singleton.mp new]
      exact filed
  · rw [length, committedAll, nextAfter_concat, found.dnpc, (execOnce_executedFrom step).2]
  · intro a nonzero
    have writes := (committed_gpr ok live (congrArg Retired.result retired)).2
    have next : (t.state ((commits e.log).length + 1)).cpu.gpr = e.committed.cpu.gpr := by
      rw [writes, agrees.gpr, (execOnce_executedFrom step).2]
    rw [length, commit.ooo, next]
    apply committed_regs _ nonzero
    rw [agrees.gpr]
    exact agrees.regs a nonzero
  · rw [length]
    exact gpr
  · rw [length]
    exact ref
  · rw [length, Execution.writes_succ, ← agrees.stores, drained, commit.ooo, buffered, ← List.append_assoc, List.map_append]
    congr 1
    unfold IRInst.write
    by_cases store : (t.inst (commits e.log).length).itype = .store
    · obtain ⟨addr, width, cached, _⟩ := access store
      rw [if_pos store, if_pos ⟨found.itype.trans store, addr ▸ cached⟩, ← addr, ← width, ← found.data store]
      rfl
    · rw [if_neg store, if_neg fun both => store (found.itype.symm.trans both.1)]
      rfl
  · rw [length]
    exact (agrees.performs law kept inside comparable).1

end Commit

/-- Every commit of the log is comparable. -/
def CommitsComparable (t : Execution vm N) (f : Flat) (log : List (Event σ)) : Prop :=
  ∀ before entry value after, log = before ++ .commit entry value :: after → (commits before).length < N ∧
    Comparable (t.inst (commits before).length) (f.drained (drains before)).bytes (pendingStores before) entry

theorem CommitsComparable.of_append {log extra : List (Event σ)} (comparable : CommitsComparable t f (log ++ extra)) :
    CommitsComparable t f log := by
  intro before entry value after split
  apply comparable before entry value (after ++ extra)
  rw [split, List.append_assoc, List.cons_append]

/-- What a run with differential testing keeps as long as nothing is reported. -/
structure Watched (Rep : World σ → Flat → Prop) (f : Flat) (t : Execution vm N) (e : Engine σ β) : Prop where
  sound : e.Sound Rep f (t.state 0).cpu.pc
  typed : e.ooo.Typed
  operated : e.ooo.Operated
  agrees : CommitsComparable t f e.log → (∀ entry, Event.mismatch entry ∉ e.log) → e.Agrees Rep f t ∧ e.ooo.Served

theorem BackStep.agrees (law : CoherentMemory vm Rep) (step : e.BackStep vm cfg e') (ok : e.ooo.Ok) (watched : e.Watched Rep f t)
    (agrees : e.Agrees Rep f t) (served : e.ooo.Served) (comparable : CommitsComparable t f e'.log)
    (silent : ∀ entry, Event.mismatch entry ∉ e'.log) : e'.Agrees Rep f t := by
  have inv := ok.inv
  have completing : ∀ {eu : EU} {s : Fin 2} {entry : ROBEntry} {result : Word} {o : OOOState} {e' : Engine σ β},
      e.ooo.Live eu s → e.ooo.Completes eu s entry result o → e'.ooo = o → e'.difftestActive = e.difftestActive →
      e'.cpu = e.cpu → e'.difftestRef = e.difftestRef → drains e'.log = drains e.log → commits e'.log = commits e.log →
      retirements e'.log = retirements e.log → e'.Agrees Rep f t := by
    intro eu s entry result o e' live completes same active cpu ref drained committed retired
    obtain ⟨sbuf, head, _, count⟩ := completes.stores
    refine agrees.keep active cpu ref (fun a nonzero => ?_) ?_ committed retired
    · rw [same]
      exact completes.committedValue inv live nonzero
    · rw [same, drained, OOOState.buffered_congr sbuf head count]
  cases step with
  | note quiet =>
      rename_i lines
      have silent : ∀ event ∈ lines, (∀ entry value, event ≠ .commit entry value) ∧ ∀ entry, event ≠ .drain entry := by
        intro event member
        obtain ⟨_, _, rfl⟩ := quiet _ member
        exact ⟨by simp, by simp⟩
      refine agrees.keep rfl rfl rfl (fun _ _ => rfl) ?_ (commits_quiet _ fun event member => (silent event member).1)
        (retirements_quiet _ fun event member => (silent event member).1)
      rw [drains_quiet _ fun event member => (silent event member).2]
  | drain waiting written =>
      refine agrees.keep rfl rfl rfl (fun _ _ => rfl) ?_ (commits_quiet _ (by simp)) (retirements_quiet _ (by simp))
      rw [OOOState.buffered_popStore watched.sound.loads.kept.buffered waiting, emit, drains_append, List.append_assoc]
      rfl
  | commit live ready ordered sound room stored checked =>
      obtain ⟨extra, log, _⟩ := (commits_of_checked stored checked).log
      obtain ⟨inside, here⟩ := comparable e.log _ _ _ log
      exact agrees.commit law watched.sound ok watched.operated watched.typed watched.sound.loads.kept served live ready sound inside
        here room stored checked silent
  | exec bpred fault unit live run completes faulted resolved =>
      exact completing live completes rfl rfl rfl rfl rfl rfl rfl
  | redirect live run completes control wrong target =>
      obtain ⟨sbuf, head, _, count⟩ := completes.stores
      have flushes := (redirect_flushes ok live run completes).2
      obtain ⟨sbuf', head', _, count'⟩ := flushes.stores
      refine agrees.keep rfl rfl rfl (fun a nonzero => ?_) ?_ rfl rfl
      · exact (flushes.committedValue a).trans (completes.committedValue inv live nonzero)
      · rw [← OOOState.buffered_congr (sbuf'.trans sbuf) (head'.trans head) (count'.trans count)]
        rfl
  | storeDone live computed store completes => exact completing live completes rfl rfl rfl rfl rfl rfl rfl
  | loadFault addressed outside completes => exact completing addressed.live completes rfl rfl rfl rfl rfl rfl rfl
  | fill addressed device mapped read completes =>
      exact completing addressed.live completes rfl rfl rfl rfl (drains_quiet _ (by simp)) (commits_quiet _ (by simp))
        (retirements_quiet _ (by simp))
  | _ => exact agrees.keep rfl rfl rfl (fun _ _ => rfl) rfl rfl rfl

theorem FrontStep.agrees (step : e.FrontStep vm cfg e') (ok : e.ooo.Ok) (agrees : e.Agrees Rep f t) : e'.Agrees Rep f t := by
  cases step with
  | rename valid inOrder alone room names renames =>
      obtain ⟨sbuf, head, _, count⟩ := renames.sbuf
      refine agrees.keep rfl rfl rfl (fun _ nonzero => renames.committedValue ok.inv names nonzero) ?_ (commits_quiet _ ?_)
        (retirements_quiet _ ?_)
      · rw [drains_quiet]
        · rw [← OOOState.buffered_congr sbuf head count]
          rfl
        · split <;> simp
      · split <;> simp
      · split <;> simp
  | _ => exact agrees.keep rfl rfl rfl (fun _ _ => rfl) rfl rfl rfl

theorem BackStep.watched (law : CoherentMemory vm Rep) (step : e.BackStep vm cfg e') (ok : e.ooo.Ok)
    (watched : e.Watched Rep f t) : e'.Watched Rep f t := by
  refine ⟨step.sound law ok watched.sound, step.typed ok watched.typed, step.operated ok watched.operated, ?_⟩
  intro comparable silent
  obtain ⟨extra, log⟩ := step.log_extends
  obtain ⟨agrees, served⟩ := watched.agrees (log ▸ comparable).of_append fun entry member =>
    silent entry (log ▸ List.mem_append_left _ member)
  have after := step.agrees law ok watched agrees served comparable silent
  exact ⟨after, step.served ok watched.sound.loads.kept.buffered watched.sound.loads.cleared after.filed served⟩

theorem FrontStep.watched (law : CoherentMemory vm Rep) (mapped : inDram (t.state 0).cpu.pc = true)
    (step : e.FrontStep vm cfg e') (ok : e.ooo.Ok) (watched : e.Watched Rep f t) : e'.Watched Rep f t := by
  refine ⟨step.sound law mapped ok watched.sound, step.typed watched.typed, step.operated ok watched.operated, ?_⟩
  intro comparable silent
  obtain ⟨extra, log⟩ := step.log_extends
  obtain ⟨agrees, served⟩ := watched.agrees (log ▸ comparable).of_append fun entry member =>
    silent entry (log ▸ List.mem_append_left _ member)
  exact ⟨step.agrees ok agrees, step.served ok served⟩

variable (cfg) in
theorem init_watched (enabled : cfg.difftestEn = true) (single : cfg.numCores = 1) {cpu : CPUState} {world : World σ}
    (start : t.state 0 = ⟨cpu, world⟩) (mapped : inDram cpu.pc = true) (rep : Rep world f) (bpred : β) :
    (Engine.init cfg cpu world bpred).Watched Rep f t := by
  have atPc : (t.state 0).cpu.pc = cpu.pc := congrArg (fun m : Machine σ => m.cpu.pc) start
  refine ⟨?_, fun _ valid => (nomatch valid), fun _ valid => (nomatch valid), fun _ _ => ⟨?_, ?_⟩⟩
  · rw [atPc]
    exact init_sound cfg mapped rep bpred
  · refine ⟨by simp [Engine.init, enabled, single], rfl, fun _ absurdity => (nomatch absurdity),
      fun _ absurdity => (nomatch absurdity), rfl, ?_, ?_, ?_, rfl, f, ?_, rfl⟩
    · intro a _
      rw [show (t.state (commits (Engine.init cfg cpu world bpred).log).length) = ⟨cpu, world⟩ from start]
      simp [Engine.init, OOOState.committedValue, oooInit, a.isLt]
    · exact (congrArg (fun m : Machine σ => m.cpu.gpr) start).symm
    · exact (congrArg Machine.cpu start).symm
    · rw [show (t.state (commits (Engine.init cfg cpu world bpred).log).length) = ⟨cpu, world⟩ from start]
      exact rep
  · intro i loaded
    cases loaded.valid

/-- A commit of cycle `k` of a run, with the states before and after it. -/
structure CommitsIn (vm : VMem σ) (cfg : OooConfig β) (start : Engine σ β) (k : Nat) (e e' : Engine σ β) : Prop where
  reached : ∃ e₁ e₂ turns, run vm cfg k start = some e₁ ∧ e₁.drainStoreBuf vm cfg = some e₂ ∧ turns < commitWidth ∧
    commitLoop vm cfg turns { e₂ with tcIr := [] } = some e
  commits : e.commitOne vm cfg = some (e', true)

/-- What every step keeps holds before and after each commit of a run. -/
theorem CommitsIn.keeps {P : Engine σ β → Prop} (back : ∀ e e', e.ooo.Ok → P e → e.BackStep vm cfg e' → P e')
    (front : ∀ e e', e.ooo.Ok → P e → e.FrontStep vm cfg e' → P e') {start : Engine σ β} (ok : start.ooo.Ok)
    (tidy : start.ooo.Tidy) (holds : P start) {k : Nat} (commit : CommitsIn vm cfg start k e e') :
    e.ooo.Ok ∧ P e ∧ P e' ∧ e.ooo.robCount ≠ 0 := by
  obtain ⟨⟨e₁, e₂, turns, ran, drained, _, looped⟩, one⟩ := commit
  obtain ⟨ok₁, _, holds₁⟩ := run_keeps back front ok tidy holds ran
  have steps := ((drainStoreBuf_steps drained).trans (.single (resetTrace_step e₂))).trans (commitLoop_steps looped)
  have okE := backSteps_ok steps ok₁
  have holdsE := backSteps_keep back steps ok₁ holds₁
  refine ⟨okE, holdsE, backSteps_keep back (commitOne_steps one) okE holdsE, ?_⟩
  intro empty
  unfold commitOne at one
  simp only [empty, true_or, if_true] at one
  cases congrArg Prod.snd (Option.some.inj one)

/-- The first commit of a log. -/
theorem first_commit {log : List (Event σ)} (some : commits log ≠ []) : ∃ before entry value after,
    log = before ++ .commit entry value :: after ∧ commits before = [] := by
  induction log with
  | nil => exact absurd rfl some
  | cons event rest ih =>
      cases event with
      | commit entry value => exact ⟨[], entry, value, rest, rfl, rfl⟩
      | pop | fill | drain | logLine | mismatch =>
          obtain ⟨before, entry, value, after, split, none⟩ := ih some
          exact ⟨_ :: before, entry, value, after, congrArg _ split, none⟩

/-- If nothing has been reported up to a commit, its pc is the reference's, and the commits so far are the instructions
of the functional engine, provided every commit is comparable. -/
theorem difftest_detects {δ : Type} (devices : Devices δ) (cfg : OooConfig β) (enabled : cfg.difftestEn = true)
    (single : cfg.numCores = 1) (cpu : CPUState) (sys : Sys) (hart : sys.hartid = 0) (pmem : ByteMem) (dev : δ) (bpred : β)
    (k : Nat) (e e' : Engine (MemState δ) β)
    (commit : CommitsIn (hierarchy ⟨1, prefetchHint, devices⟩) cfg
      (Engine.init cfg cpu ⟨sys, MemState.init pmem dev⟩ bpred) k e e')
    (t : Execution (hierarchy ⟨1, prefetchHint, devices⟩) (commits e'.log).length)
    (start : t.state 0 = ⟨cpu, ⟨sys, MemState.init pmem dev⟩⟩)
    (comparable : ∀ before entry value after, e'.log = before ++ .commit entry value :: after →
      Comparable (t.inst (commits before).length) ((⟨pmem, ∅⟩ : Flat).drained (drains before)).bytes (pendingStores before)
        entry)
    (silent : ∀ entry, Event.mismatch entry ∉ e'.log) :
    (e.ooo.rob e.ooo.robHead).ir.pc = e.difftestRef.pc ∧
      retirements e'.log = (List.range (commits e'.log).length).map fun n => (t.inst n).retired := by
  have law : CoherentMemory (hierarchy ⟨1, prefetchHint, devices⟩)
      fun w f => Represents ⟨1, prefetchHint, devices⟩ f w := hierarchy_coherent rfl
  have rep : Represents ⟨1, prefetchHint, devices⟩ ⟨pmem, ∅⟩ ⟨sys, MemState.init pmem dev⟩ :=
    ⟨init_represents _ pmem dev, fun _ => hart⟩
  have inside : ∀ {before after : List (Event (MemState δ))} {entry : ROBEntry} {value : Word},
      e'.log = before ++ .commit entry value :: after → (commits before).length < (commits e'.log).length := by
    intro before after entry value split
    rw [split, commits_append, List.length_append]
    exact Nat.lt_add_of_pos_right (Nat.succ_pos _)
  obtain ⟨extra, log, committed⟩ : ∃ extra, e'.log = e.log ++ extra ∧ commits e'.log ≠ [] := by
    obtain ⟨_, lines, _, ⟨stopped, _⟩ | ⟨_, step⟩⟩ := commitOne_cases commit.commits
    · cases stopped
    · obtain ⟨extra, log, _⟩ := step.log
      refine ⟨_, log.trans (List.append_assoc _ lines _), ?_⟩
      rw [log, commits_append]
      exact List.append_ne_nil_of_right_ne_nil _ (List.cons_ne_nil _ _)
  have mapped : inDram (t.state 0).cpu.pc = true := by
    obtain ⟨before, entry, value, after, split, none⟩ := first_commit committed
    have first := (comparable before entry value after split).code.1
    have positive := inside split
    rw [none] at first positive
    rwa [← (execOnce_ran (t.step 0 positive)).2.2.2.1]
  have initial : (Engine.init cfg cpu ⟨sys, MemState.init pmem dev⟩ bpred).Watched
      (fun w f => Represents ⟨1, prefetchHint, devices⟩ f w) ⟨pmem, ∅⟩ t :=
    init_watched cfg enabled single start (by rwa [start] at mapped) rep bpred
  obtain ⟨ok, before, after, live⟩ := commit.keeps
    (P := fun e => e.Watched (fun w f => Represents ⟨1, prefetchHint, devices⟩ f w) ⟨pmem, ∅⟩ t)
    (fun _ _ ok holds step => step.watched law ok holds) (fun _ _ ok holds step => step.watched law mapped ok holds)
    (oooInit_ok cpu) (oooInit_tidy cpu) initial
  have all : CommitsComparable t ⟨pmem, ∅⟩ e'.log := fun before entry value after split =>
    ⟨inside split, comparable before entry value after split⟩
  have early : CommitsComparable t ⟨pmem, ∅⟩ (e.log ++ extra) := by
    rw [← log]
    exact all
  obtain ⟨agrees, _⟩ := before.agrees early.of_append fun entry member =>
    silent entry (by rw [log]; exact List.mem_append_left _ member)
  refine ⟨?_, (after.agrees all silent).1.retired⟩
  rw [agrees.head before.sound ok live, agrees.ref]

end Engine

instance (ir : IRInst) (mem : ByteMem) (pending : List StoreData) (entry : ROBEntry) :
    Decidable (Comparable ir mem pending entry) :=
  decidable_of_iff (entry.ir.raw = ir.raw ∧
    (inDram ir.pc = true ∧ InLine ir.pc 4 ∧ (loadLE mem ir.pc.toNat 4).setWidth 32 = ir.raw) ∧
    inDram ir.dnpc = true ∧ entry.ir.bpPredictedPc ≠ 0 ∧ (ir.itype ≠ .csr ∧ ¬ ir.execFn.Traps) ∧
    (ir.itype = .load ∨ ir.itype = .store →
      inDram ir.memAddr = true ∧ InLine ir.memAddr ir.memWidth ∧ ir.raw.toNat % 4 = 3) ∧
    (ir.itype = .load → forwardsExactly ir.memAddr.toNat ir.memWidth (storeWrites pending) true = true))
    ⟨fun all => ⟨all.1, all.2.1, all.2.2.1, all.2.2.2.1, all.2.2.2.2.1, all.2.2.2.2.2.1, all.2.2.2.2.2.2⟩,
      fun comparable => ⟨comparable.raw, comparable.code, comparable.target, comparable.predicted, comparable.special,
        comparable.access, comparable.load⟩⟩

/-- The last commit of cycle 18 is the load of the word that the commit before it has stored and that is still buffered:
all thirteen commits are those of the functional engine. -/
theorem Engine.difftest_detects_buffered : ∃ e e' insts m, CommitsIn (hierarchy (.plain 1)) .tested
      (Engine.init .tested ⟨.empty, mbase⟩ ⟨Sys.init, MemState.init (image bufferedLoadProgram) ()⟩ ()) 18 e e' ∧
    execMany (hierarchy (.plain 1)) (fun _ => .zero) 13
      ⟨⟨.empty, mbase⟩, ⟨Sys.init, MemState.init (image bufferedLoadProgram) ()⟩⟩ = some (insts, m) ∧
    (e.ooo.rob e.ooo.robHead).ir.itype = .load ∧ e.ooo.sbufCount = 1 ∧ m.cpu.gpr.get 7 = 1 ∧
      (e.ooo.rob e.ooo.robHead).ir.pc = e.difftestRef.pc ∧ retirements e'.log = insts.map IRInst.retired := by
  have reached : (testedRun bufferedLoadProgram 18).any (fun e₁ => (e₁.drainStoreBuf (hierarchy (.plain 1)) .tested).any fun e₂ =>
      (commitLoop (hierarchy (.plain 1)) .tested 1 { e₂ with tcIr := [] }).any fun e =>
        (e.commitOne (hierarchy (.plain 1)) .tested).any fun r =>
          (execMany (hierarchy (.plain 1)) (fun _ => .zero) 13
            ⟨⟨.empty, mbase⟩, ⟨Sys.init, MemState.init (image bufferedLoadProgram) ()⟩⟩).any fun (insts, m) =>
              r.2 && decide ((commits r.1.log).length = 13) &&
              ((e.ooo.rob e.ooo.robHead).ir.itype == .load && e.ooo.sbufCount == 1 && m.cpu.gpr.get 7 == 1) &&
              r.1.log.all (fun event => match event with
                | .mismatch _ => false
                | _ => true) &&
              commitsPass (fun before entry => (insts[(commits before).length]?).any fun ir => decide (Comparable ir
                ((⟨image bufferedLoadProgram, ∅⟩ : Flat).drained (drains before)).bytes (pendingStores before) entry))
                [] r.1.log) = true := by
    decide +kernel
  obtain ⟨e₁, ran, rest⟩ := (Option.any_eq_true _ _).mp reached
  obtain ⟨e₂, drained, rest⟩ := (Option.any_eq_true _ _).mp rest
  obtain ⟨e, looped, rest⟩ := (Option.any_eq_true _ _).mp rest
  obtain ⟨⟨e', goesOn⟩, one, rest⟩ := (Option.any_eq_true _ _).mp rest
  obtain ⟨⟨insts, m⟩, functional, holds⟩ := (Option.any_eq_true _ _).mp rest
  simp only [Bool.and_eq_true, decide_eq_true_eq, beq_iff_eq] at holds
  obtain ⟨⟨⟨⟨rfl, length⟩, ⟨load, buffered⟩, seven⟩, silent⟩, comparable⟩ := holds
  have commit : CommitsIn (hierarchy (.plain 1)) .tested
      (Engine.init .tested ⟨.empty, mbase⟩ ⟨Sys.init, MemState.init (image bufferedLoadProgram) ()⟩ ()) 18 e e' :=
    ⟨⟨e₁, e₂, 1, ran, drained, by decide, looped⟩, one⟩
  refine ⟨e, e', insts, m, commit, functional, load, buffered, seven, ?_⟩
  rw [← length] at functional
  obtain ⟨t, start, _, listed⟩ := Execution.of_execMany functional
  rw [listed, List.map_map]
  refine Engine.difftest_detects Devices.none .tested rfl rfl ⟨.empty, mbase⟩ Sys.init rfl (image bufferedLoadProgram) () () 18
    e e' commit t start ?_ ?_
  · intro before entry value after split
    have inside : (commits before).length < (commits e'.log).length := by
      rw [split, commits_append, List.length_append]
      exact Nat.lt_add_of_pos_right (Nat.succ_pos _)
    rw [split] at comparable
    have passed := commitsPass_at comparable
    rw [List.nil_append, listed, List.getElem?_map, List.getElem?_range inside] at passed
    exact of_decide_eq_true passed
  · intro entry member
    cases List.all_eq_true.mp silent _ member

/-- Eight `nop`s, then `auipc x5, 0`, `lw x8, 0x40(x5)`, `addi x6, x0, 1`, `sb x6, 0x40(x5)` and `lw x7, 0x40(x5)`. -/
def narrowStoreProgram : List Raw :=
  List.replicate 8 0x00000013 ++ [0x00000297, 0x0402a403, 0x00100313, 0x04628023, 0x0402a383] ++
    List.replicate 51 0x00000013

/-- The load misses the buffered byte and commits the old word. The reference loads the same word, and nothing is
reported. -/
theorem difftest_misses : ∃ e insts m, testedRun narrowStoreProgram 19 = some e ∧
    execMany (hierarchy (.plain 1)) (fun _ => .zero) 13
      ⟨⟨.empty, mbase⟩, ⟨Sys.init, MemState.init (image narrowStoreProgram) ()⟩⟩ = some (insts, m) ∧
    (commits e.log).length = 13 ∧ (∀ entry, Event.mismatch entry ∉ e.log) ∧
    retirements e.log ≠ insts.map IRInst.retired ∧ e.cpu.gpr.get 7 = 0x13 ∧ m.cpu.gpr.get 7 = 1 := by
  have reached : (testedRun narrowStoreProgram 19).any (fun e =>
      (execMany (hierarchy (.plain 1)) (fun _ => .zero) 13
        ⟨⟨.empty, mbase⟩, ⟨Sys.init, MemState.init (image narrowStoreProgram) ()⟩⟩).any fun (insts, m) =>
          decide ((commits e.log).length = 13) && (e.log.all (fun event => match event with
            | .mismatch _ => false
            | _ => true) && (decide (retirements e.log ≠ insts.map IRInst.retired) &&
              (e.cpu.gpr.get 7 == 0x13 && m.cpu.gpr.get 7 == 1)))) = true := by
    decide +kernel
  obtain ⟨e, done, rest⟩ := (Option.any_eq_true _ _).mp reached
  obtain ⟨⟨insts, m⟩, functional, holds⟩ := (Option.any_eq_true _ _).mp rest
  simp only [Bool.and_eq_true, decide_eq_true_eq, beq_iff_eq] at holds
  obtain ⟨length, silent, different, found, expected⟩ := holds
  refine ⟨e, insts, m, done, functional, length, ?_, different, found, expected⟩
  intro entry member
  cases List.all_eq_true.mp silent _ member

end Sustemu
