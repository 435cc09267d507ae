import Sustemu.Cpu.Trace
import Sustemu.Ooo.Runs

/-!
# Programs that write their own code

Stores stay in the data cache and fetches go through the instruction cache;
`fence.i` is executed as `fence` and moves nothing between them. A fetch sees
the newest bytes exactly when the instruction cache holds no older copy of
them and no dirty data line hides them.
-/

set_option autoImplicit false

namespace Sustemu

open Lib

/-! ## What a store and a fetch reach -/

/-- The bytes that a store puts into memory through the data cache. -/
def IRInst.dramWrite (ir : IRInst) : Option Write :=
  if ir.itype = .store ∧ inDram ir.memAddr = true then some ⟨ir.memAddr.toNat, ir.memWidth, ir.src2Val⟩ else none

namespace MemState

variable {δ : Type}

/-- The bytes behind the first level. -/
def below (m : MemState δ) : ByteMem := fun addr =>
  match m.l2.block (addr / blockSize) with
  | some (_, data) => data (addr % blockSize)
  | none => m.pmem addr

/-- The copy that the instruction cache holds of the word at `addr` is current; without one, a dirty data line has the
same word as the levels behind it. -/
def FetchCurrent (m : MemState δ) (addr : Word) : Prop :=
  match (m.l1i 0).block (addr.toNat / blockSize) with
  | some (_, line) => ∀ byte, addr.toNat ≤ byte → byte < addr.toNat + 4 → line (byte % blockSize) = m.content 0 byte
  | none => ∀ data, (m.l1d 0).block (addr.toNat / blockSize) = some (true, data) →
      ∀ byte, addr.toNat ≤ byte → byte < addr.toNat + 4 → data (byte % blockSize) = m.below byte

end MemState

section Fetch

variable {δ : Type} {cfg : MemConfig δ} {w : World (MemState δ)} {f : Flat} {addr : Word}

/-- A fetch returns the first copy on the instruction side. -/
theorem vaddrIfetch_content (hint : cfg.prefetchHint = prefetchHint) (rep : Represents cfg f w)
    (cached : inDram addr = true) {len : Nat} (inside : InLine addr len) : ∃ w',
      vaddrIfetch cfg w addr len = some (loadLE (w.mem.fetchSide w.sys.hartid).content addr.toNat len, w') := by
  have value := cacheRead_content (w.mem.fetchSide w.sys.hartid) ⟨rep.mem.l1i _, rep.mem.l2⟩
    (rep.mem.coherent.fetchClean w.sys.hartid) inside
  unfold vaddrIfetch
  rw [if_pos cached, hint, ← value]
  exact ⟨_, rfl⟩

/-- With one core, a data line that is not dirty has the bytes behind it. -/
theorem Represents.below (rep : Represents cfg f w) (one : cfg.numCores ≤ 1) {byte : Nat}
    (clean : ∀ data, (w.mem.l1d 0).block (byte / blockSize) ≠ some (true, data)) : w.mem.below byte = f.bytes byte := by
  have inside : byte % blockSize < blockSize := Nat.mod_lt _ (by decide)
  have whole : byte / blockSize * blockSize + byte % blockSize = byte := Nat.div_add_mod' byte blockSize
  have settled : w.mem.levels.Settled (byte / blockSize) := by
    intro h data found
    rcases Fin.exists_fin_two.mp ⟨h, rfl⟩ with zero | second
    · subst zero
      exact clean data found
    · subst second
      cases (rep.mem.single one _).symm.trans found
  unfold MemState.below
  cases second : w.mem.l2.block (byte / blockSize) with
  | some copy =>
      have agrees := rep.mem.coherent.second _ copy.1 copy.2 settled second _ inside
      rw [whole] at agrees
      exact agrees
  | none =>
      have agrees := rep.mem.coherent.memory _ settled second _ inside
      simp only [whole] at agrees
      exact agrees

/-- The bytes of a word inside a line are in one block. -/
private theorem InLine.block {len byte : Nat} (inside : InLine addr len) (low : addr.toNat ≤ byte)
    (high : byte < addr.toNat + len) : byte / blockSize = addr.toNat / blockSize := by
  unfold InLine blockSize at *
  omega

/-- The instruction side has the newest word exactly when it is current. -/
theorem Represents.fetch_newest (rep : Represents cfg f w) (one : cfg.numCores ≤ 1) (inside : InLine addr 4) :
    loadLE (w.mem.fetchSide 0).content addr.toNat 4 = loadLE f.bytes addr.toNat 4 ↔ w.mem.FetchCurrent addr := by
  rw [loadLE_eq_iff (by decide), ← rep.content one]
  unfold MemState.FetchCurrent
  cases copy : (w.mem.l1i 0).block (addr.toNat / blockSize) with
  | some line =>
      have found : ∀ byte, addr.toNat ≤ byte → byte < addr.toNat + 4 →
          (w.mem.fetchSide 0).content byte = line.2 (byte % blockSize) := by
        intro byte low high
        simp only [Hier.content, MemState.fetchSide, inside.block low high, copy]
      constructor
      · intro newest byte low high
        rw [← newest byte low high, found byte low high]
      · intro current byte low high
        rw [found byte low high, current byte low high]
  | none =>
      have found : ∀ byte, addr.toNat ≤ byte → byte < addr.toNat + 4 →
          (w.mem.fetchSide 0).content byte = w.mem.below byte := by
        intro byte low high
        simp only [Hier.content, MemState.fetchSide, MemState.back, MemState.below, inside.block low high, copy]
        cases w.mem.l2.block (addr.toNat / blockSize) with
        | none => rfl
        | some second => rfl
      have dirtyContent : ∀ data, (w.mem.l1d 0).block (addr.toNat / blockSize) = some (true, data) →
          ∀ byte, addr.toNat ≤ byte → byte < addr.toNat + 4 → w.mem.content 0 byte = data (byte % blockSize) := by
        intro data dirty byte low high
        simp only [MemState.content, inside.block low high, dirty]
      constructor
      · intro newest data dirty byte low high
        rw [← dirtyContent data dirty byte low high, ← newest byte low high, found byte low high]
      · intro current byte low high
        rw [found byte low high]
        by_cases dirty : ∃ data, (w.mem.l1d 0).block (addr.toNat / blockSize) = some (true, data)
        · obtain ⟨data, dirty⟩ := dirty
          rw [dirtyContent data dirty byte low high, current data dirty byte low high]
        · rw [rep.content one]
          apply rep.below one
          intro data found
          rw [inside.block low high] at found
          exact dirty ⟨data, found⟩

end Fetch

/-! ## Runs -/

section Runs

variable {δ : Type} {cfg : MemConfig δ} {f : Flat} {stack ir : IRInst} {m m' : Machine (MemState δ)}

theorem vaddrIfetch_represents (hint : cfg.prefetchHint = prefetchHint) {w w' : World (MemState δ)} {addr value : Word}
    {len : Nat} (rep : Represents cfg f w) (done : vaddrIfetch cfg w addr len = some (value, w')) :
    Represents cfg f w' ∧ w'.sys.hartid = w.sys.hartid := by
  cases cached : inDram addr with
  | true =>
      obtain ⟨_, _, found, sys, after, _⟩ := vaddrIfetch_spec hint rep cached len
      cases found.symm.trans done
      exact ⟨after, congrArg Sys.hartid sys⟩
  | false =>
      rw [vaddrIfetch, cached] at done
      exact paddrRead_represents rep done

theorem irMemAccess_represents (hint : cfg.prefetchHint = prefetchHint) {w w' : World (MemState δ)} {executed : IRInst}
    (rep : Represents cfg f w) (plain : ir.StoresPlainly)
    (accessed : irMemAccess (hierarchy cfg) executed w = some (ir, w')) : Represents cfg (f.perform ir.dramWrite) w' := by
  have law := hierarchy_coherent hint
  unfold irMemAccess at accessed
  split at accessed
  · next load =>
      obtain ⟨⟨raw, w₃⟩, read, same⟩ := Option.map_eq_some_iff.mp accessed
      cases same
      have noWrite : ({ executed with result := extend executed.memSign executed.memWidth raw } : IRInst).dramWrite = none := by
        unfold IRInst.dramWrite
        rw [if_neg]
        exact fun store => nomatch load.symm.trans store.1
      rw [noWrite]
      cases cached : inDram executed.memAddr with
      | true =>
          obtain ⟨_, _, found, _, after, _⟩ := law.read executed.memWidth rep cached
          cases found.symm.trans read
          exact after
      | false => exact (law.uncached executed.memWidth rep cached (.inl read)).1
  · next store =>
      obtain ⟨w₃, written, same⟩ := Option.map_eq_some_iff.mp accessed
      cases same
      cases cached : inDram ir.memAddr with
      | true =>
          obtain ⟨_, found, _, after⟩ := law.write ir.src2Val rep cached (plain.inLine store cached)
          cases found.symm.trans written
          unfold IRInst.dramWrite
          rw [if_pos ⟨store, cached⟩]
          exact after
      | false =>
          unfold IRInst.dramWrite
          rw [if_neg (by simp [cached])]
          exact (law.uncachedWrite ir.memWidth ir.src2Val rep (plain.device store cached) written).1
  · next other notStore =>
      cases accessed
      unfold IRInst.dramWrite
      rw [if_neg (fun store => notStore store.1)]
      exact rep

/-- One instruction keeps the memory represented, whatever word it was fetched as. -/
theorem execOnce_represents (hint : cfg.prefetchHint = prefetchHint) (rep : Represents cfg f m.world)
    (plain : ir.StoresPlainly) (done : execOnce (hierarchy cfg) stack m = some (ir, m')) :
    Represents cfg (f.perform ir.dramWrite) m'.world := by
  have law := hierarchy_coherent hint
  obtain ⟨word, w₁, executed, sys', w₂, fetched, run, accessed, rfl⟩ := execOnce_steps done
  have hart := pmpCheck_hartid m.world.sys m.cpu.pc true false
  obtain ⟨rep₁, _⟩ := vaddrIfetch_represents hint (law.sys _ rep hart) fetched
  have rep₂ : Represents cfg f { w₁ with sys := sys' } := law.sys sys' rep₁ (irExecute_hartid run)
  exact law.sys _ (irMemAccess_represents hint rep₂ plain accessed) rfl

/-- The writes of the instructions of a run to memory, oldest first. -/
def dramWrites (executed : List IRInst) : List Write := executed.filterMap IRInst.dramWrite

theorem execMany_represents (hint : cfg.prefetchHint = prefetchHint) {junk : Nat → IRInst} {n : Nat}
    {executed : List IRInst} (rep : Represents cfg f m.world)
    (done : execMany (hierarchy cfg) junk n m = some (executed, m')) (plain : ∀ ir ∈ executed, ir.StoresPlainly) :
    ∃ written, Represents cfg ⟨applyWrites f.bytes (dramWrites executed), written⟩ m'.world := by
  induction n generalizing executed m' with
  | zero =>
      cases done
      exact ⟨f.written, rep⟩
  | succ n ih =>
      simp only [execMany, Option.bind_eq_bind, Option.bind_eq_some_iff] at done
      obtain ⟨⟨older, m₁⟩, before, ⟨ir, m₂⟩, last, same⟩ := done
      cases same
      obtain ⟨written, rep₁⟩ := ih before fun ir member => plain ir (List.mem_append_left _ member)
      have rep₂ := execOnce_represents hint rep₁ (plain ir (by simp)) last
      have bytes : (Flat.perform ⟨applyWrites f.bytes (dramWrites older), written⟩ ir.dramWrite).bytes =
          applyWrites f.bytes (dramWrites (older ++ [ir])) := by
        cases write : ir.dramWrite with
        | none => simp [Flat.perform, applyWrites, dramWrites, write]
        | some w => simp [Flat.perform, Flat.store, applyWrites, dramWrites, write]
      refine ⟨(Flat.perform ⟨applyWrites f.bytes (dramWrites older), written⟩ ir.dramWrite).written, ?_⟩
      rw [← bytes]
      exact rep₂

end Runs

/-- After any run of the functional engine on one core, with `fence.i` or without, a fetch returns the bytes most recently
stored exactly when the instruction cache holds no older copy of them and no dirty data line hides them. -/
theorem fetch_newest_iff {δ : Type} (devices : Devices δ) (cpu : CPUState) (sys : Sys) (hart : sys.hartid = 0)
    (pmem : ByteMem) (dev : δ) (junk : Nat → IRInst) (n : Nat) (executed : List IRInst) (m : Machine (MemState δ))
    (done : execMany (hierarchy ⟨1, prefetchHint, devices⟩) junk n ⟨cpu, ⟨sys, MemState.init pmem dev⟩⟩ =
      some (executed, m))
    (plain : ∀ ir ∈ executed, ir.StoresPlainly) (addr : Word) (cached : inDram addr = true) (inside : InLine addr 4) :
    (vaddrIfetch ⟨1, prefetchHint, devices⟩ m.world addr 4).map Prod.fst =
        some (loadLE (applyWrites pmem (dramWrites executed)) addr.toNat 4) ↔
      m.world.mem.FetchCurrent addr := by
  obtain ⟨written, rep⟩ := execMany_represents (f := ⟨pmem, ∅⟩) rfl ⟨init_represents _ pmem dev, fun _ => hart⟩ done plain
  obtain ⟨w', fetched⟩ := vaddrIfetch_content rfl rep cached inside
  rw [rep.single (Nat.le_refl 1)] at fetched
  rw [fetched, ← rep.fetch_newest (Nat.le_refl 1) inside]
  exact Option.some_inj

/-- `sw x9, 0x40(x10)` and `fence.i`, then `lw x5, 0x40(x11)` to `lw x5, 0x40(x18)`. -/
def evictingProgram : List Raw :=
  [0x04952023, 0x0000100f, 0x0405a283, 0x04062283, 0x0406a283, 0x04072283, 0x0407a283, 0x04082283, 0x0408a283, 0x04092283]

/-- A word in `x9`, and in `x10` to `x18` addresses of lines that share a set of the data cache. -/
def evictingRegs : RegFile :=
  (List.range 9).foldl (fun gpr k => gpr.set (Fin.ofNat 32 (10 + k)) (mbase + BitVec.ofNat 64 (0x1000 * k)))
    (RegFile.empty.set 9 0x13)

/-- Once the dirty line is evicted, the word that was stored is fetched. -/
theorem fetch_newest_evicted : ∃ executed m,
    execMany (hierarchy (.plain 1)) (fun _ => .zero) 10
      ⟨⟨evictingRegs, mbase⟩, ⟨Sys.init, MemState.init (image evictingProgram) ()⟩⟩ = some (executed, m) ∧
    (vaddrIfetch (.plain 1) m.world 0x80000040 4).map Prod.fst = some 0x13 ∧ m.world.mem.FetchCurrent 0x80000040 := by
  have reached : (execMany (hierarchy (.plain 1)) (fun _ => .zero) 10
      ⟨⟨evictingRegs, mbase⟩, ⟨Sys.init, MemState.init (image evictingProgram) ()⟩⟩).any (fun (executed, m) =>
        decide (∀ ir ∈ executed, ir.StoresPlainly) &&
          ((vaddrIfetch (.plain 1) m.world 0x80000040 4).map Prod.fst == some 0x13) &&
            (loadLE (applyWrites (image evictingProgram) (dramWrites executed)) 0x80000040 4 == 0x13)) = true := by
    decide +kernel
  obtain ⟨⟨executed, m⟩, done, holds⟩ := (Option.any_eq_true _ _).mp reached
  simp only [Bool.and_eq_true, decide_eq_true_eq, beq_iff_eq] at holds
  obtain ⟨⟨plain, fetched⟩, newest⟩ := holds
  refine ⟨executed, m, done, fetched, (fetch_newest_iff Devices.none ⟨evictingRegs, mbase⟩ Sys.init rfl (image evictingProgram) ()
    (fun _ => .zero) 10 executed m done plain 0x80000040 (by decide) (by decide)).mp ?_⟩
  exact fetched.trans (congrArg some newest.symm)

/-- `auipc x5, 0`, `addi x6, x0, 0x13`, `sw x6, 0x10(x5)` and `fence.i`, then `addi x10, x0, 1`, which the store replaces. -/
def patchingProgram : List Raw := [0x00000297, 0x01300313, 0x0062a823, 0x0000100f, 0x00100513]

/-- The instruction that the store replaced before `fence.i` is still fetched and executed after it. -/
theorem fence_i_fetches_stale : ∃ executed m,
    execMany (hierarchy (.plain 1)) (fun _ => .zero) 5
      ⟨⟨.empty, mbase⟩, ⟨Sys.init, MemState.init (image patchingProgram) ()⟩⟩ = some (executed, m) ∧
    executed.map IRInst.raw = patchingProgram ∧ dramWrites executed = [⟨0x80000010, 4, 0x13⟩] ∧
      (vaddrIfetch (.plain 1) m.world 0x80000010 4).map Prod.fst = some 0x00100513 ∧
      loadLE (applyWrites (image patchingProgram) (dramWrites executed)) 0x80000010 4 = 0x13 ∧
      m.cpu.gpr.get 10 = 1 := by
  have reached : (execMany (hierarchy (.plain 1)) (fun _ => .zero) 5
      ⟨⟨.empty, mbase⟩, ⟨Sys.init, MemState.init (image patchingProgram) ()⟩⟩).any (fun (executed, m) =>
        decide (executed.map IRInst.raw = patchingProgram) && decide (dramWrites executed = [⟨0x80000010, 4, 0x13⟩]) &&
          ((vaddrIfetch (.plain 1) m.world 0x80000010 4).map Prod.fst == some 0x00100513) &&
            (loadLE (applyWrites (image patchingProgram) (dramWrites executed)) 0x80000010 4 == 0x13) &&
              (m.cpu.gpr.get 10 == 1)) = true := by
    decide +kernel
  obtain ⟨⟨executed, m⟩, done, holds⟩ := (Option.any_eq_true _ _).mp reached
  simp only [Bool.and_eq_true, decide_eq_true_eq, beq_iff_eq] at holds
  obtain ⟨⟨⟨⟨words, writes⟩, fetched⟩, newest⟩, value⟩ := holds
  exact ⟨executed, m, done, words, writes, fetched, newest, value⟩

end Sustemu
