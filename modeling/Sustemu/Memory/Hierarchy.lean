import Sustemu.Memory.Access

/-!
# The hierarchy is a coherent memory

`CoherentMemory` is what the engines may assume of `vmem.h`: a relation between
worlds and flat memories under which reads return the flat bytes and writes
update them. The cache hierarchy satisfies it for one core and for two. The
last section runs arbitrary interleavings of accesses of the harts.
-/

set_option autoImplicit false

namespace Sustemu

open Lib

/-- The access does not leave its 64-byte line. -/
def InLine (addr : Word) (len : Nat) : Prop := addr.toNat % blockSize + len ≤ blockSize

instance (addr : Word) (len : Nat) : Decidable (InLine addr len) := inferInstanceAs (Decidable (_ ≤ _))

/-- A cacheable store stays inside its line, and any other store goes to a device. -/
structure IRInst.StoresPlainly (ir : IRInst) : Prop where
  inLine : ir.itype = .store → inDram ir.memAddr = true → InLine ir.memAddr ir.memWidth
  device : ir.itype = .store → inDram ir.memAddr = false → inDram (ir.memAddr &&& 0xffffffff) = false

instance (ir : IRInst) : Decidable ir.StoresPlainly :=
  decidable_of_iff ((ir.itype = .store → inDram ir.memAddr = true → InLine ir.memAddr ir.memWidth) ∧
    (ir.itype = .store → inDram ir.memAddr = false → inDram (ir.memAddr &&& 0xffffffff) = false))
    ⟨fun both => ⟨both.1, both.2⟩, fun plain => ⟨plain.inLine, plain.device⟩⟩

/-- What a memory behind `vmem.h` promises for cacheable addresses. -/
structure CoherentMemory {σ : Type} (vm : VMem σ) (Rep : World σ → Flat → Prop) : Prop where
  ifetch : ∀ {w f addr} len, Rep w f → inDram addr = true → ∃ value w', vm.ifetch w addr len = some (value, w') ∧
    w'.sys = w.sys ∧ Rep w' f ∧ (InLine addr len →
      (∀ byte, addr.toNat ≤ byte → byte < addr.toNat + len → byte ∉ f.written) → value = loadLE f.bytes addr.toNat len)
  read : ∀ {w f addr} len, Rep w f → inDram addr = true → ∃ value w', vm.read w addr len = some (value, w') ∧
    w'.sys = w.sys ∧ Rep w' f ∧ (InLine addr len → value = loadLE f.bytes addr.toNat len)
  readLevel : ∀ {w f addr} len, Rep w f → inDram addr = true → ∃ level value w',
    vm.readLevel w addr len = some (level, value, w') ∧
      w'.sys = w.sys ∧ Rep w' f ∧ (InLine addr len → value = loadLE f.bytes addr.toNat len)
  fillAndRead : ∀ {w f addr} len, Rep w f → inDram addr = true → ∃ value w',
    vm.fillAndRead w addr len = some (value, w') ∧
      w'.sys = w.sys ∧ Rep w' f ∧ (InLine addr len → value = loadLE f.bytes addr.toNat len)
  probeLevel : ∀ {w f} addr, Rep w f → Rep (vm.probeLevel w addr).2 f ∧ (vm.probeLevel w addr).2.sys = w.sys
  write : ∀ {w f addr len} word, Rep w f → inDram addr = true → InLine addr len →
    ∃ w', vm.write w addr len word = some w' ∧ w'.sys = w.sys ∧ Rep w' (f.store addr.toNat len word)
  sys : ∀ {w f} sys', Rep w f → sys'.hartid = w.sys.hartid → Rep { w with sys := sys' } f
  uncached : ∀ {w f addr value w'} len, Rep w f → inDram addr = false →
    (vm.read w addr len = some (value, w') ∨ vm.fillAndRead w addr len = some (value, w')) →
      Rep w' f ∧ w'.sys.hartid = w.sys.hartid
  uncachedWrite : ∀ {w f addr w'} len word, Rep w f → inDram (addr &&& 0xffffffff) = false →
    vm.write w addr len word = some w' → Rep w' f ∧ w'.sys.hartid = w.sys.hartid
  missed : ∀ {w f addr}, Rep w f → (vm.probeLevel w addr).1 ≠ 0 → inDram addr = true

namespace MemState

variable {δ : Type}

def levels (m : MemState δ) : Levels where
  l1d := fun h => (m.l1d h).block
  l1i := fun h => (m.l1i h).block
  l2 := m.l2.block
  pmem := m.pmem

/-- The caches and physical memory represent the flat memory `f`. -/
structure Represents (cfg : MemConfig δ) (m : MemState δ) (f : Flat) : Prop where
  l1d : ∀ h, (m.l1d h).WF
  l1i : ∀ h, (m.l1i h).WF
  l2 : m.l2.WF
  coherent : Coherent m.levels f
  single : cfg.numCores ≤ 1 → ∀ b, (m.l1d 1).block b = none

theorem levels_setDataSide (m : MemState δ) (h : Fin 2) (side : Hier) :
    (m.setDataSide h side).levels = m.levels.withData h side := by
  have blocks : (fun g => (setAt m.l1d h side.l1 g).block) =
      setAt (fun g => (m.l1d g).block) h side.l1.block := by
    funext g
    by_cases same : g = h
    · subst same
      simp
    · simp [same]
  simp only [levels, setDataSide, Levels.withData, blocks]

theorem levels_setFetchSide (m : MemState δ) (h : Fin 2) (side : Hier) :
    (m.setFetchSide h side).levels = m.levels.withFetch h side := by
  have blocks : (fun g => (setAt m.l1i h side.l1 g).block) =
      setAt (fun g => (m.l1i g).block) h side.l1.block := by
    funext g
    by_cases same : g = h
    · subst same
      simp
    · simp [same]
  simp only [levels, setFetchSide, Levels.withFetch, blocks]

theorem levels_dataSide (m : MemState δ) (h : Fin 2) : m.levels.withData h (m.dataSide h) = m.levels := by
  simp only [levels, Levels.withData, dataSide, back]
  rw [setAt_eq_self_iff.mpr rfl]

theorem levels_fetchSide (m : MemState δ) (h : Fin 2) : m.levels.withFetch h (m.fetchSide h) = m.levels := by
  simp only [levels, Levels.withFetch, fetchSide, back]
  rw [setAt_eq_self_iff.mpr rfl]

section Sides

variable {cfg : MemConfig δ} {m : MemState δ} {f : Flat}

theorem Represents.dataSide (rep : m.Represents cfg f) (h : Fin 2) :
    (m.dataSide h).WF ∧ Coherent (m.levels.withData h (m.dataSide h)) f := by
  refine ⟨⟨rep.l1d h, rep.l2⟩, ?_⟩
  rw [levels_dataSide]
  exact rep.coherent

/-- Putting a data side back. -/
theorem Represents.setDataSide {f' : Flat} (rep : m.Represents cfg f) {h : Fin 2} {side : Hier} (wf : side.WF)
    (coherent : Coherent (m.levels.withData h side) f')
    (single : cfg.numCores ≤ 1 → h = 0) : (m.setDataSide h side).Represents cfg f' where
  l1d := by
    intro g
    by_cases same : g = h
    · subst same
      simpa [MemState.setDataSide] using wf.l1
    · simpa [MemState.setDataSide, same] using rep.l1d g
  l1i := rep.l1i
  l2 := wf.l2
  coherent := by
    rw [levels_setDataSide]
    exact coherent
  single := by
    intro one b
    have different : (1 : Fin 2) ≠ h := by
      rw [single one]
      decide
    simpa [MemState.setDataSide, different] using rep.single one b

theorem Represents.setFetchSide (rep : m.Represents cfg f) {h : Fin 2} {side : Hier} (wf : side.WF)
    (coherent : Coherent (m.levels.withFetch h side) f) : (m.setFetchSide h side).Represents cfg f where
  l1d := rep.l1d
  l1i := by
    intro g
    by_cases same : g = h
    · subst same
      simpa [MemState.setFetchSide] using wf.l1
    · simpa [MemState.setFetchSide, same] using rep.l1i g
  l2 := wf.l2
  coherent := by
    rw [levels_setFetchSide]
    exact coherent
  single := rep.single

end Sides

end MemState

section Laws

variable {δ : Type} {cfg : MemConfig δ} {m : MemState δ} {f : Flat}

theorem otherHart_ne (h : Fin 2) : otherHart h ≠ h := by
  revert h
  decide

theorem otherHart_otherHart (h : Fin 2) : otherHart (otherHart h) = h := by
  revert h
  decide

theorem eq_otherHart {g h : Fin 2} (different : g ≠ h) : g = otherHart h := by
  revert g h
  decide

theorem snoopRead_own (m : MemState δ) (h : Fin 2) (addr : Nat) : (snoopRead cfg m h addr).l1d h = m.l1d h := by
  unfold snoopRead
  split
  · exact setAt_of_ne (otherHart_ne h).symm _ _
  · rfl

theorem snoopWrite_own (m : MemState δ) (h : Fin 2) (addr : Nat) : (snoopWrite cfg m h addr).l1d h = m.l1d h := by
  unfold snoopWrite
  split
  · exact setAt_of_ne (otherHart_ne h).symm _ _
  · rfl

/-- After the read snoop no other data cache holds a dirty copy. -/
theorem snoopRead_spec (rep : m.Represents cfg f) {h : Fin 2} (single : cfg.numCores ≤ 1 → h = 0) (addr : Nat) :
    (snoopRead cfg m h addr).Represents cfg f ∧
      (snoopRead cfg m h addr).levels.OthersClean h (addr / blockSize) := by
  unfold snoopRead
  split
  · next dual =>
      obtain ⟨wf, coherent⟩ := rep.dataSide (otherHart h)
      obtain ⟨wf', flushed, clean⟩ := cacheSnoopFlushDirty_data wf coherent addr
      refine ⟨rep.setDataSide wf' flushed (by omega), ?_⟩
      intro g data different
      rw [eq_otherHart different, MemState.levels_setDataSide, Levels.withData_l1d_self]
      exact clean data
  · next alone =>
      refine ⟨rep, ?_⟩
      intro g data different found
      have zero := single (by omega)
      subst zero
      have one : g = 1 := eq_otherHart different
      subst one
      simp only [MemState.levels] at found
      rw [rep.single (by omega)] at found
      cases found

/-- After the write snoop no other data cache holds a copy. -/
theorem snoopWrite_spec (rep : m.Represents cfg f) {h : Fin 2} (single : cfg.numCores ≤ 1 → h = 0) (addr : Nat) :
    (snoopWrite cfg m h addr).Represents cfg f ∧
      ∀ g, g ≠ h → (snoopWrite cfg m h addr).levels.l1d g (addr / blockSize) = none := by
  unfold snoopWrite
  split
  · next dual =>
      obtain ⟨wf, coherent⟩ := rep.dataSide (otherHart h)
      obtain ⟨wf', dropped, gone⟩ := cacheSnoopInvalidate_data wf coherent addr
      refine ⟨rep.setDataSide wf' dropped (by omega), ?_⟩
      intro g different
      rw [eq_otherHart different, MemState.levels_setDataSide, Levels.withData_l1d_self]
      exact gone
  · next alone =>
      refine ⟨rep, ?_⟩
      intro g different
      have zero := single (by omega)
      subst zero
      have one : g = 1 := eq_otherHart different
      subst one
      exact rep.single (by omega) _

variable (cfg f) in
/-- The world of the current hart represents `f`; a single core is hart 0. -/
structure Represents (w : World (MemState δ)) : Prop where
  mem : w.mem.Represents cfg f
  single : cfg.numCores ≤ 1 → w.sys.hartid = 0

variable {w : World (MemState δ)} {addr : Word}

theorem vaddrIfetch_spec (hint : cfg.prefetchHint = prefetchHint) (rep : Represents cfg f w) (cached : inDram addr = true)
    (len : Nat) : ∃ value w', vaddrIfetch cfg w addr len = some (value, w') ∧ w'.sys = w.sys ∧ Represents cfg f w' ∧
      (InLine addr len → (∀ byte, addr.toNat ≤ byte → byte < addr.toNat + len → byte ∉ f.written) →
        value = loadLE f.bytes addr.toNat len) := by
  have coherent : Coherent (w.mem.levels.withFetch w.sys.hartid (w.mem.fetchSide w.sys.hartid)) f := by
    rw [MemState.levels_fetchSide]
    exact rep.mem.coherent
  obtain ⟨wf, after, value⟩ := cacheRead_fetch ⟨rep.mem.l1i _, rep.mem.l2⟩ coherent addr.toNat len
  unfold vaddrIfetch
  rw [if_pos cached, hint]
  exact ⟨_, _, rfl, rfl, ⟨rep.mem.setFetchSide wf after, rep.single⟩, value⟩

theorem vaddrRead_spec (hint : cfg.prefetchHint = prefetchHint) (rep : Represents cfg f w) (cached : inDram addr = true)
    (len : Nat) : ∃ value w', vaddrRead cfg w addr len = some (value, w') ∧ w'.sys = w.sys ∧ Represents cfg f w' ∧
      (InLine addr len → value = loadLE f.bytes addr.toNat len) := by
  obtain ⟨snooped, clean⟩ := snoopRead_spec rep.mem rep.single addr.toNat
  obtain ⟨wf, coherent⟩ := snooped.dataSide w.sys.hartid
  obtain ⟨wf', after, value⟩ := cacheRead_data wf coherent clean len
  unfold vaddrRead
  rw [if_pos cached, hint]
  exact ⟨_, _, rfl, rfl, ⟨snooped.setDataSide wf' after rep.single, rep.single⟩, value⟩

theorem vaddrReadLevel_spec (hint : cfg.prefetchHint = prefetchHint) (rep : Represents cfg f w)
    (cached : inDram addr = true) (len : Nat) : ∃ level value w',
      vaddrReadLevel cfg w addr len = some (level, value, w') ∧ w'.sys = w.sys ∧ Represents cfg f w' ∧
      (InLine addr len → value = loadLE f.bytes addr.toNat len) := by
  obtain ⟨snooped, clean⟩ := snoopRead_spec rep.mem rep.single addr.toNat
  obtain ⟨wf, coherent⟩ := snooped.dataSide w.sys.hartid
  obtain ⟨wf', after, value⟩ := cacheReadLevel_data wf coherent clean len
  unfold vaddrReadLevel
  rw [if_pos cached, hint]
  exact ⟨_, _, _, rfl, rfl, ⟨snooped.setDataSide wf' after rep.single, rep.single⟩, value⟩

theorem vaddrProbeLevel_spec (rep : Represents cfg f w) (addr : Word) :
    Represents cfg f (vaddrProbeLevel w addr).2 ∧ (vaddrProbeLevel w addr).2.sys = w.sys := by
  unfold vaddrProbeLevel
  split
  · obtain ⟨wf, coherent⟩ := rep.mem.dataSide w.sys.hartid
    obtain ⟨wf', after⟩ := cacheProbeLevel_data wf coherent addr.toNat
    exact ⟨⟨rep.mem.setDataSide wf' after rep.single, rep.single⟩, rfl⟩
  · exact ⟨rep, rfl⟩

theorem vaddrWrite_spec (hint : cfg.prefetchHint = prefetchHint) (rep : Represents cfg f w) (cached : inDram addr = true)
    {len : Nat} (inside : InLine addr len) (word : Word) : ∃ w', vaddrWrite cfg w addr len word = some w' ∧
      w'.sys = w.sys ∧ Represents cfg (f.store addr.toNat len word) w' := by
  obtain ⟨snooped, alone⟩ := snoopWrite_spec rep.mem rep.single addr.toNat
  obtain ⟨wf, coherent⟩ := snooped.dataSide w.sys.hartid
  obtain ⟨wf', after⟩ := cacheWrite_data wf coherent alone inside word
  unfold vaddrWrite
  rw [if_pos cached, hint]
  exact ⟨_, rfl, rfl, snooped.setDataSide wf' after rep.single, rep.single⟩

/-! ## Uncached accesses -/

theorem inDram_of_truncated {addr : Word} (outside : inDram (addr &&& 0xffffffff) = false) : inDram addr = false := by
  cases inside : inDram addr with
  | false => rfl
  | true =>
      obtain ⟨_, above⟩ := inDram_iff.mp inside
      have same : addr &&& 0xffffffff = addr := by
        apply BitVec.eq_of_toNat_eq
        rw [BitVec.toNat_and, show (0xffffffff : Word).toNat = 2 ^ 32 - 1 from rfl, Nat.and_two_pow_sub_one_eq_mod]
        exact Nat.mod_eq_of_lt (by omega)
      rw [same, inside] at outside
      cases outside

theorem paddrRead_represents {value : Word} {w' : World (MemState δ)} {len : Nat} (rep : Represents cfg f w)
    (done : paddrRead cfg w addr len = some (value, w')) : Represents cfg f w' ∧ w'.sys.hartid = w.sys.hartid := by
  have hart := pmpCheck_hartid w.sys addr false false
  unfold paddrRead at done
  simp only at done
  split at done
  · cases done
    exact ⟨⟨rep.mem, fun one => hart.trans (rep.single one)⟩, hart⟩
  · obtain ⟨⟨_, dev⟩, _, same⟩ := Option.map_eq_some_iff.mp done
    cases same
    exact ⟨⟨⟨rep.mem.l1d, rep.mem.l1i, rep.mem.l2, rep.mem.coherent, rep.mem.single⟩,
      fun one => hart.trans (rep.single one)⟩, hart⟩

theorem paddrWrite_represents {word : Word} {w' : World (MemState δ)} {len : Nat} (rep : Represents cfg f w)
    (outside : inDram (addr &&& 0xffffffff) = false) (done : paddrWrite cfg w addr len word = some w') :
    Represents cfg f w' ∧ w'.sys.hartid = w.sys.hartid := by
  have hart := pmpCheck_hartid w.sys addr false true
  unfold paddrWrite at done
  simp only [outside] at done
  obtain ⟨dev, _, same⟩ := Option.map_eq_some_iff.mp done
  cases same
  exact ⟨⟨⟨rep.mem.l1d, rep.mem.l1i, rep.mem.l2, rep.mem.coherent, rep.mem.single⟩,
    fun one => hart.trans (rep.single one)⟩, hart⟩

/-- The cache hierarchy, for one core or two, is a coherent memory. -/
theorem hierarchy_coherent (hint : cfg.prefetchHint = prefetchHint) :
    CoherentMemory (hierarchy cfg) fun w f => Represents cfg f w where
  ifetch := fun len rep cached => vaddrIfetch_spec hint rep cached len
  read := fun len rep cached => vaddrRead_spec hint rep cached len
  readLevel := fun len rep cached => vaddrReadLevel_spec hint rep cached len
  fillAndRead := fun len rep cached => vaddrRead_spec hint rep cached len
  probeLevel := fun addr rep => vaddrProbeLevel_spec rep addr
  write := fun word rep cached inside => vaddrWrite_spec hint rep cached inside word
  sys := fun _ rep same => ⟨rep.mem, fun one => same.trans (rep.single one)⟩
  uncached := fun len rep outside done => by
    have done : vaddrRead cfg _ _ len = some _ := done.elim id id
    rw [vaddrRead, outside] at done
    exact paddrRead_represents rep done
  uncachedWrite := fun len word rep outside done => by
    have outside' := inDram_of_truncated outside
    change vaddrWrite cfg _ _ len word = some _ at done
    rw [vaddrWrite, outside'] at done
    exact paddrWrite_represents rep outside done
  missed := fun _ missed => by
    by_contra outside
    apply missed
    change (vaddrProbeLevel _ _).1 = 0
    rw [vaddrProbeLevel, if_neg outside]

/-- The bytes that reads by hart `h` find: in its first level, else in the second, else in memory. -/
def MemState.content (m : MemState δ) (h : Fin 2) : ByteMem := fun addr =>
  match (m.l1d h).block (addr / blockSize), m.l2.block (addr / blockSize) with
  | some (_, data), _ => data (addr % blockSize)
  | none, some (_, data) => data (addr % blockSize)
  | none, none => m.pmem addr

/-- With one core the represented memory is what reads find. -/
theorem Represents.content (rep : Represents cfg f w) (one : cfg.numCores ≤ 1) : w.mem.content 0 = f.bytes := by
  funext addr
  have inside : addr % blockSize < blockSize := Nat.mod_lt _ (by decide)
  have whole : addr / blockSize * blockSize + addr % blockSize = addr := Nat.div_add_mod' addr blockSize
  unfold MemState.content
  cases first : (w.mem.l1d 0).block (addr / blockSize) with
  | some copy =>
      have agrees := rep.mem.coherent.data 0 _ copy.1 copy.2 first _ inside
      rw [whole] at agrees
      exact agrees
  | none =>
      have settled : w.mem.levels.Settled (addr / blockSize) := by
        intro h data found
        rcases Fin.exists_fin_two.mp ⟨h, rfl⟩ with zero | second
        · subst zero
          rw [show w.mem.levels.l1d 0 _ = none from first] at found
          cases found
        · subst second
          rw [show w.mem.levels.l1d 1 _ = none from rep.mem.single one _] at found
          cases found
      cases second : w.mem.l2.block (addr / blockSize) with
      | some copy =>
          have agrees := rep.mem.coherent.second _ copy.1 copy.2 settled second _ inside
          rw [whole] at agrees
          exact agrees
      | none =>
          have agrees := rep.mem.coherent.memory _ settled second _ inside
          simp only [whole] at agrees
          exact agrees

/-! ## The initial state -/

private theorem initCache_wf {s ways : Nat} (positive : 0 < ways) : (initCache s ways).WF where
  ways := positive
  mru := fun _ _ recent => nomatch recent
  unique := fun _ _ _ held => nomatch held.2

theorem initCache_block (s ways b : Nat) : (initCache s ways).block b = none :=
  Cache.block_of_not_holds fun _ held => nomatch held.2

/-- Empty caches over a memory image represent that image. -/
theorem init_represents (cfg : MemConfig δ) (pmem : ByteMem) (dev : δ) :
    (MemState.init pmem dev).Represents cfg ⟨pmem, ∅⟩ where
  l1d := fun _ => initCache_wf (by decide)
  l1i := fun _ => initCache_wf (by decide)
  l2 := initCache_wf (by decide)
  coherent :=
    { data := fun _ b _ _ found => nomatch (initCache_block 6 8 b).symm.trans found
      exclusive := fun _ _ b _ found => nomatch (initCache_block 6 8 b).symm.trans found
      second := fun b _ _ _ found => nomatch (initCache_block 8 16 b).symm.trans found
      memory := fun _ _ _ _ _ => rfl
      clean := fun b _ found => nomatch (initCache_block 8 16 b).symm.trans found
      codeL1 := fun _ b _ _ _ _ _ found => nomatch (initCache_block 6 8 b).symm.trans found
      codeL2 := fun b _ _ _ _ _ found => nomatch (initCache_block 8 16 b).symm.trans found
      codeMem := fun _ _ _ _ => rfl
      fetchClean := fun _ b _ _ found => nomatch (initCache_block 6 8 b).symm.trans found }
  single := fun _ b => initCache_block 6 8 b

/-! ## Interleavings of the harts -/

/-- One access through `vmem.h`. -/
inductive MemOp where
  | ifetch (addr : Word) (len : Nat)
  | read (addr : Word) (len : Nat)
  | readLevel (addr : Word) (len : Nat)
  | fillAndRead (addr : Word) (len : Nat)
  | probeLevel (addr : Word)
  | write (addr : Word) (len : Nat) (data : Word)

namespace MemOp

/-- The access is cacheable and stays inside one line. -/
def Contained : MemOp → Prop
  | ifetch addr len | read addr len | readLevel addr len | fillAndRead addr len | write addr len _ =>
      inDram addr = true ∧ InLine addr len
  | probeLevel addr => inDram addr = true

instance : DecidablePred Contained
  | ifetch _ _ | read _ _ | readLevel _ _ | fillAndRead _ _ | write _ _ _ => inferInstanceAs (Decidable (_ ∧ _))
  | probeLevel addr => inferInstanceAs (Decidable (inDram addr = true))

/-- A write to the caches stays inside its line. -/
def Inside : MemOp → Prop
  | write addr len _ => inDram addr = true → InLine addr len
  | _ => True

instance : DecidablePred Inside
  | write _ _ _ => inferInstanceAs (Decidable (_ → _))
  | ifetch .. | read .. | readLevel .. | fillAndRead .. | probeLevel _ => inferInstanceAs (Decidable True)

theorem Contained.inside {op : MemOp} (contained : op.Contained) : op.Inside := by
  cases op with
  | write addr len data => exact fun _ => contained.2
  | ifetch | read | readLevel | fillAndRead | probeLevel => trivial

/-- The access by hart `h`, with the value if it is a data read. -/
def perform {σ : Type} (vm : VMem σ) (w : World σ) (h : Fin 2) (op : MemOp) : Option (Option Word × World σ) :=
  let w := { w with sys := { w.sys with hartid := h } }
  match op with
  | ifetch addr len => (vm.ifetch w addr len).map fun (_, w) => (none, w)
  | read addr len => (vm.read w addr len).map fun (value, w) => (some value, w)
  | readLevel addr len => (vm.readLevel w addr len).map fun (_, value, w) => (some value, w)
  | fillAndRead addr len => (vm.fillAndRead w addr len).map fun (value, w) => (some value, w)
  | probeLevel addr => some (none, (vm.probeLevel w addr).2)
  | write addr len data => (vm.write w addr len data).map fun w => (none, w)

/-- The same access to a single flat memory. -/
def flat (mem : ByteMem) : MemOp → Option Word × ByteMem
  | ifetch _ _ | probeLevel _ => (none, mem)
  | read addr len | readLevel addr len | fillAndRead addr len => (some (loadLE mem addr.toNat len), mem)
  | write addr len data => (none, storeLE mem addr.toNat len data)

/-- Accesses of the harts in order: the values read and the final world. -/
def performAll {σ : Type} (vm : VMem σ) : World σ → List (Fin 2 × MemOp) → Option (List (Option Word) × World σ)
  | w, [] => some ([], w)
  | w, (h, op) :: rest => do
      let (value, w) ← op.perform vm w h
      let (values, w) ← performAll vm w rest
      some (value :: values, w)

def flatAll : ByteMem → List (Fin 2 × MemOp) → List (Option Word)
  | _, [] => []
  | mem, (_, op) :: rest => (op.flat mem).1 :: flatAll (op.flat mem).2 rest

end MemOp

theorem perform_spec (hint : cfg.prefetchHint = prefetchHint) (rep : w.mem.Represents cfg f) {h : Fin 2}
    (present : h.val < cfg.numCores) {op : MemOp} (contained : op.Contained) :
    ∃ w' written, op.perform (hierarchy cfg) w h = some ((op.flat f.bytes).1, w') ∧
      w'.mem.Represents cfg ⟨(op.flat f.bytes).2, written⟩ := by
  have law := hierarchy_coherent hint
  have rep' : Represents cfg f { w with sys := { w.sys with hartid := h } } :=
    ⟨rep, fun one => Fin.ext (by simp only; omega)⟩
  cases op with
  | ifetch addr len =>
      obtain ⟨value, w', done, _, after, _⟩ := law.ifetch len rep' contained.1
      exact ⟨w', f.written, by simp [MemOp.perform, done, MemOp.flat], after.mem⟩
  | read addr len =>
      obtain ⟨value, w', done, _, after, same⟩ := law.read len rep' contained.1
      exact ⟨w', f.written, by simp [MemOp.perform, done, MemOp.flat, same contained.2], after.mem⟩
  | readLevel addr len =>
      obtain ⟨level, value, w', done, _, after, same⟩ := law.readLevel len rep' contained.1
      exact ⟨w', f.written, by simp [MemOp.perform, done, MemOp.flat, same contained.2], after.mem⟩
  | fillAndRead addr len =>
      obtain ⟨value, w', done, _, after, same⟩ := law.fillAndRead len rep' contained.1
      exact ⟨w', f.written, by simp [MemOp.perform, done, MemOp.flat, same contained.2], after.mem⟩
  | probeLevel addr =>
      exact ⟨_, f.written, rfl, (law.probeLevel addr rep').1.mem⟩
  | write addr len data =>
      obtain ⟨w', done, _, after⟩ := law.write data rep' contained.1 contained.2
      exact ⟨w', (f.store addr.toNat len data).written, by simp [MemOp.perform, done, MemOp.flat], after.mem⟩

theorem performAll_spec (hint : cfg.prefetchHint = prefetchHint) (ops : List (Fin 2 × MemOp))
    (allowed : ∀ access ∈ ops, access.1.val < cfg.numCores ∧ access.2.Contained) :
    ∀ (w : World (MemState δ)) (f : Flat), w.mem.Represents cfg f → ∃ w' f',
      MemOp.performAll (hierarchy cfg) w ops = some (MemOp.flatAll f.bytes ops, w') ∧ w'.mem.Represents cfg f' := by
  induction ops with
  | nil => exact fun w f rep => ⟨w, f, rfl, rep⟩
  | cons access rest ih =>
      intro w f rep
      obtain ⟨h, op⟩ := access
      obtain ⟨present, contained⟩ := allowed (h, op) List.mem_cons_self
      obtain ⟨w', written, done, after⟩ := perform_spec (f := f) hint rep present contained
      obtain ⟨w'', f'', doneRest, afterRest⟩ := ih
        (fun access member => allowed access (List.mem_cons_of_mem _ member)) w' _ after
      refine ⟨w'', f'', ?_, afterRest⟩
      simp [MemOp.performAll, done, doneRest, MemOp.flatAll]

/-- From empty caches, any interleaving of contained accesses by the harts reads
what one flat memory would give, and a block dirty in one data cache is never
valid in another. -/
theorem hierarchy_flat (cfg : MemConfig δ) (hint : cfg.prefetchHint = prefetchHint) (sys : Sys) (pmem : ByteMem)
    (dev : δ) (ops : List (Fin 2 × MemOp))
    (allowed : ∀ access ∈ ops, access.1.val < cfg.numCores ∧ access.2.Contained) :
    ∃ w', MemOp.performAll (hierarchy cfg) ⟨sys, MemState.init pmem dev⟩ ops = some (MemOp.flatAll pmem ops, w') ∧
      ∀ h h' b way way', h' ≠ h → (w'.mem.l1d h).Holds b way →
        ((w'.mem.l1d h).line (b % 2 ^ (w'.mem.l1d h).s) way).dirty = true → ¬ (w'.mem.l1d h').Holds b way' := by
  obtain ⟨w', f', done, rep⟩ := performAll_spec hint ops allowed ⟨sys, MemState.init pmem dev⟩ ⟨pmem, ∅⟩
    (init_represents cfg pmem dev)
  refine ⟨w', done, ?_⟩
  intro h h' b way way' different held dirty heldOther
  have copy : w'.mem.levels.l1d h b = some (true, ((w'.mem.l1d h).line (b % 2 ^ (w'.mem.l1d h).s) way).data) := by
    rw [← dirty]
    exact Cache.block_of_holds (rep.l1d h) held
  have other : w'.mem.levels.l1d h' b = some _ := Cache.block_of_holds (rep.l1d h') heldOther
  rw [rep.coherent.exclusive h h' b _ copy different] at other
  cases other

/-- Hart 1 reads what hart 0 wrote. -/
theorem hierarchy_flat_handover : ∃ w', MemOp.performAll (hierarchy ⟨2, prefetchHint, Devices.none⟩)
    ⟨Sys.init, MemState.init (fun _ => 0) ()⟩
    [(0, .write 0x80000040 4 7), (1, .read 0x80000040 2), (1, .write 0x80000041 1 9), (0, .fillAndRead 0x80000040 4)] =
      some ([none, some 7, none, some 0x907], w') := by
  obtain ⟨w', done, _⟩ := hierarchy_flat ⟨2, prefetchHint, Devices.none⟩ rfl Sys.init (fun _ => 0) ()
    [(0, .write 0x80000040 4 7), (1, .read 0x80000040 2), (1, .write 0x80000041 1 9), (0, .fillAndRead 0x80000040 4)]
    (by decide)
  exact ⟨w', done⟩

end Laws

end Sustemu
