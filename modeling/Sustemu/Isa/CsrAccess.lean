import Sustemu.Isa.Csr

/-!
# Reading back what was written to a CSR

The permission table, the write switch and the read switch of `csr.c` are three
lists. A register that the table calls readable and writable is stored and read
back only if both switches have a case for it.
-/

set_option autoImplicit false

namespace Sustemu

/-- The value `read_csr` returns; `none` is its assertion. -/
def csrValue (perf : Perf) (sys : Sys) (no : Nat) : Option Word := (readCsr perf sys no).map Prod.fst

/-- Writing `data` to CSR `no` can be read back, changes no other CSR and stays inside the PMP arrays. -/
structure WriteReadsBack (perf : Perf) (sys : Sys) (no : Nat) (data : Word) : Prop where
  back : csrValue perf (setCsr sys no data) no = some data
  others : ∀ other, other ≠ no → csrValue perf (setCsr sys no data) other = csrValue perf sys other
  inside : (setCsr sys no data).outOfBounds = sys.outOfBounds

/-- The CSRs that the table calls readable and writable. -/
def readWriteCsrs : List Nat := (csrTable.filter fun row => row.2.2.1 && row.2.2.2).map Prod.fst

/-- Those that `set_csr` stores and `read_csr` returns. -/
def storedCsrs : List Nat :=
  [0x341, 0x342, 0x305, 0x343, 0x344, 0x304, 0x303, 0x302, 0x340, 0x100, 0x104, 0x105, 0x140, 0x143, 0x144, 0x3a0, 0x3b0,
    0x3b2]

/-- Those that `read_csr` returns and `set_csr` ignores, with their values. -/
def ignoredCsrs (sys : Sys) : List (Nat × Word) :=
  [(0x300, sys.csr.mstatus), (0x141, sys.csr.sepc), (0x142, sys.csr.scause)]

/-! ## PMP configuration bytes -/

/-- A configuration byte inside the array replaces one element. -/
theorem setPmpcfg_inside (sys : Sys) (id : Fin 8) (data : BitVec 8) :
    ∃ count, setPmpcfg sys id data =
      { sys with pmpcfg := Lib.setAt sys.pmpcfg id data, pmpOnCount := count } := by
  unfold setPmpcfg
  rw [dif_pos id.isLt]
  simp only
  split
  · exact ⟨_, rfl⟩
  · split
    · exact ⟨_, rfl⟩
    · exact ⟨sys.pmpOnCount, rfl⟩

/-- The bytes written so far by the loop over one configuration register. -/
theorem setPmpcfg_range (sys : Sys) (data : Word) {n : Nat} (bound : n ≤ 8) :
    ∃ count, (List.range n).foldl (fun current i => setPmpcfg current (i + 0) ((data >>> (i * 8)).setWidth 8)) sys =
      { sys with
        pmpcfg := fun i => if i.val < n then (data >>> (i.val * 8)).setWidth 8 else sys.pmpcfg i
        pmpOnCount := count } := by
  induction n with
  | zero => exact ⟨sys.pmpOnCount, rfl⟩
  | succ n ih =>
      obtain ⟨count, before⟩ := ih (by omega)
      rw [List.range_succ, List.foldl_append, before]
      obtain ⟨count', after⟩ := setPmpcfg_inside
        { sys with
          pmpcfg := fun i => if i.val < n then (data >>> (i.val * 8)).setWidth 8 else sys.pmpcfg i
          pmpOnCount := count } ⟨n, by omega⟩ ((data >>> (n * 8)).setWidth 8)
      refine ⟨count', ?_⟩
      rw [List.foldl_cons, List.foldl_nil, Nat.add_zero, after]
      simp only [Sys.mk.injEq, true_and, and_true]
      funext i
      by_cases last : i = ⟨n, by omega⟩
      · rw [last, Lib.setAt_self, if_pos (Nat.lt_succ_self n)]
      · have other : i.val ≠ n := fun same => last (Fin.ext same)
        rw [Lib.setAt_of_ne last]
        by_cases older : i.val < n
        · rw [if_pos older, if_pos (by omega)]
        · rw [if_neg older, if_neg (by omega)]

theorem setPmpcfgs_low (sys : Sys) (data : Word) : ∃ count, setPmpcfgs sys 0 data =
    { sys with pmpcfg := fun i => (data >>> (i.val * 8)).setWidth 8, pmpOnCount := count } := by
  obtain ⟨count, same⟩ := setPmpcfg_range sys data (Nat.le_refl 8)
  refine ⟨count, same.trans ?_⟩
  simp

theorem getLsbD_foldl_or {α : Type} (list : List α) (part : α → Word) (init : Word) (bit : Nat) :
    (list.foldl (fun val i => val ||| part i) init).getLsbD bit =
      (init.getLsbD bit || list.any fun i => (part i).getLsbD bit) := by
  induction list generalizing init with
  | nil => simp
  | cons first rest ih => rw [List.foldl_cons, ih, BitVec.getLsbD_or, List.any_cons, Bool.or_assoc]

/-- The eight bytes of a configuration register make up the value written. -/
theorem pack_pmpcfg (data : Word) :
    (List.finRange 8).foldl (fun val i => val ||| (((data >>> (i.val * 8)).setWidth 8).setWidth 64 <<< (i.val * 8))) 0 =
      data := by
  apply BitVec.eq_of_getLsbD_eq
  intro bit bound
  rw [getLsbD_foldl_or, Bool.eq_iff_iff]
  simp only [BitVec.getLsbD_shiftLeft, BitVec.getLsbD_setWidth, BitVec.getLsbD_ushiftRight, Bool.or_eq_true,
    List.any_eq_true, List.mem_finRange, true_and, Bool.and_eq_true, decide_eq_true_eq, Bool.not_eq_true',
    decide_eq_false_iff_not]
  constructor
  · rintro (zero | ⟨i, ⟨_, above⟩, _, _, set⟩)
    · exact absurd zero (by rw [show BitVec.getLsbD (0 : Word) bit = false from BitVec.getLsbD_zero]; decide)
    · rwa [show i.val * 8 + (bit - i.val * 8) = bit by omega] at set
  · intro set
    refine .inr ⟨⟨bit / 8, by omega⟩, ⟨bound, ?_⟩, ?_, ?_, ?_⟩
    · simp only
      omega
    · simp only
      omega
    · simp only
      omega
    · rwa [show bit / 8 * 8 + (bit - bit / 8 * 8) = bit by omega]

/-! ## The permission check -/

theorem privCheck_congr {sys sys' : Sys} (level : sys'.privLevel = sys.privLevel) (no : Nat) (isWrite : Bool) :
    (privCheck sys' no isWrite).1 = (privCheck sys no isWrite).1 := by
  unfold privCheck
  rw [level]
  split
  · rfl
  · split
    · rfl
    · split
      · rfl
      · split <;> rfl

/-- A check that passes has no effect. -/
theorem privCheck_passes {sys : Sys} {no : Nat} {isWrite : Bool} (passes : (privCheck sys no isWrite).1 = true) :
    (privCheck sys no isWrite).2 = sys := by
  unfold privCheck at passes ⊢
  split at passes
  · cases passes
  · split at passes
    · cases passes
    · split at passes
      · cases passes
      · split at passes
        · cases passes
        · next level notRead notWrite => rw [if_neg level, if_neg notRead, if_neg notWrite]

theorem privCheck_readWrite {sys : Sys} (machine : sys.privLevel = machineLevel) {no : Nat}
    (listed : no ∈ readWriteCsrs) (isWrite : Bool) : privCheck sys no isWrite = (true, sys) := by
  have table : ∀ no ∈ readWriteCsrs, (csrTable.find? fun row => row.1 == no).any
      (fun row => decide (¬ machineLevel < row.2.1) && row.2.2.1 && row.2.2.2) = true := by decide +kernel
  obtain ⟨⟨_, level, readable, writable⟩, found, allowed⟩ := (Option.any_eq_true _ _).mp (table no listed)
  simp only [Bool.and_eq_true, decide_eq_true_eq] at allowed
  obtain ⟨⟨level, rfl⟩, rfl⟩ := allowed
  unfold privCheck
  rw [found, machine]
  simp [level]

/-! ## Frame -/

/-- Two states whose readable registers agree, except for CSR `no`. -/
structure AgreeBut (no : Nat) (sys sys' : Sys) : Prop where
  level : sys'.privLevel = sys.privLevel
  mepc : no ≠ 0x341 → sys'.csr.mepc = sys.csr.mepc
  mcause : no ≠ 0x342 → sys'.csr.mcause = sys.csr.mcause
  mtvec : no ≠ 0x305 → sys'.csr.mtvec = sys.csr.mtvec
  mstatus : no ≠ 0x300 → sys'.csr.mstatus = sys.csr.mstatus
  mtval : no ≠ 0x343 → sys'.csr.mtval = sys.csr.mtval
  mip : no ≠ 0x344 → sys'.csr.mip = sys.csr.mip
  mie : no ≠ 0x304 → sys'.csr.mie = sys.csr.mie
  mideleg : no ≠ 0x303 → sys'.csr.mideleg = sys.csr.mideleg
  medeleg : no ≠ 0x302 → sys'.csr.medeleg = sys.csr.medeleg
  mscratch : no ≠ 0x340 → sys'.csr.mscratch = sys.csr.mscratch
  sstatus : no ≠ 0x100 → sys'.csr.sstatus = sys.csr.sstatus
  sie : no ≠ 0x104 → sys'.csr.sie = sys.csr.sie
  stvec : no ≠ 0x105 → sys'.csr.stvec = sys.csr.stvec
  sscratch : no ≠ 0x140 → sys'.csr.sscratch = sys.csr.sscratch
  sepc : no ≠ 0x141 → sys'.csr.sepc = sys.csr.sepc
  scause : no ≠ 0x142 → sys'.csr.scause = sys.csr.scause
  stval : no ≠ 0x143 → sys'.csr.stval = sys.csr.stval
  sip : no ≠ 0x144 → sys'.csr.sip = sys.csr.sip
  pmpcfg : no ≠ 0x3a0 → sys'.pmpcfg = sys.pmpcfg
  pmpaddr0 : no ≠ 0x3b0 → sys'.pmpaddr 0 = sys.pmpaddr 0
  pmpaddr1 : no ≠ 0x3b2 → sys'.pmpaddr 1 = sys.pmpaddr 1
  hartid : sys'.hartid = sys.hartid
  counters : sys'.simCycles = sys.simCycles ∧ sys'.simInstret = sys.simInstret

/-- A register reads the same when only another one has changed. -/
theorem AgreeBut.csrValue {no other : Nat} {sys sys' : Sys} (agree : AgreeBut no sys sys') (different : other ≠ no)
    (perf : Perf) : csrValue perf sys' other = csrValue perf sys other := by
  have check := privCheck_congr agree.level other false
  unfold Sustemu.csrValue readCsr
  simp only [check]
  by_cases passes : (privCheck sys other false).1 = true
  · rw [if_pos passes, if_pos passes, privCheck_passes passes, privCheck_passes (check.trans passes)]
    split
    · exact congrArg some (agree.mepc different.symm)
    · exact congrArg some (agree.mcause different.symm)
    · exact congrArg some (agree.mtvec different.symm)
    · exact congrArg some (agree.mstatus different.symm)
    · rw [agree.hartid]
      rfl
    · exact congrArg some (agree.mtval different.symm)
    · exact congrArg some (agree.mip different.symm)
    · exact congrArg some (agree.mie different.symm)
    · exact congrArg some (agree.mideleg different.symm)
    · exact congrArg some (agree.medeleg different.symm)
    · rfl
    · exact congrArg some (agree.mscratch different.symm)
    · exact congrArg some (agree.sstatus different.symm)
    · exact congrArg some (agree.sie different.symm)
    · exact congrArg some (agree.stvec different.symm)
    · exact congrArg some (agree.sscratch different.symm)
    · exact congrArg some (agree.sepc different.symm)
    · exact congrArg some (agree.scause different.symm)
    · exact congrArg some (agree.stval different.symm)
    · exact congrArg some (agree.sip different.symm)
    · rw [agree.pmpcfg different.symm]
      rfl
    · exact congrArg some (agree.pmpaddr0 different.symm)
    · exact congrArg some (agree.pmpaddr1 different.symm)
    · exact congrArg some agree.counters.1
    · exact congrArg some agree.counters.2
    all_goals rfl
  · rw [if_neg passes, if_neg passes]
    rfl

/-! ## Stored, ignored and unreadable registers -/

theorem setPmpcfg_level (sys : Sys) (id : Nat) (data : BitVec 8) : (setPmpcfg sys id data).privLevel = sys.privLevel := by
  by_cases inside : id < 8
  · obtain ⟨count, same⟩ := setPmpcfg_inside sys ⟨id, inside⟩ data
    rw [same]
  · rw [setPmpcfg, dif_neg inside]

theorem setPmpcfgs_level (sys : Sys) (base : Nat) (data : Word) : (setPmpcfgs sys base data).privLevel = sys.privLevel := by
  unfold setPmpcfgs
  induction List.range 8 generalizing sys with
  | nil => rfl
  | cons i rest ih => exact (ih _).trans (setPmpcfg_level sys (i + base) _)

/-- The readable and writable registers that `read_csr` has no case for. -/
def unreadCsrs : List Nat := [0x180, 0x3a2, 0x3a4, 0x3a6, 0x3a8, 0x3aa, 0x3ac, 0x3ae, 0x3b4, 0x3b6, 0x3b8]

section Machine

variable {sys : Sys} (machine : sys.privLevel = machineLevel) (perf : Perf)

include machine

theorem storedCsrs_readBack {no : Nat} (stored : no ∈ storedCsrs) (data : Word) : WriteReadsBack perf sys no data := by
  have listed : no ∈ readWriteCsrs := by
    have subset : ∀ no ∈ storedCsrs, no ∈ readWriteCsrs := by decide +kernel
    exact subset no stored
  have write := privCheck_readWrite machine listed true
  have reads : ∀ sys' : Sys, sys'.privLevel = sys.privLevel → privCheck sys' no false = (true, sys') :=
    fun sys' level => privCheck_readWrite (level.trans machine) listed false
  obtain ⟨count, written⟩ := setPmpcfgs_low sys data
  suffices AgreeBut no sys (setCsr sys no data) ∧ csrValue perf (setCsr sys no data) no = some data ∧
      (setCsr sys no data).outOfBounds = sys.outOfBounds from
    ⟨this.2.1, fun other different => this.1.csrValue different perf, this.2.2⟩
  unfold setCsr
  rw [write]
  simp only [storedCsrs, List.mem_cons, List.not_mem_nil, or_false] at stored
  rcases stored with rfl | rfl | rfl | rfl | rfl | rfl | rfl | rfl | rfl | rfl | rfl | rfl | rfl | rfl | rfl | rfl | rfl | rfl
  all_goals
    simp only [↓reduceIte, written]
    refine ⟨?_, ?_, trivial⟩
    · constructor <;> first | exact rfl | exact ⟨rfl, rfl⟩ | (intro different; first | rfl | exact absurd rfl different)
    · unfold csrValue readCsr
      rw [reads]
      · first | rfl | exact congrArg some (pack_pmpcfg data)
      · rfl

theorem ignoredCsrs_readBack {no : Nat} {value : Word} (ignored : (no, value) ∈ ignoredCsrs sys) (data : Word) :
    WriteReadsBack perf sys no data ↔ data = value := by
  have numbers : no ∈ [0x300, 0x141, 0x142] := List.mem_map_of_mem (f := Prod.fst) ignored
  have listed : no ∈ readWriteCsrs := by
    have subset : ∀ no ∈ [0x300, 0x141, 0x142], no ∈ readWriteCsrs := by decide +kernel
    exact subset no numbers
  have unchanged : setCsr sys no data = sys := by
    unfold setCsr
    rw [privCheck_readWrite machine listed true]
    simp only [List.mem_cons, List.not_mem_nil, or_false] at numbers
    rcases numbers with rfl | rfl | rfl <;> rfl
  have reads : csrValue perf sys no = some value := by
    unfold csrValue readCsr
    rw [privCheck_readWrite machine listed false]
    simp only [ignoredCsrs, List.mem_cons, List.not_mem_nil, or_false, Prod.mk.injEq] at ignored
    rcases ignored with ⟨rfl, rfl⟩ | ⟨rfl, rfl⟩ | ⟨rfl, rfl⟩ <;> rfl
  constructor
  · rintro ⟨back, _, _⟩
    rw [unchanged, reads] at back
    exact (Option.some.inj back).symm
  · rintro rfl
    exact ⟨by rw [unchanged, reads], fun _ _ => by rw [unchanged], by rw [unchanged]⟩

theorem unreadCsrs_readBack {no : Nat} (unread : no ∈ unreadCsrs) (data : Word) : ¬ WriteReadsBack perf sys no data := by
  have listed : no ∈ readWriteCsrs := by
    have subset : ∀ no ∈ unreadCsrs, no ∈ readWriteCsrs := by decide +kernel
    exact subset no unread
  have level : (setCsr sys no data).privLevel = machineLevel := by
    unfold setCsr
    rw [privCheck_readWrite machine listed true]
    simp only [↓reduceIte]
    split
    case h_19 => exact (setPmpcfgs_level ..).trans machine
    case h_18 => exact (setPmpcfgs_level ..).trans machine
    all_goals exact machine
  intro readable
  have back := readable.back
  unfold csrValue readCsr at back
  rw [privCheck_readWrite level listed false] at back
  simp only [unreadCsrs, List.mem_cons, List.not_mem_nil, or_false] at unread
  rcases unread with rfl | rfl | rfl | rfl | rfl | rfl | rfl | rfl | rfl | rfl | rfl <;> cases back

end Machine

/-- In machine mode a readable and writable register gives back what is written, and nothing else changes, exactly
when both switches handle it or the write changes nothing. -/
theorem csr_write_readBack_iff (perf : Perf) (sys : Sys) (machine : sys.privLevel = machineLevel) (no : Nat)
    (listed : no ∈ readWriteCsrs) (data : Word) :
    WriteReadsBack perf sys no data ↔ no ∈ storedCsrs ∨ (no, data) ∈ ignoredCsrs sys := by
  have kinds : ∀ no ∈ readWriteCsrs, no ∈ storedCsrs ∨ no ∈ unreadCsrs ∨ no ∈ [0x300, 0x141, 0x142] := by decide +kernel
  constructor
  · intro readable
    rcases kinds no listed with stored | unread | ignored
    · exact .inl stored
    · exact absurd readable (unreadCsrs_readBack machine perf unread data)
    · right
      obtain ⟨⟨_, value⟩, member, rfl⟩ := List.mem_map.mp (show no ∈ (ignoredCsrs sys).map Prod.fst from ignored)
      rwa [(ignoredCsrs_readBack machine perf member data).mp readable]
  · rintro (stored | ignored)
    · exact storedCsrs_readBack machine perf stored data
    · exact (ignoredCsrs_readBack machine perf ignored data).mpr rfl

theorem csr_write_readBack_mscratch : WriteReadsBack .zero Sys.init 0x340 7 :=
  (csr_write_readBack_iff .zero Sys.init rfl 0x340 (by decide +kernel) 7).mpr (.inl (by decide +kernel))

/-- A write to `pmpcfg2` goes past the end of the array, and reading it back fails an assertion. -/
theorem pmpcfg2_write : 0x3a2 ∈ readWriteCsrs ∧ (setCsr Sys.init 0x3a2 0).outOfBounds = true ∧
    csrValue .zero (setCsr Sys.init 0x3a2 0) 0x3a2 = none ∧ ¬ WriteReadsBack .zero Sys.init 0x3a2 0 :=
  ⟨by decide +kernel, by decide +kernel, by decide +kernel, fun readable => nomatch readable.back⟩

end Sustemu
