import Sustemu.Memory.Hierarchy

/-!
# Two forms of one address

Physical memory is addressed by the low 32 bits, but an access goes through the
caches only if its whole 64-bit address is cacheable. An address with another
upper half names the same bytes and bypasses the caches. Both forms act on one
memory as long as an uncached access does not meet a copy that it cannot see.
-/

set_option autoImplicit false

namespace Sustemu

open Lib

/-- Block `b` has a byte of the `len` bytes at `pa`. -/
def Spans (pa len b : Nat) : Prop := b * blockSize < pa + len ∧ pa < b * blockSize + blockSize

theorem spans_of_byte {pa len b k : Nat} (inside : k < blockSize) (low : pa ≤ b * blockSize + k)
    (high : b * blockSize + k < pa + len) : Spans pa len b := ⟨by omega, by omega⟩

/-- A byte of a block that the store does not reach. -/
theorem storeLE_of_not_spans {mem : ByteMem} {pa len b k : Nat} (word : Word) (inside : k < blockSize)
    (away : ¬Spans pa len b) : storeLE mem pa len word (b * blockSize + k) = mem (b * blockSize + k) := by
  apply storeLE_of_outside
  by_contra within
  exact away (spans_of_byte inside (by omega) (by omega))

namespace Coherent

variable {v : Levels} {f : Flat} {pa len : Nat}

/-- Physical memory holds the current bytes of a block that has no dirty copy. -/
theorem current (coherent : Coherent v f) {b : Nat} (settled : v.Settled b) (clean : ∀ data, v.l2 b ≠ some (true, data)) :
    Agrees (fun k => v.pmem (b * blockSize + k)) f.bytes b := by
  cases copy : v.l2 b with
  | none => exact coherent.memory b settled copy
  | some found =>
      obtain ⟨dirty, data⟩ := found
      cases dirty with
      | true => exact absurd copy (clean data)
      | false =>
          intro k inside
          exact (coherent.clean b data copy k inside).symm.trans (coherent.second b false data settled copy k inside)

/-- Past the caches, physical memory is read as the flat memory. -/
theorem loadUncached (coherent : Coherent v f)
    (clean : ∀ b, Spans pa len b → v.Settled b ∧ ∀ data, v.l2 b ≠ some (true, data)) :
    loadLE v.pmem pa len = loadLE f.bytes pa len := by
  refine loadLE_congr fun byte low high => ?_
  have split : byte / blockSize * blockSize + byte % blockSize = byte := Nat.div_add_mod' byte blockSize
  have inside : byte % blockSize < blockSize := Nat.mod_lt _ (by decide)
  obtain ⟨settled, second⟩ := clean (byte / blockSize) (spans_of_byte inside (by omega) (by omega))
  have same : v.pmem (byte / blockSize * blockSize + byte % blockSize) = f.bytes (byte / blockSize * blockSize + byte % blockSize) :=
    coherent.current settled second (byte % blockSize) inside
  rw [split] at same
  exact same

/-- Past the caches, a store to blocks without a copy is a store to the flat memory. -/
theorem storeUncached (coherent : Coherent v f)
    (absent : ∀ b, Spans pa len b → (∀ h, v.l1d h b = none) ∧ v.l2 b = none) (word : Word) :
    Coherent { v with pmem := storeLE v.pmem pa len word } (f.store pa len word) := by
  -- a block with a copy is not stored to
  have heldData : ∀ {h b found}, v.l1d h b = some found → ¬Spans pa len b := by
    intro h b found present spans
    rw [(absent b spans).1 h] at present
    cases present
  have heldSecond : ∀ {b found}, v.l2 b = some found → ¬Spans pa len b := by
    intro b found present spans
    rw [(absent b spans).2] at present
    cases present
  have unwritten : ∀ {byte}, byte ∉ (f.store pa len word).written → byte ∉ f.written ∧ ¬(pa ≤ byte ∧ byte < pa + len) :=
    fun fresh => ⟨fun before => fresh (.inl before), fun within => fresh (.inr within)⟩
  have same : ∀ {byte}, byte ∉ (f.store pa len word).written → (f.store pa len word).bytes byte = f.bytes byte := by
    intro byte fresh
    have away := (unwritten fresh).2
    exact storeLE_of_outside word (by omega)
  constructor
  · intro h b dirty data present k inside
    rw [coherent.data h b dirty data present k inside]
    exact (storeLE_of_not_spans word inside (heldData present)).symm
  · exact coherent.exclusive
  · intro b dirty data settled present k inside
    rw [coherent.second b dirty data settled present k inside]
    exact (storeLE_of_not_spans word inside (heldSecond present)).symm
  · intro b settled missing k inside
    have before := coherent.memory b settled missing k inside
    change storeLE v.pmem pa len word _ = storeLE f.bytes pa len word _
    unfold storeLE
    split
    · rfl
    · exact before
  · intro b data present k inside
    rw [coherent.clean b data present k inside]
    exact (storeLE_of_not_spans word inside (heldSecond present)).symm
  · intro h b dirty data k inside fresh present
    rw [same fresh]
    exact coherent.codeL1 h b dirty data k inside (unwritten fresh).1 present
  · intro b dirty data k inside fresh present
    rw [same fresh]
    exact coherent.codeL2 b dirty data k inside (unwritten fresh).1 present
  · intro b k inside fresh
    have away := (unwritten fresh).2
    rw [same fresh, ← coherent.codeMem b k inside (unwritten fresh).1]
    exact storeLE_of_outside word (by omega)
  · exact coherent.fetchClean

end Coherent

/-! ## Data accesses -/

/-- A call of `vaddr_read` or `vaddr_write`. -/
inductive DataAccess where
  | read (addr : Word) (len : Nat)
  | write (addr : Word) (len : Nat) (data : Word)

/-- The address that `paddr_read` and `paddr_write` go to. -/
def lowAddr (addr : Word) : Nat := (addr &&& 0xffffffff).toNat

namespace MemState

variable {δ : Type}

/-- No data cache and not the second level have a copy of `b`. -/
def Uncopied (m : MemState δ) (b : Nat) : Prop := (∀ h, (m.l1d h).block b = none) ∧ m.l2.block b = none

/-- No data cache and not the second level have a dirty copy of `b`. -/
def Unsoiled (m : MemState δ) (b : Nat) : Prop :=
  (∀ h data, (m.l1d h).block b ≠ some (true, data)) ∧ ∀ data, m.l2.block b ≠ some (true, data)

end MemState

namespace DataAccess

variable {δ : Type}

/-- The low 32 bits of the address are in memory, and the width is one that instructions have. -/
def Mapped : DataAccess → Prop
  | read addr len | write addr len _ =>
      inDram (addr &&& 0xffffffff) = true ∧ (len = 1 ∨ len = 2 ∨ len = 4 ∨ len = 8)

instance : DecidablePred Mapped
  | read _ _ | write _ _ _ => inferInstanceAs (Decidable (_ ∧ _))

/-- The access by hart `h`, with the value if it is a read. -/
def perform {σ : Type} (vm : VMem σ) (w : World σ) (h : Fin 2) (access : DataAccess) : Option (Option Word × World σ) :=
  let w := { w with sys := { w.sys with hartid := h } }
  match access with
  | read addr len => (vm.read w addr len).map fun (value, w) => (some value, w)
  | write addr len data => (vm.write w addr len data).map fun w => (none, w)

/-- The same access to one memory that is addressed by the low 32 bits. -/
def flat (mem : ByteMem) : DataAccess → Option Word × ByteMem
  | read addr len => (some (loadLE mem (lowAddr addr) len), mem)
  | write addr len data => (none, storeLE mem (lowAddr addr) len data)

/-- A cached access stays inside one line; an uncached read meets no dirty copy, an uncached write no copy at all. -/
def Unmixed (m : MemState δ) : DataAccess → Prop
  | read addr len =>
      if inDram addr then InLine addr len else ∀ b, Spans (lowAddr addr) len b → m.Unsoiled b
  | write addr len _ =>
      if inDram addr then InLine addr len else ∀ b, Spans (lowAddr addr) len b → m.Uncopied b

def performAll {σ : Type} (vm : VMem σ) : World σ → List (Fin 2 × DataAccess) → Option (List (Option Word) × World σ)
  | w, [] => some ([], w)
  | w, (h, access) :: rest => do
      let (value, w) ← access.perform vm w h
      let (values, w) ← performAll vm w rest
      some (value :: values, w)

def flatAll : ByteMem → List (Fin 2 × DataAccess) → List (Option Word)
  | _, [] => []
  | mem, (_, access) :: rest => (access.flat mem).1 :: flatAll (access.flat mem).2 rest

/-- Every access of a run meets a state in which the forms do not mix. -/
def UnmixedAll (vm : VMem (MemState δ)) : World (MemState δ) → List (Fin 2 × DataAccess) → Prop
  | _, [] => True
  | w, (h, access) :: rest =>
      access.Unmixed w.mem ∧ ∀ value w', access.perform vm w h = some (value, w') → UnmixedAll vm w' rest

end DataAccess

section Runs

variable {δ : Type} {cfg : MemConfig δ} {w : World (MemState δ)} {f : Flat}

theorem lowAddr_of_inDram {addr : Word} (cached : inDram addr = true) : lowAddr addr = addr.toNat := by
  obtain ⟨_, above⟩ := inDram_iff.mp cached
  unfold lowAddr
  rw [BitVec.toNat_and, show (0xffffffff : Word).toNat = 2 ^ 32 - 1 from rfl, Nat.and_two_pow_sub_one_eq_mod]
  exact Nat.mod_eq_of_lt (by omega)

theorem vaddrRead_uncached (rep : Represents cfg f w) {addr : Word} {len : Nat} (bypass : inDram addr = false)
    (mapped : (DataAccess.read addr len).Mapped) (clean : ∀ b, Spans (lowAddr addr) len b → w.mem.Unsoiled b) :
    ∃ w', vaddrRead cfg w addr len = some (loadLE f.bytes (lowAddr addr) len, w') ∧ Represents cfg f w' := by
  have value : hostRead w.mem.pmem (lowAddr addr) len = loadLE f.bytes (lowAddr addr) len := by
    unfold hostRead
    rw [if_pos mapped.2]
    exact rep.mem.coherent.loadUncached clean
  refine ⟨{ w with sys := (pmpCheck w.sys addr false false).2 }, ?_, rep.mem,
    fun one => (pmpCheck_hartid w.sys addr false false).trans (rep.single one)⟩
  unfold vaddrRead paddrRead
  simp only [bypass, mapped.1, if_true, Bool.false_eq_true, if_false]
  rw [← value]
  rfl

theorem vaddrWrite_uncached (rep : Represents cfg f w) {addr data : Word} {len : Nat} (bypass : inDram addr = false)
    (mapped : (DataAccess.write addr len data).Mapped) (absent : ∀ b, Spans (lowAddr addr) len b → w.mem.Uncopied b) :
    ∃ w', vaddrWrite cfg w addr len data = some w' ∧ Represents cfg (f.store (lowAddr addr) len data) w' := by
  have stored : hostWrite w.mem.pmem (lowAddr addr) len data = storeLE w.mem.pmem (lowAddr addr) len data := by
    unfold hostWrite
    rw [if_pos mapped.2]
  refine ⟨⟨(pmpCheck w.sys addr false true).2, { w.mem with pmem := storeLE w.mem.pmem (lowAddr addr) len data }⟩, ?_,
    ⟨rep.mem.l1d, rep.mem.l1i, rep.mem.l2, rep.mem.coherent.storeUncached absent data, rep.mem.single⟩,
    fun one => (pmpCheck_hartid w.sys addr false true).trans (rep.single one)⟩
  unfold vaddrWrite paddrWrite
  simp only [bypass, mapped.1, if_true, Bool.false_eq_true, if_false]
  rw [← stored]
  rfl

/-- One access that does not mix the forms. -/
theorem DataAccess.perform_flat (hint : cfg.prefetchHint = prefetchHint) (rep : w.mem.Represents cfg f) {h : Fin 2}
    (present : h.val < cfg.numCores) {access : DataAccess} (mapped : access.Mapped) (unmixed : access.Unmixed w.mem) :
    ∃ w' written, access.perform (hierarchy cfg) w h = some ((access.flat f.bytes).1, w') ∧
      w'.mem.Represents cfg ⟨(access.flat f.bytes).2, written⟩ := by
  have law := hierarchy_coherent hint
  have rep' : Represents cfg f { w with sys := { w.sys with hartid := h } } :=
    ⟨rep, fun one => Fin.ext (by simp only; omega)⟩
  cases access with
  | read addr len =>
      cases form : inDram addr with
      | true =>
          have inside : InLine addr len := by simpa [Unmixed, form] using unmixed
          obtain ⟨value, w', done, _, after, same⟩ := law.read len rep' form
          exact ⟨w', f.written, by simp [perform, done, flat, same inside, lowAddr_of_inDram form], after.mem⟩
      | false =>
          obtain ⟨w', done, after⟩ := vaddrRead_uncached rep' form mapped (by simpa [Unmixed, form] using unmixed)
          exact ⟨w', f.written, by simp [perform, hierarchy, done, flat], after.mem⟩
  | write addr len data =>
      cases form : inDram addr with
      | true =>
          have inside : InLine addr len := by simpa [Unmixed, form] using unmixed
          obtain ⟨w', done, _, after⟩ := law.write data rep' form inside
          refine ⟨w', (f.store addr.toNat len data).written, by simp [perform, done, flat], ?_⟩
          rw [flat, lowAddr_of_inDram form]
          exact after.mem
      | false =>
          obtain ⟨w', done, after⟩ := vaddrWrite_uncached rep' form mapped (by simpa [Unmixed, form] using unmixed)
          exact ⟨w', (f.store (lowAddr addr) len data).written, by simp [perform, hierarchy, done, flat], after.mem⟩

theorem DataAccess.performAll_flat (hint : cfg.prefetchHint = prefetchHint) {accesses : List (Fin 2 × DataAccess)}
    (mapped : ∀ access ∈ accesses, access.1.val < cfg.numCores ∧ access.2.Mapped) (rep : w.mem.Represents cfg f)
    (unmixed : UnmixedAll (hierarchy cfg) w accesses) :
    ∃ w', performAll (hierarchy cfg) w accesses = some (flatAll f.bytes accesses, w') := by
  induction accesses generalizing w f with
  | nil => exact ⟨w, rfl⟩
  | cons first rest ih =>
      obtain ⟨h, access⟩ := first
      obtain ⟨here, later⟩ := unmixed
      obtain ⟨present, allowed⟩ := mapped (h, access) List.mem_cons_self
      obtain ⟨w₁, written, done, rep₁⟩ := perform_flat hint rep present allowed here
      obtain ⟨w', doneRest⟩ := ih (fun access member => mapped access (List.mem_cons_of_mem _ member)) rep₁ (later _ _ done)
      exact ⟨w', by simp [performAll, done, doneRest, flatAll]⟩

end Runs

/-- Accesses of the harts by addresses of any form read what one memory addressed by the low 32 bits would give, as long
as the forms do not mix. -/
theorem aliases_name_one_memory {δ : Type} (numCores : Nat) (devices : Devices δ) (sys : Sys) (pmem : ByteMem) (dev : δ)
    (accesses : List (Fin 2 × DataAccess)) (mapped : ∀ access ∈ accesses, access.1.val < numCores ∧ access.2.Mapped)
    (unmixed : DataAccess.UnmixedAll (hierarchy ⟨numCores, prefetchHint, devices⟩) ⟨sys, MemState.init pmem dev⟩ accesses) :
    ∃ w', DataAccess.performAll (hierarchy ⟨numCores, prefetchHint, devices⟩) ⟨sys, MemState.init pmem dev⟩ accesses =
      some (DataAccess.flatAll pmem accesses, w') :=
  DataAccess.performAll_flat rfl mapped (init_represents _ pmem dev) unmixed

/-- A word is written by its sign-extended address and read by the plain one. -/
theorem aliases_name_one_memory_signed : ∃ w', DataAccess.performAll (hierarchy ⟨1, prefetchHint, Devices.none⟩)
    ⟨Sys.init, MemState.init (fun _ => 0) ()⟩ [(0, .write 0xffffffff80000040 4 7), (0, .read 0x80000040 4)] =
      some ([none, some 7], w') := by
  have unmixed : DataAccess.UnmixedAll (hierarchy ⟨1, prefetchHint, Devices.none⟩) ⟨Sys.init, MemState.init (fun _ => 0) ()⟩
      [(0, .write 0xffffffff80000040 4 7), (0, .read 0x80000040 4)] := by
    refine ⟨?_, fun value w' _ => ⟨?_, fun _ _ _ => trivial⟩⟩
    · intro b _
      exact ⟨fun _ => initCache_block 6 8 b, initCache_block 8 16 b⟩
    · change InLine 0x80000040 4
      decide
  obtain ⟨w', done⟩ := aliases_name_one_memory 1 Devices.none Sys.init (fun _ => 0) ()
    [(0, .write 0xffffffff80000040 4 7), (0, .read 0x80000040 4)] (by decide) unmixed
  exact ⟨w', done⟩

/-- A word is written by its plain address, stays in the cache, and is not seen by the sign-extended one. -/
theorem alias_reads_stale : ∃ w', DataAccess.performAll (hierarchy ⟨1, prefetchHint, Devices.none⟩)
    ⟨Sys.init, MemState.init (fun _ => 0) ()⟩ [(0, .write 0x80000040 4 7), (0, .read 0xffffffff80000040 4)] =
      some ([none, some 0], w') ∧
    DataAccess.flatAll (fun _ => 0) [(0, .write 0x80000040 4 7), (0, .read 0xffffffff80000040 4)] = [none, some 7] := by
  have ran : (DataAccess.performAll (hierarchy ⟨1, prefetchHint, Devices.none⟩) ⟨Sys.init, MemState.init (fun _ => 0) ()⟩
      [(0, .write 0x80000040 4 7), (0, .read 0xffffffff80000040 4)]).any (fun (values, _) => values == [none, some 0]) =
        true := by
    decide +kernel
  obtain ⟨⟨values, w'⟩, done, read⟩ := (Option.any_eq_true _ _).mp ran
  rw [beq_iff_eq.mp read] at done
  exact ⟨w', done, by decide⟩

end Sustemu
