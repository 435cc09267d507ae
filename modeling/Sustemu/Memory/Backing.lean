import Sustemu.Memory.Blocks

/-!
# The second level as a block map over memory

An access to the second level first makes room: it may evict one block, writing
it back when it is dirty. It then holds the accessed block. Nothing else
changes, and this is all that the coherence proof uses.
-/

set_option autoImplicit false

namespace Sustemu

open Lib

/-- Blocks of a cache as a partial map. -/
abbrev BlockMap := Nat → Option (Bool × ByteMem)

/-- Making room in a block map over `pmem`: nothing happens, or one block is
evicted and written back when it is dirty. -/
inductive MakesRoom (blocks : BlockMap) (pmem : ByteMem) : BlockMap → ByteMem → Prop where
  | keep : MakesRoom blocks pmem blocks pmem
  | evict {u : Nat} {dirty : Bool} {data : ByteMem} (present : blocks u = some (dirty, data)) :
      MakesRoom blocks pmem (setAt blocks u none)
        (if dirty then storeBlockToMem pmem (u * blockSize) data else pmem)

/-- The first 64 bytes agree. -/
def SameBlock (left right : ByteMem) : Prop := ∀ k, k < blockSize → left k = right k

theorem SameBlock.trans {a b c : ByteMem} (first : SameBlock a b) (second : SameBlock b c) : SameBlock a c :=
  fun k inside => (first k inside).trans (second k inside)

theorem SameBlock.symm {a b : ByteMem} (same : SameBlock a b) : SameBlock b a :=
  fun k inside => (same k inside).symm

theorem copyBlock_same (dest src : ByteMem) : SameBlock (copyBlock dest src) src := by
  intro k inside
  rw [copyBlock, if_pos inside]

/-! ## Accesses inside a line -/

section Inside

variable {c : Cache} {set way offset len : Nat}

theorem Cache.copyOut_inside (inside : offset + len ≤ blockSize) :
    c.copyOut set way offset len = loadLE (c.line set way).data offset len := by
  rw [copyOut, if_pos inside]

/-- Inside a line, a write changes the data of its own way only. -/
theorem Cache.copyIn_inside (inside : offset + len ≤ blockSize) (data : Word) :
    c.copyIn set way offset len data = c.modifyLine set way fun line =>
      { line with dirtyInt := 1, data := storeLE line.data offset len data } :=
  if_pos inside

end Inside

theorem blockAddr_eq (c : Cache) (set tag : Nat) :
    c.blockAddr set tag = (tag * 2 ^ c.s + set) * blockSize := by
  rw [Cache.blockAddr, blockSize, Nat.pow_add, Nat.add_mul, Nat.mul_assoc]

private theorem mod_blockNumber {s set : Nat} (tag : Nat) (bound : set < 2 ^ s) :
    (tag * 2 ^ s + set) % 2 ^ s = set := by
  rw [Nat.mul_comm, Nat.mul_add_mod, Nat.mod_eq_of_lt bound]

private theorem div_blockNumber {s set : Nat} (tag : Nat) (bound : set < 2 ^ s) :
    (tag * 2 ^ s + set) / 2 ^ s = tag := by
  rw [Nat.mul_comm, Nat.mul_add_div (Nat.two_pow_pos s), Nat.div_eq_of_lt bound, Nat.add_zero]

theorem holds_blockNumber {c : Cache} {set way : Nat} (bound : set < 2 ^ c.s) (inside : way < c.w)
    (valid : (c.line set way).valid = true) : c.Holds ((c.line set way).tag * 2 ^ c.s + set) way := by
  refine ⟨inside, ?_⟩
  rw [mod_blockNumber _ bound, div_blockNumber _ bound]
  simp [CacheLine.matches, valid]

theorem eq_blockNumber_of_holds {c : Cache} {x set way : Nat} (sameSet : x % 2 ^ c.s = set)
    (held : c.Holds x way) : x = (c.line set way).tag * 2 ^ c.s + set := by
  have matching := held.2
  rw [sameSet] at matching
  simp only [CacheLine.matches, Bool.and_eq_true, beq_iff_eq] at matching
  rw [matching.2, ← sameSet, Nat.mul_comm, Nat.div_add_mod]

/-- The block that a way held before it is refilled, if any, disappears. -/
theorem refill_block {c : Cache} (wf : c.WF) {b way : Nat} (bound : way < c.w)
    (missing : ∀ other, ¬ c.Holds b other) (line : CacheLine) (valid : line.valid = true)
    (tag : line.tag = b / 2 ^ c.s) :
    (c.modifyLine (b % 2 ^ c.s) way fun _ => line).WF ∧
      (c.modifyLine (b % 2 ^ c.s) way fun _ => line).block = setAt
        (if (c.line (b % 2 ^ c.s) way).valid then
          setAt c.block ((c.line (b % 2 ^ c.s) way).tag * 2 ^ c.s + b % 2 ^ c.s) none
        else c.block) b (some (line.dirty, line.data)) := by
  obtain ⟨wf', effect⟩ := Cache.modifyLine_refill wf bound missing line valid tag
  have setBound : b % 2 ^ c.s < 2 ^ c.s := Nat.mod_lt _ (Nat.two_pow_pos c.s)
  refine ⟨wf', funext fun x => ?_⟩
  rw [effect x]
  by_cases same : x = b
  · rw [if_pos same, same, setAt_self]
  · rw [if_neg same, setAt_of_ne same]
    by_cases evicted : x % 2 ^ c.s = b % 2 ^ c.s ∧ c.Holds x way
    · have matching := evicted.2.2
      rw [evicted.1] at matching
      simp only [CacheLine.matches, Bool.and_eq_true] at matching
      rw [if_pos evicted, if_pos matching.1, eq_blockNumber_of_holds evicted.1 evicted.2, setAt_self]
    · rw [if_neg evicted]
      split
      · next occupied =>
          rw [setAt_of_ne]
          intro isVictim
          apply evicted
          rw [isVictim]
          exact ⟨mod_blockNumber _ setBound, holds_blockNumber setBound bound occupied⟩
      · rfl

/-- What the cache holds of the block of a valid line. -/
theorem block_blockNumber {c : Cache} (wf : c.WF) {set way : Nat} (setBound : set < 2 ^ c.s) (bound : way < c.w)
    (occupied : (c.line set way).valid = true) :
    c.block ((c.line set way).tag * 2 ^ c.s + set) = some ((c.line set way).dirty, (c.line set way).data) := by
  have present := Cache.block_of_holds wf (holds_blockNumber setBound bound occupied)
  rwa [mod_blockNumber _ setBound] at present

/-- Refilling way `way` of the set of `b` makes room and then holds `b`. -/
theorem refill_makesRoom {c : Cache} (wf : c.WF) (pmem : ByteMem) {b way : Nat} (bound : way < c.w)
    (missing : ∀ other, ¬ c.Holds b other) (line : CacheLine) (valid : line.valid = true)
    (tag : line.tag = b / 2 ^ c.s) :
    ∃ middle, MakesRoom c.block pmem middle
        (if (c.line (b % 2 ^ c.s) way).valid && (c.line (b % 2 ^ c.s) way).dirty then
          storeBlockToMem pmem (c.blockAddr (b % 2 ^ c.s) (c.line (b % 2 ^ c.s) way).tag)
            (c.line (b % 2 ^ c.s) way).data
        else pmem) ∧
      middle b = none ∧
      (c.modifyLine (b % 2 ^ c.s) way fun _ => line).WF ∧
      (c.modifyLine (b % 2 ^ c.s) way fun _ => line).block =
        setAt middle b (some (line.dirty, line.data)) := by
  obtain ⟨wf', effect⟩ := refill_block wf bound missing line valid tag
  have setBound : b % 2 ^ c.s < 2 ^ c.s := Nat.mod_lt _ (Nat.two_pow_pos c.s)
  have absent : c.block b = none := Cache.block_of_not_holds missing
  refine ⟨_, ?_, ?_, wf', effect⟩
  · by_cases occupied : (c.line (b % 2 ^ c.s) way).valid = true
    · rw [if_pos occupied, occupied, Bool.true_and, blockAddr_eq]
      exact MakesRoom.evict (block_blockNumber wf setBound bound occupied)
    · rw [if_neg occupied, if_neg (fun both => occupied (Bool.and_eq_true_iff.mp both).1)]
      exact .keep
  · split
    · by_cases victim : b = (c.line (b % 2 ^ c.s) way).tag * 2 ^ c.s + b % 2 ^ c.s
      · rw [← victim, setAt_self]
      · rw [setAt_of_ne victim, absent]
    · exact absent

/-- A write stores a dirty copy of the block, after making room for it. -/
theorem accessL2_write {back : Backing} (wf : back.l2.WF) (addr : Nat) (data : ByteMem) :
    ∃ middle stored, MakesRoom back.l2.block back.pmem middle (accessL2 back addr data true).2.pmem ∧
      (accessL2 back addr data true).2.l2.WF ∧
      (accessL2 back addr data true).2.l2.block =
        setAt middle (addr / blockSize) (some (true, stored)) ∧
      SameBlock stored data := by
  obtain ⟨wfFound, same, outcome⟩ := Cache.findLine_spec wf addr
  unfold accessL2
  cases lookup : findLine back.l2 addr with
  | mk hit rest =>
      obtain ⟨way, l2⟩ := rest
      rw [lookup] at wfFound same outcome
      simp only at wfFound same outcome
      have setEq : l2.setIdx addr = addr / blockSize % 2 ^ l2.s := rfl
      cases hit with
      | true =>
          have held := (same.holds _ _).mpr (by simpa using outcome)
          obtain ⟨wf', effect⟩ := Cache.modifyLine_held wfFound held
            (fun line => { line with dirtyInt := 1, data := copyBlock line.data data })
            (fun _ => rfl) (fun _ => rfl)
          simp only [↓reduceIte, setEq]
          rw [same.block] at effect
          exact ⟨back.l2.block, _, .keep, wf', effect, copyBlock_same _ _⟩
      | false =>
          simp only [Bool.false_eq_true, ↓reduceIte] at outcome ⊢
          obtain ⟨bound, missing⟩ := outcome
          rw [← same.w] at bound
          have missing' : ∀ other, ¬ l2.Holds (addr / blockSize) other :=
            fun other held => missing other ((same.holds _ _).mp held)
          obtain ⟨middle, room, _, wf', effect⟩ := refill_makesRoom wfFound back.pmem bound missing'
            ⟨1, 1, l2.tagOf addr, l2.timer,
              copyBlock (l2.line (addr / blockSize % 2 ^ l2.s) way).data data⟩ rfl (Cache.tagOf_eq l2 addr)
          rw [same.block] at room
          simp only [setEq]
          split
          · next evicts =>
              rw [if_pos evicts] at room
              exact ⟨middle, _, room, ⟨wf'.ways, wf'.mru, wf'.unique⟩, effect, copyBlock_same _ _⟩
          · next keeps =>
              rw [if_neg keeps] at room
              exact ⟨middle, _, room, wf', effect, copyBlock_same _ _⟩

/-- A read returns the cached block, or loads it from memory after making room. -/
theorem accessL2_read {back : Backing} (wf : back.l2.WF) (addr : Nat) (dest : ByteMem) :
    ∃ middle content, MakesRoom back.l2.block back.pmem middle (accessL2 back addr dest false).2.pmem ∧
      (accessL2 back addr dest false).2.l2.WF ∧
      (accessL2 back addr dest false).2.l2.block = setAt middle (addr / blockSize) (some content) ∧
      SameBlock (accessL2 back addr dest false).1 content.2 ∧
      middle (addr / blockSize) = back.l2.block (addr / blockSize) ∧
      (back.l2.block (addr / blockSize) = some content ∨
        back.l2.block (addr / blockSize) = none ∧ content.1 = false ∧
          SameBlock content.2 fun k =>
            (accessL2 back addr dest false).2.pmem (addr / blockSize * blockSize + k)) := by
  obtain ⟨wfFound, same, outcome⟩ := Cache.findLine_spec wf addr
  unfold accessL2
  cases lookup : findLine back.l2 addr with
  | mk hit rest =>
      obtain ⟨way, l2⟩ := rest
      rw [lookup] at wfFound same outcome
      simp only at wfFound same outcome
      have setEq : l2.setIdx addr = addr / blockSize % 2 ^ l2.s := rfl
      cases hit with
      | true =>
          have held := (same.holds _ _).mpr (by simpa using outcome)
          have present := Cache.block_of_holds wfFound held
          simp only [↓reduceIte, setEq, Bool.false_eq_true]
          have unchanged := (setAt_eq_self (addr / blockSize) l2.block).symm
          rw [present, same.block] at unchanged
          rw [same.block] at present
          refine ⟨back.l2.block, _, .keep, wfFound, ?_, copyBlock_same _ _, rfl, .inl present⟩
          rw [same.block]
          exact unchanged
      | false =>
          simp only [Bool.false_eq_true, ↓reduceIte] at outcome ⊢
          obtain ⟨bound, missing⟩ := outcome
          have absent := Cache.block_of_not_holds missing
          rw [← same.w] at bound
          have missing' : ∀ other, ¬ l2.Holds (addr / blockSize) other :=
            fun other held => missing other ((same.holds _ _).mp held)
          have refilled := fun line valid tag =>
            refill_makesRoom wfFound back.pmem bound missing' line valid tag
          rw [same.block] at refilled
          simp only [setEq]
          split
          · next evicts =>
              obtain ⟨middle, room, empty, wf', effect⟩ := refilled
                ⟨1, 0, l2.tagOf addr, l2.timer, loadBlockFromMem _ _ _⟩ rfl
                (Cache.tagOf_eq l2 addr)
              rw [if_pos evicts] at room
              exact ⟨middle, _, room, ⟨wf'.ways, wf'.mru, wf'.unique⟩, effect, copyBlock_same _ _,
                empty.trans absent.symm, .inr ⟨absent, rfl, copyBlock_same _ _⟩⟩
          · next keeps =>
              obtain ⟨middle, room, empty, wf', effect⟩ := refilled
                ⟨1, 0, l2.tagOf addr, l2.timer, loadBlockFromMem _ _ _⟩ rfl
                (Cache.tagOf_eq l2 addr)
              rw [if_neg keeps] at room
              exact ⟨middle, _, room, wf', effect, copyBlock_same _ _,
                empty.trans absent.symm, .inr ⟨absent, rfl, copyBlock_same _ _⟩⟩

end Sustemu
