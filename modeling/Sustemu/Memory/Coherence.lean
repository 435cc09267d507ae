import Sustemu.Memory.Backing
import Mathlib.Data.Set.Basic

/-!
# The coherence invariant

A flat memory and the set of bytes stored to so far describe what the caches
and physical memory together represent. The invariant says where the current
bytes of a block are found: in any first-level data copy; without a dirty one,
in the second level; and without a second-level copy, in physical memory. A
byte that was never stored to is the same in every copy, which is what makes
instruction fetch through its own cache correct.
-/

set_option autoImplicit false

namespace Sustemu

open Lib

/-- A flat memory with the bytes stored to so far. -/
structure Flat where
  bytes : ByteMem
  written : Set Nat

/-- `width` bytes of `word` stored at `address`. -/
def Flat.store (f : Flat) (address width : Nat) (word : Word) : Flat where
  bytes := storeLE f.bytes address width word
  written := f.written ∪ { byte | address ≤ byte ∧ byte < address + width }

/-- Block `b` of a flat memory is `data`. -/
def Agrees (data : ByteMem) (mem : ByteMem) (b : Nat) : Prop :=
  ∀ k, k < blockSize → data k = mem (b * blockSize + k)

theorem Agrees.congr {data data' mem : ByteMem} {b : Nat} (agrees : Agrees data mem b)
    (same : SameBlock data' data) : Agrees data' mem b :=
  fun k inside => (same k inside).trans (agrees k inside)

/-- Blocks of the data caches, instruction caches and second level over physical memory. -/
structure Levels where
  l1d : Fin 2 → BlockMap
  l1i : Fin 2 → BlockMap
  l2 : BlockMap
  pmem : ByteMem

/-- No data cache holds a dirty copy of `b`. -/
def Levels.Settled (v : Levels) (b : Nat) : Prop := ∀ h data, v.l1d h b ≠ some (true, data)

structure Coherent (v : Levels) (f : Flat) : Prop where
  data : ∀ h b dirty data, v.l1d h b = some (dirty, data) → Agrees data f.bytes b
  exclusive : ∀ h h' b data, v.l1d h b = some (true, data) → h' ≠ h → v.l1d h' b = none
  second : ∀ b dirty data, v.Settled b → v.l2 b = some (dirty, data) → Agrees data f.bytes b
  memory : ∀ b, v.Settled b → v.l2 b = none → Agrees (fun k => v.pmem (b * blockSize + k)) f.bytes b
  clean : ∀ b data, v.l2 b = some (false, data) → Agrees data v.pmem b
  codeL1 : ∀ h b dirty data k, k < blockSize → b * blockSize + k ∉ f.written →
    v.l1i h b = some (dirty, data) → data k = f.bytes (b * blockSize + k)
  codeL2 : ∀ b dirty data k, k < blockSize → b * blockSize + k ∉ f.written →
    v.l2 b = some (dirty, data) → data k = f.bytes (b * blockSize + k)
  codeMem : ∀ b k, k < blockSize → b * blockSize + k ∉ f.written →
    v.pmem (b * blockSize + k) = f.bytes (b * blockSize + k)
  fetchClean : ∀ h b dirty data, v.l1i h b = some (dirty, data) → dirty = false

/-! ## Block arithmetic -/

private theorem storeBlockToMem_self (pmem : ByteMem) (u : Nat) (data : ByteMem) {k : Nat} (inside : k < blockSize) :
    storeBlockToMem pmem (u * blockSize) data (u * blockSize + k) = data k := by
  unfold storeBlockToMem
  rw [if_pos ⟨by omega, by omega⟩, Nat.add_sub_cancel_left]

theorem storeBlockToMem_other (pmem : ByteMem) {u b : Nat} (data : ByteMem) {k : Nat}
    (inside : k < blockSize) (different : b ≠ u) :
    storeBlockToMem pmem (u * blockSize) data (b * blockSize + k) = pmem (b * blockSize + k) := by
  unfold storeBlockToMem
  rw [if_neg]
  unfold blockSize at *
  omega

private theorem update_some_cases {blocks : BlockMap} {u b : Nat} {content : Option (Bool × ByteMem)}
    {found : Bool × ByteMem} (present : setAt blocks u content b = some found) :
    (b = u ∧ content = some found) ∨ (b ≠ u ∧ blocks b = some found) := by
  by_cases same : b = u
  · subst same
    rw [setAt_self] at present
    exact .inl ⟨rfl, present⟩
  · rw [setAt_of_ne same] at present
    exact .inr ⟨same, present⟩

namespace Coherent

variable {v : Levels} {f : Flat}

/-! ## Second-level steps -/

/-- Making room in the second level loses nothing. -/
theorem makeRoom (coherent : Coherent v f) {l2 : BlockMap} {pmem : ByteMem}
    (room : MakesRoom v.l2 v.pmem l2 pmem) : Coherent { v with l2 := l2, pmem := pmem } f := by
  cases room with
  | keep => exact coherent
  | @evict u dirty data present =>
      -- Bytes of memory after a possible write-back of block `u`.
      have written : ∀ b k, k < blockSize →
          (if dirty then storeBlockToMem v.pmem (u * blockSize) data else v.pmem) (b * blockSize + k) =
            if b = u ∧ dirty = true then data k else v.pmem (b * blockSize + k) := by
        intro b k inside
        cases dirty with
        | false => simp
        | true =>
            by_cases same : b = u
            · subst same
              simp [storeBlockToMem_self v.pmem b data inside]
            · simp [same, storeBlockToMem_other v.pmem data inside same]
      -- An evicted clean block equals memory, an evicted dirty one is written.
      have evicted : ∀ k, k < blockSize →
          (if dirty then storeBlockToMem v.pmem (u * blockSize) data else v.pmem) (u * blockSize + k) = data k := by
        intro k inside
        rw [written u k inside]
        cases dirty with
        | true => simp
        | false =>
            simp only [Bool.false_eq_true, and_false, ↓reduceIte]
            exact (coherent.clean u data present k inside).symm
      refine { coherent with second := ?_, memory := ?_, clean := ?_, codeL2 := ?_, codeMem := ?_ }
      · intro b dirty' data' settled found
        rcases update_some_cases found with ⟨_, absurdity⟩ | ⟨_, before⟩
        · cases absurdity
        · exact coherent.second b dirty' data' settled before
      · intro b settled missing k inside
        by_cases same : b = u
        · subst same
          exact (evicted k inside).trans (coherent.second b dirty data settled present k inside)
        · simp only [setAt_of_ne same] at missing
          simp only [written b k inside, same, false_and, ↓reduceIte]
          exact coherent.memory b settled missing k inside
      · intro b data' found k inside
        rcases update_some_cases found with ⟨_, absurdity⟩ | ⟨different, before⟩
        · cases absurdity
        · simp only [written b k inside, different, false_and, ↓reduceIte]
          exact coherent.clean b data' before k inside
      · intro b dirty' data' k inside fresh found
        rcases update_some_cases found with ⟨_, absurdity⟩ | ⟨_, before⟩
        · cases absurdity
        · exact coherent.codeL2 b dirty' data' k inside fresh before
      · intro b k inside fresh
        by_cases same : b = u
        · subst same
          exact (evicted k inside).trans (coherent.codeL2 b dirty data k inside fresh present)
        · simp only [written b k inside, same, false_and, ↓reduceIte]
          exact coherent.codeMem b k inside fresh

/-- Replacing the contents of the second level at `b` by a copy that is right
wherever it has to be. -/
private theorem putL2 (coherent : Coherent v f) {b : Nat} {dirty : Bool} {data : ByteMem}
    (current : v.Settled b → Agrees data f.bytes b)
    (clean : dirty = false → Agrees data v.pmem b)
    (code : ∀ k, k < blockSize → b * blockSize + k ∉ f.written → data k = f.bytes (b * blockSize + k)) :
    Coherent { v with l2 := setAt v.l2 b (some (dirty, data)) } f := by
  refine { coherent with second := ?_, memory := ?_, clean := ?_, codeL2 := ?_ }
  · intro x dirty' data' settled found
    rcases update_some_cases found with ⟨rfl, content⟩ | ⟨_, before⟩
    · cases content
      exact current settled
    · exact coherent.second x dirty' data' settled before
  · intro x settled missing
    by_cases same : x = b
    · subst same
      simp at missing
    · simp only [setAt_of_ne same] at missing
      exact coherent.memory x settled missing
  · intro x data' found
    rcases update_some_cases found with ⟨rfl, content⟩ | ⟨_, before⟩
    · cases content
      exact clean rfl
    · exact coherent.clean x data' before
  · intro x dirty' data' k inside fresh found
    rcases update_some_cases found with ⟨rfl, content⟩ | ⟨_, before⟩
    · cases content
      exact code k inside fresh
    · exact coherent.codeL2 x dirty' data' k inside fresh before

/-- Loading a missing block from memory into the second level. -/
theorem loadL2 (coherent : Coherent v f) {b : Nat} {data : ByteMem} (missing : v.l2 b = none)
    (loaded : Agrees data v.pmem b) :
    Coherent { v with l2 := setAt v.l2 b (some (false, data)) } f := by
  apply coherent.putL2
  · intro settled k inside
    exact (loaded k inside).trans (coherent.memory b settled missing k inside)
  · intro _
    exact loaded
  · intro k inside fresh
    exact (loaded k inside).trans (coherent.codeMem b k inside fresh)

/-! ## First-level steps -/

/-- Changing what data cache `h` holds at `b`, while every copy stays current
and a dirty copy stays alone. -/
private theorem putL1d (coherent : Coherent v f) {h : Fin 2} {b : Nat} {content : Option (Bool × ByteMem)}
    (current : ∀ dirty data, content = some (dirty, data) → Agrees data f.bytes b)
    (notDirty : ∀ data, content ≠ some (true, data)) (settled : v.Settled b) :
    Coherent { v with l1d := setAt v.l1d h (setAt (v.l1d h) b content) } f := by
  -- What data cache `g` holds at `x` afterwards.
  have after : ∀ g x, setAt v.l1d h (setAt (v.l1d h) b content) g x =
      if g = h ∧ x = b then content else v.l1d g x := by
    intro g x
    by_cases sameHart : g = h
    · subst sameHart
      by_cases same : x = b
      · subst same
        simp
      · simp [same]
    · simp [sameHart]
  have wasDirty : ∀ g x data, setAt v.l1d h (setAt (v.l1d h) b content) g x = some (true, data) →
      v.l1d g x = some (true, data) ∧ x ≠ b := by
    intro g x data found
    rw [after] at found
    split at found
    · exact absurd found (notDirty data)
    · refine ⟨found, ?_⟩
      rintro rfl
      exact settled g data found
  have settledBefore : ∀ x, Levels.Settled { v with l1d := setAt v.l1d h (setAt (v.l1d h) b content) } x →
      v.Settled x := by
    intro x settledAfter g data found
    by_cases same : x = b
    · subst same
      exact settled g data found
    · apply settledAfter g data
      simp only [after]
      rw [if_neg (fun both => same both.2)]
      exact found
  refine { coherent with data := ?_, exclusive := ?_, second := ?_, memory := ?_ }
  · intro g x dirty data found
    simp only [after] at found
    split at found
    · next here =>
        rw [here.2]
        exact current dirty data found
    · exact coherent.data g x dirty data found
  · intro g g' x data found different
    obtain ⟨before, elsewhere⟩ := wasDirty g x data found
    simp only [after]
    rw [if_neg (fun both => elsewhere both.2)]
    exact coherent.exclusive g g' x data before different
  · intro x dirty data settledAfter found
    exact coherent.second x dirty data (settledBefore x settledAfter) found
  · intro x settledAfter missing
    exact coherent.memory x (settledBefore x settledAfter) missing

/-- Dropping a block that is not dirty from a data cache. -/
theorem dropL1d (coherent : Coherent v f) {h : Fin 2} {b : Nat} (settled : v.Settled b) :
    Coherent { v with l1d := setAt v.l1d h (setAt (v.l1d h) b none) } f :=
  coherent.putL1d (fun _ _ found => nomatch found) (fun _ found => nomatch found) settled

/-- Filling a data cache with a current clean copy. -/
theorem fillL1d (coherent : Coherent v f) {h : Fin 2} {b : Nat} {data : ByteMem} (settled : v.Settled b)
    (current : Agrees data f.bytes b) :
    Coherent { v with l1d := setAt v.l1d h (setAt (v.l1d h) b (some (false, data))) } f := by
  apply coherent.putL1d _ _ settled
  · intro dirty data' found
    cases found
    exact current
  · intro data' found
    cases found

/-- Writing a data cache's copy back to the second level and keeping it clean. -/
theorem writeBack (coherent : Coherent v f) {h : Fin 2} {b : Nat} {data stored : ByteMem}
    (dirtyCopy : v.l1d h b = some (true, data)) (same : SameBlock stored data) :
    Coherent { v with
      l1d := setAt v.l1d h (setAt (v.l1d h) b (some (false, data)))
      l2 := setAt v.l2 b (some (true, stored)) } f := by
  have current : Agrees data f.bytes b := coherent.data h b true data dirtyCopy
  have stored' : Agrees stored f.bytes b := current.congr same
  have put : Coherent { v with l2 := setAt v.l2 b (some (true, stored)) } f :=
    coherent.putL2 (fun _ => stored') (fun absurdity => nomatch absurdity) fun k inside _ => stored' k inside
  -- The copy of `h` is the only one, so replacing it settles the block.
  have alone : ∀ g, g ≠ h → v.l1d g b = none := fun g different =>
    coherent.exclusive h g b data dirtyCopy different
  have after : ∀ g x, setAt v.l1d h (setAt (v.l1d h) b (some (false, data))) g x =
      if g = h ∧ x = b then some (false, data) else v.l1d g x := by
    intro g x
    by_cases sameHart : g = h
    · subst sameHart
      by_cases here : x = b
      · subst here
        simp
      · simp [here]
    · simp [sameHart]
  have settledOther : ∀ x, x ≠ b →
      Levels.Settled { v with l1d := setAt v.l1d h (setAt (v.l1d h) b (some (false, data))),
                              l2 := setAt v.l2 b (some (true, stored)) } x →
      v.Settled x := by
    intro x different settled g data' found
    apply settled g data'
    simp only [after]
    rw [if_neg (fun both => different both.2)]
    exact found
  refine { put with data := ?_, exclusive := ?_, second := ?_, memory := ?_ }
  · intro g x dirty data' found
    simp only [after] at found
    split at found
    · next here =>
        cases found
        rw [here.2]
        exact current
    · exact coherent.data g x dirty data' found
  · intro g g' x data' found different
    simp only [after] at found ⊢
    split at found
    · cases found
    · split
      · next here =>
          -- `g` would hold a dirty copy of `b` beside that of `h`.
          rw [here.1] at different
          rw [here.2, alone g different.symm] at found
          cases found
      · exact coherent.exclusive g g' x data' found different
  · intro x dirty data' settled found
    rcases update_some_cases found with ⟨rfl, content⟩ | ⟨different, before⟩
    · cases content
      exact stored'
    · exact coherent.second x dirty data' (settledOther x different settled) before
  · intro x settled missing
    by_cases same : x = b
    · subst same
      simp at missing
    · simp only [setAt_of_ne same] at missing
      exact coherent.memory x (settledOther x same settled) missing

/-- Dropping any block from an instruction cache. -/
theorem dropL1i (coherent : Coherent v f) {h : Fin 2} {b : Nat} :
    Coherent { v with l1i := setAt v.l1i h (setAt (v.l1i h) b none) } f := by
  refine { coherent with codeL1 := ?_, fetchClean := ?_ }
  · intro g x dirty data k inside fresh found
    by_cases sameHart : g = h
    · subst sameHart
      simp only [setAt_self] at found
      rcases update_some_cases found with ⟨_, absurdity⟩ | ⟨_, before⟩
      · cases absurdity
      · exact coherent.codeL1 g x dirty data k inside fresh before
    · simp only [setAt_of_ne sameHart] at found
      exact coherent.codeL1 g x dirty data k inside fresh found
  · intro g x dirty data found
    by_cases sameHart : g = h
    · subst sameHart
      simp only [setAt_self] at found
      rcases update_some_cases found with ⟨_, absurdity⟩ | ⟨_, before⟩
      · cases absurdity
      · exact coherent.fetchClean g x dirty data before
    · simp only [setAt_of_ne sameHart] at found
      exact coherent.fetchClean g x dirty data found

/-- Filling an instruction cache with a copy whose unwritten bytes are right. -/
theorem fillL1i (coherent : Coherent v f) {h : Fin 2} {b : Nat} {data : ByteMem}
    (code : ∀ k, k < blockSize → b * blockSize + k ∉ f.written → data k = f.bytes (b * blockSize + k)) :
    Coherent { v with l1i := setAt v.l1i h (setAt (v.l1i h) b (some (false, data))) } f := by
  refine { coherent with codeL1 := ?_, fetchClean := ?_ }
  · intro g x dirty data' k inside fresh found
    by_cases sameHart : g = h
    · subst sameHart
      simp only [setAt_self] at found
      rcases update_some_cases found with ⟨rfl, content⟩ | ⟨_, before⟩
      · cases content
        exact code k inside fresh
      · exact coherent.codeL1 g x dirty data' k inside fresh before
    · simp only [setAt_of_ne sameHart] at found
      exact coherent.codeL1 g x dirty data' k inside fresh found
  · intro g x dirty data' found
    by_cases sameHart : g = h
    · subst sameHart
      simp only [setAt_self] at found
      rcases update_some_cases found with ⟨rfl, content⟩ | ⟨_, before⟩
      · cases content
        rfl
      · exact coherent.fetchClean g x dirty data' before
    · simp only [setAt_of_ne sameHart] at found
      exact coherent.fetchClean g x dirty data' found

/-- Storing into the only data copy of a block. -/
theorem writeL1d (coherent : Coherent v f) {h : Fin 2} {b offset width : Nat} {dirty : Bool} {data data' : ByteMem}
    (word : Word) (copy : v.l1d h b = some (dirty, data)) (alone : ∀ g, g ≠ h → v.l1d g b = none)
    (inside : offset + width ≤ blockSize) (stored : SameBlock data' (storeLE data offset width word)) :
    Coherent { v with l1d := setAt v.l1d h (setAt (v.l1d h) b (some (true, data'))) }
      (f.store (b * blockSize + offset) width word) := by
  have after : ∀ g x, setAt v.l1d h (setAt (v.l1d h) b (some (true, data'))) g x =
      if g = h ∧ x = b then some (true, data') else v.l1d g x := by
    intro g x
    by_cases sameHart : g = h
    · subst sameHart
      by_cases here : x = b
      · subst here
        simp
      · simp [here]
    · simp [sameHart]
  -- Only block `b` of the flat memory changes.
  have other : ∀ x k, k < blockSize → x ≠ b →
      (f.store (b * blockSize + offset) width word).bytes (x * blockSize + k) = f.bytes (x * blockSize + k) := by
    intro x k bound different
    apply storeLE_of_outside
    unfold blockSize at *
    omega
  have fresh : ∀ x, x ∉ (f.store (b * blockSize + offset) width word).written →
      x ∉ f.written ∧ (f.store (b * blockSize + offset) width word).bytes x = f.bytes x := by
    intro x notWritten
    have apart := not_or.mp notWritten
    refine ⟨apart.1, storeLE_of_outside word ?_⟩
    have outside := apart.2
    simp only [Set.mem_ofPred_eq] at outside
    omega
  have settled : ∀ x, Levels.Settled
      { v with l1d := setAt v.l1d h (setAt (v.l1d h) b (some (true, data'))) } x →
      v.Settled x ∧ x ≠ b := by
    intro x settledAfter
    have different : x ≠ b := by
      rintro rfl
      exact settledAfter h data' ((after h x).trans (if_pos ⟨rfl, rfl⟩))
    refine ⟨fun g data found => settledAfter g data ?_, different⟩
    simp only [after]
    rw [if_neg (fun both => different both.2)]
    exact found
  refine ⟨?_, ?_, ?_, ?_, coherent.clean, ?_, ?_, ?_, coherent.fetchClean⟩
  · intro g x dirty' found' located
    simp only [after] at located
    split at located
    · next here =>
        obtain ⟨rfl, rfl⟩ := here
        cases located
        intro k bound
        have before := coherent.data g x dirty data copy k bound
        rw [stored k bound]
        change storeLE data offset width word k =
          storeLE f.bytes (x * blockSize + offset) width word (x * blockSize + k)
        unfold storeLE
        by_cases touched : offset ≤ k ∧ k < offset + width
        · rw [if_pos touched, if_pos (by omega)]
          congr 1
          omega
        · rw [if_neg touched, if_neg (by omega), before]
    · next elsewhere =>
        intro k bound
        have different : x ≠ b := by
          rintro rfl
          have otherHart : g ≠ h := fun same => elsewhere ⟨same, rfl⟩
          rw [alone g otherHart] at located
          cases located
        rw [other x k bound different]
        exact coherent.data g x dirty' found' located k bound
  · intro g g' x found' located different
    simp only [after] at located ⊢
    split at located
    · next here =>
        obtain ⟨rfl, rfl⟩ := here
        rw [if_neg (fun both => different both.1)]
        exact alone g' different
    · next elsewhere =>
        split
        · next here =>
            rw [here.2, alone g (fun same => elsewhere ⟨same, here.2⟩)] at located
            cases located
        · exact coherent.exclusive g g' x found' located different
  · intro x dirty' found' settledAfter located k bound
    obtain ⟨settledBefore, different⟩ := settled x settledAfter
    rw [other x k bound different]
    exact coherent.second x dirty' found' settledBefore located k bound
  · intro x settledAfter missing k bound
    obtain ⟨settledBefore, different⟩ := settled x settledAfter
    rw [other x k bound different]
    exact coherent.memory x settledBefore missing k bound
  · intro g x dirty' found' k bound notWritten located
    obtain ⟨before, same⟩ := fresh _ notWritten
    rw [same]
    exact coherent.codeL1 g x dirty' found' k bound before located
  · intro x dirty' found' k bound notWritten located
    obtain ⟨before, same⟩ := fresh _ notWritten
    rw [same]
    exact coherent.codeL2 x dirty' found' k bound before located
  · intro x k bound notWritten
    obtain ⟨before, same⟩ := fresh _ notWritten
    rw [same]
    exact coherent.codeMem x k bound before

/-! ## Second-level accesses -/

/-- Reading block `b` through the second level. -/
theorem accessRead (coherent : Coherent v f) {back : Backing} (wf : back.l2.WF) (l2 : v.l2 = back.l2.block)
    (pmem : v.pmem = back.pmem) (addr : Nat) (dest : ByteMem) :
    (accessL2 back addr dest false).2.l2.WF ∧
      Coherent { v with l2 := (accessL2 back addr dest false).2.l2.block,
                        pmem := (accessL2 back addr dest false).2.pmem } f ∧
      (v.Settled (addr / blockSize) → Agrees (accessL2 back addr dest false).1 f.bytes (addr / blockSize)) ∧
      ∀ k, k < blockSize → addr / blockSize * blockSize + k ∉ f.written →
        (accessL2 back addr dest false).1 k = f.bytes (addr / blockSize * blockSize + k) := by
  obtain ⟨middle, content, room, wf', blocks, returned, kept, origin⟩ := accessL2_read wf addr dest
  rw [← l2, ← pmem] at room
  have roomy := coherent.makeRoom room
  have final : Coherent { v with l2 := (accessL2 back addr dest false).2.l2.block,
                                 pmem := (accessL2 back addr dest false).2.pmem } f := by
    rw [blocks]
    rcases origin with present | ⟨missing, clean, loaded⟩
    · have same : setAt middle (addr / blockSize) (some content) = middle := by
        rw [← present, ← kept, setAt_eq_self]
      rw [same]
      exact roomy
    · obtain ⟨dirty, data⟩ := content
      simp only at clean
      subst clean
      exact roomy.loadL2 (kept.trans missing) loaded
  have held : ({ v with l2 := (accessL2 back addr dest false).2.l2.block,
                        pmem := (accessL2 back addr dest false).2.pmem } : Levels).l2 (addr / blockSize) =
      some content := by
    simp only [blocks, setAt_self]
  refine ⟨wf', final, ?_, ?_⟩
  · intro settled
    exact (final.second _ _ _ settled held).congr returned
  · intro k inside fresh
    exact (returned k inside).trans (final.codeL2 _ _ _ k inside fresh held)

/-- Writing the dirty copy of block `b` in data cache `h` back through the second level. -/
theorem accessWrite (coherent : Coherent v f) (back : Backing) (wf : back.l2.WF) (l2 : v.l2 = back.l2.block)
    (pmem : v.pmem = back.pmem) {h : Fin 2} {addr : Nat} {data : ByteMem}
    (dirtyCopy : v.l1d h (addr / blockSize) = some (true, data)) :
    (accessL2 back addr data true).2.l2.WF ∧
      Coherent { v with
        l1d := setAt v.l1d h (setAt (v.l1d h) (addr / blockSize) (some (false, data)))
        l2 := (accessL2 back addr data true).2.l2.block
        pmem := (accessL2 back addr data true).2.pmem } f := by
  obtain ⟨middle, stored, room, wf', blocks, same⟩ := accessL2_write wf addr data
  rw [← l2, ← pmem] at room
  refine ⟨wf', ?_⟩
  rw [blocks]
  exact (coherent.makeRoom room).writeBack dirtyCopy same

end Coherent

end Sustemu
