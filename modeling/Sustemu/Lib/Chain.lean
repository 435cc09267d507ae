import Sustemu.Lib.Update
import Mathlib.Data.List.Basic

/-!
# Singly linked lists

Cells are named by `ι`; `next` gives the cell behind each one. A chain lists the
cells that are reached from a pointer.
-/

set_option autoImplicit false

namespace Sustemu.Lib

variable {ι : Type}

/-- The cells from a pointer on, in order, up to the null pointer. -/
def Chain (next : ι → Option ι) : Option ι → List ι → Prop
  | pointer, [] => pointer = none
  | pointer, cell :: rest => pointer = some cell ∧ Chain next (next cell) rest

variable {next next' : ι → Option ι} {pointer : Option ι} {cell : ι} {cells rest : List ι}

@[simp] theorem Chain.none_iff : Chain next none cells ↔ cells = [] := by
  cases cells <;> simp [Chain]

theorem Chain.some_iff : Chain next (some cell) cells ↔ ∃ rest, cells = cell :: rest ∧ Chain next (next cell) rest := by
  cases cells with
  | nil => simp [Chain]
  | cons first rest =>
      constructor
      · rintro ⟨same, chain⟩
        cases same
        exact ⟨rest, rfl, chain⟩
      · rintro ⟨_, same, chain⟩
        cases same
        exact ⟨rfl, chain⟩

theorem Chain.unique {cells' : List ι} (chain : Chain next pointer cells) (chain' : Chain next pointer cells') :
    cells = cells' := by
  induction cells generalizing pointer cells' with
  | nil =>
      rw [show pointer = none from chain] at chain'
      exact (Chain.none_iff.mp chain').symm
  | cons cell rest ih =>
      rw [chain.1] at chain'
      obtain ⟨rest', same, tail⟩ := Chain.some_iff.mp chain'
      rw [same, ih chain.2 tail]

/-- Only the links of its own cells matter to a chain. -/
theorem Chain.frame (chain : Chain next pointer cells) (same : ∀ cell ∈ cells, next' cell = next cell) : Chain next' pointer cells := by
  induction cells generalizing pointer with
  | nil => exact chain
  | cons cell rest ih =>
      refine ⟨chain.1, ?_⟩
      rw [same cell List.mem_cons_self]
      exact ih chain.2 fun other member => same other (List.mem_cons_of_mem _ member)

variable [DecidableEq ι]

instance Chain.decidable (next : ι → Option ι) : ∀ pointer cells, Decidable (Chain next pointer cells)
  | pointer, [] => inferInstanceAs (Decidable (pointer = none))
  | pointer, cell :: rest =>
      have := Chain.decidable next (next cell) rest
      inferInstanceAs (Decidable (pointer = some cell ∧ Chain next (next cell) rest))

theorem Chain.update (chain : Chain next pointer cells) (outside : cell ∉ cells) (link : Option ι) :
    Chain (setAt next cell link) pointer cells :=
  chain.frame fun other member => setAt_of_ne (fun same : other = cell => outside (same ▸ member)) _ _

/-- A cell from outside is put in front. -/
theorem Chain.push (chain : Chain next pointer cells) (outside : cell ∉ cells) :
    Chain (setAt next cell pointer) (some cell) (cell :: cells) := by
  refine ⟨rfl, ?_⟩
  rw [setAt_self]
  exact chain.update outside pointer

/-- A cell behind another one is taken out. -/
theorem Chain.unlink {before : List ι} {previous : ι} (chain : Chain next pointer (before ++ previous :: cell :: rest))
    (apart : (before ++ previous :: cell :: rest).Nodup) :
    Chain (setAt next previous (next cell)) pointer (before ++ previous :: rest) := by
  induction before generalizing pointer with
  | nil =>
      obtain ⟨start, -, tail⟩ := chain
      refine ⟨start, ?_⟩
      rw [setAt_self]
      have outside : previous ∉ rest := fun member => (List.nodup_cons.mp apart).1 (List.mem_cons_of_mem _ member)
      exact tail.update outside _
  | cons first before ih =>
      obtain ⟨start, tail⟩ := chain
      obtain ⟨fresh, apart⟩ := List.nodup_cons.mp apart
      refine ⟨start, ?_⟩
      have other : first ≠ previous := fun same => fresh (by simp [same])
      rw [setAt_of_ne other]
      exact ih tail apart

end Sustemu.Lib
