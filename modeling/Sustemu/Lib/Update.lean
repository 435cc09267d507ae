import Mathlib.Logic.Function.Basic

/-!
# Updating one slot

`setAt f i v` is `Function.update f i v` for slots of one type. It only tests
the index, where `Function.update` transports the value along a proof that the
indices are equal, so deciding a property of a long run never compares two
indices as terms.
-/

set_option autoImplicit false

namespace Sustemu.Lib

variable {α β : Type} [DecidableEq α]

/-- The array `f` with `v` in slot `i`. -/
def setAt (f : α → β) (i : α) (v : β) (j : α) : β := if j = i then v else f j

theorem setAt_apply (f : α → β) (i : α) (v : β) (j : α) : setAt f i v j = if j = i then v else f j := rfl

theorem setAt_eq_update (f : α → β) (i : α) (v : β) : setAt f i v = Function.update f i v := by
  funext j
  rw [Function.update_apply, setAt_apply]

@[simp] theorem setAt_self (i : α) (v : β) (f : α → β) : setAt f i v i = v := by
  rw [setAt_eq_update, Function.update_self]

@[simp] theorem setAt_of_ne {i j : α} (other : j ≠ i) (v : β) (f : α → β) : setAt f i v j = f j := by
  rw [setAt_eq_update, Function.update_of_ne other]

@[simp] theorem setAt_idem {i : α} (v w : β) (f : α → β) : setAt (setAt f i v) i w = setAt f i w := by
  rw [setAt_eq_update, setAt_eq_update, setAt_eq_update, Function.update_idem]

@[simp] theorem setAt_eq_self (i : α) (f : α → β) : setAt f i (f i) = f := by
  rw [setAt_eq_update, Function.update_eq_self]

theorem setAt_eq_self_iff {i : α} {v : β} {f : α → β} : setAt f i v = f ↔ v = f i := by
  rw [setAt_eq_update, Function.update_eq_self_iff]

theorem setAt_comm {i j : α} (apart : i ≠ j) (v w : β) (f : α → β) :
    setAt (setAt f i v) j w = setAt (setAt f j w) i v := by
  rw [setAt_eq_update, setAt_eq_update, setAt_eq_update, setAt_eq_update, Function.update_comm apart]

end Sustemu.Lib
