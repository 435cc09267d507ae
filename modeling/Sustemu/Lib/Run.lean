import Mathlib.Data.List.Basic

/-!
# Labelled runs

A run of a labelled transition relation, described by the list of its labels.
-/

set_option autoImplicit false

namespace Sustemu.Lib

variable {S L : Type} {step : S → L → S → Prop} {s s' : S}

/-- A run from `s` to `s'` with the given labels. -/
def Run (step : S → L → S → Prop) : S → List L → S → Prop
  | s, [], s' => s = s'
  | s, label :: rest, s' => ∃ mid, step s label mid ∧ Run step mid rest s'

theorem run_append (older newer : List L) :
    Run step s (older ++ newer) s' ↔ ∃ mid, Run step s older mid ∧ Run step mid newer s' := by
  induction older generalizing s with
  | nil => simp [Run]
  | cons label rest ih =>
      simp only [List.cons_append, Run, ih]
      constructor
      · rintro ⟨first, stepped, mid, before, after⟩
        exact ⟨mid, ⟨first, stepped, before⟩, after⟩
      · rintro ⟨mid, ⟨first, stepped, before⟩, after⟩
        exact ⟨first, stepped, mid, before, after⟩

/-- What every step keeps, a run keeps. -/
theorem Run.invariant {labels : List L} (inv : S → Prop) (keep : ∀ {s label s'}, step s label s' → inv s → inv s')
    (run : Run step s labels s') (start : inv s) : inv s' := by
  induction labels generalizing s with
  | nil =>
      cases run
      exact start
  | cons label rest ih =>
      obtain ⟨mid, stepped, later⟩ := run
      exact ih later (keep stepped start)

/-- An invariant of a state and the labels behind it. -/
theorem Run.history {inv : S → List L → Prop} {labels before : List L}
    (keep : ∀ {s label s' before}, label ∈ labels → step s label s' → inv s before → inv s' (before ++ [label]))
    (run : Run step s labels s') (start : inv s before) : inv s' (before ++ labels) := by
  induction labels generalizing s before with
  | nil =>
      cases run
      rw [List.append_nil]
      exact start
  | cons label rest ih =>
      obtain ⟨mid, stepped, later⟩ := run
      have final := ih (fun member => keep (List.mem_cons_of_mem _ member)) later (keep List.mem_cons_self stepped start)
      rw [List.append_assoc] at final
      exact final

end Sustemu.Lib
