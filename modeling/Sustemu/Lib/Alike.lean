import Mathlib.Data.Option.Basic

/-!
# Computations that give the same answers

A check that never fails leaves a partial computation as it is. That it never
fails rests on an invariant, so equality and invariant are carried together
through sequencing, choice and loops.
-/

set_option autoImplicit false

namespace Sustemu.Lib

variable {α β : Type}

/-- `y` answers as `x` does, and every answer satisfies `P`. -/
structure Alike (x y : Option α) (P : α → Prop) : Prop where
  same : y = x
  holds : ∀ {a}, x = some a → P a

namespace Alike

variable {x y : Option α} {P : α → Prop} {Q : β → Prop}

theorem pure {a : α} (holds : P a) : Alike (some a) (some a) P :=
  ⟨rfl, fun same => Option.some.inj same ▸ holds⟩

theorem none : Alike Option.none Option.none P := ⟨rfl, nofun⟩

theorem refl (holds : ∀ {a}, x = some a → P a) : Alike x x P := ⟨rfl, holds⟩

theorem bind {f g : α → Option β} (first : Alike x y P) (rest : ∀ a, P a → Alike (f a) (g a) Q) :
    Alike (x.bind f) (y.bind g) Q := by
  obtain ⟨rfl, holds⟩ := first
  cases answer : y with
  | none => exact .none
  | some a => exact rest a (holds answer)

theorem map {f : α → β} (first : Alike x y P) (rest : ∀ a, P a → Q (f a)) : Alike (x.map f) (y.map f) Q := by
  obtain ⟨rfl, holds⟩ := first
  refine ⟨rfl, fun mapped => ?_⟩
  obtain ⟨a, answer, rfl⟩ := Option.map_eq_some_iff.mp mapped
  exact rest a (holds answer)

/-- A loop keeps its invariant and stays the same. -/
theorem foldlM {f g : α → β → Option α} (step : ∀ a b, P a → Alike (f a b) (g a b) P) {a : α} (start : P a)
    (items : List β) : Alike (items.foldlM f a) (items.foldlM g a) P := by
  induction items generalizing a with
  | nil => exact pure start
  | cons item rest ih => exact (step a item start).bind fun _ holds => ih holds

end Alike

end Sustemu.Lib
