import Mathlib.Data.List.Basic

/-!
# Histories

A history is a list of events, the oldest first. A relation between the events
before an event and the event itself holds of a whole history if it holds
wherever the history is cut.
-/

set_option autoImplicit false

namespace Sustemu.Lib

section History

variable {ε : Type} {R S : List ε → ε → Prop} {log extra : List ε} {event : ε}

/-- Each event is in the relation to what happened before it. -/
def Recorded (R : List ε → ε → Prop) (log : List ε) : Prop :=
  ∀ past event future, log = past ++ event :: future → R past event

theorem recorded_nil : Recorded R [] := by
  intro past event future cut
  cases past <;> cases cut

theorem Recorded.mono (recorded : Recorded R log) (weaker : ∀ past event, R past event → S past event) :
    Recorded S log :=
  fun past event future cut => weaker past event (recorded past event future cut)

/-- Events that are in the relation to any past. -/
theorem Recorded.extend (recorded : Recorded R log) (new : ∀ past, ∀ event ∈ extra, R past event) :
    Recorded R (log ++ extra) := by
  intro past event future cut
  rcases List.append_eq_append_iff.mp cut with ⟨between, rfl, rest⟩ | ⟨between, before, rest⟩
  · refine new _ event ?_
    rw [rest]
    exact List.mem_append_right _ List.mem_cons_self
  · cases between with
    | nil =>
        refine new past event ?_
        rw [List.nil_append] at rest
        rw [← rest]
        exact List.mem_cons_self
    | cons first between =>
        obtain ⟨rfl, _⟩ := List.cons.inj rest
        exact recorded past event between before

/-- One more event. -/
theorem Recorded.concat (recorded : Recorded R log) (new : R log event) : Recorded R (log ++ [event]) := by
  intro past event' future cut
  rcases List.append_eq_append_iff.mp cut with ⟨between, rfl, rest⟩ | ⟨between, before, rest⟩
  · cases between with
    | nil =>
        obtain ⟨rfl, _⟩ := List.cons.inj rest
        rw [List.append_nil]
        exact new
    | cons first between =>
        obtain ⟨_, rest⟩ := List.cons.inj rest
        cases between <;> cases rest
  · cases between with
    | nil =>
        rw [List.append_nil] at before
        obtain ⟨rfl, _⟩ := List.cons.inj rest
        rw [← before]
        exact new
    | cons first between =>
        obtain ⟨rfl, _⟩ := List.cons.inj rest
        exact recorded past event' between before

/-- The event at a place of the history. -/
theorem Recorded.get (recorded : Recorded R log) {n : Nat} (here : log[n]? = some event) : R (log.take n) event := by
  obtain ⟨inside, rfl⟩ := List.getElem?_eq_some_iff.mp here
  refine recorded _ _ (log.drop (n + 1)) ?_
  rw [List.getElem_cons_drop, List.take_append_drop]

end History

end Sustemu.Lib
