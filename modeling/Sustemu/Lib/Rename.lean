import Sustemu.Lib.Update
import Mathlib.Data.List.Perm.Basic
import Mathlib.Data.List.FinRange
import Mathlib.Tactic.Common

/-!
# Register renaming

A rename sends a target to a fresh name and remembers the name it replaces.
Replaying pending renames over a committed map gives the current map. The names
in use are those of the committed map and the fresh names of the pending
renames; committing the oldest rename exchanges one for the other.
-/

set_option autoImplicit false

namespace Sustemu.Lib

structure Rename (ρ π : Type) where
  target : ρ
  fresh : π
  previous : π

section Maps

variable {ρ π : Type} [DecidableEq ρ]

/-- The map after a possible rename. -/
def applyRename (map : ρ → π) : Option (Rename ρ π) → ρ → π
  | none => map
  | some r => setAt map r.target r.fresh

/-- The map after a sequence of possible renames, oldest first. -/
def replay (map : ρ → π) (renames : List (Option (Rename ρ π))) : ρ → π := renames.foldl applyRename map

theorem replay_cons (map : ρ → π) (first : Option (Rename ρ π)) (rest : List (Option (Rename ρ π))) :
    replay map (first :: rest) = replay (applyRename map first) rest := rfl

theorem replay_concat (map : ρ → π) (renames : List (Option (Rename ρ π))) (last : Option (Rename ρ π)) :
    replay map (renames ++ [last]) = applyRename (replay map renames) last := by
  rw [replay, List.foldl_append]
  rfl

/-- Undoing the latest rename. -/
theorem update_applyRename_previous {map : ρ → π} {r : Rename ρ π} (before : r.previous = map r.target) :
    setAt (applyRename map (some r)) r.target r.previous = map := by
  rw [applyRename, setAt_idem, before, setAt_eq_self]

/-- A name in the current map is committed or the fresh name of a pending rename of that target. -/
theorem replay_origin (map : ρ → π) (renames : List (Option (Rename ρ π))) (target : ρ) :
    replay map renames target = map target ∨
      ∃ r, some r ∈ renames ∧ r.target = target ∧ r.fresh = replay map renames target := by
  induction renames generalizing map with
  | nil => exact .inl rfl
  | cons first rest ih =>
      rw [replay_cons]
      rcases ih (applyRename map first) with committed | ⟨r, member, sameTarget, fresh⟩
      · cases first with
        | none => exact .inl committed
        | some r =>
            by_cases same : target = r.target
            · refine .inr ⟨r, List.mem_cons_self, same.symm, ?_⟩
              rw [committed, applyRename, same, setAt_self]
            · rw [applyRename, setAt_of_ne same] at committed
              exact .inl committed
      · exact .inr ⟨r, List.mem_cons_of_mem _ member, sameTarget, fresh⟩

end Maps

section Names

variable {ρ π : Type} [DecidableEq ρ]

/-- Replacing one name of a map exchanges that name. -/
theorem cons_map_update_perm (map : ρ → π) {targets : List ρ} (unique : targets.Nodup) {target : ρ}
    (member : target ∈ targets) (name : π) :
    (map target :: targets.map (setAt map target name)).Perm (name :: targets.map map) := by
  induction targets with
  | nil => cases member
  | cons first rest ih =>
      obtain ⟨notAgain, uniqueRest⟩ := List.nodup_cons.mp unique
      by_cases same : first = target
      · subst same
        have unchanged : rest.map (setAt map first name) = rest.map map := by
          apply List.map_congr_left
          intro other inside
          rw [setAt_of_ne]
          rintro rfl
          exact notAgain inside
        rw [List.map_cons, List.map_cons, setAt_self, unchanged]
        exact List.Perm.swap _ _ _
      · have inRest : target ∈ rest := by
          rcases List.mem_cons.mp member with here | later
          · exact absurd here.symm same
          · exact later
        rw [List.map_cons, List.map_cons, setAt_of_ne same]
        have exchanged := (ih uniqueRest inRest).cons (map first)
        exact (List.Perm.swap _ _ _).trans (exchanged.trans (List.Perm.swap _ _ _))

/-- Elements that contribute the same name to a duplicate-free list of names are equal. -/
theorem eq_of_nodup_filterMap {ι : Type} {name : ι → Option π} {items : List ι} (unique : (items.filterMap name).Nodup)
    {left right : ι} (memberLeft : left ∈ items) (memberRight : right ∈ items) {shared : π}
    (nameLeft : name left = some shared) (nameRight : name right = some shared) : left = right := by
  induction items with
  | nil => cases memberLeft
  | cons first rest ih =>
      have restUnique : (rest.filterMap name).Nodup := unique.sublist ((List.sublist_cons_self first rest).filterMap name)
      have notAgain : ∀ other ∈ rest, name first = some shared → name other ≠ some shared := by
        intro other member nameFirst nameOther
        rw [List.filterMap_cons_some nameFirst] at unique
        exact (List.nodup_cons.mp unique).1 (List.mem_filterMap.mpr ⟨other, member, nameOther⟩)
      rcases List.mem_cons.mp memberLeft with rfl | laterLeft
      · rcases List.mem_cons.mp memberRight with rfl | laterRight
        · rfl
        · exact absurd nameRight (notAgain right laterRight nameLeft)
      · rcases List.mem_cons.mp memberRight with rfl | laterRight
        · exact absurd nameLeft (notAgain left laterLeft nameRight)
        · exact ih restUnique laterLeft laterRight

end Names

end Sustemu.Lib
