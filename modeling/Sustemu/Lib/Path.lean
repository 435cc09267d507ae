import Mathlib.Data.List.Basic

/-!
# Linked lists of keys

A list of instructions in program order is described by the key of each element
and by what links an element to the key that follows it. `Linked` says that
every element is linked to its successor, and `Tracks` that as long as the keys
are the expected ones the elements are good.
-/

set_option autoImplicit false

namespace Sustemu.Lib

section Path

variable {α κ : Type} (key : α → κ)

/-- The key a list starts with; an empty list starts with `last`. -/
def leading : List α → κ → κ
  | [], last => last
  | x :: _, _ => key x

/-- Every element is linked to the key that follows it, the final one to `last`. -/
def Linked (link : α → κ → Prop) : List α → κ → Prop
  | [], _ => True
  | x :: rest, last => link x (leading key rest last) ∧ Linked link rest last

variable {key}

theorem leading_append (older newer : List α) (last : κ) :
    leading key (older ++ newer) last = leading key older (leading key newer last) := by
  cases older with
  | nil => rfl
  | cons x rest => rfl

theorem linked_append {link : α → κ → Prop} (older newer : List α) (last : κ) :
    Linked key link (older ++ newer) last ↔
      Linked key link older (leading key newer last) ∧ Linked key link newer last := by
  induction older with
  | nil => simp [Linked]
  | cons x rest ih =>
      rw [List.cons_append, Linked, Linked, ih, leading_append, and_assoc]

theorem Linked.last {link : α → κ → Prop} {path : List α} {last last' : κ} (linked : Linked key link path last)
    (moves : ∀ x, link x last → link x last') : Linked key link path last' := by
  induction path with
  | nil => trivial
  | cons x rest ih =>
      refine ⟨?_, ih linked.2⟩
      cases rest with
      | nil => exact moves x linked.1
      | cons y rest => exact linked.1

/-- Replacing an element by one with the same key. -/
theorem Linked.replace {link : α → κ → Prop} {older newer : List α} {x y : α} {last : κ}
    (linked : Linked key link (older ++ x :: newer) last) (same : key y = key x)
    (keeps : ∀ next, link x next → link y next) : Linked key link (older ++ y :: newer) last := by
  obtain ⟨before, here, after⟩ := (linked_append older (x :: newer) last).mp linked
  apply (linked_append older (y :: newer) last).mpr
  refine ⟨?_, keeps _ here, after⟩
  rw [leading, same]
  exact before

/-- Cutting a list after an element that is replaced by one with the same key. -/
theorem Linked.cut {link : α → κ → Prop} {older newer : List α} {x y : α} {last last' : κ}
    (linked : Linked key link (older ++ x :: newer) last) (same : key y = key x) (here : link y last') :
    Linked key link (older ++ [y]) last' := by
  obtain ⟨before, _⟩ := (linked_append older (x :: newer) last).mp linked
  apply (linked_append older [y] last').mpr
  refine ⟨?_, here, trivial⟩
  rw [leading, same]
  exact before

theorem leading_replace {older newer newer' : List α} {x y : α} {last last' : κ} (same : key y = key x) :
    leading key (older ++ y :: newer') last' = leading key (older ++ x :: newer) last := by
  rw [leading_append, leading_append, leading, leading, same]

end Path

/-! ## Speculation -/

section Speculation

variable {α κ : Type} (key : α → κ) (expected : Nat → κ)

/-- All keys are the expected ones, counting from `n`. -/
def Matches : Nat → List α → Prop
  | _, [] => True
  | n, x :: rest => key x = expected n ∧ Matches (n + 1) rest

/-- As far as the keys are the expected ones, counting from `n`, the elements are good. -/
def Tracks (good : Nat → α → Prop) : Nat → List α → Prop
  | _, [] => True
  | n, x :: rest => key x = expected n → good n x ∧ Tracks good (n + 1) rest

variable {key expected} {good : Nat → α → Prop}

theorem tracks_append (n : Nat) (older newer : List α) :
    Tracks key expected good n (older ++ newer) ↔ Tracks key expected good n older ∧
      (Matches key expected n older → Tracks key expected good (n + older.length) newer) := by
  induction older generalizing n with
  | nil => simp [Tracks, Matches]
  | cons x rest ih =>
      simp only [List.cons_append, Tracks, Matches, ih, List.length_cons]
      rw [show n + 1 + rest.length = n + (rest.length + 1) by omega]
      constructor
      · intro all
        exact ⟨fun here => ⟨(all here).1, (all here).2.1⟩, fun both => (all both.1).2.2 both.2⟩
      · intro both here
        exact ⟨(both.1 here).1, (both.1 here).2, fun rest => both.2 ⟨here, rest⟩⟩

/-- A path matches if each of its elements does. -/
theorem matches_of_get {n : Nat} {path : List α}
    (same : ∀ position x, path[position]? = some x → key x = expected (n + position)) : Matches key expected n path := by
  induction path generalizing n with
  | nil => trivial
  | cons x rest ih =>
      refine ⟨same 0 x rfl, ih fun position y found => ?_⟩
      rw [same (position + 1) y found, Nat.add_assoc, Nat.add_comm 1]

/-- On the expected path every element is good. -/
theorem Tracks.get {n : Nat} {path : List α} (tracks : Tracks key expected good n path)
    (same : Matches key expected n path) {position : Nat} {x : α} (found : path[position]? = some x) :
    good (n + position) x := by
  induction path generalizing n position with
  | nil => cases found
  | cons y rest ih =>
      obtain ⟨here, later⟩ := tracks same.1
      cases position with
      | zero =>
          cases found
          exact here
      | succ position =>
          have later := ih later same.2 found
          rwa [show n + 1 + position = n + (position + 1) by omega] at later

/-- Replacing an element by one with the same key and everything after it by a shorter tail. -/
theorem Tracks.replace {n : Nat} {older newer : List α} {x y : α}
    (tracks : Tracks key expected good n (older ++ x :: newer)) (same : key y = key x)
    (keeps : Tracks key expected good n older → Matches key expected n older → key x = expected (n + older.length) →
      good (n + older.length) x → good (n + older.length) y) :
    Tracks key expected good n (older ++ y :: newer) ∧ Tracks key expected good n (older ++ [y]) := by
  obtain ⟨before, after⟩ := (tracks_append n older (x :: newer)).mp tracks
  constructor
  · refine (tracks_append n older (y :: newer)).mpr ⟨before, fun reached here => ?_⟩
    rw [same] at here
    obtain ⟨found, later⟩ := after reached here
    exact ⟨keeps before reached here found, later⟩
  · refine (tracks_append n older [y]).mpr ⟨before, fun reached here => ?_⟩
    rw [same] at here
    exact ⟨keeps before reached here (after reached here).1, trivial⟩

end Speculation

end Sustemu.Lib
