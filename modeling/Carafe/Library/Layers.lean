import Mathlib.Data.List.Basic

/-!
# Layers around a core

A layer takes an argument and the rest of what there is to do, which it may run any
number of times and on any argument, or not at all. Layers can be put around a core one
inside the other, or kept in a list and walked through by an index; it is the same.
-/

namespace Layers

universe u v
variable {α : Type u} {β : Type v}

abbrev Layer (α : Type u) (β : Type v) := α → (α → β) → β

/-- The first layer is the outermost. -/
def around (layers : List (Layer α β)) (core : α → β) : α → β :=
  layers.foldr (fun layer rest arg => layer arg rest) core

/-- From a position on, each layer gets the walk from the next one. -/
def walk (layers : List (Layer α β)) (core : α → β) (index : Nat) : α → β :=
  if inside : index < layers.length then
    fun arg => layers[index] arg (walk layers core (index + 1))
  else core
termination_by layers.length - index

@[simp] theorem around_nil (core : α → β) : around [] core = core := rfl

@[simp] theorem around_cons (layer : Layer α β) (layers : List (Layer α β)) (core : α → β) :
    around (layer :: layers) core = fun arg => layer arg (around layers core) := rfl

theorem around_append (front back : List (Layer α β)) (core : α → β) :
    around (front ++ back) core = around front (around back core) :=
  List.foldr_append

/-- The walk from a position on is what the layers from there make of the core. -/
theorem walk_eq (layers : List (Layer α β)) (core : α → β) (index : Nat) :
    walk layers core index = around (layers.drop index) core := by
  generalize hleft : layers.length - index = left
  induction left generalizing index with
  | zero =>
    have hpast : ¬ index < layers.length := by omega
    rw [walk, dif_neg hpast, List.drop_eq_nil_of_le (by omega), around_nil]
  | succ left ih =>
    have hlt : index < layers.length := by omega
    have hrest := ih (index + 1) (by omega)
    rw [walk, dif_pos hlt, List.drop_eq_getElem_cons hlt, around_cons, hrest]

/-- The layer that hands on what it gets. -/
def pass : Layer α β := fun arg rest => rest arg

theorem around_pass (front back : List (Layer α β)) (core : α → β) :
    around (front ++ pass :: back) core = around (front ++ back) core := by
  rw [around_append, around_append]
  rfl

/-- The layer that answers some arguments itself and hands on the others. -/
def guard (blocked : α → Bool) (refuse : α → β) : Layer α β := fun arg rest =>
  if blocked arg then refuse arg else rest arg

/-- What stands behind a guard is asked nothing that is blocked. -/
theorem around_guard (blocked : α → Bool) (refuse : α → β) (front back : List (Layer α β))
    (core : α → β) : around (front ++ guard blocked refuse :: back) core =
      around front fun arg => if blocked arg then refuse arg else around back core arg := by
  rw [around_append]
  rfl

end Layers
