import Mathlib.Data.List.Basic

/-!
# Merkle trees that double an odd last element

The levels and the root of a tree over a list, for any way of joining two nodes. A level of an odd
length is joined as if its last element stood there twice.
-/

namespace Merkle

variable {α : Type*} (join : α → α → α)

/-- The level above, by the last element that may have no neighbour. -/
def level : List α → List α
  | a :: b :: rest => join a b :: level rest
  | [a] => [join a a]
  | [] => []

theorem length_level : ∀ nodes : List α, (level join nodes).length = (nodes.length + 1) / 2
  | [] => by simp [level]
  | [a] => by simp [level]
  | a :: b :: rest => by
      rw [level, List.length_cons, length_level rest, List.length_cons, List.length_cons]
      omega

theorem length_level_lt {a b : α} {rest : List α} :
    (level join (a :: b :: rest)).length < (a :: b :: rest).length := by
  rw [length_level, List.length_cons, List.length_cons]
  omega

/-- The root of a tree with at least one leaf. -/
def root : List α → Option α
  | [] => none
  | [a] => some a
  | a :: b :: rest => root (level join (a :: b :: rest))
termination_by nodes => nodes.length
decreasing_by exact length_level_lt join

theorem root_singleton (a : α) : root join [a] = some a := by rw [root]

theorem root_cons_cons (a b : α) (rest : List α) :
    root join (a :: b :: rest) = root join (level join (a :: b :: rest)) := by rw [root]

/-- Neighbours joined, of an even number of nodes. -/
def pairs : List α → List α
  | a :: b :: rest => join a b :: pairs rest
  | _ => []

/-- The nodes of a level, with the last one doubled when their number is odd. -/
def doubled (nodes : List α) : List α :=
  if nodes.length % 2 ≠ 0 then nodes ++ nodes.getLast?.toList else nodes

theorem doubled_cons_cons (a b : α) (rest : List α) :
    doubled (a :: b :: rest) = a :: b :: doubled rest := by
  have hlength : (a :: b :: rest).length % 2 = rest.length % 2 := by
    rw [List.length_cons, List.length_cons]
    omega
  rw [doubled, doubled, hlength]
  split_ifs with hodd
  · cases rest with
    | nil => exact absurd rfl hodd
    | cons c rest => rfl
  · rfl

/-- Doubling an odd last element and joining neighbours gives the level above. -/
theorem pairs_doubled : ∀ nodes : List α, pairs join (doubled nodes) = level join nodes
  | [] => rfl
  | [_] => rfl
  | a :: b :: rest => by rw [doubled_cons_cons, pairs, level, pairs_doubled rest]

theorem even_length_doubled (nodes : List α) : (doubled nodes).length % 2 = 0 := by
  unfold doubled
  split_ifs with hodd
  · cases hlast : nodes.getLast? with
    | none =>
        obtain rfl := List.getLast?_eq_none_iff.mp hlast
        rfl
    | some last =>
        rw [Option.toList_some, List.length_append, List.length_singleton]
        omega
  · exact not_not.mp hodd

end Merkle
