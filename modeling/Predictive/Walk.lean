/-!
# Walks through finite graphs

A walk goes depth first through a graph whose nodes are numbered: the successors of a node, in their
order, come before whatever was waiting. Every node is visited once, when the walk first comes to it,
so the list of visits is the preorder of the nodes that the roots lead to.
-/

namespace Predictive
variable {n : Nat}

/-- How many nodes have no mark. -/
def unmarked (marks : Vector Bool n) : Nat := marks.toList.count false

theorem unmarked_set_lt {marks : Vector Bool n} {x : Fin n} (h : marks.get x = false) :
    unmarked (marks.set x true x.isLt) < unmarked marks := by
  have hx : (x : Nat) < marks.toList.length := by simp
  have hm : marks.toList[(x : Nat)] = false := by
    rw [← h, Vector.getElem_toList]
    rfl
  have hpos : 0 < marks.toList.count false := List.count_pos_iff.2 (hm ▸ List.getElem_mem hx)
  simp only [unmarked, Vector.toList_set]
  rw [List.count_set hx, hm]
  have : (true == false) = false := rfl
  simp only [BEq.rfl, if_true, this, Bool.false_eq_true, if_false]
  omega

/-- The nodes without a mark that those of `todo` lead to through such nodes, in the order of the
walk. -/
def walk (next : Fin n → List (Fin n)) (todo : List (Fin n)) (marks : Vector Bool n) :
    List (Fin n) :=
  match todo with
  | [] => []
  | x :: todo =>
    if h : marks.get x = true then walk next todo marks
    else
      have := unmarked_set_lt (by simpa using h)
      x :: walk next (next x ++ todo) (marks.set x true x.isLt)
termination_by (unmarked marks, todo.length)

section
variable {next : Fin n → List (Fin n)} {x : Fin n} {todo : List (Fin n)} {marks : Vector Bool n}

@[simp] theorem walk_nil : walk next [] marks = [] := by rw [walk]

theorem walk_cons_of_marked (h : marks.get x = true) :
    walk next (x :: todo) marks = walk next todo marks := by
  rw [walk, dif_pos h]

theorem walk_cons_of_unmarked (h : marks.get x = false) :
    walk next (x :: todo) marks =
      x :: walk next (next x ++ todo) (marks.set x true x.isLt) := by
  rw [walk, dif_neg (by simp [h])]

end

/-- The nodes that the roots lead to. -/
def preorder (next : Fin n → List (Fin n)) (roots : List (Fin n)) : List (Fin n) :=
  walk next roots (Vector.replicate n false)

end Predictive
