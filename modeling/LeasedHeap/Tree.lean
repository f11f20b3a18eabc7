import LeasedHeap.Heap

/-
  Values unfolded into trees.

  A tree is what a value says, without a word on payloads:
  two values of one heap may share their payloads or not and
  still unfold into one tree.

  Key definitions include:
    * `Tree`
    * `Heap.items`
    * `Heap.tree`

  Unfolding is given by:
    * `Heap.tree_integer`
    * `Heap.tree_list`
    * `Heap.tree_closure`
-/

namespace LeasedHeap

------------------------------------------------------------
-- Trees
------------------------------------------------------------

/- An unfolded value. -/
inductive Tree where
| integer : Int64 → Tree
| list : List Tree → Tree
| closure : List Tree → ObjectId → Tree

namespace Tree

mutual

/- One for each node and one for each item of a node. -/
def size : Tree → Nat
| .integer _ => 1
| .list ts => 1 + sizes ts
| .closure ts _ => 1 + sizes ts

/- The sizes of the items of a node, and one for each. -/
def sizes : List Tree → Nat
| [] => 0
| t :: ts => t.size + 1 + sizes ts

end

end Tree

------------------------------------------------------------
-- Unfolding
------------------------------------------------------------

namespace Heap

variable {κ : Type}

/-
  The items of a value.  Payloads are filled when they are
  made, so an item is older than the value that holds it; an
  item that were not would not be counted as one.
-/
def items
    (h : Heap κ)
    (v : Value) : List Value :=
  match v.payload? with
  | none => []
  | some p =>
      (h.values p).filter
        (fun w => decide (w.rank < v.rank))

/- Items are older. -/
theorem rank_lt_of_mem_items
    {h : Heap κ}
    {v w : Value}
    (hw : w ∈ h.items v) :
    w.rank < v.rank := by
  unfold items at hw
  split at hw
  · simp at hw
  · simpa using (List.mem_filter.mp hw).2

/- Unfold a value. -/
def tree
    (h : Heap κ) : Value → Tree
  | .integer i => .integer i
  | .list p =>
      .list ((h.items (.list p)).attach.map
        (fun w => h.tree w.1))
  | .closure c =>
      .closure
        ((h.items (.closure c)).attach.map
          (fun w => h.tree w.1))
        c.code
termination_by v => v.rank
decreasing_by all_goals exact rank_lt_of_mem_items w.2

@[simp]
theorem tree_integer
    (h : Heap κ)
    (i : Int64) :
    h.tree (.integer i) = .integer i := by
  rw [tree]

theorem tree_list
    (h : Heap κ)
    (p : ObjectId) :
    h.tree (.list p) =
      .list ((h.items (.list p)).map h.tree) := by
  rw [tree]
  simp

theorem tree_closure
    (h : Heap κ)
    (c : Closure) :
    h.tree (.closure c) =
      .closure ((h.items (.closure c)).map h.tree)
        c.code := by
  rw [tree]
  simp

/- The size of a value, unfolded. -/
def size
    (h : Heap κ)
    (v : Value) : Nat :=
  (h.tree v).size

/- The sizes of some items, and one for each. -/
def sizes
    (h : Heap κ)
    (vs : List Value) : Nat :=
  Tree.sizes (vs.map h.tree)

@[simp]
theorem sizes_nil
    (h : Heap κ) :
    h.sizes [] = 0 := by
  simp [sizes, Tree.sizes]

@[simp]
theorem sizes_cons
    (h : Heap κ)
    (v : Value)
    (vs : List Value) :
    h.sizes (v :: vs) = h.size v + 1 + h.sizes vs := by
  simp [sizes, size, Tree.sizes]

/- Sizes of lists of values add up. -/
@[simp]
theorem sizes_append
    (h : Heap κ)
    (vs ws : List Value) :
    h.sizes (vs ++ ws) = h.sizes vs + h.sizes ws := by
  induction vs with
  | nil => simp
  | cons v vs ih =>
      simp [ih]
      omega

/- A value is one more than its items. -/
theorem size_eq
    (h : Heap κ)
    (v : Value) :
    h.size v = 1 + h.sizes (h.items v) := by
  unfold size sizes
  cases v with
  | integer i =>
      simp [items, Value.payload?, Tree.size, Tree.sizes]
  | list p => rw [tree_list, Tree.size]
  | closure c => rw [tree_closure, Tree.size]

end Heap

end LeasedHeap
