import LeasedHeap.Tree

/-
  Equality of values.

  Integers are compared by value, lists by their items, and
  closures by their code and their items.  Two values of one
  kind with one payload are equal without a look at it, which
  is what makes values with much sharing cheap to compare.
  Pairs that remain to be compared are kept in a list, so
  the nesting may be as deep as it likes.

  Key definitions include:
    * `Heap.equalAll`
    * `Heap.equal`
    * `Heap.equalItems`
-/

namespace LeasedHeap

namespace Heap

variable {κ : Type}

/- The work of comparing some pairs. -/
def pairSizes
    (h : Heap κ)
    (pairs : List (Value × Value)) : Nat :=
  h.sizes (pairs.map Prod.fst)

/- Pairing items up adds nothing. -/
private theorem sizes_zip_le
    (h : Heap κ)
    (vs ws : List Value) :
    h.sizes ((vs.zip ws).map Prod.fst) ≤ h.sizes vs := by
  induction vs generalizing ws with
  | nil => simp
  | cons v vs ih =>
      cases ws with
      | nil => simp
      | cons w ws =>
          have := ih ws
          simp
          omega

/- The items of a pair weigh less than the pair. -/
private theorem pairSizes_items_lt
    (h : Heap κ)
    (v w : Value)
    (rest : List (Value × Value)) :
    h.pairSizes ((h.items v).zip (h.items w) ++ rest) <
      h.pairSizes ((v, w) :: rest) := by
  have hZip := sizes_zip_le h (h.items v) (h.items w)
  have hSize := size_eq h v
  simp [pairSizes, sizes_append]
  omega

/- Dropping a pair leaves less to compare. -/
private theorem pairSizes_rest_lt
    (h : Heap κ)
    (pair : Value × Value)
    (rest : List (Value × Value)) :
    h.pairSizes rest < h.pairSizes (pair :: rest) := by
  simp [pairSizes]

/- All pairs are equal. -/
def equalAll
    (h : Heap κ)
    (pairs : List (Value × Value)) : Bool :=
  match pairs with
  | [] => true
  | (.integer i, .integer j) :: rest =>
      if i = j then h.equalAll rest else false
  | (.list p, .list q) :: rest =>
      if p = q then
        h.equalAll rest
      else if (h.items (.list p)).length =
          (h.items (.list q)).length then
        h.equalAll
          ((h.items (.list p)).zip (h.items (.list q)) ++ rest)
      else
        false
  | (.closure c, .closure d) :: rest =>
      if c.code = d.code then
        if c.environment = d.environment then
          h.equalAll rest
        else if (h.items (.closure c)).length =
            (h.items (.closure d)).length then
          h.equalAll
            ((h.items (.closure c)).zip
              (h.items (.closure d)) ++ rest)
        else
          false
      else
        false
  | _ => false
termination_by h.pairSizes pairs
decreasing_by
  all_goals
    first
    | exact pairSizes_items_lt h _ _ rest
    | exact pairSizes_rest_lt h _ rest

/- Two values are equal. -/
def equal
    (h : Heap κ)
    (v w : Value) : Bool :=
  h.equalAll [(v, w)]

/- Two sequences are equal: as long, and item by item. -/
def equalItems
    (h : Heap κ)
    (vs ws : List Value) : Bool :=
  if vs.length = ws.length then
    h.equalAll (vs.zip ws)
  else
    false

end Heap

end LeasedHeap
