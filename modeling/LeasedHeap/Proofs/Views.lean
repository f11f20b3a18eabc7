import LeasedHeap.Tree
import LeasedHeap.Proofs.History

/-
  What can be seen through a handle.

  A sight is a value unfolded with the payload and the code
  of every node.  What is seen depends on nothing but the
  objects that can be reached, and not on how often codes
  ran; in a sound heap it shows every item.

  Main declarations:
    * `Sight` and `Heap.sight`
    * `View` and `Heap.view`
    * `Heap.Exact.items_eq`
    * `Heap.view_eq`
-/

namespace LeasedHeap

------------------------------------------------------------
-- Sights and Views
------------------------------------------------------------

/- An unfolded value, with the objects it is made of. -/
inductive Sight where
| integer : Int64 → Sight
| list : ObjectId → List Sight → Sight
| closure : Closure → List Sight → Sight

/- What can be seen through a handle. -/
inductive View where
| value : Sight → View
| numbers : ObjectId → Lease → Width → Array UInt64 → View
| slots : ObjectId → Lease → List Sight → View
| code : ObjectId → List Sight → View
/- The handle refers to no array. -/
| nothing : View

namespace Heap

variable {κ : Type}

/- Unfold a value. -/
def sight
    (h : Heap κ) : Value → Sight
  | .integer i => .integer i
  | .list p =>
      .list p
        ((h.items (.list p)).attach.map
          (fun w => h.sight w.1))
  | .closure c =>
      .closure c
        ((h.items (.closure c)).attach.map
          (fun w => h.sight w.1))
termination_by v => v.rank
decreasing_by all_goals exact rank_lt_of_mem_items w.2

/- What a reference shows. -/
def view
    (h : Heap κ) : Ref → View
| .value v => .value (h.sight v)
| .array p =>
    match h.payload? p with
    | some ⟨lease, .numbers width ns⟩ =>
        .numbers p lease width ns
    | some ⟨lease, .slots vs⟩ =>
        .slots p lease (vs.map h.sight)
    | _ => .nothing
| .code q => .code q ((h.values q).map h.sight)

theorem sight_integer
    (h : Heap κ)
    (i : Int64) :
    h.sight (.integer i) = .integer i := by
  rw [sight]

theorem sight_list
    (h : Heap κ)
    (p : ObjectId) :
    h.sight (.list p) =
      .list p ((h.items (.list p)).map h.sight) := by
  rw [sight]
  simp

theorem sight_closure
    (h : Heap κ)
    (c : Closure) :
    h.sight (.closure c) =
      .closure c ((h.items (.closure c)).map h.sight) := by
  rw [sight]
  simp

------------------------------------------------------------
-- Nothing Is Hidden
------------------------------------------------------------

variable {h h' : Heap κ}
variable {outer : ObjectId → Nat}

/- A value is as old as its payload. -/
theorem rank_le_of_objects
    {v : Value}
    {p : Nat}
    (hOlder : ∀ j : Nat, j ∈ v.objects → j < p) :
    v.rank ≤ p := by
  cases v with
  | integer i => exact Nat.zero_le _
  | list q => exact hOlder q (by simp [Value.objects])
  | closure c =>
      exact hOlder c.environment (by simp [Value.objects])

/-
  The items of a value that is there are all the values of
  its payload.
-/
theorem Exact.items_eq
    (hExact : h.Exact outer)
    {v : Value}
    (hAdmits : h.admits v)
    {p : ObjectId}
    (hv : v.payload? = some p) :
    h.items v = h.values p := by
  have hRank : v.rank = p + 1 := by
    cases v <;> simp_all [Value.payload?, Value.rank]
  have hLink : (p, Kind.elements) ∈ v.links := by
    cases v <;> simp_all [Value.payload?, Value.links]
  rcases kind?_eq_some_iff.mp
      (admits_iff.mp hAdmits _ hLink) with
    ⟨o, hGet, hKind⟩
  unfold items
  rw [hv]
  simp only
  rw [List.filter_eq_self]
  intro w hw
  rw [decide_eq_true_iff, hRank]
  apply Nat.lt_succ_of_le
  apply rank_le_of_objects
  intro j hj
  apply hExact.older p o hGet
  · simp [hKind]
  · unfold values at hw
    rw [hGet] at hw
    rw [Cell.objects_eq]
    exact
      List.mem_append_left _
        (List.mem_flatMap.mpr ⟨w, hw, hj⟩)

------------------------------------------------------------
-- What a View Depends On
------------------------------------------------------------

/- Objects of a heap are in another, but for their runs. -/
def Still
    (h h' : Heap κ)
    (i : ObjectId) : Prop :=
  ∃ o o', h.objects.get? i = some o ∧
    h'.objects.get? i = some o' ∧
      o'.cell.still = o.cell.still

theorem Still.trans
    {h'' : Heap κ}
    {i : ObjectId}
    (hFirst : h.Still h' i)
    (hSecond : h'.Still h'' i) :
    h.Still h'' i := by
  rcases hFirst with ⟨o, o', hGet, hGet', hSame⟩
  rcases hSecond with ⟨p, p', hGetP, hGetP', hSameP⟩
  rw [hGet'] at hGetP
  cases hGetP
  exact ⟨o, p', hGet, hGetP', hSameP.trans hSame⟩

/- What is reached stays so if all that is reached stays. -/
theorem reaches_of_still
    {roots : ObjectId → Prop}
    (hStill : ∀ i, h.Reaches roots i → h.Still h' i)
    {i : ObjectId}
    (hReach : h.Reaches roots i) :
    h'.Reaches roots i := by
  apply hReach.of_cells
  intro j o hReachJ hGet
  rcases hStill j hReachJ with ⟨p, o', hGetP, hGet', hSame⟩
  rw [hGet] at hGetP
  cases hGetP
  refine ⟨o', hGet', ?_⟩
  rw [← Cell.objects_still, hSame, Cell.objects_still]

theorem Still.values_eq
    {i : ObjectId}
    (hStill : h.Still h' i) :
    h'.values i = h.values i := by
  rcases hStill with ⟨o, o', hGet, hGet', hSame⟩
  unfold values
  rw [hGet, hGet']
  simp only
  rw [← Cell.values_still, hSame, Cell.values_still]

theorem Still.payload?_eq
    {i : ObjectId}
    (hStill : h.Still h' i) :
    h'.payload? i = h.payload? i := by
  rcases hStill with
    ⟨⟨n, cell⟩, ⟨n', cell'⟩, hGet, hGet', hSame⟩
  unfold payload?
  rw [hGet, hGet']
  cases cell with
  | payload payload =>
      cases cell' with
      | payload payload' =>
          exact congrArg some (Cell.payload.inj hSame)
      | code c => cases hSame
  | code c =>
      cases cell' with
      | payload payload => cases hSame
      | code c' => rfl

/- What a value that is reached holds is reached. -/
private theorem reaches_of_item
    {roots : ObjectId → Prop}
    (hStill : ∀ i, h.Reaches roots i → h.Still h' i)
    {v w : Value}
    (hRoots : ∀ i ∈ v.objects, h.Reaches roots i)
    (hItem : w ∈ h.items v) :
    ∀ i ∈ w.objects, h.Reaches roots i := by
  intro i hi
  unfold items at hItem
  split at hItem
  · cases hItem
  · rename_i p hp
    have hReach :=
      hRoots p (Value.mem_objects_of_payload? hp)
    rcases hStill p hReach with ⟨o, _, hGet, _⟩
    have hw := (List.mem_filter.mp hItem).1
    unfold values at hw
    rw [hGet] at hw
    refine .link hReach hGet ?_
    rw [Cell.objects_eq]
    exact
      List.mem_append_left _
        (List.mem_flatMap.mpr ⟨w, hw, hi⟩)

/- Items are the same where what is reached stays. -/
private theorem items_eq_of_still
    {roots : ObjectId → Prop}
    (hStill : ∀ i, h.Reaches roots i → h.Still h' i)
    {v : Value}
    (hRoots : ∀ i ∈ v.objects, h.Reaches roots i) :
    h'.items v = h.items v := by
  unfold items
  split
  · rfl
  · rename_i p hp
    have hReach :=
      hRoots p (Value.mem_objects_of_payload? hp)
    rw [(hStill p hReach).values_eq]

/-
  A value looks the same if all that it reaches stays.  The
  induction is on the age of the value.
-/
theorem sight_eq
    {roots : ObjectId → Prop}
    (hStill : ∀ i, h.Reaches roots i → h.Still h' i)
    {v : Value}
    (hRoots : ∀ i ∈ v.objects, h.Reaches roots i) :
    h'.sight v = h.sight v := by
  induction hRank : v.rank
    using Nat.strong_induction_on generalizing v with
  | _ rank ih =>
      have hItems := items_eq_of_still hStill hRoots
      have hSights :
          (h.items v).map h'.sight =
            (h.items v).map h.sight := by
        apply List.map_congr_left
        intro w hw
        have hLt : w.rank < rank :=
          hRank ▸ rank_lt_of_mem_items hw
        exact
          ih w.rank hLt (reaches_of_item hStill hRoots hw)
            rfl
      cases v with
      | integer i => rw [sight_integer, sight_integer]
      | list p =>
          rw [sight_list, sight_list, hItems, hSights]
      | closure c =>
          rw [sight_closure, sight_closure, hItems, hSights]

/- What an object that is reached holds looks the same. -/
private theorem map_sight_eq
    {roots : ObjectId → Prop}
    (hStill : ∀ i, h.Reaches roots i → h.Still h' i)
    {p : ObjectId}
    (hReach : h.Reaches roots p) :
    (h.values p).map h'.sight = (h.values p).map h.sight := by
  rcases hStill p hReach with ⟨o, _, hGet, _⟩
  apply List.map_congr_left
  intro w hw
  apply sight_eq hStill
  intro j hj
  unfold values at hw
  rw [hGet] at hw
  refine .link hReach hGet ?_
  rw [Cell.objects_eq]
  exact
    List.mem_append_left _
      (List.mem_flatMap.mpr ⟨w, hw, hj⟩)

/- A handle shows the same if all that it reaches stays. -/
theorem view_eq
    {r : Ref}
    (hStill :
      ∀ i, h.Reaches (· ∈ r.objects) i → h.Still h' i) :
    h'.view r = h.view r := by
  cases r with
  | value v =>
      have hSight : h'.sight v = h.sight v := by
        apply sight_eq hStill
        intro i hi
        refine .root ?_
        rw [Ref.objects, Ref.links, ← Value.objects_eq]
        exact hi
      simp only [view, hSight]
  | array p =>
      have hReach :
          h.Reaches (· ∈ (Ref.array p).objects) p :=
        .root (by simp [Ref.objects, Ref.links])
      have hSlots := map_sight_eq hStill hReach
      have hPayload := (hStill p hReach).payload?_eq
      simp only [view, hPayload]
      cases hp : h.payload? p with
      | none => rfl
      | some payload =>
          rcases payload with ⟨lease, contents⟩
          cases contents with
          | numbers width ns => rfl
          | elements vs => rfl
          | slots vs =>
              have hValues : h.values p = vs := by
                rcases payload?_eq_some_iff.mp hp with
                  ⟨n, hGet⟩
                unfold values
                rw [hGet]
                rfl
              rw [hValues] at hSlots
              simp only [hSlots]
  | code q =>
      have hReach :
          h.Reaches (· ∈ (Ref.code q).objects) q :=
        .root (by simp [Ref.objects, Ref.links])
      simp only [view, (hStill q hReach).values_eq,
        map_sight_eq hStill hReach]

end Heap

end LeasedHeap
