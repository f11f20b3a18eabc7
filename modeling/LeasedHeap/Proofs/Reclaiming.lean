import LeasedHeap.Proofs.Reach
import LeasedHeap.Proofs.Waning

/-
  Equations of reclaiming.

  Frames are given up one after another, so a list of frames
  can be cut anywhere, and the items pending in an activation
  can be given to activations of their own.  Each kind of
  frame then has one equation for an object that others hold
  as well and one for an object that goes.

  Main declarations:
    * `Heap.reclaim_append`
    * `Heap.reclaim_activation`
    * `Heap.reclaim_value_last`
    * `Heap.reclaim_visit_last`
-/

namespace LeasedHeap

------------------------------------------------------------
-- Visits
------------------------------------------------------------

/- A pending item in an activation of its own. -/
def Frame.visit (w : Value) : Frame :=
  .activation (.integer 0) [w]

/- Nothing is left to take out of a payload taken apart. -/
@[simp]
theorem Contents.pending_blank
    (contents : Contents) :
    (contents.mapValues Value.blank).pending = [] := by
  have hBlank :
      ∀ v : Value, v.blank.isNested = false := by
    intro v
    cases v <;> rfl
  cases contents <;>
    simp [pending, values, mapValues, List.filter_map,
      Function.comp_def, hBlank]

/- A payload taken apart has nothing to drop but its lease. -/
theorem Cell.dropFrames_blank
    {κ : Type}
    (lease : Lease)
    (contents : Contents) :
    (Cell.payload
        ⟨lease, contents.mapValues Value.blank⟩ :
          Cell κ).dropFrames = [.lease lease] := by
  have hPending := Contents.pending_blank contents
  unfold Contents.pending at hPending
  rw [List.reverse_eq_nil_iff] at hPending
  simp [dropFrames, hPending]

/- First the handle of the payload, then the one of the code. -/
theorem Value.handleFrames_eq
    {v : Value}
    {p : ObjectId}
    (hv : v.payload? = some p) :
    v.handleFrames =
      .handle p :: v.code?.toList.map .handle := by
  cases v with
  | integer i => cases hv
  | list q =>
      cases hv
      rfl
  | closure c =>
      cases hv
      rfl

namespace Heap

variable {κ : Type}
variable {h : Heap κ}

------------------------------------------------------------
-- What Happens to Objects
------------------------------------------------------------

/- A payload that goes might as well be taken apart. -/
@[simp]
theorem free_emptied
    (h : Heap κ)
    (p : ObjectId)
    (l lease : Lease)
    (contents : Contents) :
    (h.emptied p lease contents).free p l = h.free p l := by
  unfold free discard emptied
  rw [Table.erase_set]

/- A payload that was taken apart. -/
theorem get?_emptied
    {p : ObjectId}
    {o : Object κ}
    (hGet : h.objects.get? p = some o)
    (lease : Lease)
    (contents : Contents) :
    (h.emptied p lease contents).objects.get? p =
      some ⟨1, .payload
        ⟨lease, contents.mapValues Value.blank⟩⟩ := by
  simp [emptied, Table.get?_set,
    Table.lt_issued_of_get? hGet]

------------------------------------------------------------
-- One Frame after Another
------------------------------------------------------------

@[simp]
theorem reclaim_nil
    (h : Heap κ) :
    h.reclaim [] = h := by
  rw [reclaim]

theorem reclaim_cons
    (h : Heap κ)
    (f : Frame)
    (fs : List Frame) :
    h.reclaim (f :: fs) =
      (h.step f).2.reclaim ((h.step f).1 ++ fs) := by
  rw [reclaim]

/- First some frames are given up, and then the others. -/
theorem reclaim_append
    (h : Heap κ)
    (fs gs : List Frame) :
    h.reclaim (fs ++ gs) = (h.reclaim fs).reclaim gs := by
  induction h, fs using Heap.reclaim.induct with
  | case1 h => rw [List.nil_append, reclaim_nil]
  | case2 h f fs next ih =>
      rw [List.cons_append, reclaim_cons, reclaim_cons,
        ← List.append_assoc]
      exact ih

/- Giving up frames leaves no more work than they were. -/
theorem load_reclaim_le
    (h : Heap κ)
    (fs gs : List Frame) :
    (h.reclaim fs).load gs ≤ h.load (fs ++ gs) := by
  induction h, fs using Heap.reclaim.induct with
  | case1 h => rw [List.nil_append, reclaim_nil]
  | case2 h f fs next ih =>
      rw [reclaim_cons, List.cons_append]
      rw [List.append_assoc] at ih
      exact
        Nat.le_trans ih
          (Nat.le_of_lt (load_step_lt h f (fs ++ gs)))

/- Objects do not get more to start. -/
theorem Wanes.load_le
    {h' : Heap κ}
    (hWanes : h.Wanes h') :
    h'.objects.total Object.load ≤
      h.objects.total Object.load := by
  apply hWanes.total_le
  rintro ⟨n, cell⟩ ⟨n', cell'⟩ _ hFades
  cases hFades with
  | same => exact Nat.le_refl _
  | blank lease contents =>
      have hPending := Contents.pending_blank contents
      unfold Contents.pending at hPending
      rw [List.reverse_eq_nil_iff] at hPending
      simp [Object.load, Cell.nested, Cell.values,
        Cell.codes, hPending]

------------------------------------------------------------
-- Handles and Leases
------------------------------------------------------------

theorem reclaim_handle_shared
    {i : ObjectId}
    (hShared : 2 ≤ h.handles i)
    (fs : List Frame) :
    h.reclaim (.handle i :: fs) =
      (h.uncount i).reclaim fs := by
  rw [reclaim_cons]
  simp only [Heap.step, release_shared hShared,
    List.nil_append]

theorem reclaim_handle_last
    {i : ObjectId}
    {cell : Cell κ}
    (hGet : h.objects.get? i = some ⟨1, cell⟩)
    (fs : List Frame) :
    h.reclaim (.handle i :: fs) =
      (h.discard i).reclaim (cell.dropFrames ++ fs) := by
  rw [reclaim_cons]
  simp only [Heap.step, release_last hGet]

/- A payload taken apart goes and returns its lease. -/
theorem reclaim_handle_blank
    {p : ObjectId}
    {lease : Lease}
    {contents : Contents}
    (hGet :
      h.objects.get? p =
        some ⟨1, .payload
          ⟨lease, contents.mapValues Value.blank⟩⟩)
    (fs : List Frame) :
    h.reclaim (.handle p :: fs) =
      (h.free p lease).reclaim fs := by
  rw [reclaim_handle_last hGet, Cell.dropFrames_blank,
    List.singleton_append, reclaim_cons]
  rfl

------------------------------------------------------------
-- Activations
------------------------------------------------------------

/-
  The items pending in an activation are given up as if the
  first ones had one of their own.  The induction is on the
  work in the first ones: giving up an item may put others
  before the rest of them.
-/
private theorem reclaim_activation_append
    (h : Heap κ)
    (v : Value)
    (ws pending : List Value) :
    h.reclaim [.activation v (ws ++ pending)] =
      (h.reclaim [.activation (.integer 0) ws]).reclaim
        [.activation v pending] := by
  induction hLoad :
      h.load [.activation (.integer 0) ws]
    using Nat.strong_induction_on generalizing h ws with
  | _ load ih =>
      subst hLoad
      cases ws with
      | nil =>
          have hNil :
              h.reclaim [.activation (.integer 0) []] =
                h := by
            rw [reclaim_cons]
            simp [Heap.step, Value.handleFrames]
          rw [hNil, List.nil_append]
      | cons w ws =>
          have hLt :=
            load_step_lt h
              (.activation (.integer 0) (w :: ws)) []
          rw [List.cons_append, reclaim_cons,
            reclaim_cons h]
          cases hw : w.payload? with
          | none =>
              simp only [Heap.step, hw, List.append_nil]
                at hLt ⊢
              exact ih _ hLt h ws rfl
          | some p =>
              simp only [Heap.step, hw, List.append_nil]
                at hLt ⊢
              have hLe :=
                load_reclaim_le (h.take p).2 [.value w]
                  [.activation (.integer 0)
                    ((h.take p).1 ++ ws)]
              rw [← List.singleton_append, reclaim_append,
                ← List.append_assoc]
              rw [← List.singleton_append
                  (x := Frame.value w)
                  (l := [.activation (.integer 0)
                    ((h.take p).1 ++ ws)]),
                reclaim_append _ [.value w]]
              exact
                ih _ (Nat.lt_of_le_of_lt hLe hLt) _ _ rfl

/-
  An activation gives up its pending items one by one, and
  then the handles of its value.
-/
theorem reclaim_activation
    (h : Heap κ)
    (v : Value)
    (ws : List Value)
    (fs : List Frame) :
    h.reclaim (.activation v ws :: fs) =
      h.reclaim
        (ws.map Frame.visit ++ (v.handleFrames ++ fs)) := by
  rw [← List.singleton_append, reclaim_append]
  induction ws generalizing h with
  | nil =>
      rw [reclaim_cons]
      simp only [Heap.step, List.append_nil, List.map_nil,
        List.nil_append, reclaim_append]
  | cons w ws ih =>
      have hFirst :=
        reclaim_activation_append h v [w] ws
      rw [List.singleton_append] at hFirst
      rw [hFirst, ih, List.map_cons, List.cons_append,
        ← List.singleton_append (x := Frame.visit w),
        reclaim_append h [Frame.visit w]]
      rfl

------------------------------------------------------------
-- Values
------------------------------------------------------------

variable {v : Value}
variable {p : ObjectId}
variable {lease : Lease}
variable {contents : Contents}

/- An integer has nothing to give up. -/
theorem reclaim_value_integer
    (hv : v.payload? = none)
    (fs : List Frame) :
    h.reclaim (.value v :: fs) = h.reclaim fs := by
  rw [reclaim_cons]
  simp only [Heap.step, hv, List.nil_append]

/- A value whose payload is shared loses its handles. -/
theorem reclaim_value_shared
    (hv : v.payload? = some p)
    (hShared : 2 ≤ h.handles p)
    (fs : List Frame) :
    h.reclaim (.value v :: fs) =
      (h.uncount p).reclaim
        (v.code?.toList.map .handle ++ fs) := by
  have hTake : h.take p = ([], h) :=
    take_eq_of_handles (Nat.ne_of_gt hShared)
  rw [reclaim_cons]
  simp only [Heap.step, hv, hTake, List.singleton_append]
  rw [reclaim_activation, List.map_nil, List.nil_append,
    Value.handleFrames_eq hv, List.cons_append,
    reclaim_handle_shared hShared]

/-
  The last value of a payload has its nested items taken out
  and given up before its own handles.
-/
theorem reclaim_value_last
    (hv : v.payload? = some p)
    (hGet :
      h.objects.get? p =
        some ⟨1, .payload ⟨lease, contents⟩⟩)
    (fs : List Frame) :
    h.reclaim (.value v :: fs) =
      (h.emptied p lease contents).reclaim
        (contents.pending.map Frame.visit ++
          (v.handleFrames ++ fs)) := by
  rw [reclaim_cons]
  simp only [Heap.step, hv, take_last hGet,
    List.singleton_append]
  exact reclaim_activation _ _ _ _

/- An integer among pending items has nothing to give up. -/
theorem reclaim_visit_integer
    (hv : v.payload? = none)
    (fs : List Frame) :
    h.reclaim (Frame.visit v :: fs) = h.reclaim fs := by
  rw [Frame.visit, reclaim_cons]
  simp only [Heap.step, hv, List.singleton_append]
  rw [reclaim_activation]
  rfl

/- A pending item whose payload is shared loses its handles. -/
theorem reclaim_visit_shared
    (hv : v.payload? = some p)
    (hShared : 2 ≤ h.handles p)
    (fs : List Frame) :
    h.reclaim (Frame.visit v :: fs) =
      (h.uncount p).reclaim
        (v.code?.toList.map .handle ++ fs) := by
  have hTake : h.take p = ([], h) :=
    take_eq_of_handles (Nat.ne_of_gt hShared)
  rw [Frame.visit, reclaim_cons]
  simp only [Heap.step, hv, hTake, List.cons_append,
    List.nil_append]
  rw [reclaim_value_shared hv hShared, reclaim_append,
    reclaim_activation, List.map_nil, List.nil_append,
    Value.handleFrames, List.nil_append, reclaim_append]

/-
  A pending item that is the last value of its payload gives
  up its own handles before its nested items.
-/
theorem reclaim_visit_last
    (hv : v.payload? = some p)
    (hGet :
      h.objects.get? p =
        some ⟨1, .payload ⟨lease, contents⟩⟩)
    (fs : List Frame) :
    h.reclaim (Frame.visit v :: fs) =
      (h.free p lease).reclaim
        (v.code?.toList.map .handle ++
          (contents.pending.map Frame.visit ++ fs)) := by
  have hEmptied := get?_emptied hGet lease contents
  have hTwice :=
    get?_emptied hEmptied lease
      (contents.mapValues Value.blank)
  rw [Frame.visit, reclaim_cons]
  simp only [Heap.step, hv, take_last hGet,
    List.cons_append, List.nil_append, List.append_nil]
  rw [reclaim_value_last hv hEmptied,
    Contents.pending_blank, List.map_nil, List.nil_append,
    Value.handleFrames_eq hv, List.cons_append,
    reclaim_handle_blank hTwice, free_emptied, free_emptied,
    reclaim_append, reclaim_activation, Value.handleFrames,
    List.nil_append, ← reclaim_append]

end Heap

end LeasedHeap
