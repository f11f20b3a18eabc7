import LeasedHeap.Proofs.Release

/-
  What can be reached, and what reclaiming leaves alone.

  While counts are exact, an object is there exactly if it
  can be reached from outside: an object that nobody outside
  refers to is referred to by a newer one, and there is a
  newest.  What a frame takes apart or erases is reached by
  nobody but the frame, so all that others can reach stays
  as it is.

  Main declarations:
    * `Heap.Reaches`
    * `Heap.Exact.exists_iff_reaches`
    * `Heap.Exact.cell_step`
    * `Heap.Exact.cell_reclaim`
-/

namespace LeasedHeap

namespace Heap

variable {κ : Type}

------------------------------------------------------------
-- Reachability
------------------------------------------------------------

/-
  The objects that can be reached from some roots: through
  the elements of lists, the items of environments and
  arrays, and what codes captured.
-/
inductive Reaches
    (h : Heap κ)
    (roots : ObjectId → Prop) : ObjectId → Prop where
| root {i : ObjectId} :
    roots i → Reaches h roots i
| link {i j : ObjectId} {o : Object κ} :
    Reaches h roots i → h.objects.get? i = some o →
      j ∈ o.cell.objects → Reaches h roots j

variable {h h' : Heap κ}
variable {outer : ObjectId → Nat}
variable {roots roots' : ObjectId → Prop}

/- More can be reached from more roots. -/
theorem Reaches.mono
    {i : ObjectId}
    (hReach : h.Reaches roots i)
    (hRoots : ∀ j, roots j → roots' j) :
    h.Reaches roots' i := by
  induction hReach with
  | root hRoot => exact .root (hRoots _ hRoot)
  | link _ hGet hMem ih => exact .link ih hGet hMem

/- Paths stay where reached objects hold what they held. -/
theorem Reaches.of_cells
    {i : ObjectId}
    (hReach : h.Reaches roots i)
    (hCells :
      ∀ j o, h.Reaches roots j →
        h.objects.get? j = some o →
          ∃ o', h'.objects.get? j = some o' ∧
            o'.cell.objects = o.cell.objects) :
    h'.Reaches roots i := by
  induction hReach with
  | root hRoot => exact .root hRoot
  | link hFrom hGet hMem ih =>
      rcases hCells _ _ hFrom hGet with ⟨o', hGet', hSame⟩
      exact .link ih hGet' (hSame ▸ hMem)

/- What nobody refers to is not reached. -/
theorem not_reaches
    {p : ObjectId}
    (hInner : h.inner p = 0)
    (hRoot : ¬ roots p) :
    ¬ h.Reaches roots p := by
  intro hReach
  cases hReach with
  | root h => exact hRoot h
  | link _ hGet hMem =>
      exact
        not_mem_objects_of_inner_eq_zero hInner hGet hMem

------------------------------------------------------------
-- Being There Is Being Reached
------------------------------------------------------------

/- Something that is referred to from within has a referrer. -/
theorem exists_referrer
    {i : ObjectId}
    (hInner : 0 < h.inner i) :
    ∃ j o, h.objects.get? j = some o ∧
      i ∈ o.cell.objects := by
  rcases Table.total_pos_iff.mp hInner with
    ⟨j, o, hGet, hCount⟩
  exact ⟨j, o, hGet, List.count_pos_iff.mp hCount⟩

/- Only something outside can refer to an array. -/
theorem Exact.inner_eq_zero_of_array
    (hExact : h.Exact outer)
    {p : ObjectId}
    (hKind : h.kind? p = some .array) :
    h.inner p = 0 := by
  by_contra hNe
  rcases exists_referrer (Nat.pos_of_ne_zero hNe) with
    ⟨j, o, hGet, hMem⟩
  rcases List.mem_map.mp hMem with ⟨l, hl, rfl⟩
  have hTyped := hExact.typed j o hGet l hl
  rw [hKind] at hTyped
  exact Cell.kind_ne_array hl (Option.some.inj hTyped).symm

/- What can be reached is there. -/
theorem Exact.exists_of_reaches
    (hExact : h.Exact outer)
    {i : ObjectId}
    (hReach : h.Reaches (fun j => 0 < outer j) i) :
    ∃ o, h.objects.get? i = some o := by
  cases hReach with
  | root hRoot => exact hExact.exists_of_pos (by omega)
  | link _ hGet hMem =>
      apply hExact.exists_of_pos
      have hInner : 0 < h.inner i :=
        Table.total_pos_iff.mpr
          ⟨_, _, hGet, List.count_pos_iff.mpr hMem⟩
      omega

/-
  What is there can be reached.  The induction goes from the
  newest object down: what is not held from outside is held
  by an array, which is, or by a newer object.
-/
theorem Exact.reaches_of_exists
    (hExact : h.Exact outer)
    {i : ObjectId}
    {o : Object κ}
    (hGet : h.objects.get? i = some o) :
    h.Reaches (fun j => 0 < outer j) i := by
  induction hAge : h.objects.issued - i
    using Nat.strong_induction_on generalizing i o with
  | _ age ih =>
      by_cases hOuter : 0 < outer i
      · exact .root hOuter
      have hCounted := hExact.counted i
      rw [handles_of_get? hGet] at hCounted
      have hHeld := hExact.held i o hGet
      rcases exists_referrer (h := h) (i := i) (by omega) with
        ⟨j, referrer, hReferrer, hMem⟩
      by_cases hKind : referrer.cell.kind = .array
      · have hInner : h.inner j = 0 :=
          hExact.inner_eq_zero_of_array
            (kind?_eq_some_iff.mpr ⟨_, hReferrer, hKind⟩)
        have hCountedReferrer := hExact.counted j
        rw [handles_of_get? hReferrer] at hCountedReferrer
        have hHeldReferrer := hExact.held j _ hReferrer
        exact .link (.root (by omega)) hReferrer hMem
      · have hOlder :=
          hExact.older j referrer hReferrer hKind i hMem
        have hIssued := Table.lt_issued_of_get? hReferrer
        have hReach :=
          ih (h.objects.issued - j) (by omega) hReferrer rfl
        exact .link hReach hReferrer hMem

/- An object is there exactly if it can be reached. -/
theorem Exact.exists_iff_reaches
    (hExact : h.Exact outer)
    {i : ObjectId} :
    (∃ o, h.objects.get? i = some o) ↔
      h.Reaches (fun j => 0 < outer j) i := by
  constructor
  · rintro ⟨o, hGet⟩
    exact hExact.reaches_of_exists hGet
  · exact hExact.exists_of_reaches

------------------------------------------------------------
-- What Reclaiming Leaves Alone
------------------------------------------------------------

/-
  An object whose last handle is in a frame is reached by
  nobody else.
-/
theorem Exact.not_reaches_of_last
    {fs : List Frame}
    (hExact :
      h.Exact (fun i => outer i + Frame.mentions fs i))
    {p : ObjectId}
    (hLast : h.handles p ≤ 1)
    (hMentioned : 0 < Frame.mentions fs p) :
    ¬ h.Reaches (fun j => 0 < outer j) p := by
  have hCounted := hExact.counted p
  exact not_reaches (by omega) (by omega)

/- Taking items out changes at most a payload's own cell. -/
theorem get?_take_of_ne
    {p i : ObjectId}
    (hi : i ≠ p) :
    (h.take p).2.objects.get? i = h.objects.get? i := by
  rcases take_cases h p with
    ⟨lease, contents, _, hTake⟩ | ⟨_, hTake⟩
  · rw [hTake]
    simp [emptied, Table.get?_set, hi]
  · rw [hTake]

/- Items are taken out of a payload with one handle alone. -/
theorem take_eq_of_handles
    {p : ObjectId}
    (hHandles : h.handles p ≠ 1) :
    h.take p = ([], h) := by
  rcases take_cases h p with
    ⟨lease, contents, hGet, _⟩ | ⟨_, hTake⟩
  · rw [handles_of_get? hGet] at hHandles
    exact absurd rfl hHandles
  · exact hTake

/- What others reach keeps its cell if items are taken out. -/
theorem Exact.cell_take
    {fs : List Frame}
    (hExact :
      h.Exact (fun i => outer i + Frame.mentions fs i))
    {p i : ObjectId}
    {o : Object κ}
    (hMentioned : 0 < Frame.mentions fs p)
    (hReach : h.Reaches (fun j => 0 < outer j) i)
    (hGet : h.objects.get? i = some o) :
    (h.take p).2.objects.get? i = some o := by
  by_cases hLast : h.handles p = 1
  · have hNe : i ≠ p := by
      intro hEq
      subst hEq
      exact
        hExact.not_reaches_of_last (Nat.le_of_eq hLast)
          hMentioned hReach
    rw [get?_take_of_ne hNe, hGet]
  · rw [take_eq_of_handles hLast, hGet]

/- What others reach keeps its cell if a handle goes. -/
theorem Exact.cell_release
    {fs : List Frame}
    (hExact :
      h.Exact (fun i => outer i + Frame.mentions fs i))
    {p i : ObjectId}
    {o : Object κ}
    (hMentioned : 0 < Frame.mentions fs p)
    (hReach : h.Reaches (fun j => 0 < outer j) i)
    (hGet : h.objects.get? i = some o) :
    ∃ o', (h.release p).2.objects.get? i = some o' ∧
      o'.cell = o.cell := by
  rcases release_cases h p with
    ⟨_, hRelease⟩ | ⟨n, cell, hOld, hRelease⟩ |
      ⟨n, cell, hOld, hLast, hRelease⟩
  · rw [hRelease]
    exact ⟨o, hGet, rfl⟩
  · rw [hRelease]
    by_cases hi : i = p
    · subst hi
      rw [hOld] at hGet
      cases hGet
      refine ⟨⟨n + 1, cell⟩, ?_, rfl⟩
      simp [Table.get?_set, Table.lt_issued_of_get? hOld]
    · refine ⟨o, ?_, rfl⟩
      simp [Table.get?_set, hi, hGet]
  · have hNe : i ≠ p := by
      intro hEq
      subst hEq
      refine
        hExact.not_reaches_of_last ?_ hMentioned hReach
      rw [handles_of_get? hOld]
      exact hLast
    rw [hRelease]
    refine ⟨o, ?_, rfl⟩
    simp [Table.get?_erase, hNe, hGet]

/- The payload of a value is mentioned where the value is. -/
private theorem count_payload_pos
    {v : Value}
    {p : ObjectId}
    (hv : v.payload? = some p) :
    0 < v.objects.count p :=
  List.count_pos_iff.mpr (Value.mem_objects_of_payload? hv)

/-
  Whatever can be reached from outside keeps its cell in a
  step of reclaiming: only what the frames alone can reach
  is taken apart or erased.
-/
theorem Exact.cell_step
    {f : Frame}
    {fs : List Frame}
    (hExact :
      h.Exact
        (fun i => outer i + Frame.mentions (f :: fs) i))
    {i : ObjectId}
    {o : Object κ}
    (hReach : h.Reaches (fun j => 0 < outer j) i)
    (hGet : h.objects.get? i = some o) :
    ∃ o', (h.step f).2.objects.get? i = some o' ∧
      o'.cell = o.cell := by
  cases f with
  | value v =>
      cases hv : v.payload? with
      | none =>
          simp only [Heap.step, hv]
          exact ⟨o, hGet, rfl⟩
      | some p =>
          simp only [Heap.step, hv]
          refine ⟨o, ?_, rfl⟩
          apply hExact.cell_take _ hReach hGet
          have hPos := count_payload_pos hv
          rw [Frame.mentions_cons, Frame.objects]
          omega
  | activation v pending =>
      cases pending with
      | nil => exact ⟨o, hGet, rfl⟩
      | cons w pending =>
          cases hw : w.payload? with
          | none =>
              simp only [Heap.step, hw]
              exact ⟨o, hGet, rfl⟩
          | some p =>
              simp only [Heap.step, hw]
              refine ⟨o, ?_, rfl⟩
              apply hExact.cell_take _ hReach hGet
              have hPos := count_payload_pos hw
              rw [Frame.mentions_cons, Frame.objects,
                List.flatMap_cons, List.count_append,
                List.count_append]
              omega
  | handle p =>
      apply hExact.cell_release _ hReach hGet
      simp [Frame.objects]
  | lease l => exact ⟨o, hGet, rfl⟩

/- What can be reached from outside is still reached. -/
theorem Exact.reaches_step
    {f : Frame}
    {fs : List Frame}
    (hExact :
      h.Exact
        (fun i => outer i + Frame.mentions (f :: fs) i))
    {i : ObjectId}
    (hReach : h.Reaches (fun j => 0 < outer j) i) :
    (h.step f).2.Reaches (fun j => 0 < outer j) i := by
  apply hReach.of_cells
  intro j o hReachJ hGet
  rcases hExact.cell_step hReachJ hGet with
    ⟨o', hGet', hCell⟩
  exact ⟨o', hGet', congrArg Cell.objects hCell⟩

/- Reclaiming leaves alone what can be reached from outside. -/
theorem Exact.cell_reclaim
    {fs : List Frame}
    (hExact :
      h.Exact (fun i => outer i + Frame.mentions fs i))
    {i : ObjectId}
    {o : Object κ}
    (hReach : h.Reaches (fun j => 0 < outer j) i)
    (hGet : h.objects.get? i = some o) :
    ∃ o', (h.reclaim fs).objects.get? i = some o' ∧
      o'.cell = o.cell := by
  induction h, fs using Heap.reclaim.induct generalizing o with
  | case1 h =>
      rw [Heap.reclaim]
      exact ⟨o, hGet, rfl⟩
  | case2 h f fs next ih =>
      rw [Heap.reclaim]
      rcases hExact.cell_step hReach hGet with
        ⟨o', hGet', hCell⟩
      rcases ih hExact.step (hExact.reaches_step hReach)
          hGet' with
        ⟨o'', hGet'', hCell'⟩
      exact ⟨o'', hGet'', hCell'.trans hCell⟩

end Heap

end LeasedHeap
